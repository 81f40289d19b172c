import JaxFs.Primitives

/-!
# The tree of a mount

The part of `mount/mount_inner.rs` that reads and rewrites the encrypted tree.
Reads are functions of the blob store; `setNodeLinkAtPath` first visits the nodes
on the way to a path and then writes them back from the leaf to the root.  The two
walks treat what they meet differently: a read follows every link that decodes to
a node, a write only directory links.
-/

namespace JaxFs

def cleanPath (path : Path) : Except Fault Path :=
  if path.isAbsolute then .ok path.tail else .error .panic

/-- `path.parent()` with `path.file_name().unwrap()`. -/
def parentAndName (path : Path) : Except Fault (Option (Path × Name)) :=
  match path.parent with
  | none => .ok none
  | some parent =>
      match path.fileName with
      | some name => .ok (some (parent, name))
      | none => .error .panic

section

variable [P : Primitives]

/-! ## Reading -/

def getNodeFromBlobs (blobs : Blobs) (nodeLink : NodeLink) : Except Fault Node :=
  match blobs nodeLink.link.hash with
  | none => .error (.error (.linkNotFound nodeLink.link))
  | some blob =>
      match nodeLink.secret.decrypt blob with
      | none => .error (.error .secret)
      | some data =>
          match P.decodeNode data with
          | none => .error (.error .codec)
          | some node => .ok node

/-- The loop of `_get_node_at_path`, with the path consumed so far. -/
def getNodeAtPathFrom (blobs : Blobs) : Path → Node → Path → Except Fault Node
  | _, node, [] => .ok node
  | consumed, node, part :: rest =>
      match node.getLink part.toName with
      | none => .error (.error (.pathNotFound (consumed ++ [part])))
      | some nextLink =>
          match getNodeFromBlobs blobs nextLink with
          | .error fault => .error fault
          | .ok next => getNodeAtPathFrom blobs (consumed ++ [part]) next rest

def getNodeAtPath (blobs : Blobs) (node : Node) (path : Path) : Except Fault Node :=
  getNodeAtPathFrom blobs [.rootDir] node path

def getParentNode (blobs : Blobs) (entry : Node) (parentPath : Path) :
    Except Fault Node :=
  if parentPath = [] then .ok entry else getNodeAtPath blobs entry parentPath

def get (blobs : Blobs) (entry : Node) (path : Path) : Except Fault NodeLink := do
  let path ← cleanPath path
  match ← parentAndName path with
  | none => throw (.error (.pathNotFound path))
  | some (parentPath, fileName) =>
      let parentNode ← getParentNode blobs entry parentPath
      match parentNode.getLink fileName with
      | some link => pure link
      | none => throw (.error (.pathNotFound path))

def cat (blobs : Blobs) (entry : Node) (path : Path) : Except Fault Bytes := do
  let path ← cleanPath path
  match ← parentAndName path with
  | none => throw (.error (.pathNotFound path))
  | some (parentPath, fileName) =>
      let parentNode ← getParentNode blobs entry parentPath
      match parentNode.getLink fileName with
      | none => throw (.error (.pathNotFound path))
      | some (.dir _ _) => throw (.error (.pathNotNode path))
      | some (.data link secret _) =>
          match blobs link.hash with
          | none => throw (.error .blobsStore)
          | some encryptedData =>
              match secret.decrypt encryptedData with
              | none => throw (.error .secret)
              | some data => pure data

/-- `ls`: a missing blob on the way is reported as a path that is no node.  Names are single
components here, as the operations make them. -/
def ls (blobs : Blobs) (entry : Node) (path : Path) :
    Except Fault (FinMap Path NodeLink) := do
  let path ← cleanPath path
  let node ←
    if path = [] then pure entry
    else
      match getNodeAtPath blobs entry path with
      | .error (.error (.linkNotFound _)) => throw (.error (.pathNotNode path))
      | result => result
  pure (node.links.toList.foldl
    (fun items item => items.put (path ++ [.normal item.1]) item.2) KeyedMap.empty)

/-! ## Writing -/

/-- The nodes below `node` on the way along the path, with the paths they are at.
A missing node is an empty one to be created. -/
def visitNodes (blobs : Blobs) : Path → Node → Path → Except Fault (List (Path × Node))
  | _, _, [] => .ok []
  | consumed, node, part :: rest =>
      match node.getLink part.toName with
      | some (.data _ _ _) => .error (.error (.pathNotNode (consumed ++ [part])))
      | some (.dir link secret) =>
          match getNodeFromBlobs blobs (.dir link secret) with
          | .error fault => .error fault
          | .ok next =>
              match visitNodes blobs (consumed ++ [part]) next rest with
              | .error fault => .error fault
              | .ok visited => .ok ((consumed ++ [part], next) :: visited)
      | none =>
          match visitNodes blobs (consumed ++ [part]) Node.default rest with
          | .error fault => .error fault
          | .ok visited => .ok ((consumed ++ [part], Node.default) :: visited)

def putNodeInBlobs (node : Node) (secret : Secret) : BlobM Link := do
  let data ← encryptData secret (P.encodeNode node)
  let hash ← put data
  pure ⟨ldRawCodec, hash⟩

/-- The write-back loop over the visited nodes, last one first. -/
def writeNodes : List (Path × Node) → Name → NodeLink → BlobM (NodeLink × List Hash)
  | [], _, nodeLink => pure (nodeLink, [])
  | (path, node) :: rest, name, nodeLink => do
      let secret ← generateSecret
      let link ← putNodeInBlobs (node.insert name nodeLink) secret
      let (rootLink, createdHashes) ←
        writeNodes rest (path.fileName.getD []) (.dir link secret)
      pure (rootLink, link.hash :: createdHashes)

def setNodeLinkAtPath (node : Node) (nodeLink : NodeLink) (path : Path) :
    BlobM (NodeLink × List Hash) := do
  let path ← EStateM.ofExcept (cleanPath path)
  match path.fileName with
  | none => throw .panic
  | some name =>
      let world ← getThe World
      let visited ←
        EStateM.ofExcept (visitNodes world.blobs [.rootDir] node (path.parent.getD []))
      writeNodes (([.rootDir], node) :: visited).reverse name nodeLink

end

end JaxFs
