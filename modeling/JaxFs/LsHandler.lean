import JaxFs.Gateway
import JaxFs.SubtreeListing

/-!
# The `ls` endpoint

`http_server/api/v0/bucket/ls.rs` and `Peer::mount_for_read`.  The handler puts a slash in
front of what the mount lists.  `ls` lists paths from the root and `ls_deep` paths from the
directory, so the paths of a deep listing lead back to the items only from the root.
-/

namespace JaxFs

section

variable [P : Primitives]

end

/-! ## The strings of the response -/

section

variable [P : Primitives] {blobs : Blobs} {entry node : Node} {names rest : List Name}
  {link : NodeLink}

variable {peer : PeerState LogTable} {env : PeerEnv} {request : LsRequest} {inner : MountInner}

end

namespace Reference

end Reference

end JaxFs
