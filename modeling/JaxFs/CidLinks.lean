import JaxFs.Primitives

/-!
# Links as they are decoded

`linked_data/link.rs` with the CID in full.  A `Link` wraps a CID, and its derived decoder
takes whatever CID it reads; only the conversion from a CID asks for BLAKE3 and a known
codec, and neither asks for the length of the digest, which the hash of a link needs.  The
records below are the decoded forms of those of the other modules, where a link is a codec
and a hash.
-/

namespace JaxFs

/-! ## CIDs -/

/-- A multihash of at most 64 bytes, with the code of its hash function. -/
structure Multihash where
  code : ℕ
  digest : Bytes
  code_lt : code < 2 ^ 64
  length_le : digest.length ≤ 64
  deriving DecidableEq

inductive CidVersion where
  | v0
  | v1
  deriving DecidableEq

/-- A CID of version zero is always SHA2-256 of DAG-PB. -/
structure Cid where
  version : CidVersion
  codec : ℕ
  hash : Multihash
  codec_lt : codec < 2 ^ 64
  ofV0 : version = .v0 → codec = 0x70 ∧ hash.code = 0x12 ∧ hash.digest.length = 32
  deriving DecidableEq

def blake3HashCode : ℕ := 0x1e

namespace Wire

/-- `linked_data::Link`. -/
structure Link where
  cid : Cid
  deriving DecidableEq

namespace Link

/-- The digest is copied into 32 bytes, which panics when it has another length. -/
def hash (link : Link) : Except Fault Hash :=
  if link.cid.hash.digest.length = 32 then .ok ⟨link.cid.hash.digest⟩ else .error .panic

def codec (link : Link) : ℕ := link.cid.codec

/-- `Link::new`, of a hash that has its 32 bytes. -/
def new (codec : ℕ) (hash : Hash) (hcodec : codec < 2 ^ 64) (hhash : hash.bytes.length = 32) :
    Link where
  cid :=
    { version := .v1
      codec := codec
      hash := ⟨blake3HashCode, hash.bytes, by decide, by rw [hhash]; decide⟩
      codec_lt := hcodec
      ofV0 := nofun }

/-- A BLAKE3 hash of 32 bytes, of raw data or of DAG-CBOR. -/
def WellFormed (link : Link) : Prop :=
  link.cid.hash.code = blake3HashCode ∧ link.cid.hash.digest.length = 32 ∧
    (link.codec = ldRawCodec ∨ link.codec = ldCborCodec)

instance (link : Link) : Decidable link.WellFormed :=
  inferInstanceAs (Decidable (_ ∧ _ ∧ (_ ∨ _)))

/-- The well-formed links are those that the crate makes itself. -/
theorem wellFormed_iff_exists_new {link : Link} :
    link.WellFormed ↔ ∃ codec hash hcodec hhash, (codec = ldRawCodec ∨ codec = ldCborCodec) ∧
      link = new codec hash hcodec hhash := by
  constructor
  · rintro ⟨hcode, hlength, hcodec⟩
    refine ⟨link.codec, ⟨link.cid.hash.digest⟩, link.cid.codec_lt, hlength, hcodec, ?_⟩
    obtain ⟨⟨version, codec, ⟨code, digest, _, _⟩, _, hv0⟩⟩ := link
    cases version with
    | v0 =>
        -- a CID of version zero has another hash function
        obtain ⟨-, hsha, -⟩ := hv0 rfl
        rw [hsha] at hcode
        exact absurd hcode (by decide)
    | v1 =>
        dsimp only at hcode
        subst hcode
        rfl
  · rintro ⟨codec, hash, hcodec, hhash, hknown, rfl⟩
    exact ⟨rfl, hhash, hknown⟩

end Link

/-! ## Decoded values -/

/-- `PingMessage`. -/
structure PingMessage where
  bucketId : Uuid
  link : Link
  height : ℕ
  deriving DecidableEq

structure Manifest where
  id : Uuid
  name : Name
  height : ℕ
  version : Name
  shares : Shares
  entry : Link
  pins : Link
  previous : Option Link
  opsLog : Option Link
  «public» : Option Secret
  author : Option PublicKey
  signature : Option Signature
  deriving DecidableEq

inductive NodeLink where
  | data (link : Link) (secret : Secret) (mime : Option Name)
  | dir (link : Link) (secret : Secret)
  deriving DecidableEq

def NodeLink.link : NodeLink → Link
  | .data link _ _ => link
  | .dir link _ => link

structure Node where
  links : FinMap Name NodeLink
  deriving DecidableEq

structure PathOperation where
  id : OpId
  opType : OpType
  path : Path
  contentLink : Option Link
  isDir : Bool
  deriving DecidableEq

/-- The clock is not part of what is decoded. -/
structure PathOpLog where
  operations : KeyedMap PathOperation.id
  deriving DecidableEq

/-- What a peer sends, or what a blob holds. -/
inductive Decoded where
  | pingMessage (message : PingMessage)
  | manifest (manifest : Manifest)
  | node (node : Node)
  | pathOpLog (log : PathOpLog)

/-- Every link in a decoded value. -/
def Decoded.links : Decoded → List Link
  | .pingMessage message => [message.link]
  | .manifest root => root.entry :: root.pins :: (root.previous.toList ++ root.opsLog.toList)
  | .node directory => directory.links.toList.map (fun entry => entry.2.link)
  | .pathOpLog log => log.operations.toList.filterMap PathOperation.contentLink

/-- The decoders that are derived for the four types: bincode for a message, DAG-CBOR for
what is stored. -/
structure Decoders where
  pingMessage : Bytes → Option PingMessage
  manifest : Bytes → Option Manifest
  node : Bytes → Option Node
  pathOpLog : Bytes → Option PathOpLog

/-- The bytes decode to the value as one of the four types. -/
def Decoders.DecodesTo (decoders : Decoders) (data : Bytes) : Decoded → Prop
  | .pingMessage message => decoders.pingMessage data = some message
  | .manifest manifest => decoders.manifest data = some manifest
  | .node node => decoders.node data = some node
  | .pathOpLog log => decoders.pathOpLog data = some log

/-- Every value of the types has an encoding. -/
def Decoders.Onto (decoders : Decoders) : Prop :=
  ∀ decoded, ∃ data, decoders.DecodesTo data decoded

/-- The derived decoders let every CID in, also those at which the conversion panics. -/
theorem Decoders.Onto.exists_link {decoders : Decoders} (h : decoders.Onto) (cid : Cid) :
    ∃ data decoded, decoders.DecodesTo data decoded ∧ ⟨cid⟩ ∈ decoded.links := by
  obtain ⟨data, hdata⟩ := h (.pingMessage ⟨⟨0⟩, ⟨cid⟩, 0⟩)
  exact ⟨data, _, hdata, List.mem_singleton.mpr rfl⟩

end Wire

end JaxFs
