import JaxFs.Manifest
import JaxFs.Node
import JaxFs.PathOps
import JaxFs.PrefixCode
import JaxFs.Program

/-!
# Primitives and the blob store

`Primitives` collects what the crate takes from elsewhere: BLAKE3, the system's
random generator, ChaCha20-Poly1305, Ed25519, the key wrapping behind
`SecretShare`, the DAG-CBOR codecs and the MIME table.  `LawfulPrimitives` states
what the code relies on.  BLAKE3 appears twice.  As the address of a blob it is
`hash`, taken to be free of collisions, and its digests have no fixed length so
that this is not a contradiction; as the header inside a ciphertext it is
`blake3`, of which only the length matters.

The blob store maps hashes to bytes and accepts every put; a read of a missing
blob fails.  A world carries the proof that its blobs are filed under their
hashes.  Randomness is the stream of draws that follow the world's counter.
-/

namespace JaxFs

class Primitives where
  hash : Bytes → Hash
  blake3 : Bytes → Bytes
  /-- The `n`-th draw of the generator, of the given size. -/
  random : ℕ → ℕ → Bytes
  aeadEncrypt : Secret → Bytes → Bytes → Bytes
  aeadDecrypt : Secret → Bytes → Bytes → Option Bytes
  publicKey : SecretKey → PublicKey
  /-- Whether 32 bytes are a point of the curve. -/
  isPoint : Bytes → Bool
  sign : SecretKey → Bytes → Signature
  verify : PublicKey → Bytes → Signature → Bool
  /-- `SecretShare::new`, with the randomness of its ephemeral key. -/
  newSecretShare : Bytes → Secret → PublicKey → Option SecretShare
  /-- `SecretShare::recover`, once the ephemeral key has been read. -/
  recover : SecretShare → SecretKey → Option Secret
  encodeNode : Node → Bytes
  decodeNode : Bytes → Option Node
  encodeManifest : Manifest → Bytes
  decodeManifest : Bytes → Option Manifest
  /-- The clock of an operation log is not serialised. -/
  encodeOperations : KeyedMap PathOperation.id → Bytes
  decodeOperations : Bytes → Option (KeyedMap PathOperation.id)
  mimeFromPath : Path → Option Name

def nonceSize : ℕ := 12

def secretSize : ℕ := 32

def blake3HashSize : ℕ := 32

def publicKeySize : ℕ := 32

class LawfulPrimitives [P : Primitives] : Prop where
  hash_injective : Function.Injective P.hash
  length_blake3 : ∀ data, (P.blake3 data).length = blake3HashSize
  length_random : ∀ draw size, (P.random draw size).length = size
  aeadDecrypt_aeadEncrypt : ∀ secret nonce data,
    P.aeadDecrypt secret nonce (P.aeadEncrypt secret nonce data) = some data
  isSome_newSecretShare : ∀ entropy secret key, secret.bytes.length = secretSize →
    (P.newSecretShare entropy secret key).isSome = P.isPoint key.bytes
  recover_newSecretShare : ∀ entropy secret key share,
    P.newSecretShare entropy secret (P.publicKey key) = some share →
      P.recover share key = some secret
  /-- A share begins with the public key of an ephemeral pair. -/
  isPoint_newSecretShare : ∀ entropy secret key share,
    P.newSecretShare entropy secret key = some share →
      P.isPoint (share.bytes.take publicKeySize) = true
  decode_encodeNode : ∀ node, P.decodeNode (P.encodeNode node) = some node
  decode_encodeManifest : ∀ manifest,
    P.decodeManifest (P.encodeManifest manifest) = some manifest
  decode_encodeOperations : ∀ operations,
    P.decodeOperations (P.encodeOperations operations) = some operations

section

variable [P : Primitives]

/-! ## Content encryption -/

/-- `Secret::encrypt`, with the nonce drawn for it. -/
def Secret.encrypt (secret : Secret) (nonce data : Bytes) : Bytes :=
  nonce ++ P.aeadEncrypt secret nonce (P.blake3 data ++ data)

def Secret.decrypt (secret : Secret) (data : Bytes) : Option Bytes :=
  if data.length < nonceSize then none
  else
    match P.aeadDecrypt secret (data.take nonceSize) (data.drop nonceSize) with
    | none => none
    | some decrypted =>
        if decrypted.length < blake3HashSize then none
        else
          let plaintext := decrypted.drop blake3HashSize
          if decrypted.take blake3HashSize ≠ P.blake3 plaintext then none
          else some plaintext

theorem Secret.decrypt_encrypt [LawfulPrimitives] (secret : Secret)
    {nonce : Bytes} (hnonce : nonce.length = nonceSize) (data : Bytes) :
    secret.decrypt (secret.encrypt nonce data) = some data := by
  have hdigest := LawfulPrimitives.length_blake3 data
  have hlong : ¬ (secret.encrypt nonce data).length < nonceSize := by
    simp [Secret.encrypt, hnonce]
  have htake : (secret.encrypt nonce data).take nonceSize = nonce :=
    List.take_left' hnonce
  have hdrop : (secret.encrypt nonce data).drop nonceSize =
      P.aeadEncrypt secret nonce (P.blake3 data ++ data) :=
    List.drop_left' hnonce
  unfold Secret.decrypt
  rw [if_neg hlong, htake, hdrop, LawfulPrimitives.aeadDecrypt_aeadEncrypt]
  simp [hdigest, List.take_left' hdigest, List.drop_left' hdigest]

/-! ## Signatures -/

def Manifest.signableBytes (manifest : Manifest) : Bytes :=
  P.encodeManifest { manifest with signature := none }

def Manifest.sign (manifest : Manifest) (secretKey : SecretKey) : Manifest :=
  let unsigned :=
    { manifest with author := some (P.publicKey secretKey), signature := none }
  { unsigned with signature := some (P.sign secretKey unsigned.signableBytes) }

/-- `verify_signature`: `ok false` when unsigned, an error when the check fails. -/
def Manifest.verifySignature (manifest : Manifest) : Except Unit Bool :=
  match manifest.author, manifest.signature with
  | some author, some signature =>
      if P.verify author manifest.signableBytes signature then .ok true
      else .error ()
  | _, _ => .ok false

end

/-! ## The store and the generator -/

abbrev Blobs := Hash → Option Bytes

structure World [P : Primitives] where
  blobs : Blobs
  rng : ℕ
  addressed : ∀ hash data, blobs hash = some data → P.hash data = hash

/-- A blob stored under its hash. -/
def World.store [P : Primitives] (world : World) (data : Bytes) : World where
  blobs := Function.update world.blobs (P.hash data) (some data)
  rng := world.rng
  addressed := by
    intro hash found hfound
    by_cases heq : hash = P.hash data
    · rw [heq, Function.update_self] at hfound
      cases hfound
      exact heq.symm
    · rw [Function.update_of_ne heq] at hfound
      exact world.addressed hash found hfound

@[simp] theorem World.blobs_store [P : Primitives] (world : World) (data : Bytes) :
    (world.store data).blobs =
      Function.update world.blobs (P.hash data) (some data) := rfl

/-- What a mount operation can fail with, `MountError` of the source. -/
inductive MountError where
  | default (message : String)
  | linkNotFound (link : Link)
  | pathNotFound (path : Path)
  | pathNotNode (path : Path)
  | pathAlreadyExists (path : Path)
  | moveIntoSelf (source target : Path)
  | blobsStore
  | secret
  | codec
  | share
  | shareNotFound
  | mirrorCannotMount
  deriving DecidableEq

/-- An error that is returned, a panic, or an unbounded walk that ran out of the
fuel it has in the model. -/
inductive Fault where
  | error (error : MountError)
  | panic
  | outOfFuel
  deriving DecidableEq

section

variable [P : Primitives]

/-! ## Keys -/

/-- `From<[u8; 32]>`.  Bytes that are no point of the curve panic. -/
def PublicKey.ofBytes (bytes : Bytes) : Except Fault PublicKey :=
  if P.isPoint bytes then .ok ⟨bytes⟩ else .error .panic

/-- `TryFrom<&[u8]>`: only the length is checked here. -/
def PublicKey.tryFrom (bytes : Bytes) : Except Fault PublicKey :=
  if bytes.length ≠ publicKeySize then
    .error (.error (.default ("invalid public key size, expected " ++ toString publicKeySize ++
      ", got " ++ toString bytes.length)))
  else PublicKey.ofBytes bytes

/-- `SecretShare::recover`.  The first 32 of the 72 bytes of a share are of the right
length for a key. -/
def SecretShare.recover (share : SecretShare) (recipientSecret : SecretKey) :
    Except Fault Secret :=
  match PublicKey.ofBytes (share.bytes.take publicKeySize) with
  | .error fault => .error fault
  | .ok _ =>
      match P.recover share recipientSecret with
      | none => .error (.error .share)
      | some secret => .ok secret

theorem SecretShare.recover_newSecretShare [LawfulPrimitives] {entropy : Bytes}
    {secret : Secret} {key : SecretKey} {share : SecretShare}
    (h : P.newSecretShare entropy secret (P.publicKey key) = some share) :
    share.recover key = .ok secret := by
  unfold SecretShare.recover PublicKey.ofBytes
  rw [if_pos (LawfulPrimitives.isPoint_newSecretShare _ _ _ _ h)]
  dsimp only
  rw [LawfulPrimitives.recover_newSecretShare _ _ _ _ h]

/-! ## Operations of the store -/

abbrev BlobM := EStateM Fault World

def put (data : Bytes) : BlobM Hash := fun world =>
  .ok (P.hash data) (world.store data)

def getrandom (size : ℕ) : BlobM Bytes := fun world =>
  .ok (P.random world.rng size) { world with rng := world.rng + 1 }

def generateSecret : BlobM Secret := do
  let buff ← getrandom secretSize
  pure ⟨buff⟩

def encryptData (secret : Secret) (data : Bytes) : BlobM Bytes := do
  let nonce ← getrandom nonceSize
  pure (secret.encrypt nonce data)

def newSecretShare (secret : Secret) (recipient : PublicKey) : BlobM SecretShare := do
  let entropy ← getrandom secretSize
  match P.newSecretShare entropy secret recipient with
  | some share => pure share
  | none => throw (.error .share)

/-- The format of a hash list.  The source concatenates digests of 32 bytes; without a
fixed length, each digest is framed. -/
def hashListCode : PrefixCode (List Hash) :=
  (PrefixCode.byte.list.via Hash.bytes (fun bytes => some ⟨bytes⟩) Hash.some_mk_bytes).list

def createHashList (hashes : List Hash) : BlobM Hash :=
  put (hashListCode.encode hashes)

def readHashList (blobs : Blobs) (listHash : Hash) : Except Fault (List Hash) :=
  match blobs listHash with
  | none => .error (.error .blobsStore)
  | some data =>
      match hashListCode.decodeAll data with
      | none => .error (.error .blobsStore)
      | some hashes => .ok hashes

end

end JaxFs
