import JaxFs.PrefixCode
import JaxFs.Primitives

/-!
# Reference primitives

A concrete instance of the primitives, for running the model.  It satisfies the
laws, so that these are not contradictory: blobs are their own addresses, keys
are checked by comparison, a ciphertext starts with its key, and the codecs are
prefix codes.
-/

namespace JaxFs

namespace Reference

open PrefixCode

/-! ## Codecs -/

def bytesCode : PrefixCode Bytes := byte.list

def nameCode : PrefixCode Name :=
  nat.list.via (fun name => name.map Char.toNat)
    (fun codes => some (codes.map Char.ofNat))
    (by
      intro name
      rw [List.map_map, show Char.ofNat ∘ Char.toNat = id from
        funext (fun c => Char.ofNat_toNat c), List.map_id])

def hashCode : PrefixCode Hash :=
  bytesCode.via Hash.bytes (fun bytes => some ⟨bytes⟩) Hash.some_mk_bytes

def linkCode : PrefixCode Link :=
  (nat.prod hashCode).via (fun link => (link.codec, link.hash))
    (fun p => some ⟨p.1, p.2⟩) (fun _ => rfl)

def publicKeyCode : PrefixCode PublicKey :=
  bytesCode.via PublicKey.bytes (fun bytes => some ⟨bytes⟩) (fun _ => rfl)

def secretCode : PrefixCode Secret :=
  bytesCode.via Secret.bytes (fun bytes => some ⟨bytes⟩) (fun _ => rfl)

def secretShareCode : PrefixCode SecretShare :=
  bytesCode.via SecretShare.bytes (fun bytes => some ⟨bytes⟩) (fun _ => rfl)

def signatureCode : PrefixCode Signature :=
  bytesCode.via Signature.bytes (fun bytes => some ⟨bytes⟩) (fun _ => rfl)

def componentCode : PrefixCode Component :=
  (nat.prod nameCode).via
    (fun
      | .rootDir => (0, [])
      | .curDir => (1, [])
      | .parentDir => (2, [])
      | .normal name => (3, name))
    (fun
      | (0, _) => some .rootDir
      | (1, _) => some .curDir
      | (2, _) => some .parentDir
      | (_, name) => some (.normal name))
    (by
      intro component
      cases component <;> rfl)

def pathCode : PrefixCode Path := componentCode.list

def nodeLinkCode : PrefixCode NodeLink :=
  (bool.prod (linkCode.prod (secretCode.prod nameCode.option))).via
    (fun
      | .dir link secret => (true, link, secret, none)
      | .data link secret mime => (false, link, secret, mime))
    (fun
      | (true, link, secret, _) => some (.dir link secret)
      | (false, link, secret, mime) => some (.data link secret mime))
    (by
      intro link
      cases link <;> rfl)

def nodeCode : PrefixCode Node :=
  (keyedMap (nameCode.prod nodeLinkCode)).via Node.links (fun links => some ⟨links⟩)
    (fun _ => rfl)

def shareCode : PrefixCode Share :=
  (bool.prod (publicKeyCode.prod secretShareCode.option)).via
    (fun share =>
      (decide (share.principal.role = .owner), share.principal.identity, share.share))
    (fun p => some ⟨⟨if p.1 then .owner else .mirror, p.2.1⟩, p.2.2⟩)
    (by
      rintro ⟨⟨role, identity⟩, share⟩
      cases role <;> rfl)

def manifestCode : PrefixCode Manifest :=
  (nat.prod (nameCode.prod (nat.prod (nameCode.prod
    ((keyedMap (nameCode.prod shareCode)).prod (linkCode.prod (linkCode.prod
      (linkCode.option.prod (linkCode.option.prod (secretCode.option.prod
        (publicKeyCode.option.prod signatureCode.option))))))))))).via
    (fun m => (m.id.value, m.name, m.height, m.version, m.shares, m.entry, m.pins,
      m.previous, m.opsLog, m.public, m.author, m.signature))
    (fun ⟨id, name, height, version, shares, entry, pins, previous, opsLog, secret,
        author, signature⟩ =>
      some ⟨⟨id⟩, name, height, version, shares, entry, pins, previous, opsLog, secret,
        author, signature⟩)
    (fun _ => rfl)

def opTypeCode : PrefixCode OpType :=
  (nat.prod pathCode).via
    (fun
      | .add => (0, [])
      | .remove => (1, [])
      | .mkdir => (2, [])
      | .mv source => (3, source))
    (fun
      | (0, _) => some .add
      | (1, _) => some .remove
      | (2, _) => some .mkdir
      | (_, source) => some (.mv source))
    (by
      intro opType
      cases opType <;> rfl)

def operationCode : PrefixCode PathOperation :=
  (nat.prod (publicKeyCode.prod (opTypeCode.prod (pathCode.prod
    (linkCode.option.prod bool))))).via
    (fun op => (op.id.timestamp, op.id.peerId, op.opType, op.path, op.contentLink,
      op.isDir))
    (fun ⟨timestamp, peerId, opType, path, contentLink, isDir⟩ =>
      some ⟨⟨timestamp, peerId⟩, opType, path, contentLink, isDir⟩)
    (fun _ => rfl)

def operationsCode : PrefixCode (KeyedMap PathOperation.id) := keyedMap operationCode

/-! ## The instance -/

/-- The bytes after a prefix, when it is one. -/
def stripBytes (start bytes : Bytes) : Option Bytes :=
  if start.isPrefixOf bytes then some (bytes.drop start.length) else none

theorem stripBytes_append (start bytes : Bytes) :
    stripBytes start (start ++ bytes) = some bytes := by
  simp [stripBytes, List.isPrefixOf_iff_prefix]

/-- The bytes filled up to a multiple of the digest size, reversibly. -/
def padded (data : Bytes) : Bytes :=
  data ++ 1 :: List.replicate (31 - data.length % 32) 0

def unpadded (data : Bytes) : Bytes :=
  (data.reverse.dropWhile (fun byte => decide (byte = 0))).tail.reverse

theorem unpadded_padded (data : Bytes) : unpadded (padded data) = data := by
  unfold unpadded padded
  rw [List.reverse_append, List.reverse_cons, List.reverse_replicate, List.append_assoc,
    List.dropWhile_append_of_pos (by simp)]
  simp

def checksum (message : Bytes) : Fin 256 := message.foldl (fun sum byte => sum + byte) 0

instance primitives : Primitives where
  hash data := ⟨padded data⟩
  blake3 _ := List.replicate 32 0
  random draw size := List.replicate size (Fin.ofNat 256 (min draw 255))
  aeadEncrypt secret _ data := bytesCode.encode secret.bytes ++ data
  aeadDecrypt secret _ data := stripBytes (bytesCode.encode secret.bytes) data
  publicKey key := ⟨key.bytes⟩
  isPoint _ := true
  sign key message := ⟨checksum message :: key.bytes⟩
  verify key message signature := signature.bytes = checksum message :: key.bytes
  newSecretShare _ secret recipient :=
    some ⟨bytesCode.encode recipient.bytes ++ secret.bytes⟩
  recover share key :=
    (stripBytes (bytesCode.encode key.bytes) share.bytes).map Secret.mk
  encodeNode := nodeCode.encode
  decodeNode := nodeCode.decodeAll
  encodeManifest := manifestCode.encode
  decodeManifest := manifestCode.decodeAll
  encodeOperations := operationsCode.encode
  decodeOperations := operationsCode.decodeAll
  mimeFromPath _ := none

instance : LawfulPrimitives where
  hash_injective := fun _ _ h =>
    Function.LeftInverse.injective unpadded_padded (Hash.mk.inj h)
  length_blake3 := fun _ => List.length_replicate
  length_random := fun _ _ => List.length_replicate
  aeadDecrypt_aeadEncrypt := fun _ _ _ => stripBytes_append _ _
  isSome_newSecretShare := fun _ _ _ _ => rfl
  recover_newSecretShare := by
    intro entropy secret key share hshare
    cases hshare
    have hstrip := stripBytes_append (bytesCode.encode key.bytes) secret.bytes
    change (stripBytes (bytesCode.encode key.bytes)
      (bytesCode.encode key.bytes ++ secret.bytes)).map Secret.mk = some secret
    rw [hstrip]
    rfl
  isPoint_newSecretShare := fun _ _ _ _ _ => rfl
  decode_encodeNode := nodeCode.decodeAll_encode
  decode_encodeManifest := manifestCode.decodeAll_encode
  decode_encodeOperations := operationsCode.decodeAll_encode

/-- A hash whose first byte was drawn earlier is not that of a blob encrypted under
a later nonce. -/
theorem hash_ne_of_head {hash : Hash} {first : Fin 256}
    (hhead : hash.bytes.head? = some first) {draw : ℕ} (hdraw : first.val < min draw 255)
    (secret : Secret) (data : Bytes) :
    hash ≠ primitives.hash
      (Secret.encrypt secret (primitives.random draw nonceSize) data) := by
  intro heq
  rw [heq] at hhead
  have hfirst : Fin.ofNat 256 (min draw 255) = first := Option.some.inj hhead
  rw [← hfirst] at hdraw
  simp only [Fin.ofNat] at hdraw
  omega

def emptyWorld : World := ⟨fun _ => none, 0, by simp⟩

def alice : SecretKey := ⟨[1]⟩

def bob : SecretKey := ⟨[2]⟩

def manifestLink (manifest : Manifest) : Link :=
  ⟨ldCborCodec, primitives.hash (manifestCode.encode manifest)⟩

def genesis : Manifest :=
  (Manifest.new ⟨7⟩ "docs".toList (primitives.publicKey alice) ⟨[]⟩ Link.default
    Link.default 0).sign alice

end Reference

end JaxFs
