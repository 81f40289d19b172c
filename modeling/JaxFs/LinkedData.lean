import JaxFs.PrefixCode
import Mathlib.Data.Char
import Mathlib.Data.List.Lex
import Mathlib.Data.Prod.Lex
import Mathlib.Order.Fin.Basic
import Mathlib.Tactic

/-!
# Hashes, links and keys

The identifiers of the crate.  A `Hash` is a BLAKE3 digest and a `Link` a CID
over one, both ordered by their bytes as the derived `Ord` instances are; the
keys are the 32-byte strings of `crypto::keys`.  The model does not fix the
length of a digest, so that a collision-free hash function is not a
contradiction.
-/

namespace JaxFs

/-- `Vec<u8>`. -/
abbrev Bytes := List (Fin 256)

/-- A Rust `String`, as the list of its characters. -/
abbrev Name := List Char

def hexDigit (digit : ℕ) : Char :=
  if digit < 10 then Char.ofNat (48 + digit) else Char.ofNat (87 + digit)

/-- `hex::encode`: two lower-case digits a byte. -/
def hexEncode (bytes : Bytes) : Name :=
  bytes.flatMap (fun byte => [hexDigit (byte.val / 16), hexDigit (byte.val % 16)])

def hexValue (digit : Char) : Option ℕ :=
  if '0' ≤ digit ∧ digit ≤ '9' then some (digit.toNat - 48)
  else if 'a' ≤ digit ∧ digit ≤ 'f' then some (digit.toNat - 87)
  else if 'A' ≤ digit ∧ digit ≤ 'F' then some (digit.toNat - 55)
  else none

/-- `hex::decode`, on digits of either case. -/
def hexDecode : Name → Option Bytes
  | [] => some []
  | [_] => none
  | high :: low :: rest =>
      match hexValue high, hexValue low, hexDecode rest with
      | some high, some low, some bytes => some (Fin.ofNat 256 (16 * high + low) :: bytes)
      | _, _, _ => none

/-- `iroh_blobs::Hash`. -/
structure Hash where
  bytes : Bytes
  deriving DecidableEq

instance : LinearOrder Hash :=
  LinearOrder.lift' Hash.bytes (fun a b h => by
    cases a
    cases b
    exact congrArg Hash.mk h)

theorem Hash.some_mk_bytes (hash : Hash) : some (Hash.mk hash.bytes) = some hash := rfl

/-- `Display` of a hash, its hexadecimal form. -/
def Hash.toName (hash : Hash) : Name := hexEncode hash.bytes

/-- `linked_data::Link`: a CID of version one, that is a codec and a hash. -/
structure Link where
  codec : ℕ
  hash : Hash
  deriving DecidableEq

instance : LinearOrder Link :=
  LinearOrder.lift' (fun link => toLex (link.codec, link.hash)) (fun a b h => by
    cases a
    cases b
    simpa using h)

def ldRawCodec : ℕ := 0x55

def ldCborCodec : ℕ := 0x71

/-- `Link::default`, a raw link to the all-zero hash. -/
def Link.default : Link := ⟨ldRawCodec, ⟨List.replicate 32 0⟩⟩

/-- `crypto::PublicKey`, compared by its bytes. -/
structure PublicKey where
  bytes : Bytes
  deriving DecidableEq

instance : LinearOrder PublicKey :=
  LinearOrder.lift' PublicKey.bytes (fun a b h => by
    cases a
    cases b
    exact congrArg PublicKey.mk h)

def PublicKey.toHex (key : PublicKey) : Name := hexEncode key.bytes

theorem hexDigit_injective {a b : Fin 16} (h : hexDigit a.val = hexDigit b.val) : a = b := by
  revert a b
  decide

theorem hexEncode_injective : Function.Injective hexEncode := by
  intro bytes bytes' h
  induction bytes generalizing bytes' with
  | nil =>
      cases bytes' with
      | nil => rfl
      | cons byte rest => simp [hexEncode] at h
  | cons byte rest ih =>
      cases bytes' with
      | nil => simp [hexEncode] at h
      | cons byte' rest' =>
          simp only [hexEncode, List.flatMap_cons, List.cons_append, List.nil_append,
            List.cons.injEq] at h
          obtain ⟨hhigh, hlow, hrest⟩ := h
          have hquotient := hexDigit_injective (a := ⟨byte.val / 16, by omega⟩)
            (b := ⟨byte'.val / 16, by omega⟩) hhigh
          have hremainder := hexDigit_injective (a := ⟨byte.val % 16, by omega⟩)
            (b := ⟨byte'.val % 16, by omega⟩) hlow
          simp only [Fin.mk.injEq] at hquotient hremainder
          have hbyte : byte = byte' := by omega
          rw [hbyte, ih hrest]

theorem PublicKey.toHex_injective : Function.Injective PublicKey.toHex := by
  intro key key' h
  have hbytes := hexEncode_injective h
  cases key
  cases key'
  exact congrArg PublicKey.mk hbytes

structure SecretKey where
  bytes : Bytes
  deriving DecidableEq

/-- `crypto::Secret`, the symmetric key of one node, file or version. -/
structure Secret where
  bytes : Bytes
  deriving DecidableEq

/-- `Secret::default`, the all-zero key. -/
def Secret.default : Secret := ⟨List.replicate 32 0⟩

/-- `crypto::SecretShare`, a secret wrapped for one public key. -/
structure SecretShare where
  bytes : Bytes
  deriving DecidableEq

structure Signature where
  bytes : Bytes
  deriving DecidableEq

/-- `uuid::Uuid`. -/
structure Uuid where
  value : ℕ
  deriving DecidableEq

instance : LinearOrder Uuid :=
  LinearOrder.lift' Uuid.value (fun a b h => by
    cases a
    cases b
    exact congrArg Uuid.mk h)

end JaxFs
