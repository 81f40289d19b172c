import JaxFs.KeyedMap
import Mathlib.Tactic

/-!
# Prefix codes

Codes into byte strings whose decoders return the bytes they have not consumed,
so that encodings can be put one after the other.  Every combinator carries its
round trip, and the code of a record is assembled from those of its fields.
-/

/-- A code for `α` that can be read off the front of a byte string. -/
structure PrefixCode (α : Type*) where
  encode : α → List (Fin 256)
  decode : List (Fin 256) → Option (α × List (Fin 256))
  decode_encode : ∀ a rest, decode (encode a ++ rest) = some (a, rest)

namespace PrefixCode

/-- The numerals of bytes. -/
instance neZeroByte : NeZero 256 := ⟨by decide⟩

variable {α β : Type*}

/-- Decode a whole byte string. -/
def decodeAll (code : PrefixCode α) (bytes : List (Fin 256)) : Option α :=
  (code.decode bytes).map Prod.fst

theorem decodeAll_encode (code : PrefixCode α) (a : α) :
    code.decodeAll (code.encode a) = some a := by
  have h := code.decode_encode a []
  rw [List.append_nil] at h
  simp [decodeAll, h]

theorem encode_injective (code : PrefixCode α) : Function.Injective code.encode := by
  intro a b h
  have hdecoded := congrArg code.decodeAll h
  rw [code.decodeAll_encode, code.decodeAll_encode] at hdecoded
  exact Option.some.inj hdecoded

/-! ## Bytes and numbers -/

def byte : PrefixCode (Fin 256) where
  encode b := [b]
  decode
    | [] => none
    | b :: rest => some (b, rest)
  decode_encode _ _ := rfl

/-- Base 255, with 255 itself as the sign that more follows. -/
def encodeNat (n : ℕ) : List (Fin 256) :=
  List.replicate (n / 255) 255 ++ [Fin.ofNat 256 (n % 255)]

def decodeNat : List (Fin 256) → Option (ℕ × List (Fin 256))
  | [] => none
  | b :: rest =>
      if b = 255 then (decodeNat rest).map (fun r => (r.1 + 255, r.2))
      else some (b.val, rest)

theorem decodeNat_replicate (count digit : ℕ) (hdigit : digit < 255)
    (rest : List (Fin 256)) :
    decodeNat (List.replicate count 255 ++ Fin.ofNat 256 digit :: rest) =
      some (count * 255 + digit, rest) := by
  have hval : (Fin.ofNat 256 digit).val = digit := by
    simp only [Fin.ofNat]
    omega
  induction count with
  | zero =>
      have hne : Fin.ofNat 256 digit ≠ 255 := by
        intro h
        have hvals := congrArg Fin.val h
        rw [hval] at hvals
        simp at hvals
        omega
      rw [List.replicate_zero, List.nil_append, decodeNat, if_neg hne, hval]
      simp
  | succ count ih =>
      rw [List.replicate_succ, List.cons_append, decodeNat, if_pos rfl, ih]
      simp
      omega

def nat : PrefixCode ℕ where
  encode := encodeNat
  decode := decodeNat
  decode_encode n rest := by
    unfold encodeNat
    rw [List.append_assoc, List.singleton_append,
      decodeNat_replicate _ _ (Nat.mod_lt n (by omega))]
    congr 2
    omega

/-! ## Combinators -/

def prod (code : PrefixCode α) (code' : PrefixCode β) : PrefixCode (α × β) where
  encode p := code.encode p.1 ++ code'.encode p.2
  decode bytes :=
    (code.decode bytes).bind (fun r =>
      (code'.decode r.2).map (fun r' => ((r.1, r'.1), r'.2)))
  decode_encode p rest := by
    simp [code.decode_encode, code'.decode_encode]

def decodeMany (code : PrefixCode α) :
    ℕ → List (Fin 256) → Option (List α × List (Fin 256))
  | 0, bytes => some ([], bytes)
  | count + 1, bytes =>
      (code.decode bytes).bind (fun r =>
        (decodeMany code count r.2).map (fun r' => (r.1 :: r'.1, r'.2)))

theorem decodeMany_flatMap (code : PrefixCode α) (items : List α)
    (rest : List (Fin 256)) :
    decodeMany code items.length (items.flatMap code.encode ++ rest) =
      some (items, rest) := by
  induction items with
  | nil => rfl
  | cons item items ih => simp [decodeMany, code.decode_encode, ih]

/-- The length, then the items. -/
def list (code : PrefixCode α) : PrefixCode (List α) where
  encode items := encodeNat items.length ++ items.flatMap code.encode
  decode bytes := (decodeNat bytes).bind (fun r => decodeMany code r.1 r.2)
  decode_encode items rest := by
    have hnat := nat.decode_encode items.length
    simp only [nat] at hnat
    simp [hnat, decodeMany_flatMap]

/-- Transport along a partial inverse. -/
def via (code : PrefixCode α) (toCode : β → α) (ofCode : α → Option β)
    (h : ∀ b, ofCode (toCode b) = some b) : PrefixCode β where
  encode b := code.encode (toCode b)
  decode bytes :=
    (code.decode bytes).bind (fun r => (ofCode r.1).map (fun b => (b, r.2)))
  decode_encode b rest := by
    simp [code.decode_encode, h]

def option (code : PrefixCode α) : PrefixCode (Option α) :=
  code.list.via Option.toList
    (fun
      | [] => some none
      | [a] => some (some a)
      | _ => none)
    (by
      intro a
      cases a <;> rfl)

def bool : PrefixCode Bool :=
  nat.via (fun b => if b then 1 else 0) (fun n => some (n = 1)) (by decide)

/-- A keyed map, as the list of its members. -/
def keyedMap {κ : Type*} [LinearOrder κ] {key : α → κ} (code : PrefixCode α) :
    PrefixCode (KeyedMap key) :=
  code.list.via KeyedMap.toList
    (fun items =>
      if h : items.Pairwise (fun a b => key a < key b) then some ⟨items, h⟩
      else none)
    (by
      intro m
      simp [m.sorted])

end PrefixCode
