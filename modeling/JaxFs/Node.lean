import JaxFs.KeyedMap
import JaxFs.Paths

/-!
# Nodes

`mount/node.rs` and `mount/pins.rs`: directory nodes, the links they hold and the
set of pinned hashes.  A link to a file carries the MIME type guessed from its
path; its metadata map is left out, since no function of the crate fills it.
-/

namespace JaxFs

inductive NodeLink where
  | data (link : Link) (secret : Secret) (mime : Option Name)
  | dir (link : Link) (secret : Secret)
  deriving DecidableEq

namespace NodeLink

def link : NodeLink → Link
  | .data link _ _ => link
  | .dir link _ => link

def secret : NodeLink → Secret
  | .data _ secret _ => secret
  | .dir _ secret => secret

def isDir : NodeLink → Bool
  | .data .. => false
  | .dir .. => true

end NodeLink

structure Node where
  links : FinMap Name NodeLink
  deriving DecidableEq

namespace Node

def default : Node := ⟨KeyedMap.empty⟩

def getLink (node : Node) (name : Name) : Option NodeLink := node.links.get? name

def insert (node : Node) (name : Name) (link : NodeLink) : Node :=
  ⟨node.links.put name link⟩

/-- The node without the entry, next to the entry itself. -/
def del (node : Node) (name : Name) : Option NodeLink × Node :=
  (node.links.get? name, ⟨node.links.erase name⟩)

@[simp] theorem getLink_default (name : Name) : default.getLink name = none := rfl

theorem getLink_insert (node : Node) (name name' : Name) (link : NodeLink) :
    (node.insert name link).getLink name' =
      if name = name' then some link else node.getLink name' := by
  by_cases hname : name = name'
  · simp [getLink, insert, hname]
  · simp [getLink, insert, hname, FinMap.get?_put_of_ne]

@[simp] theorem getLink_insert_self (node : Node) (name : Name) (link : NodeLink) :
    (node.insert name link).getLink name = some link := by
  simp [getLink_insert]

theorem getLink_del (node : Node) (name name' : Name) :
    (node.del name).2.getLink name' =
      if name = name' then none else node.getLink name' := by
  by_cases hname : name = name'
  · simp [getLink, del, FinMap.get?_erase, hname]
  · simp [getLink, del, FinMap.get?_erase, hname]

@[simp] theorem del_fst (node : Node) (name : Name) :
    (node.del name).1 = node.getLink name := rfl

end Node

/-- `Pins`, a set of hashes.  The source iterates over it in no fixed order; here
the order is that of the hashes. -/
abbrev Pins := KeyedMap (id : Hash → Hash)

namespace Pins

def extend (pins : Pins) (hashes : List Hash) : Pins :=
  hashes.foldl KeyedMap.insert pins

def fromVec (hashes : List Hash) : Pins := extend KeyedMap.empty hashes

theorem mem_extend {pins : Pins} {hashes : List Hash} {hash : Hash} :
    hash ∈ pins.extend hashes ↔ hash ∈ pins ∨ hash ∈ hashes := by
  unfold extend
  induction hashes generalizing pins with
  | nil => simp
  | cons first rest ih =>
      rw [List.foldl_cons, ih, KeyedMap.mem_insert, List.mem_cons]
      by_cases heq : hash = first
      · simp [heq]
      · simp [heq]

theorem fromVec_toList (pins : Pins) : fromVec pins.toList = pins := by
  apply KeyedMap.ext_mem
  intro hash
  rw [fromVec, mem_extend]
  simp

end Pins

end JaxFs
