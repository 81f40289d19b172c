import Mathlib.Data.List.Pairwise
import Mathlib.Data.List.Sort
import Mathlib.Tactic

/-!
# Ordered finite maps

A `KeyedMap key` is a finite collection of values held in strictly increasing
order of `key`, so that iteration, lookup and insertion behave as those of an
ordered map whose key is a part of the value.  The order is a field of the
structure: two maps with the same members are equal, and no later proof has to
carry a no-duplicates hypothesis.  `FinMap` is the case of separate keys and
values.
-/

namespace KeyedMap

/-- Insertion into a strictly key-sorted list; a member with the same key is
replaced. -/
def insertList {α κ : Type*} [LinearOrder κ] (key : α → κ) (a : α) :
    List α → List α
  | [] => [a]
  | b :: rest =>
      if key a < key b then a :: b :: rest
      else if key b < key a then b :: insertList key a rest
      else a :: rest

theorem mem_insertList
    {α κ : Type*} [LinearOrder κ] {key : α → κ} {a x : α} {l : List α}
    (hsorted : l.Pairwise (fun b c => key b < key c)) :
    x ∈ insertList key a l ↔ x = a ∨ (x ∈ l ∧ key x ≠ key a) := by
  induction l with
  | nil => simp [insertList]
  | cons b rest ih =>
      have hrest := (List.pairwise_cons.mp hsorted).2
      have hhead := (List.pairwise_cons.mp hsorted).1
      simp only [insertList]
      split_ifs with hlt hgt
      · -- `a` comes first, so every old member has a larger key
        have hall : ∀ y ∈ b :: rest, key y ≠ key a := by
          intro y hy
          rcases List.mem_cons.mp hy with rfl | hy
          · exact hlt.ne'
          · exact (hlt.trans (hhead y hy)).ne'
        constructor
        · intro hx
          rcases List.mem_cons.mp hx with rfl | hx
          · exact Or.inl rfl
          · exact Or.inr ⟨hx, hall x hx⟩
        · rintro (rfl | ⟨hx, -⟩)
          · exact List.mem_cons_self
          · exact List.mem_cons_of_mem _ hx
      · rw [List.mem_cons, ih hrest]
        constructor
        · rintro (rfl | rfl | ⟨hx, hne⟩)
          · exact Or.inr ⟨List.mem_cons_self, hgt.ne⟩
          · exact Or.inl rfl
          · exact Or.inr ⟨List.mem_cons_of_mem _ hx, hne⟩
        · rintro (rfl | ⟨hx, hne⟩)
          · exact Or.inr (Or.inl rfl)
          · rcases List.mem_cons.mp hx with rfl | hx
            · exact Or.inl rfl
            · exact Or.inr (Or.inr ⟨hx, hne⟩)
      · have heq : key b = key a :=
          le_antisymm (not_lt.mp hlt) (not_lt.mp hgt)
        constructor
        · intro hx
          rcases List.mem_cons.mp hx with rfl | hx
          · exact Or.inl rfl
          · have hne : key x ≠ key a := heq ▸ (hhead x hx).ne'
            exact Or.inr ⟨List.mem_cons_of_mem _ hx, hne⟩
        · rintro (rfl | ⟨hx, hne⟩)
          · exact List.mem_cons_self
          · rcases List.mem_cons.mp hx with rfl | hx
            · exact absurd heq hne
            · exact List.mem_cons_of_mem _ hx

theorem pairwise_insertList
    {α κ : Type*} [LinearOrder κ] {key : α → κ} (a : α) {l : List α}
    (hsorted : l.Pairwise (fun b c => key b < key c)) :
    (insertList key a l).Pairwise (fun b c => key b < key c) := by
  induction l with
  | nil => simp [insertList]
  | cons b rest ih =>
      have hrest := (List.pairwise_cons.mp hsorted).2
      have hhead := (List.pairwise_cons.mp hsorted).1
      simp only [insertList]
      split_ifs with hlt hgt
      · refine List.pairwise_cons.mpr ⟨?_, hsorted⟩
        intro y hy
        rcases List.mem_cons.mp hy with rfl | hy
        · exact hlt
        · exact hlt.trans (hhead y hy)
      · refine List.pairwise_cons.mpr ⟨?_, ih hrest⟩
        intro y hy
        rcases (mem_insertList hrest).mp hy with rfl | ⟨hy, -⟩
        · exact hgt
        · exact hhead y hy
      · have heq : key b = key a :=
          le_antisymm (not_lt.mp hlt) (not_lt.mp hgt)
        refine List.pairwise_cons.mpr ⟨?_, hrest⟩
        intro y hy
        exact heq ▸ hhead y hy

end KeyedMap

/-- A finite collection in strictly increasing order of `key`. -/
structure KeyedMap {α κ : Type*} [LinearOrder κ] (key : α → κ) where
  toList : List α
  sorted : toList.Pairwise (fun a b => key a < key b)

namespace KeyedMap

section

variable {α κ : Type*} [LinearOrder κ] {key : α → κ}

instance [DecidableEq α] : DecidableEq (KeyedMap key) := fun m n =>
  decidable_of_iff (m.toList = n.toList) (by
    cases m
    cases n
    simp)

instance : Membership α (KeyedMap key) := ⟨fun m a => a ∈ m.toList⟩

instance [DecidableEq α] (a : α) (m : KeyedMap key) : Decidable (a ∈ m) :=
  inferInstanceAs (Decidable (a ∈ m.toList))

@[simp] theorem mem_toList {m : KeyedMap key} {a : α} : a ∈ m.toList ↔ a ∈ m :=
  Iff.rfl

def empty : KeyedMap key := ⟨[], List.Pairwise.nil⟩

def isEmpty (m : KeyedMap key) : Bool := m.toList.isEmpty

def find? (m : KeyedMap key) (k : κ) : Option α :=
  m.toList.find? (fun a => decide (key a = k))

def contains (m : KeyedMap key) (k : κ) : Bool := (m.find? k).isSome

def insert (m : KeyedMap key) (a : α) : KeyedMap key :=
  ⟨insertList key a m.toList, pairwise_insertList a m.sorted⟩

def erase (m : KeyedMap key) (k : κ) : KeyedMap key :=
  ⟨m.toList.filter (fun a => decide (key a ≠ k)), m.sorted.filter _⟩

@[simp] theorem not_mem_empty {a : α} : ¬ a ∈ (empty : KeyedMap key) :=
  List.not_mem_nil

theorem eq_of_mem_of_key_eq {m : KeyedMap key} {a b : α}
    (ha : a ∈ m) (hb : b ∈ m) (hkey : key a = key b) : a = b := by
  by_contra hne
  have hsymm : Std.Symm (fun x y : α => key x ≠ key y) := ⟨fun _ _ h => h.symm⟩
  have hpairwise : m.toList.Pairwise (fun x y => key x ≠ key y) :=
    m.sorted.imp (fun h => h.ne)
  exact hpairwise.forall ha hb hne hkey

theorem nodup_toList (m : KeyedMap key) : m.toList.Nodup :=
  m.sorted.imp (fun h heq => h.ne (congrArg key heq))

/-- A map is determined by its members. -/
theorem ext_mem {m n : KeyedMap key} (h : ∀ a, a ∈ m ↔ a ∈ n) : m = n := by
  have hperm : m.toList.Perm n.toList :=
    (List.perm_ext_iff_of_nodup m.nodup_toList n.nodup_toList).mpr h
  have hlist : m.toList = n.toList :=
    hperm.eq_of_pairwise
      (fun a b _ _ hab hba => absurd (hab.trans hba) (lt_irrefl _))
      m.sorted n.sorted
  cases m
  cases n
  simpa using hlist

theorem find?_eq_some_iff {m : KeyedMap key} {k : κ} {a : α} :
    m.find? k = some a ↔ a ∈ m ∧ key a = k := by
  constructor
  · intro h
    exact ⟨List.mem_of_find?_eq_some h, by simpa using List.find?_some h⟩
  · rintro ⟨hmem, hkey⟩
    cases hfind : m.find? k with
    | none =>
        have hnone := List.find?_eq_none.mp hfind a hmem
        simp [hkey] at hnone
    | some b =>
        have hb : b ∈ m := List.mem_of_find?_eq_some hfind
        have hbkey : key b = k := by simpa using List.find?_some hfind
        rw [eq_of_mem_of_key_eq hb hmem (hbkey.trans hkey.symm)]

theorem find?_eq_none_iff {m : KeyedMap key} {k : κ} :
    m.find? k = none ↔ ∀ a ∈ m, key a ≠ k := by
  unfold find?
  rw [List.find?_eq_none]
  simp

theorem contains_iff {m : KeyedMap key} {k : κ} :
    m.contains k = true ↔ ∃ a ∈ m, key a = k := by
  unfold contains
  rw [Option.isSome_iff_exists]
  constructor
  · rintro ⟨a, ha⟩
    exact ⟨a, find?_eq_some_iff.mp ha⟩
  · rintro ⟨a, ha⟩
    exact ⟨a, find?_eq_some_iff.mpr ha⟩

@[simp] theorem mem_insert {m : KeyedMap key} {a x : α} :
    x ∈ m.insert a ↔ x = a ∨ (x ∈ m ∧ key x ≠ key a) :=
  mem_insertList m.sorted

theorem mem_insert_of_contains_eq_false {m : KeyedMap key} {a x : α}
    (hnew : m.contains (key a) = false) :
    x ∈ m.insert a ↔ x = a ∨ x ∈ m := by
  rw [mem_insert]
  constructor
  · rintro (h | ⟨h, -⟩)
    · exact Or.inl h
    · exact Or.inr h
  · rintro (h | h)
    · exact Or.inl h
    · refine Or.inr ⟨h, fun hkey => ?_⟩
      rw [contains_iff.mpr ⟨x, h, hkey⟩] at hnew
      contradiction

theorem length_insert {m : KeyedMap key} {a : α} (hnew : m.contains (key a) = false) :
    (m.insert a).toList.length = m.toList.length + 1 := by
  have hfresh : a ∉ m.toList := by
    intro ha
    rw [contains_iff.mpr ⟨a, ha, rfl⟩] at hnew
    contradiction
  have hperm : (m.insert a).toList.Perm (a :: m.toList) := by
    rw [List.perm_ext_iff_of_nodup (m.insert a).nodup_toList
      (List.nodup_cons.mpr ⟨hfresh, m.nodup_toList⟩)]
    intro x
    rw [List.mem_cons]
    exact mem_insert_of_contains_eq_false hnew
  exact hperm.length_eq

@[simp] theorem mem_erase {m : KeyedMap key} {k : κ} {x : α} :
    x ∈ m.erase k ↔ x ∈ m ∧ key x ≠ k := by
  change x ∈ m.toList.filter _ ↔ _
  rw [List.mem_filter]
  simp

theorem find?_insert {m : KeyedMap key} {a : α} {k : κ} :
    (m.insert a).find? k = if key a = k then some a else m.find? k := by
  by_cases hkey : key a = k
  · rw [if_pos hkey]
    exact find?_eq_some_iff.mpr ⟨mem_insert.mpr (Or.inl rfl), hkey⟩
  · rw [if_neg hkey]
    cases hfind : m.find? k with
    | none =>
        rw [find?_eq_none_iff] at hfind ⊢
        intro x hx
        rcases mem_insert.mp hx with rfl | ⟨hx, -⟩
        · exact hkey
        · exact hfind x hx
    | some b =>
        rw [find?_eq_some_iff] at hfind ⊢
        have hne : key b ≠ key a := fun h => hkey (h.symm.trans hfind.2)
        exact ⟨mem_insert.mpr (Or.inr ⟨hfind.1, hne⟩), hfind.2⟩

theorem find?_erase {m : KeyedMap key} {k k' : κ} :
    (m.erase k).find? k' = if k = k' then none else m.find? k' := by
  by_cases hkey : k = k'
  · rw [if_pos hkey, find?_eq_none_iff]
    intro x hx
    exact hkey ▸ (mem_erase.mp hx).2
  · rw [if_neg hkey]
    cases hfind : m.find? k' with
    | none =>
        rw [find?_eq_none_iff] at hfind ⊢
        exact fun x hx => hfind x (mem_erase.mp hx).1
    | some b =>
        rw [find?_eq_some_iff] at hfind ⊢
        exact ⟨mem_erase.mpr ⟨hfind.1, fun h => hkey (h.symm.trans hfind.2)⟩,
          hfind.2⟩

@[simp] theorem find?_empty (k : κ) : (empty : KeyedMap key).find? k = none := rfl

@[simp] theorem contains_empty (k : κ) :
    (empty : KeyedMap key).contains k = false := rfl

theorem isEmpty_iff {m : KeyedMap key} : m.isEmpty = true ↔ m = empty := by
  cases m with
  | mk list sorted => simp [isEmpty, empty]

end

end KeyedMap

/-! ## Maps with separate keys and values -/

/-- An ordered finite map from `κ` to `β`. -/
abbrev FinMap (κ β : Type*) [LinearOrder κ] := KeyedMap (Prod.fst : κ × β → κ)

namespace FinMap

variable {κ β : Type*} [LinearOrder κ]

def get? (m : FinMap κ β) (k : κ) : Option β := (m.find? k).map Prod.snd

def put (m : FinMap κ β) (k : κ) (v : β) : FinMap κ β := m.insert (k, v)

@[simp] theorem get?_empty (k : κ) :
    get? (KeyedMap.empty : FinMap κ β) k = none := rfl

theorem get?_put (m : FinMap κ β) (k k' : κ) (v : β) :
    (m.put k v).get? k' = if k = k' then some v else m.get? k' := by
  unfold get? put
  rw [KeyedMap.find?_insert]
  by_cases h : k = k'
  · simp [h]
  · simp [h]

@[simp] theorem get?_put_self (m : FinMap κ β) (k : κ) (v : β) :
    (m.put k v).get? k = some v := by
  simp [get?_put]

theorem get?_put_of_ne (m : FinMap κ β) {k k' : κ} (v : β) (h : k ≠ k') :
    (m.put k v).get? k' = m.get? k' := by
  simp [get?_put, h]

theorem contains_put_iff {m : FinMap κ β} {k k' : κ} {v : β} :
    (m.put k v).contains k' = true ↔ k = k' ∨ m.contains k' = true := by
  unfold put KeyedMap.contains
  rw [KeyedMap.find?_insert]
  by_cases h : k = k'
  · simp [h]
  · simp [h]

theorem get?_erase (m : FinMap κ β) (k k' : κ) :
    get? (m.erase k) k' = if k = k' then none else m.get? k' := by
  unfold get?
  rw [KeyedMap.find?_erase]
  by_cases h : k = k'
  · simp [h]
  · simp [h]

theorem get?_eq_some_iff {m : FinMap κ β} {k : κ} {v : β} :
    m.get? k = some v ↔ (k, v) ∈ m := by
  unfold get?
  rw [Option.map_eq_some_iff]
  constructor
  · rintro ⟨⟨k', v'⟩, hfind, rfl⟩
    obtain ⟨hmem, rfl⟩ := KeyedMap.find?_eq_some_iff.mp hfind
    exact hmem
  · intro hmem
    exact ⟨(k, v), KeyedMap.find?_eq_some_iff.mpr ⟨hmem, rfl⟩, rfl⟩

/-- Putting what is already there. -/
theorem put_eq_self {m : FinMap κ β} {k : κ} {v : β} (h : m.get? k = some v) :
    m.put k v = m := by
  apply KeyedMap.ext_mem
  rintro ⟨k', v'⟩
  rw [← get?_eq_some_iff, ← get?_eq_some_iff, get?_put]
  split_ifs with hkey
  · rw [← hkey, h]
  · rfl

/-- The map is a part of the function. -/
def Agrees (m : FinMap κ β) (view : κ → Option β) : Prop :=
  ∀ k v, m.get? k = some v → view k = some v

section

variable {m : FinMap κ β} {view : κ → Option β} {k k' : κ} {v v' : β}

theorem agrees_empty (view : κ → Option β) :
    Agrees (KeyedMap.empty : FinMap κ β) view := by
  intro k v h
  simp at h

/-- An entry of the function replaces nothing else. -/
theorem Agrees.get?_put (h : m.Agrees view) (hk : view k = some v) :
    (m.put k v).get? k' = some v' ↔ m.get? k' = some v' ∨ (k' = k ∧ v' = v) := by
  rw [FinMap.get?_put]
  by_cases hkey : k = k'
  · subst hkey
    have hsame : m.get? k = some v' → v' = v := by
      intro hget
      have hview := h k v' hget
      rw [hk] at hview
      exact (Option.some.inj hview).symm
    rw [if_pos rfl, Option.some.injEq]
    constructor
    · intro heq
      exact Or.inr ⟨rfl, heq.symm⟩
    · intro hor
      rcases hor with hget | ⟨_, heq⟩
      · exact (hsame hget).symm
      · exact heq.symm
  · simp [hkey, Ne.symm hkey]

theorem Agrees.put (h : m.Agrees view) (hk : view k = some v) : (m.put k v).Agrees view := by
  intro k' v' hget
  rcases (h.get?_put hk).mp hget with hold | ⟨rfl, rfl⟩
  · exact h k' v' hold
  · exact hk

theorem Agrees.foldl_put {items : List (κ × β)} (h : m.Agrees view)
    (hitems : ∀ item ∈ items, view item.1 = some item.2) :
    (items.foldl (fun m item => m.put item.1 item.2) m).Agrees view := by
  induction items generalizing m with
  | nil => exact h
  | cons item rest ih =>
      exact ih (h.put (hitems item List.mem_cons_self))
        (fun other hother => hitems other (List.mem_cons_of_mem _ hother))

theorem Agrees.get?_foldl_put {items : List (κ × β)} (h : m.Agrees view)
    (hitems : ∀ item ∈ items, view item.1 = some item.2) :
    (items.foldl (fun m item => m.put item.1 item.2) m).get? k = some v ↔
      m.get? k = some v ∨ (k, v) ∈ items := by
  induction items generalizing m with
  | nil => simp
  | cons item rest ih =>
      have hitem := hitems item List.mem_cons_self
      rw [List.foldl_cons, ih (h.put hitem)
        (fun other hother => hitems other (List.mem_cons_of_mem _ hother)), h.get?_put hitem,
        or_assoc, List.mem_cons, Prod.ext_iff]

end

/-- What a loop of puts leaves. -/
theorem forall_foldl_put {α : Type*} {good : κ × β → Prop} {place : α → κ} {value : α → β}
    {items : List α} {m : FinMap κ β} (hm : ∀ item ∈ m, good item)
    (hitems : ∀ a ∈ items, good (place a, value a)) :
    ∀ item ∈ items.foldl (fun m a => m.put (place a) (value a)) m, good item := by
  induction items generalizing m with
  | nil => exact hm
  | cons first rest ih =>
      apply ih _ (fun a ha => hitems a (List.mem_cons_of_mem _ ha))
      intro item hitem
      rcases KeyedMap.mem_insert.mp hitem with rfl | ⟨hold, -⟩
      · exact hitems first List.mem_cons_self
      · exact hm item hold

/-- The map of a list of items, each put in its own place. -/
theorem get?_foldl_put {α : Type*} {place : α → κ} (hplace : Function.Injective place)
    {items : List (α × β)} (hdistinct : items.Pairwise (fun a b => a.1 ≠ b.1))
    (m : FinMap κ β) {k : κ} {v : β} :
    (items.foldl (fun m item => m.put (place item.1) item.2) m).get? k = some v ↔
      (∃ a, place a = k ∧ (a, v) ∈ items) ∨
        ((∀ item ∈ items, place item.1 ≠ k) ∧ m.get? k = some v) := by
  induction items generalizing m with
  | nil => simp
  | cons item items ih =>
      obtain ⟨a, w⟩ := item
      obtain ⟨hfirst, hrest⟩ := List.pairwise_cons.mp hdistinct
      rw [List.foldl_cons, ih hrest, get?_put]
      by_cases hkey : place a = k
      · have hothers : ∀ item ∈ items, place item.1 ≠ k := by
          intro item hitem heq
          exact hfirst item hitem (hplace (hkey.trans heq.symm))
        have hnone : ¬ ∃ b, place b = k ∧ (b, v) ∈ items := by
          intro ⟨b, hb, hmem⟩
          exact hothers _ hmem hb
        rw [if_pos hkey]
        simp only [hnone, false_or, List.mem_cons, Prod.mk.injEq]
        constructor
        · intro ⟨_, hv⟩
          left
          exact ⟨a, hkey, Or.inl ⟨rfl, (Option.some.inj hv).symm⟩⟩
        · intro hcases
          rcases hcases with ⟨b, hb, ⟨-, rfl⟩ | hmem⟩ | ⟨hall, -⟩
          · exact ⟨hothers, rfl⟩
          · exact absurd hb (hothers _ hmem)
          · exact absurd hkey (hall (a, w) (Or.inl rfl))
      · rw [if_neg hkey]
        simp only [List.mem_cons, Prod.mk.injEq, forall_eq_or_imp, hkey, ne_eq,
          not_false_eq_true, true_and]
        constructor
        · intro hcases
          rcases hcases with ⟨b, hb, hmem⟩ | hold
          · exact Or.inl ⟨b, hb, Or.inr hmem⟩
          · exact Or.inr hold
        · intro hcases
          rcases hcases with ⟨b, hb, ⟨rfl, -⟩ | hmem⟩ | hold
          · exact absurd hb hkey
          · exact Or.inl ⟨b, hb, hmem⟩
          · exact Or.inr hold

/-- What is collected from the items depends only on what each key contributes. -/
theorem filterMap_toList_congr {γ : Type*} {m n : FinMap κ β} {f : κ × β → Option γ}
    (h : ∀ k c, (∃ v, m.get? k = some v ∧ f (k, v) = some c) ↔
      ∃ v, n.get? k = some v ∧ f (k, v) = some c) :
    m.toList.filterMap f = n.toList.filterMap f := by
  let keyed : κ × β → Option (κ × γ) := fun item => (f item).map (fun c => (item.1, c))
  have hsorted : ∀ m : FinMap κ β,
      (m.toList.filterMap keyed).Pairwise (fun a b => a.1 < b.1) := by
    intro m
    apply m.sorted.filterMap
    intro a b hab a' ha' b' hb'
    obtain ⟨c, -, rfl⟩ := Option.map_eq_some_iff.mp ha'
    obtain ⟨d, -, rfl⟩ := Option.map_eq_some_iff.mp hb'
    exact hab
  have hmem : ∀ (m : FinMap κ β) (item : κ × γ), item ∈ m.toList.filterMap keyed ↔
      ∃ v, m.get? item.1 = some v ∧ f (item.1, v) = some item.2 := by
    intro m item
    simp only [List.mem_filterMap, get?_eq_some_iff]
    constructor
    · rintro ⟨⟨k, v⟩, hitem, hkeyed⟩
      obtain ⟨c, hc, rfl⟩ := Option.map_eq_some_iff.mp hkeyed
      exact ⟨v, hitem, hc⟩
    · rintro ⟨v, hitem, hc⟩
      exact ⟨(item.1, v), hitem, by simp [keyed, hc]⟩
  have hkeyed : m.toList.filterMap keyed = n.toList.filterMap keyed := by
    have heq : (⟨_, hsorted m⟩ : FinMap κ γ) = ⟨_, hsorted n⟩ := by
      apply KeyedMap.ext_mem
      intro item
      exact (hmem m item).trans ((h item.1 item.2).trans (hmem n item).symm)
    exact congrArg KeyedMap.toList heq
  have hvalues : ∀ items : List (κ × β),
      (items.filterMap keyed).map Prod.snd = items.filterMap f := by
    intro items
    rw [List.map_filterMap]
    simp [keyed, Function.comp_def]
  rw [← hvalues, ← hvalues, hkeyed]

/-- The values that the function keeps, under their keys. -/
def filterMapValues {γ : Type*} (m : FinMap κ β) (f : β → Option γ) : FinMap κ γ where
  toList := m.toList.filterMap (fun item => (f item.2).map (fun c => (item.1, c)))
  sorted := by
    apply m.sorted.filterMap
    intro a b hab a' ha' b' hb'
    obtain ⟨c, -, rfl⟩ := Option.map_eq_some_iff.mp ha'
    obtain ⟨d, -, rfl⟩ := Option.map_eq_some_iff.mp hb'
    exact hab

theorem get?_filterMapValues {γ : Type*} (m : FinMap κ β) (f : β → Option γ) (k : κ) :
    get? (filterMapValues m f) k = (m.get? k).bind f := by
  apply Option.ext
  intro c
  rw [get?_eq_some_iff, Option.bind_eq_some_iff]
  constructor
  · intro hmem
    obtain ⟨⟨k', v⟩, hitem, hvalue⟩ := List.mem_filterMap.mp hmem
    obtain ⟨c', hc, heq⟩ := Option.map_eq_some_iff.mp hvalue
    cases heq
    exact ⟨v, get?_eq_some_iff.mpr hitem, hc⟩
  · intro ⟨v, hv, hc⟩
    apply List.mem_filterMap.mpr
    exact ⟨(k, v), get?_eq_some_iff.mp hv, by simp [hc]⟩

end FinMap
