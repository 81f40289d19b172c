import JaxFs.TreeInvariant

/-!
# Trees seen through their directories

What a tree has at its paths, as a function.  One change of a tree puts a branch in a place
and leaves every path aside of it alone; a removal puts the branch that has nothing.  A
set of keys that matches the tree is told only about the place.

The tree of a mount is seen along its directory links.  A read goes through a file as well
when the file decodes as a node, so it may see more.
-/

section

variable {α β : Type*} {isDir : β → Bool} {view view' : List α → Option β} {place : List α}
  {branch : List α → Option β} {keys : Set (List α)}

/-- The new view has the branch in its place, directories above it, and the rest as it was. -/
structure Grafted (isDir : β → Bool) (view view' : List α → Option β) (place : List α)
    (branch : List α → Option β) : Prop where
  root : view' [] = none
  below : ∀ rest, view' (place ++ rest) = branch rest
  above : ∀ path, path ≠ [] → path <+: place → path ≠ place →
    ∃ b, view' path = some b ∧ isDir b = true
  aside : ∀ path, ¬ path <+: place → ¬ place <+: path → view' path = view path

/-- Every key is there, and every file has its key. -/
structure KeysMatch (isDir : β → Bool) (keys : Set (List α)) (view : List α → Option β) :
    Prop where
  found : ∀ path ∈ keys, path ≠ [] ∧ ∃ b, view path = some b
  recorded : ∀ path b, view path = some b → isDir b = false → path ∈ keys

/-- Where a path lies that is not below the place. -/
theorem Grafted.found_of_not_below (h : Grafted isDir view view' place branch) {path : List α}
    (hpath : path ≠ []) (hfound : ∃ b, view path = some b) (hbelow : ¬ place <+: path) :
    ∃ b, view' path = some b := by
  by_cases habove : path <+: place
  · have hne : path ≠ place := by
      rintro rfl
      exact hbelow (List.prefix_refl _)
    obtain ⟨b, hb, -⟩ := h.above path hpath habove hne
    exact ⟨b, hb⟩
  · rw [h.aside path habove hbelow]
    exact hfound

theorem Grafted.recorded_of_not_below (h : Grafted isDir view view' place branch)
    (hkeys : KeysMatch isDir keys view) {path : List α} {b : β} (hb : view' path = some b)
    (hfile : isDir b = false) (hbelow : ¬ place <+: path) : path ∈ keys := by
  by_cases habove : path <+: place
  · have hpath : path ≠ [] := by
      rintro rfl
      rw [h.root] at hb
      cases hb
    have hne : path ≠ place := by
      rintro rfl
      exact hbelow (List.prefix_refl _)
    obtain ⟨b', hb', hdir⟩ := h.above path hpath habove hne
    rw [hb] at hb'
    cases hb'
    rw [hfile] at hdir
    cases hdir
  · rw [h.aside path habove hbelow] at hb
    exact hkeys.recorded path b hb hfile

/-- A branch without files below its root needs the key of its place. -/
theorem KeysMatch.graft (h : KeysMatch isDir keys view)
    (hgraft : Grafted isDir view view' place branch) (hplace : place ≠ [])
    (hroot : ∃ b, branch [] = some b)
    (hbranch : ∀ rest b, rest ≠ [] → branch rest = some b → isDir b = true)
    (hbelow : ∀ path ∈ keys, place <+: path → path = place) :
    KeysMatch isDir (insert place keys) view' := by
  have hself : ∃ b, view' place = some b := by
    have hbranched := hgraft.below []
    rw [List.append_nil] at hbranched
    rw [hbranched]
    exact hroot
  constructor
  · intro path hpath
    rcases hpath with rfl | hold
    · exact ⟨hplace, hself⟩
    · obtain ⟨hne, hfound⟩ := h.found path hold
      refine ⟨hne, ?_⟩
      by_cases hpre : place <+: path
      · rw [hbelow path hold hpre]
        exact hself
      · exact hgraft.found_of_not_below hne hfound hpre
  · intro path b hb hfile
    by_cases hpre : place <+: path
    · left
      obtain ⟨rest, rfl⟩ := hpre
      by_contra hne
      have hrest : rest ≠ [] := by
        rintro rfl
        exact hne (List.append_nil place)
      rw [hgraft.below] at hb
      rw [hbranch rest b hrest hb] at hfile
      cases hfile
    · exact Or.inr (hgraft.recorded_of_not_below h hb hfile hpre)

/-- A removal needs the key of its place to go, and nothing else. -/
theorem KeysMatch.prune (h : KeysMatch isDir keys view)
    (hgraft : Grafted isDir view view' place (fun _ => none))
    (hbelow : ∀ path ∈ keys, place <+: path → path = place) :
    KeysMatch isDir (keys \ {place}) view' := by
  constructor
  · intro path ⟨hold, hne⟩
    obtain ⟨hnil, hfound⟩ := h.found path hold
    refine ⟨hnil, hgraft.found_of_not_below hnil hfound ?_⟩
    exact fun hpre => hne (hbelow path hold hpre)
  · intro path b hb hfile
    have hpre : ¬ place <+: path := by
      rintro ⟨rest, rfl⟩
      rw [hgraft.below] at hb
      cases hb
    refine ⟨hgraft.recorded_of_not_below h hb hfile hpre, ?_⟩
    rintro rfl
    exact hpre (List.prefix_refl _)

end

namespace JaxFs

section

variable [P : Primitives]

/-! ## The links behind directories -/

/-- The node behind a link that is a directory. -/
def dirNode (blobs : Blobs) (link : NodeLink) : Option Node :=
  if link.isDir then loadNode blobs link else none

/-- The link at a path that leads through directories. -/
def linkAt (blobs : Blobs) : Node → List Name → Option NodeLink
  | _, [] => none
  | node, [name] => node.getLink name
  | node, name :: next :: rest =>
      ((node.getLink name).bind (dirNode blobs)).bind
        (fun child => linkAt blobs child (next :: rest))

/-- What is behind a link, itself included. -/
def linkBelow (blobs : Blobs) (link : NodeLink) : List Name → Option NodeLink
  | [] => some link
  | name :: rest => (dirNode blobs link).bind (fun child => linkAt blobs child (name :: rest))

section

variable {blobs : Blobs} {node child : Node} {name : Name} {rest names : List Name}
  {link : NodeLink}

theorem linkAt_cons (hrest : rest ≠ []) :
    linkAt blobs node (name :: rest) =
      ((node.getLink name).bind (dirNode blobs)).bind
        (fun child => linkAt blobs child rest) := by
  cases rest with
  | nil => contradiction
  | cons next rest => rfl

theorem linkAt_eq_linkBelow : linkAt blobs node (name :: rest) =
    (node.getLink name).bind (fun link => linkBelow blobs link rest) := by
  cases rest with
  | nil => exact (Option.bind_fun_some _).symm
  | cons next rest =>
      rw [linkAt, Option.bind_assoc]
      rfl

theorem linkAt_default (names : List Name) : linkAt blobs Node.default names = none := by
  cases names with
  | nil => rfl
  | cons first rest =>
      rw [linkAt_eq_linkBelow]
      rfl

theorem linkAt_insert_self :
    linkAt blobs (node.insert name link) (name :: rest) = linkBelow blobs link rest := by
  rw [linkAt_eq_linkBelow, Node.getLink_insert_self, Option.bind_some]

theorem linkAt_insert_of_ne {first : Name} (hne : name ≠ first) :
    linkAt blobs (node.insert name link) (first :: rest) =
      linkAt blobs node (first :: rest) := by
  rw [linkAt_eq_linkBelow, linkAt_eq_linkBelow, Node.getLink_insert, if_neg hne]

theorem linkAt_childNode (hchild : childNode blobs node name = some child) (hrest : rest ≠ []) :
    linkAt blobs node (name :: rest) = linkAt blobs child rest := by
  rw [linkAt_cons hrest]
  unfold childNode at hchild
  cases hlink : node.getLink name with
  | none =>
      rw [hlink] at hchild
      cases hchild
      rw [linkAt_default]
      rfl
  | some link =>
      rw [hlink] at hchild
      dsimp only at hchild
      split_ifs at hchild with hdir
      rw [Option.bind_some, dirNode, if_pos hdir, hchild, Option.bind_some]

/-- A read comes to the links behind directories. -/
theorem findLink_of_linkAt (h : linkAt blobs node names = some link) :
    findLink blobs node names = some link := by
  induction names generalizing node with
  | nil => cases h
  | cons name rest ih =>
      by_cases hrest : rest = []
      · subst hrest
        exact h
      · rw [linkAt_cons hrest] at h
        obtain ⟨child, hchild, hbelow⟩ := Option.bind_eq_some_iff.mp h
        obtain ⟨found, hfound, hdir⟩ := Option.bind_eq_some_iff.mp hchild
        unfold dirNode at hdir
        split_ifs at hdir
        rw [findLink_cons hrest, hfound, Option.bind_some, hdir, Option.bind_some]
        exact ih hbelow

/-- What is above a link is there. -/
theorem exists_linkAt_of_append {front : List Name} (hfront : front ≠ [])
    (h : linkAt blobs node (front ++ rest) = some link) :
    ∃ above, linkAt blobs node front = some above := by
  induction front generalizing node with
  | nil => contradiction
  | cons name front ih =>
      by_cases hnil : front = []
      · subst hnil
        rw [List.singleton_append, linkAt_eq_linkBelow] at h
        obtain ⟨found, hfound, -⟩ := Option.bind_eq_some_iff.mp h
        exact ⟨found, hfound⟩
      · rw [List.cons_append, linkAt_cons (by simp [hnil])] at h
        obtain ⟨child, hchild, hbelow⟩ := Option.bind_eq_some_iff.mp h
        obtain ⟨above, habove⟩ := ih hnil hbelow
        exact ⟨above, by rw [linkAt_cons hnil, hchild]; exact habove⟩

/-- Behind directories a path goes on from the node that is read. -/
theorem linkAt_append_of_throughDirs (hwalk : walkNode blobs node names = some child)
    (hdirs : ThroughDirs blobs node (relPath names)) (hrest : rest ≠ []) :
    linkAt blobs node (names ++ rest) = linkAt blobs child rest := by
  induction names generalizing node with
  | nil =>
      cases hwalk
      rfl
  | cons name names ih =>
      rw [walkNode] at hwalk
      obtain ⟨next, hnext, hbelow⟩ := Option.bind_eq_some_iff.mp hwalk
      obtain ⟨link, hlink, hload⟩ := Option.bind_eq_some_iff.mp hnext
      obtain ⟨hdir, hdirs'⟩ := hdirs link next hlink hload
      rw [List.cons_append, linkAt_cons (by simp [hrest]), hlink, Option.bind_some, dirNode,
        if_pos hdir, hload]
      exact ih hbelow hdirs'

/-- The directories of a good tree are read alike in a later store. -/
theorem TreeOf.linkAt_eq {good : EntryProp} {world world' : World} {pins : Pins}
    (h : TreeOf good world.blobs pins node) (hgrows : Grows world world') :
    linkAt world'.blobs node names = linkAt world.blobs node names := by
  induction names generalizing node with
  | nil => rfl
  | cons name rest ih =>
      by_cases hrest : rest = []
      · subst hrest
        rfl
      · rw [linkAt_cons hrest, linkAt_cons hrest]
        cases hlink : node.getLink name with
        | none => rfl
        | some link =>
            by_cases hdir : link.isDir = true
            · obtain ⟨child, hload, htree⟩ := (h.linkOf hlink).below hdir
              simp only [Option.bind_some, dirNode, hdir, if_true, hload, hgrows.loadNode hload]
              exact ih htree
            · simp [dirNode, hdir]

/-! ## Rewrites -/

theorem Updated.grafted {node' : Node} {newLink : NodeLink}
    (h : Updated blobs newLink names name node node') :
    Grafted NodeLink.isDir (linkAt blobs node) (linkAt blobs node') (names ++ [name])
      (linkBelow blobs newLink) := by
  induction h with
  | @leaf name node =>
      refine ⟨rfl, fun rest => linkAt_insert_self, ?_, ?_⟩
      · intro path hpath hpre hne
        rcases List.prefix_concat_iff.mp hpre with heq | hnil
        · exact absurd heq hne
        · exact absurd (List.prefix_nil.mp hnil) hpath
      · intro path habove hbelow
        cases path with
        | nil => exact absurd List.nil_prefix habove
        | cons first rest =>
            apply linkAt_insert_of_ne
            rintro rfl
            exact hbelow (by simp)
  | @through next name names node child child' link secret hchild hload hrest ih =>
      have hdir : dirNode blobs (.dir link secret) = some child' := hload
      have hnext : ∀ rest, rest ≠ [] →
          linkAt blobs (node.insert next (.dir link secret)) (next :: rest) =
            linkAt blobs child' rest := by
        intro rest hne
        rw [linkAt_cons hne, Node.getLink_insert_self, Option.bind_some, hdir, Option.bind_some]
      refine ⟨rfl, ?_, ?_, ?_⟩
      · intro rest
        rw [List.cons_append, List.cons_append, hnext _ (by simp)]
        exact ih.below rest
      · intro path hpath hpre hne
        cases path with
        | nil => contradiction
        | cons first below =>
            obtain ⟨rfl, hbelow⟩ := List.cons_prefix_cons.mp hpre
            by_cases hnil : below = []
            · subst hnil
              exact ⟨.dir link secret, Node.getLink_insert_self _ _ _, rfl⟩
            · rw [hnext below hnil]
              exact ih.above below hnil hbelow (fun heq => hne (congrArg (List.cons first) heq))
      · intro path habove hbelow
        cases path with
        | nil => exact absurd List.nil_prefix habove
        | cons first rest =>
            by_cases hfirst : next = first
            · subst hfirst
              have hnil : rest ≠ [] := by
                rintro rfl
                exact habove (by simp)
              rw [hnext rest hnil, linkAt_childNode hchild hnil]
              apply ih.aside
              · exact fun hpre => habove (List.cons_prefix_cons.mpr ⟨rfl, hpre⟩)
              · exact fun hpre => hbelow (List.cons_prefix_cons.mpr ⟨rfl, hpre⟩)
            · exact linkAt_insert_of_ne hfirst

theorem linkAt_del_self : linkAt blobs (node.del name).2 (name :: rest) = none := by
  rw [linkAt_eq_linkBelow, Node.getLink_del, if_pos rfl]
  rfl

theorem linkAt_del_of_ne {first : Name} (hne : name ≠ first) :
    linkAt blobs (node.del name).2 (first :: rest) = linkAt blobs node (first :: rest) := by
  rw [linkAt_eq_linkBelow, linkAt_eq_linkBelow, Node.getLink_del, if_neg hne]

theorem grafted_del : Grafted NodeLink.isDir (linkAt blobs node)
    (linkAt blobs (node.del name).2) [name] (fun _ => none) := by
  refine ⟨rfl, fun rest => linkAt_del_self, ?_, ?_⟩
  · intro path hpath hpre hne
    rcases List.prefix_concat_iff.mp (show path <+: [] ++ [name] from hpre) with heq | hnil
    · exact absurd heq hne
    · exact absurd (List.prefix_nil.mp hnil) hpath
  · intro path habove hbelow
    cases path with
    | nil => exact absurd List.nil_prefix habove
    | cons first rest =>
        apply linkAt_del_of_ne
        rintro rfl
        exact hbelow (by simp)

/-- A node without one of its links, in the place of the node, takes the link from the tree. -/
theorem grafted_of_del {node' parentNode : Node} {parents : List Name} {newLink : NodeLink}
    (h : Grafted NodeLink.isDir (linkAt blobs node) (linkAt blobs node') parents
      (linkBelow blobs newLink))
    (hdir : newLink.isDir = true) (hload : loadNode blobs newLink = some (parentNode.del name).2)
    (hparent : ∀ rest, rest ≠ [] →
      linkAt blobs node (parents ++ rest) = linkAt blobs parentNode rest) :
    Grafted NodeLink.isDir (linkAt blobs node) (linkAt blobs node') (parents ++ [name])
      (fun _ => none) := by
  have hbelow : ∀ first rest, linkAt blobs node' (parents ++ first :: rest) =
      linkAt blobs (parentNode.del name).2 (first :: rest) := by
    intro first rest
    rw [h.below, linkBelow, dirNode, if_pos hdir, hload, Option.bind_some]
  refine ⟨h.root, ?_, ?_, ?_⟩
  · intro rest
    rw [List.append_assoc, List.singleton_append, hbelow, linkAt_del_self]
  · intro path hpath hpre hne
    rcases List.prefix_concat_iff.mp hpre with heq | hpre
    · exact absurd heq hne
    · by_cases hparents : path = parents
      · refine ⟨newLink, ?_, hdir⟩
        have hself := h.below []
        rw [List.append_nil] at hself
        rw [hparents, hself]
        rfl
      · exact h.above path hpath hpre hparents
  · intro path habove hnot
    by_cases hpre : parents <+: path
    · obtain ⟨rest, rfl⟩ := hpre
      cases rest with
      | nil =>
          rw [List.append_nil] at habove
          exact absurd (List.prefix_append _ _) habove
      | cons first rest =>
          have hne : name ≠ first := by
            rintro rfl
            exact hnot ⟨rest, by simp⟩
          rw [hbelow, linkAt_del_of_ne hne, hparent _ (by simp)]
    · apply h.aside path _ hpre
      exact fun hpath => habove (hpath.trans (List.prefix_append _ _))

end

end

end JaxFs
