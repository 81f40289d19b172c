import JaxFs.Fuse

/-!
# What the normal form of a path forgets

`InodeTable::normalize_path` and `FileCache::normalize_key` trim the whole string.  On the
paths that the requests build this forgets the blanks at the end of the last name, and a
name of blanks altogether; it forgets nothing else.
-/

namespace JaxFs

section

variable {s path parent name : Name} {c : Char}

theorem trim_of_rooted (h : path.head? = some '/') :
    trim path = path.rdropWhile isWhitespace := by
  unfold trim
  cases path with
  | nil => rfl
  | cons d rest =>
      cases h
      rfl

theorem not_blank_of_trim_eq {front : Name} (h : trim s = front ++ [c]) :
    isWhitespace c = false := by
  unfold trim at h
  have hlast := List.rdropWhile_last_not isWhitespace (s.dropWhile isWhitespace)
  rw [h] at hlast
  simpa using hlast (by simp)

/-! ## Normal forms of rooted strings, by their last character -/

/-- What `normalize_path` makes of a trimmed string before it looks at the end. -/
def withSlash (path : Name) : Name := if path.head? = some '/' then path else '/' :: path

theorem head?_withSlash (path : Name) : (withSlash path).head? = some '/' := by
  unfold withSlash
  split_ifs with hroot
  · exact hroot
  · rfl

theorem head?_append_of_rooted (h : path.head? = some '/') (rest : Name) :
    (path ++ rest).head? = some '/' := by
  simp [List.head?_append, h]

theorem withSlash_of_rooted (h : path.head? = some '/') : withSlash path = path := if_pos h

theorem withSlash_concat (h : path ++ [c] ≠ ['/']) :
    withSlash (path ++ [c]) = withSlash path ++ [c] := by
  unfold withSlash
  cases path with
  | nil =>
      have hc : c ≠ '/' := by simpa using h
      simp [hc]
  | cons d rest =>
      by_cases hd : d = '/'
      · simp [hd]
      · simp [hd]

theorem normalizePath_eq_of_trim_eq {path' : Name} (h : trim path = trim path') :
    normalizePath path = normalizePath path' := by
  unfold normalizePath
  rw [h]

/-- The normal form by the last character that is left of the string. -/
theorem normalizePath_of_trim_concat (htrim : trim s = path ++ [c])
    (hroot : path ++ [c] ≠ ['/']) :
    normalizePath s = if c = '/' then withSlash path else withSlash path ++ [c] := by
  have hpos : 0 < (withSlash path).length :=
    List.length_pos_of_ne_nil (by
      intro hnil
      have hhead := head?_withSlash path
      rw [hnil] at hhead
      contradiction)
  have hslash : (if (path ++ [c]).head? = some '/' then path ++ [c] else '/' :: (path ++ [c])) =
      withSlash path ++ [c] := withSlash_concat hroot
  have hnot : ¬ (path ++ [c] = [] ∨ path ++ [c] = ['/']) := by
    simpa using hroot
  unfold normalizePath
  simp only [htrim, if_neg hnot, hslash]
  simp [hpos]

theorem normalizePath_concat_blank (h : path.head? = some '/') (hc : isWhitespace c = true) :
    normalizePath (path ++ [c]) = normalizePath path := by
  apply normalizePath_eq_of_trim_eq
  rw [trim_of_rooted h, trim_of_rooted (head?_append_of_rooted h _),
    List.rdropWhile_concat_pos _ _ _ hc]

theorem trim_concat_of_not_blank (h : path.head? = some '/') (hc : isWhitespace c = false) :
    trim (path ++ [c]) = path ++ [c] := by
  rw [trim_of_rooted (head?_append_of_rooted h _),
    List.rdropWhile_concat_neg _ _ _ (by simp [hc])]

theorem concat_ne_root (h : path.head? = some '/') : path ++ [c] ≠ ['/'] := by
  cases path with
  | nil => contradiction
  | cons d rest => simp

theorem normalizePath_concat_slash (h : path.head? = some '/') :
    normalizePath (path ++ ['/']) = path := by
  rw [normalizePath_of_trim_concat (trim_concat_of_not_blank h (by decide)) (concat_ne_root h),
    if_pos rfl, withSlash_of_rooted h]

theorem normalizePath_concat_plain (h : path.head? = some '/') (hslash : c ≠ '/')
    (hc : isWhitespace c = false) :
    normalizePath (path ++ [c]) = path ++ [c] := by
  rw [normalizePath_of_trim_concat (trim_concat_of_not_blank h hc) (concat_ne_root h),
    if_neg hslash, withSlash_of_rooted h]

/-- The rooted strings in normal form. -/
theorem normalizePath_eq_self_iff (h : path.head? = some '/') :
    normalizePath path = path ↔
      path = ['/'] ∨ ∀ c, path.getLast? = some c → c ≠ '/' ∧ isWhitespace c = false := by
  rcases List.eq_nil_or_concat path with rfl | ⟨front, c, rfl⟩
  · contradiction
  · rw [List.concat_eq_append] at h ⊢
    cases front with
    | nil =>
        cases h
        exact iff_of_true rfl (Or.inl rfl)
    | cons d rest =>
        cases h
        have hfront : ('/' :: rest).head? = some '/' := rfl
        generalize '/' :: rest = front at hfront ⊢
        have hroot : front ++ [c] ≠ ['/'] := concat_ne_root hfront
        by_cases hblank : isWhitespace c = true
        · have hne : normalizePath (front ++ [c]) ≠ front ++ [c] := by
            intro heq
            have hle := length_normalizePath_le hfront
            have hlength := congrArg List.length heq
            rw [normalizePath_concat_blank hfront hblank] at hlength
            simp at hlength
            omega
          simp [hne, hroot, hblank]
        · have hplain : isWhitespace c = false := by simpa using hblank
          by_cases hslash : c = '/'
          · subst hslash
            rw [normalizePath_concat_slash hfront]
            simp [hroot]
          · rw [normalizePath_concat_plain hfront hslash hplain]
            simp [hslash, hplain]

end

/-! ## Idempotence -/

/-- Once it is trimmed, the string does not end in a slash that stands behind a blank or
behind another slash; two slashes alone are allowed. -/
def SingleSlashEnd (s : Name) : Prop :=
  ∀ front c, trim s = front ++ [c, '/'] →
    front ++ [c] = ['/'] ∨ (c ≠ '/' ∧ isWhitespace c = false)

theorem singleSlashEnd_iff_of_trim_concat {s path : Name} {c : Char}
    (htrim : trim s = path ++ [c]) :
    SingleSlashEnd s ↔ (c = '/' → ∀ front d, path = front ++ [d] →
      path = ['/'] ∨ (d ≠ '/' ∧ isWhitespace d = false)) := by
  unfold SingleSlashEnd
  rw [htrim]
  constructor
  · rintro h rfl front d rfl
    exact h front d (by simp)
  · intro h front d heq
    have hsplit : path ++ [c] = (front ++ [d]) ++ ['/'] := by simpa using heq
    obtain ⟨hpath, hc⟩ := List.append_inj' hsplit rfl
    have hlast := h (List.singleton_inj.mp hc) front d hpath
    rwa [hpath] at hlast

theorem normalizePath_idempotent_iff (s : Name) :
    normalizePath (normalizePath s) = normalizePath s ↔ SingleSlashEnd s := by
  rw [normalizePath_eq_self_iff (head?_normalizePath s)]
  rcases List.eq_nil_or_concat (trim s) with htrim | ⟨path, c, htrim⟩
  · simp [SingleSlashEnd, htrim, normalizePath]
  · rw [List.concat_eq_append] at htrim
    rw [singleSlashEnd_iff_of_trim_concat htrim]
    by_cases hroot : path ++ [c] = ['/']
    · have hpath : path = [] := by
        have hlength := congrArg List.length hroot
        simpa using hlength
      subst hpath
      have hc : c = '/' := by simpa using hroot
      simp [normalizePath, htrim, hc]
    · rw [normalizePath_of_trim_concat htrim hroot]
      by_cases hslash : c = '/'
      · subst hslash
        rw [if_pos rfl]
        rcases List.eq_nil_or_concat path with rfl | ⟨front, d, rfl⟩
        · exact absurd rfl hroot
        · rw [List.concat_eq_append]
          by_cases hdouble : front ++ [d] = ['/']
          · simp [hdouble, withSlash]
          · have hlong : withSlash front ++ [d] ≠ ['/'] :=
              concat_ne_root (head?_withSlash front)
            rw [withSlash_concat hdouble]
            simp [hlong, hdouble]
      · simp [hslash, not_blank_of_trim_eq htrim]

/-! ## Paths that the requests build -/

/-- A name as a directory may hold it: any characters but the slash. -/
structure FileName (name : Name) : Prop where
  ne_nil : name ≠ []
  no_slash : '/' ∉ name

/-- A path without the blanks at the end of its last name, and without a last name of
blanks. -/
def withoutLastBlanks (names : List Name) : List Name :=
  match (names.getLast?.getD []).rdropWhile isWhitespace with
  | [] => names.dropLast
  | name => names.dropLast ++ [name]

section

variable {names names' : List Name} {name : Name}

theorem beforeSlash_injOn {parent parent' : Name} (h : parent.head? = some '/')
    (h' : parent'.head? = some '/') (heq : beforeSlash parent = beforeSlash parent') :
    parent = parent' := by
  unfold beforeSlash at heq
  split_ifs at heq with hroot hroot' hroot'
  · rw [hroot, hroot']
  · rw [← heq] at h'
    contradiction
  · rw [heq] at h
    contradiction
  · exact heq

/-- The string of a path determines its names. -/
theorem pathString_injOn_fileNames (h : ∀ name ∈ names, FileName name)
    (h' : ∀ name ∈ names', FileName name) :
    pathString names = pathString names' ↔ names = names' := by
  constructor
  · intro heq
    induction names using List.reverseRecOn generalizing names' with
    | nil =>
        rcases List.eq_nil_or_concat names' with rfl | ⟨parents, name, rfl⟩
        · rfl
        · rw [List.concat_eq_append] at h' heq
          rw [pathString_concat] at heq
          exact absurd heq.symm (joinPath_ne_root _ (h' name (by simp)).ne_nil)
    | append_singleton parents name ih =>
        have hname := h name (by simp)
        rcases List.eq_nil_or_concat names' with rfl | ⟨parents', name', rfl⟩
        · rw [pathString_concat] at heq
          exact absurd heq (joinPath_ne_root _ hname.ne_nil)
        · rw [List.concat_eq_append] at h' heq ⊢
          have hname' := h' name' (by simp)
          rw [pathString_concat, pathString_concat] at heq
          have hlast : name = name' := by
            rw [← rtakeWhile_joinPath (pathString parents) hname.no_slash, heq,
              rtakeWhile_joinPath _ hname'.no_slash]
          have hbefore : beforeSlash (pathString parents) ++ ['/'] =
              beforeSlash (pathString parents') ++ ['/'] := by
            rw [← rdropWhile_joinPath _ hname.no_slash, heq,
              rdropWhile_joinPath _ hname'.no_slash]
          have hparents := beforeSlash_injOn (head?_pathString parents)
            (head?_pathString parents') (List.append_cancel_right hbefore)
          rw [hlast, ih (fun other hother => h other (by simp [hother]))
            (fun other hother => h' other (by simp [hother])) hparents]
  · rintro rfl
    rfl

/-- The blanks at the end of the last name are what a normal form forgets. -/
theorem normalizePath_pathString_concat (names : List Name) (name : Name) (hslash : '/' ∉ name) :
    normalizePath (pathString (names ++ [name])) =
      match name.rdropWhile isWhitespace with
      | [] => pathString names
      | d :: rest => pathString (names ++ [d :: rest]) := by
  have hparent := head?_pathString names
  have hrooted : ∀ last, (beforeSlash (pathString names) ++ '/' :: last).head? = some '/' := by
    intro last
    rw [← joinPath_eq]
    exact head?_joinPath hparent last
  rw [pathString_concat, joinPath_eq]
  induction name using List.reverseRecOn with
  | nil =>
      rw [List.rdropWhile_nil]
      unfold beforeSlash
      split_ifs with hroot
      · rw [hroot]
        rfl
      · exact normalizePath_concat_slash hparent
  | append_singleton front c ih =>
      have hfront : '/' ∉ front := fun hmem => hslash (List.mem_append_left _ hmem)
      have hc : c ≠ '/' := by
        rintro rfl
        simp at hslash
      rw [← List.cons_append, ← List.append_assoc]
      by_cases hblank : isWhitespace c = true
      · rw [normalizePath_concat_blank (hrooted front) hblank, ih hfront,
          List.rdropWhile_concat_pos _ _ _ hblank]
      · rw [normalizePath_concat_plain (hrooted front) hc (by simpa using hblank),
          List.rdropWhile_concat_neg _ _ _ hblank]
        cases hlast : front ++ [c] with
        | nil => simp at hlast
        | cons d rest => simp [pathString_concat, joinPath_eq, ← hlast]

theorem withoutLastBlanks_concat (names : List Name) (name : Name) :
    withoutLastBlanks (names ++ [name]) =
      match name.rdropWhile isWhitespace with
      | [] => names
      | d :: rest => names ++ [d :: rest] := by
  unfold withoutLastBlanks
  rw [List.getLast?_concat, List.dropLast_concat, Option.getD_some]
  cases name.rdropWhile isWhitespace <;> rfl

theorem normalizePath_pathString_eq (h : ∀ name ∈ names, FileName name) :
    normalizePath (pathString names) = pathString (withoutLastBlanks names) := by
  rcases List.eq_nil_or_concat names with rfl | ⟨parents, name, rfl⟩
  · rfl
  · rw [List.concat_eq_append] at h ⊢
    rw [normalizePath_pathString_concat _ _ (h name (by simp)).no_slash,
      withoutLastBlanks_concat]
    cases name.rdropWhile isWhitespace <;> rfl

theorem fileName_withoutLastBlanks (h : ∀ name ∈ names, FileName name) :
    ∀ name ∈ withoutLastBlanks names, FileName name := by
  rcases List.eq_nil_or_concat names with rfl | ⟨parents, last, rfl⟩
  · simp [withoutLastBlanks]
  · rw [List.concat_eq_append] at h ⊢
    have hlast := h last (by simp)
    have hparents : ∀ name ∈ parents, FileName name :=
      fun name hname => h name (by simp [hname])
    rw [withoutLastBlanks_concat]
    cases hstripped : last.rdropWhile isWhitespace with
    | nil => exact hparents
    | cons d rest =>
        intro name hname
        rcases List.mem_append.mp hname with hmem | hmem
        · exact hparents name hmem
        · rw [List.mem_singleton] at hmem
          have hpre := List.rdropWhile_prefix isWhitespace last
          rw [hstripped, ← hmem] at hpre
          exact ⟨by simp [hmem], fun hc => hlast.no_slash (hpre.subset hc)⟩

/-- Two paths have one normal form exactly when they differ in trailing blanks only. -/
theorem normalizePath_pathString_eq_iff (h : ∀ name ∈ names, FileName name)
    (h' : ∀ name ∈ names', FileName name) :
    normalizePath (pathString names) = normalizePath (pathString names') ↔
      withoutLastBlanks names = withoutLastBlanks names' := by
  rw [normalizePath_pathString_eq h, normalizePath_pathString_eq h',
    pathString_injOn_fileNames (fileName_withoutLastBlanks h) (fileName_withoutLastBlanks h')]

end

/-- `normalize` keeps the two paths apart. -/
def Separates (normalize : Name → Name) (names names' : List Name) : Prop :=
  pathString names ≠ pathString names' →
    normalize (pathString names) ≠ normalize (pathString names')

def Idempotent (normalize : Name → Name) (s : Name) : Prop :=
  normalize (normalize s) = normalize s

/-- The inode table and the file cache keep apart the paths that differ in more than the
blanks at their ends, and their normal forms are stable on the strings that end
in a single slash at most. -/
theorem normal_forms_iff {names names' : List Name} (h : ∀ name ∈ names, FileName name)
    (h' : ∀ name ∈ names', FileName name) (s : Name) :
    ((Separates normalizePath names names' ∧ Separates FileCache.normalizeKey names names') ↔
      (names ≠ names' → withoutLastBlanks names ≠ withoutLastBlanks names')) ∧
    ((Idempotent normalizePath s ∧ Idempotent FileCache.normalizeKey s) ↔ SingleSlashEnd s) := by
  have hkey : FileCache.normalizeKey = normalizePath := rfl
  constructor
  · unfold Separates
    rw [hkey, and_self, Ne, Ne, pathString_injOn_fileNames h h',
      normalizePath_pathString_eq_iff h h']
  · unfold Idempotent
    rw [hkey, and_self, normalizePath_idempotent_iff]

namespace InodeTable

variable (table : InodeTable)

theorem getInode_getOrCreate (path : Name) :
    (table.getOrCreate path).2.getInode path = some (table.getOrCreate path).1 := by
  unfold getInode getOrCreate
  cases hold : table.pathToInode.get? (normalizePath path) with
  | some inode => exact hold
  | none => simp

variable {table} in
theorem getPath_getOrCreate_of_some {inode : ℕ} {path : Name}
    (h : table.getPath inode = some path) (other : Name) :
    (table.getOrCreate other).2.getPath inode = some path := by
  have hlt := table.below inode path h
  unfold getOrCreate
  cases table.pathToInode.get? (normalizePath other) with
  | some found => exact h
  | none =>
      have hne : table.nextInode ≠ inode := by omega
      simpa [getPath, FinMap.get?_put, hne] using h

/-- What a collision means: the table has one number for both paths. -/
theorem getOrCreate_eq_iff (path path' : Name) :
    ((table.getOrCreate path).2.getOrCreate path').1 = (table.getOrCreate path).1 ↔
      normalizePath path = normalizePath path' := by
  have hpath := getPath_getOrCreate_of_some (table.getPath_getOrCreate path) path'
  have hpath' := (table.getOrCreate path).2.getPath_getOrCreate path'
  have hknown := table.getInode_getOrCreate path
  constructor
  · intro heq
    rw [heq, hpath] at hpath'
    exact Option.some.inj hpath'
  · intro heq
    unfold getInode at hknown
    rw [heq] at hknown
    generalize (table.getOrCreate path).1 = inode at hknown
    unfold getOrCreate at hknown ⊢
    simp [hknown]

end InodeTable

namespace Reference

/-- `/a` and `/b/c ` are kept apart, and `/a` is normal. -/
theorem plain_names_separated :
    ((Separates normalizePath ["a".toList] ["b".toList, "c ".toList] ∧
        Separates FileCache.normalizeKey ["a".toList] ["b".toList, "c ".toList]) ↔
      (["a".toList] ≠ ["b".toList, "c ".toList] →
        withoutLastBlanks ["a".toList] ≠ withoutLastBlanks ["b".toList, "c ".toList])) ∧
    ((Idempotent normalizePath "/a".toList ∧ Idempotent FileCache.normalizeKey "/a".toList) ↔
      SingleSlashEnd "/a".toList) := by
  apply normal_forms_iff
  · intro name hname
    rw [List.mem_singleton] at hname
    rw [hname]
    exact ⟨by decide, by decide⟩
  · intro name hname
    simp only [List.mem_cons, List.not_mem_nil, or_false] at hname
    rcases hname with rfl | rfl
    · exact ⟨by decide, by decide⟩
    · exact ⟨by decide, by decide⟩

/-- `/a` and `/a` with a blank behind it are one path to the table, and a path is not
always normal after one round. -/
theorem blank_name_collides :
    ¬ Separates normalizePath ["a".toList] ["a ".toList] ∧
      ¬ Separates FileCache.normalizeKey ["a".toList] ["a ".toList] ∧
      ¬ Idempotent normalizePath "a//".toList ∧
      ¬ Idempotent FileCache.normalizeKey "a//".toList := by
  unfold Separates Idempotent
  decide

end Reference

end JaxFs
