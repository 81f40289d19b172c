import JaxFs.LogProviders

/-!
# Logs filled in another order

Peers receive the same entries in different orders.  The order does not touch the
heights, the links of a height or the canonical head, which are functions of the set of
entries.  The latest published version is chosen by the order: a link carries the flag of
its last entry, and of several published links at one height the first one wins.
-/

namespace JaxFs

open BucketLogProvider LogEntry MemoryBucketLogProviderInner

/-- One of the entries is a version on top of another one. -/
def ExtendsIn (entries : List LogEntry) (e f : LogEntry) : Prop :=
  e ∈ entries ∧ f ∈ entries ∧ e.Extends f

/-- No later version on top of the entry has its link again. -/
def Final (entries : List LogEntry) (e : LogEntry) : Prop :=
  ∀ f, Relation.TransGen (ExtendsIn entries) e f → f.link ≠ e.link

/-- In some order the last entry of the link is published. -/
def Publishable (entries : List LogEntry) (id : Uuid) (link : Link) : Prop :=
  ∃ e ∈ entries, e.bucketId = id ∧ e.link = link ∧ Final entries e ∧ e.published = true

/-- In every order the last entry of the link is published. -/
def AlwaysPublished (entries : List LogEntry) (id : Uuid) (link : Link) : Prop :=
  ∀ e ∈ entries, e.bucketId = id → e.link = link → Final entries e → e.published = true

/-- No link can come out as published, or one always does and every other one that can
has smaller heights only. -/
def OrderSettled (entries : List LogEntry) (id : Uuid) : Prop :=
  (∀ link, ¬ Publishable entries id link) ∨
    ∃ top ∈ entries, top.bucketId = id ∧ AlwaysPublished entries id top.link ∧
      ∀ e ∈ entries, e.bucketId = id → e.link ≠ top.link →
        Publishable entries id e.link → e.height < top.height

/-- The lists have the same members. -/
def SameMembers {α : Type*} (l l' : List α) : Prop := ∀ a, a ∈ l' ↔ a ∈ l

section

variable {entries entries' : List LogEntry} {e f : LogEntry} {id : Uuid} {link : Link}

theorem height_lt_of_transGen (h : Relation.TransGen (ExtendsIn entries) e f) :
    e.height < f.height ∧ e.bucketId = f.bucketId ∧ f ∈ entries := by
  induction h with
  | single hstep =>
      obtain ⟨_, hmem, hid, _, hheight⟩ := hstep
      exact ⟨by omega, hid, hmem⟩
  | tail _ hstep ih =>
      obtain ⟨_, hmem, hid, _, hheight⟩ := hstep
      exact ⟨by omega, ih.2.1.trans hid, hmem⟩

/-! ## What depends on the set of entries only -/

theorem SameMembers.extendsIn_iff (h : SameMembers entries entries') :
    ExtendsIn entries' = ExtendsIn entries := by
  funext e f
  unfold ExtendsIn
  rw [h e, h f]

theorem SameMembers.final_iff (h : SameMembers entries entries') :
    Final entries' e ↔ Final entries e := by
  unfold Final
  rw [h.extendsIn_iff]

theorem SameMembers.publishable_iff (h : SameMembers entries entries') :
    Publishable entries' id link ↔ Publishable entries id link := by
  unfold Publishable
  simp only [h.final_iff, h _]

theorem SameMembers.alwaysPublished_iff (h : SameMembers entries entries') :
    AlwaysPublished entries' id link ↔ AlwaysPublished entries id link := by
  unfold AlwaysPublished
  simp only [h.final_iff, h _]

theorem SameMembers.heightsIn_eq (h : SameMembers entries entries') :
    heightsIn entries' id = heightsIn entries id := by
  unfold heightsIn
  simp only [h _]

theorem SameMembers.maximum_eq {α : Type*} [LinearOrder α] {l l' : List α}
    (h : SameMembers l l') : l'.maximum = l.maximum := by
  cases hmax : l.maximum with
  | bot =>
      rw [List.maximum_eq_bot] at hmax ⊢
      exact List.eq_nil_iff_forall_not_mem.mpr (fun a ha => by simpa [hmax] using (h a).mp ha)
  | coe top =>
      rw [List.maximum_eq_coe_iff] at hmax ⊢
      exact ⟨(h top).mpr hmax.1, fun a ha => hmax.2 a ((h a).mp ha)⟩

/-! ## The last entry of a link -/

theorem Recorded.nodup (h : Recorded entries) : entries.Nodup := by
  refine (AllowedFrom.nodup ?_ h).1
  intro past a ha hadmitted
  exact hadmitted.1 a ha ⟨rfl, rfl, rfl⟩

/-- An entry is determined by its bucket, height and link. -/
theorem Recorded.eq_of_sameSlot (h : Recorded entries) (he : e ∈ entries)
    (hf : f ∈ entries) (hsame : e.SameSlot f) : e = f := by
  obtain ⟨before, after, rfl⟩ := List.append_of_mem he
  rcases List.mem_append.mp hf with hbefore | hafter
  · have hadmitted := AllowedFrom.allows_of_append_cons h
    rw [Set.empty_union] at hadmitted
    exact absurd hsame.symm (hadmitted.1 f hbefore)
  · rcases List.mem_cons.mp hafter with heq | hafter
    · exact heq.symm
    · obtain ⟨middle, rest, rfl⟩ := List.append_of_mem hafter
      rw [← List.cons_append, ← List.append_assoc] at h
      have hadmitted := AllowedFrom.allows_of_append_cons h
      rw [Set.empty_union] at hadmitted
      exact absurd hsame (hadmitted.1 e (List.mem_append_right _ List.mem_cons_self))

/-- The entry below comes first. -/
theorem Recorded.mem_of_extends {before after : List LogEntry}
    (h : Recorded (before ++ after)) (hf : f ∈ before) (he : e ∈ before ++ after)
    (hextends : e.Extends f) : e ∈ before := by
  have hbefore : Recorded before := (AllowedFrom.append_iff.mp h).1
  have hsupported := hbefore.supported hf
  unfold Supported at hsupported
  rw [hextends.2.1] at hsupported
  obtain ⟨below, hbelow, hid, hlink, hheight⟩ := hsupported
  rw [hextends.2.1] at hlink
  have hsame : below.SameSlot e := by
    refine ⟨hid.trans hextends.1.symm, ?_, (Option.some.inj hlink).symm⟩
    have := hextends.2.2
    omega
  rw [← h.eq_of_sameSlot (List.mem_append_left _ hbelow) he hsame]
  exact hbelow

theorem Recorded.mem_of_transGen {before after : List LogEntry}
    (h : Recorded (before ++ after)) (hf : f ∈ before)
    (hdescends : Relation.TransGen (ExtendsIn (before ++ after)) e f) : e ∈ before := by
  induction hdescends with
  | single hstep => exact h.mem_of_extends hf hstep.1 hstep.2.2
  | tail _ hstep ih => exact ih (h.mem_of_extends hf hstep.1 hstep.2.2)

theorem mem_entriesOf_iff :
    e ∈ entriesOf entries id link ↔ e ∈ entries ∧ e.bucketId = id ∧ e.link = link := by
  unfold entriesOf
  rw [List.mem_filter, decide_eq_true_eq]

/-- The last entry of a link is one that can be last. -/
theorem Recorded.final_of_getLast? (h : Recorded entries)
    (hlast : (entriesOf entries id link).getLast? = some e) : Final entries e := by
  intro f hdescends hlink
  obtain ⟨others, hothers⟩ := List.getLast?_eq_some_iff.mp hlast
  have hmem : e ∈ entriesOf entries id link := by
    rw [hothers]
    simp
  obtain ⟨_, hid, helink⟩ := mem_entriesOf_iff.mp hmem
  obtain ⟨first, second, hsplit, _, hsecond⟩ := List.filter_eq_append_iff.mp hothers
  obtain ⟨middle, after, hmiddle, _, _, hafter⟩ := List.filter_eq_cons_iff.mp hsecond
  have hentries : entries = (first ++ middle) ++ e :: after := by
    rw [hsplit, hmiddle, List.append_assoc]
  obtain ⟨hheight, hfid, hf⟩ := height_lt_of_transGen hdescends
  have hbefore : f ∈ first ++ middle := by
    rw [hentries] at hf
    rcases List.mem_append.mp hf with hbefore | hrest
    · exact hbefore
    · rcases List.mem_cons.mp hrest with heq | hlate
      · rw [heq] at hheight
        omega
      · have hnone := List.filter_eq_nil_iff.mp hafter f hlate
        exact absurd (decide_eq_true ⟨hfid.symm.trans hid, hlink.trans helink⟩) hnone
  rw [hentries] at h hdescends
  have hin := h.mem_of_transGen hbefore hdescends
  have hnodup := h.nodup
  rw [List.nodup_append] at hnodup
  exact hnodup.2.2 e hin e List.mem_cons_self rfl

theorem Recorded.publishable_of_flagged (h : Recorded entries)
    (hflagged : flagged entries id link = true) : Publishable entries id link := by
  unfold flagged at hflagged
  cases hlast : (entriesOf entries id link).getLast? with
  | none => simp [hlast] at hflagged
  | some e =>
      obtain ⟨hmem, hid, hlink⟩ := mem_entriesOf_iff.mp (List.mem_of_getLast? hlast)
      rw [hlast] at hflagged
      exact ⟨e, hmem, hid, hlink, h.final_of_getLast? hlast, hflagged⟩

theorem Recorded.flagged_of_alwaysPublished (h : Recorded entries) (he : e ∈ entries)
    (hid : e.bucketId = id) (halways : AlwaysPublished entries id e.link) :
    flagged entries id e.link = true := by
  unfold flagged
  cases hlast : (entriesOf entries id e.link).getLast? with
  | none =>
      rw [List.getLast?_eq_none_iff] at hlast
      have hmem : e ∈ entriesOf entries id e.link := mem_entriesOf_iff.mpr ⟨he, hid, rfl⟩
      rw [hlast] at hmem
      exact absurd hmem List.not_mem_nil
  | some last =>
      obtain ⟨hmem, hlid, hlink⟩ := mem_entriesOf_iff.mp (List.mem_of_getLast? hlast)
      exact halways last hmem hlid hlink (h.final_of_getLast? hlast)

/-! ## Settled buckets -/

theorem mem_entriesAt_iff {height : ℕ} :
    e ∈ entriesAt entries id height ↔
      e ∈ entries ∧ e.bucketId = id ∧ e.height = height := by
  unfold entriesAt
  rw [List.mem_filter, decide_eq_true_eq]

/-- What is found is a published link at its height. -/
theorem IsLatestPublished.exists_entry {best : ℕ}
    (h : IsLatestPublished entries id (some (link, best))) :
    flagged entries id link = true ∧
      ∃ e ∈ entries, e.bucketId = id ∧ e.height = best ∧ e.link = link := by
  obtain ⟨hfind, _⟩ := h
  refine ⟨List.find?_some hfind, ?_⟩
  obtain ⟨e, he, hlink⟩ := List.mem_map.mp (List.mem_of_find?_eq_some hfind)
  obtain ⟨hmem, hid, hheight⟩ := mem_entriesAt_iff.mp he
  exact ⟨e, hmem, hid, hheight, hlink⟩

theorem IsLatestPublished.height_le {best : ℕ}
    (h : IsLatestPublished entries id (some (link, best))) (he : e ∈ entries)
    (hid : e.bucketId = id) (hflagged : flagged entries id e.link = true) :
    e.height ≤ best := by
  by_contra hhigher
  have hnot := h.2 e he hid (not_le.mp hhigher)
  rw [hflagged] at hnot
  contradiction

/-- In a settled bucket the latest published version is the greatest entry of the link
that always comes out as published. -/
theorem latest_of_settled (hrecorded : Recorded entries) {top : LogEntry}
    (htop : top ∈ entries) (hid : top.bucketId = id)
    (halways : AlwaysPublished entries id top.link)
    (hsmaller : ∀ e ∈ entries, e.bucketId = id → e.link ≠ top.link →
      Publishable entries id e.link → e.height < top.height)
    {result : Option (Link × ℕ)} (h : IsLatestPublished entries id result) :
    ∃ best, result = some (top.link, best) ∧
      (∃ e ∈ entries, e.bucketId = id ∧ e.height = best ∧ e.link = top.link) ∧
      ∀ e ∈ entries, e.bucketId = id → e.link = top.link → e.height ≤ best := by
  have hflagged := hrecorded.flagged_of_alwaysPublished htop hid halways
  cases result with
  | none =>
      have hnot := h top htop hid
      rw [hflagged] at hnot
      contradiction
  | some found =>
      obtain ⟨link, best⟩ := found
      obtain ⟨hfound, e, he, heid, hheight, helink⟩ := IsLatestPublished.exists_entry h
      have hle := IsLatestPublished.height_le h htop hid hflagged
      have hlink : link = top.link := by
        by_contra hne
        have hpublishable := hrecorded.publishable_of_flagged hfound
        have hlt := hsmaller e he heid (by rw [helink]; exact hne)
          (by rw [helink]; exact hpublishable)
        omega
      refine ⟨best, by rw [hlink], ⟨e, he, heid, hheight, by rw [helink, hlink]⟩, ?_⟩
      intro f hf hfid hflink
      exact IsLatestPublished.height_le h hf hfid (by rw [hflink]; exact hflagged)

theorem latest_eq_of_settled (hrecorded : Recorded entries) (hrecorded' : Recorded entries')
    (hsame : SameMembers entries entries') (hsettled : OrderSettled entries id)
    {result result' : Option (Link × ℕ)} (h : IsLatestPublished entries id result)
    (h' : IsLatestPublished entries' id result') : result' = result := by
  rcases hsettled with hnone | ⟨top, htop, hid, halways, hsmaller⟩
  · have hempty : ∀ {l : List LogEntry} {found : Option (Link × ℕ)}, Recorded l →
        SameMembers entries l → IsLatestPublished l id found → found = none := by
      intro l found hl hmembers hlatest
      cases found with
      | none => rfl
      | some found =>
          obtain ⟨link, best⟩ := found
          have hpublishable :=
            hl.publishable_of_flagged (IsLatestPublished.exists_entry hlatest).1
          exact absurd (hmembers.publishable_iff.mp hpublishable) (hnone link)
    rw [hempty hrecorded (fun _ => Iff.rfl) h, hempty hrecorded' hsame h']
  · obtain ⟨best, hbest, ⟨e, he, heid, hheight, hlink⟩, hmax⟩ :=
      latest_of_settled hrecorded htop hid halways hsmaller h
    obtain ⟨best', hbest', ⟨e', he', heid', hheight', hlink'⟩, hmax'⟩ :=
      latest_of_settled hrecorded' ((hsame top).mpr htop) hid
        (hsame.alwaysPublished_iff.mpr halways)
        (fun f hf hfid hne hpublishable => hsmaller f ((hsame f).mp hf) hfid hne
          (hsame.publishable_iff.mp hpublishable)) h'
    have hle := hmax e' ((hsame e').mp he') heid' hlink'
    have hle' := hmax' e ((hsame e).mpr he) heid hlink
    rw [hbest, hbest', show best' = best by omega]

/-! ## Other orders -/

open Classical in
/-- The order in which an entry and the versions on top of it come last. -/
noncomputable def postponed (entries : List LogEntry) (e : LogEntry) : List LogEntry :=
  entries.filter (fun f => decide (¬ Relation.ReflTransGen (ExtendsIn entries) e f)) ++
    entries.filter (fun f => decide (Relation.ReflTransGen (ExtendsIn entries) e f))

theorem Recorded.postponed (h : Recorded entries) (e : LogEntry) :
    Recorded (postponed entries e) := by
  classical
  refine AllowedFrom.postpone independentUnless_extends ?_ h
  intro a ha b hb hlate hextends
  exact hlate.tail ⟨ha, hb, hextends⟩

theorem sameMembers_postponed (entries : List LogEntry) (e : LogEntry) :
    SameMembers entries (postponed entries e) := by
  classical
  intro f
  unfold postponed
  rw [List.mem_append, List.mem_filter, List.mem_filter, ← and_or_left, and_iff_left]
  by_cases hlate : Relation.ReflTransGen (ExtendsIn entries) e f
  · exact Or.inr (decide_eq_true hlate)
  · exact Or.inl (decide_eq_true hlate)

/-- An entry that can be the last one of its link is so when it is postponed. -/
theorem getLast?_postponed (he : e ∈ entries) (hfinal : Final entries e) :
    (entriesOf (postponed entries e) e.bucketId e.link).getLast? = some e := by
  classical
  have honly : ∀ f ∈ entriesOf (entries.filter (fun f =>
      decide (Relation.ReflTransGen (ExtendsIn entries) e f))) e.bucketId e.link, f = e := by
    intro f hf
    obtain ⟨hmem, _, hlink⟩ := mem_entriesOf_iff.mp hf
    have hlate := of_decide_eq_true (List.mem_filter.mp hmem).2
    rcases Relation.reflTransGen_iff_eq_or_transGen.mp hlate with heq | hdescends
    · exact heq
    · exact absurd hlink (hfinal f hdescends)
  have hmem : e ∈ entriesOf (entries.filter (fun f =>
      decide (Relation.ReflTransGen (ExtendsIn entries) e f))) e.bucketId e.link :=
    mem_entriesOf_iff.mpr ⟨List.mem_filter.mpr ⟨he, decide_eq_true .refl⟩, rfl, rfl⟩
  unfold postponed
  rw [entriesOf, List.filter_append, List.getLast?_append]
  change (entriesOf _ _ _).getLast?.or _ = _
  cases hlast : (entriesOf (entries.filter (fun f =>
      decide (Relation.ReflTransGen (ExtendsIn entries) e f))) e.bucketId
        e.link).getLast? with
  | none =>
      rw [List.getLast?_eq_none_iff] at hlast
      rw [hlast] at hmem
      exact absurd hmem List.not_mem_nil
  | some last =>
      rw [honly last (List.mem_of_getLast? hlast)]
      rfl

theorem flagged_postponed (he : e ∈ entries) (hfinal : Final entries e) :
    flagged (postponed entries e) e.bucketId e.link = e.published := by
  unfold flagged
  rw [getLast?_postponed he hfinal]
  rfl

/-- Postponing an entry does not touch the entries of a link that none of the versions
on top of it has. -/
theorem entriesOf_postponed
    (hnone : ∀ f, Relation.ReflTransGen (ExtendsIn entries) e f → f.link ≠ link) :
    entriesOf (postponed entries e) id link = entriesOf entries id link := by
  classical
  unfold postponed entriesOf
  rw [List.filter_append, List.filter_filter, List.filter_filter]
  have hlate : entries.filter (fun f => decide (f.bucketId = id ∧ f.link = link) &&
      decide (Relation.ReflTransGen (ExtendsIn entries) e f)) = [] := by
    refine List.filter_eq_nil_iff.mpr (fun f _ hboth => ?_)
    obtain ⟨hat, hdescends⟩ := (Bool.and_eq_true_iff).mp hboth
    exact hnone f (of_decide_eq_true hdescends) (of_decide_eq_true hat).2
  rw [hlate, List.append_nil]
  refine List.filter_congr (fun f _ => ?_)
  by_cases hat : f.bucketId = id ∧ f.link = link
  · have hearly : ¬ Relation.ReflTransGen (ExtendsIn entries) e f :=
      fun hdescends => hnone f hdescends hat.2
    rw [decide_eq_true hat, decide_eq_true hearly]
    rfl
  · rw [decide_eq_false hat]
    rfl

/-- When an entry is postponed, every other entry of its height comes first. -/
theorem find?_entriesAt_postponed (h : Recorded entries) (hz : e ∈ entries)
    (hf : f ∈ entries) (hid : f.bucketId = e.bucketId) (hheight : f.height = e.height)
    (hne : f.link ≠ e.link) {pred : Link → Bool} (hpred : pred f.link = true) :
    ((entriesAt (postponed entries e) e.bucketId e.height).map LogEntry.link).find? pred ≠
      some e.link := by
  classical
  have hnotlate : ¬ Relation.ReflTransGen (ExtendsIn entries) e f := by
    intro hlate
    rcases Relation.reflTransGen_iff_eq_or_transGen.mp hlate with heq | hdescends
    · exact hne (congrArg LogEntry.link heq)
    · have hlt := (height_lt_of_transGen hdescends).1
      omega
  have hmem : f.link ∈ (entriesAt (entries.filter (fun f =>
      decide (¬ Relation.ReflTransGen (ExtendsIn entries) e f))) e.bucketId
        e.height).map LogEntry.link :=
    List.mem_map_of_mem (mem_entriesAt_iff.mpr
      ⟨List.mem_filter.mpr ⟨hf, decide_eq_true hnotlate⟩, hid, hheight⟩)
  unfold postponed entriesAt
  rw [List.filter_append, List.map_append, List.find?_append]
  change (((entriesAt _ _ _).map LogEntry.link).find? pred).or _ ≠ _
  cases hfind : ((entriesAt (entries.filter (fun f =>
      decide (¬ Relation.ReflTransGen (ExtendsIn entries) e f))) e.bucketId
        e.height).map LogEntry.link).find? pred with
  | none => exact absurd hpred (List.find?_eq_none.mp hfind f.link hmem)
  | some first =>
      intro heq
      cases heq
      obtain ⟨g, hg, hlink⟩ := List.mem_map.mp (List.mem_of_find?_eq_some hfind)
      obtain ⟨hgmem, hgid, hgheight⟩ := mem_entriesAt_iff.mp hg
      obtain ⟨hgin, hgearly⟩ := List.mem_filter.mp hgmem
      have hsame : g = e := h.eq_of_sameSlot hgin hz ⟨hgid, hgheight, hlink⟩
      rw [hsame] at hgearly
      exact of_decide_eq_true hgearly .refl

/-- Among the entries whose link can come out as published one is greatest. -/
theorem exists_greatest_publishable (hpublishable : Publishable entries id link) :
    ∃ x ∈ entries, x.bucketId = id ∧ Publishable entries id x.link ∧
      ∀ y ∈ entries, y.bucketId = id → Publishable entries id y.link →
        y.height ≤ x.height := by
  obtain ⟨e, he, hid, hlink, hrest⟩ := hpublishable
  have hfinite : {x | x ∈ entries ∧ x.bucketId = id ∧
      Publishable entries id x.link}.Finite :=
    (List.finite_toSet entries).subset (fun x hx => hx.1)
  obtain ⟨x, ⟨hx, hxid, hxp⟩, hmax⟩ := hfinite.exists_maximalFor LogEntry.height _
    ⟨e, he, hid, e, he, hid, rfl, hrest⟩
  refine ⟨x, hx, hxid, hxp, fun y hy hyid hyp => ?_⟩
  by_contra hhigher
  have hle := hmax ⟨hy, hyid, hyp⟩ (not_le.mp hhigher).le
  omega

/-- Postponing an entry of the greatest height leaves every other link as published as it
was. -/
theorem flagged_postponed_of_greatest (hid : e.bucketId = id)
    (hgreatest : ∀ f ∈ entries, f.bucketId = id → Publishable entries id f.link →
      f.height ≤ e.height)
    (hpublishable : Publishable entries id link) (hne : link ≠ e.link) :
    flagged (postponed entries e) id link = flagged entries id link := by
  have hkept : entriesOf (postponed entries e) id link = entriesOf entries id link := by
    refine entriesOf_postponed (fun f hdescends hlink => ?_)
    rcases Relation.reflTransGen_iff_eq_or_transGen.mp hdescends with heq | hstrict
    · exact hne (by rw [← hlink, heq])
    · obtain ⟨hlt, hfid, hf⟩ := height_lt_of_transGen hstrict
      have hle := hgreatest f hf (hfid.symm.trans hid) (hlink ▸ hpublishable)
      omega
  unfold flagged
  rw [hkept]

/-- Where every order gives the same latest published version the bucket is settled. -/
theorem orderSettled_of_forall (hrecorded : Recorded entries)
    {result : Option (Link × ℕ)}
    (hall : ∀ entries', Recorded entries' → SameMembers entries entries' →
      IsLatestPublished entries' id result) : OrderSettled entries id := by
  by_cases hnone : ∀ link, ¬ Publishable entries id link
  · exact Or.inl hnone
  push Not at hnone
  obtain ⟨link, hpublishable⟩ := hnone
  obtain ⟨x, hx, hxid, ⟨ex, hex, hexid, hexlink, hexfinal, hexpublished⟩, hmax⟩ :=
    exists_greatest_publishable hpublishable
  have hpostponed : ∀ e ∈ entries, e.bucketId = id → Final entries e →
      IsLatestPublished (postponed entries e) id result ∧
        flagged (postponed entries e) id e.link = e.published := by
    intro e he hid hfinal
    have hflagged := flagged_postponed he hfinal
    rw [hid] at hflagged
    exact ⟨hall _ (hrecorded.postponed e) (sameMembers_postponed entries e), hflagged⟩
  -- the common result is an entry `z` of the greatest publishable height
  obtain ⟨hlatest, hflagged⟩ := hpostponed ex hex hexid hexfinal
  rw [hexlink, hexpublished] at hflagged
  cases result with
  | none =>
      have hnot := hlatest x ((sameMembers_postponed entries ex x).mpr hx) hxid
      rw [hflagged] at hnot
      contradiction
  | some found =>
      obtain ⟨found, best⟩ := found
      obtain ⟨hfound, z, hz, hzid, hzheight, hzlink⟩ :=
        IsLatestPublished.exists_entry hlatest
      have hzmem := (sameMembers_postponed entries ex z).mp hz
      have hzpublishable : Publishable entries id z.link := by
        rw [hzlink]
        exact (sameMembers_postponed entries ex).publishable_iff.mp
          ((hrecorded.postponed ex).publishable_of_flagged hfound)
      have hge := IsLatestPublished.height_le hlatest
        ((sameMembers_postponed entries ex x).mpr hx) hxid hflagged
      have hle := hmax z hzmem hzid hzpublishable
      refine Or.inr ⟨z, hzmem, hzid, ?_, ?_⟩
      · -- `z` comes out as published in every order, so in each of these
        intro e he hid hlink hfinal
        obtain ⟨hlate, hflag⟩ := hpostponed e he hid hfinal
        rw [hlink, hzlink, (IsLatestPublished.exists_entry hlate).1] at hflag
        exact hflag.symm
      · intro y hy hyid hne hypublishable
        have hyle := hmax y hy hyid hypublishable
        by_contra hnotlt
        have hyheight : y.height = z.height := by omega
        have hpublic := hypublishable
        obtain ⟨ey, hey, heyid, heylink, heyfinal, heypublished⟩ := hypublishable
        -- first the published entry of `y` last, then `z` behind all its rivals
        have hfirst := hrecorded.postponed ey
        have hsame := sameMembers_postponed entries ey
        have hsame' := sameMembers_postponed (postponed entries ey) z
        have hgreatest : ∀ f ∈ postponed entries ey, f.bucketId = id →
            Publishable (postponed entries ey) id f.link → f.height ≤ z.height := by
          intro f hf hfid hfpublishable
          have hfle := hmax f ((hsame f).mp hf) hfid (hsame.publishable_iff.mp hfpublishable)
          omega
        have hyflagged : flagged (postponed (postponed entries ey) z) id y.link = true := by
          obtain ⟨_, hflag⟩ := hpostponed ey hey heyid heyfinal
          rw [flagged_postponed_of_greatest hzid hgreatest (hsame.publishable_iff.mpr hpublic) hne,
            ← heylink, hflag, heypublished]
        have hlast := hall _ (hfirst.postponed z)
          (fun f => (hsame' f).trans (hsame f))
        have hfind := find?_entriesAt_postponed hfirst ((hsame z).mpr hzmem)
          ((hsame y).mpr hy) (hyid.trans hzid.symm) hyheight hne hyflagged
        rw [hzid, hzheight, hzlink] at hfind
        exact hfind hlast.1

end

/-! ## Calls -/

/-- A fresh in-memory log accepts every one of the calls. -/
def Successful (calls : List AppendCall) : Prop :=
  ∀ verdict ∈ verdicts MemoryBucketLogProvider.new calls, verdict = true

/-- The same answers; the heights of a link are compared as a set. -/
structure SameResults (log log' : MemoryBucketLogProvider) : Prop where
  head_eq : ∀ id height?, head log' id height? = head log id height?
  height_eq : ∀ id, height log' id = height log id
  has : ∀ id link, ∃ heights heights', has log id link = .ok heights ∧
    has log' id link = .ok heights' ∧ SameMembers heights heights'
  latestPublished_eq : ∀ id,
    log'.inner.latestPublished id = log.inner.latestPublished id

/-- Every other order of successful calls with the same entries gives the same answers. -/
def OrderIndependent (calls : List AppendCall) : Prop :=
  ∀ calls', Successful calls' →
    SameMembers (calls.map AppendCall.entry) (calls'.map AppendCall.entry) →
    SameResults (runCalls MemoryBucketLogProvider.new calls)
      (runCalls MemoryBucketLogProvider.new calls')

theorem setOf_mem_append_singleton (entries : List LogEntry) (e : LogEntry) :
    {f | f ∈ entries ++ [e]} = insert e {f | f ∈ entries} := by
  ext f
  simp only [Set.mem_ofPred_eq, List.mem_append, List.mem_singleton, Set.mem_insert_iff]
  exact or_comm

theorem acceptances_all_iff {entries : List LogEntry} {calls : List AppendCall} :
    (∀ verdict ∈ acceptances entries calls, verdict = true) ↔
      AllowedFrom Admitted {e | e ∈ entries} (calls.map AppendCall.entry) := by
  induction calls generalizing entries with
  | nil => simp [acceptances, AllowedFrom]
  | cons call rest ih =>
      rw [List.map_cons, AllowedFrom, acceptances, ← setOf_mem_append_singleton, ← ih]
      by_cases hadmitted : call.entry.Admitted {e | e ∈ entries}
      · rw [if_pos hadmitted, List.forall_mem_cons, and_iff_right rfl,
          and_iff_right hadmitted]
      · rw [if_neg hadmitted, List.forall_mem_cons]
        constructor
        · intro habsurd
          exact absurd habsurd.1 Bool.false_ne_true
        · intro habsurd
          exact absurd habsurd.1 hadmitted

theorem recordCalls_of_allowed {entries : List LogEntry} {calls : List AppendCall}
    (h : AllowedFrom Admitted {e | e ∈ entries} (calls.map AppendCall.entry)) :
    recordCalls entries calls = entries ++ calls.map AppendCall.entry := by
  induction calls generalizing entries with
  | nil => simp [recordCalls]
  | cons call rest ih =>
      rw [List.map_cons, AllowedFrom, ← setOf_mem_append_singleton] at h
      rw [recordCalls, if_pos h.1, ih h.2]
      simp

section

variable {calls calls' : List AppendCall}

theorem successful_iff : Successful calls ↔ Recorded (calls.map AppendCall.entry) := by
  unfold Successful Recorded
  rw [(MemoryBucketLogProvider.records_runCalls MemoryBucketLogProvider.new
    records_default calls).2, acceptances_all_iff]
  simp

theorem Successful.records (h : Successful calls) :
    (runCalls MemoryBucketLogProvider.new calls).inner.Records
      (calls.map AppendCall.entry) := by
  have hallowed : AllowedFrom Admitted {e | e ∈ ([] : List LogEntry)}
      (calls.map AppendCall.entry) := by
    simpa [Recorded] using successful_iff.mp h
  have hrecords := records_run calls
  rw [recordCalls_of_allowed hallowed, List.nil_append] at hrecords
  exact hrecords

/-- Entries that can be recorded are those of some successful calls. -/
theorem exists_calls {entries : List LogEntry} (hrecorded : Recorded entries)
    (hsame : SameMembers (calls.map AppendCall.entry) entries) :
    ∃ calls', Successful calls' ∧ calls'.map AppendCall.entry = entries := by
  have hrange : entries ∈ Set.range (List.map AppendCall.entry) := by
    rw [Set.range_list_map]
    intro e he
    obtain ⟨call, _, heq⟩ := List.mem_map.mp ((hsame e).mp he)
    exact ⟨call, heq⟩
  obtain ⟨calls', heq⟩ := hrange
  exact ⟨calls', successful_iff.mpr (heq ▸ hrecorded), heq⟩

theorem SameMembers.map_link {entries entries' : List LogEntry}
    (h : SameMembers entries entries') (id : Uuid) (height : ℕ) :
    SameMembers ((entriesAt entries id height).map LogEntry.link)
      ((entriesAt entries' id height).map LogEntry.link) := by
  intro link
  simp only [List.mem_map, mem_entriesAt_iff, h _]

theorem SameMembers.map_height {entries entries' : List LogEntry}
    (h : SameMembers entries entries') (id : Uuid) (link : Link) :
    SameMembers ((entriesOf entries id link).map LogEntry.height)
      ((entriesOf entries' id link).map LogEntry.height) := by
  intro height
  simp only [List.mem_map, mem_entriesOf_iff, h _]

section

variable (h : Successful calls) (h' : Successful calls')
  (hsame : SameMembers (calls.map AppendCall.entry) (calls'.map AppendCall.entry))

include h h' hsame

theorem height_eq_of_sameMembers (id : Uuid) :
    height (runCalls MemoryBucketLogProvider.new calls') id =
      height (runCalls MemoryBucketLogProvider.new calls) id := by
  have htop := h'.records.top id
  rw [hsame.heightsIn_eq] at htop
  rw [memory_height_eq, memory_height_eq, htop.unique (h.records.top id)]

theorem head_eq_of_sameMembers (id : Uuid) (height? : Option ℕ) :
    head (runCalls MemoryBucketLogProvider.new calls') id height? =
      head (runCalls MemoryBucketLogProvider.new calls) id height? := by
  have hheight := height_eq_of_sameMembers h h' hsame id
  cases htop : height (runCalls MemoryBucketLogProvider.new calls) id with
  | error error =>
      rw [head_of_height_error htop, head_of_height_error (hheight.trans htop)]
  | ok top =>
      refine head_congr (hheight.trans htop) htop rfl rfl ?_
      rw [h.records.links, h'.records.links]
      exact (hsame.map_link id _).maximum_eq

theorem has_of_sameMembers (id : Uuid) (link : Link) :
    ∃ heights heights', has (runCalls MemoryBucketLogProvider.new calls) id link =
        .ok heights ∧
      has (runCalls MemoryBucketLogProvider.new calls') id link = .ok heights' ∧
        SameMembers heights heights' := by
  refine ⟨_, _, rfl, rfl, ?_⟩
  rw [h.records.heights, h'.records.heights]
  exact hsame.map_height id link

end

/-- The answers do not depend on the order of the calls exactly when every bucket is
settled; without that only the latest published version does. -/
theorem orderIndependent_iff (h : Successful calls) :
    OrderIndependent calls ↔ ∀ id, OrderSettled (calls.map AppendCall.entry) id := by
  have hrecorded := successful_iff.mp h
  constructor
  · intro hindependent id
    have hcommon : ∀ entries', Recorded entries' →
        SameMembers (calls.map AppendCall.entry) entries' →
        IsLatestPublished entries' id
          ((runCalls MemoryBucketLogProvider.new calls).inner.latestPublished id) := by
      intro entries' hrecorded' hsame
      obtain ⟨calls', h', heq⟩ := exists_calls hrecorded' hsame
      rw [← heq] at hsame ⊢
      rw [← (hindependent calls' h' hsame).latestPublished_eq id]
      exact h'.records.isLatestPublished id
    exact orderSettled_of_forall hrecorded hcommon
  · intro hsettled calls' h' hsame
    exact ⟨head_eq_of_sameMembers h h' hsame, height_eq_of_sameMembers h h' hsame,
      has_of_sameMembers h h' hsame, fun id =>
        latest_eq_of_settled hrecorded (successful_iff.mp h') hsame (hsettled id)
          (h.records.isLatestPublished id) (h'.records.isLatestPublished id)⟩

end

/-! ## Two published versions -/

def genesisCall : AppendCall := ⟨⟨⟨7⟩, Link.default, none, 0, false⟩, [], zero_inRange⟩

/-- A published version on top of the genesis. -/
def publishCall (byte : Fin 256) : AppendCall :=
  ⟨⟨⟨7⟩, ⟨ldRawCodec, ⟨[byte]⟩⟩, some Link.default, 1, true⟩, [],
    Nat.one_lt_two_pow (by decide)⟩

theorem fork_order_dependent :
    Successful [genesisCall, publishCall 1, publishCall 2] ∧
      ¬ OrderIndependent [genesisCall, publishCall 1, publishCall 2] := by
  have hruns : verdicts MemoryBucketLogProvider.new
        [genesisCall, publishCall 1, publishCall 2] = [true, true, true] ∧
      verdicts MemoryBucketLogProvider.new
        [genesisCall, publishCall 2, publishCall 1] = [true, true, true] ∧
      (runCalls MemoryBucketLogProvider.new
        [genesisCall, publishCall 1, publishCall 2]).inner.latestPublished ⟨7⟩ =
          some ((publishCall 1).entry.link, 1) ∧
      (runCalls MemoryBucketLogProvider.new
        [genesisCall, publishCall 2, publishCall 1]).inner.latestPublished ⟨7⟩ =
          some ((publishCall 2).entry.link, 1) := by
    decide +kernel
  obtain ⟨hverdicts, hverdicts', hlatest, hlatest'⟩ := hruns
  refine ⟨fun verdict hmem => ?_, fun hindependent => ?_⟩
  · rw [hverdicts] at hmem
    simpa using hmem
  · have hsuccessful : Successful [genesisCall, publishCall 2, publishCall 1] := by
      intro verdict hmem
      rw [hverdicts'] at hmem
      simpa using hmem
    have hsame := (hindependent _ hsuccessful (by
      intro e
      simp only [List.map_cons, List.map_nil, List.mem_cons, List.not_mem_nil, or_false]
      tauto)).latestPublished_eq ⟨7⟩
    rw [hlatest, hlatest'] at hsame
    exact absurd hsame (by decide)

/-- A single published version is found in every order. -/
theorem chain_orderIndependent :
    Successful [genesisCall, publishCall 1] ∧
      OrderIndependent [genesisCall, publishCall 1] := by
  have hverdicts : verdicts MemoryBucketLogProvider.new [genesisCall, publishCall 1] =
      [true, true] := by
    decide +kernel
  have hsuccessful : Successful [genesisCall, publishCall 1] := by
    intro verdict hmem
    rw [hverdicts] at hmem
    simpa using hmem
  have hmem : ∀ e, e ∈ [genesisCall, publishCall 1].map AppendCall.entry ↔
      e = genesisCall.entry ∨ e = (publishCall 1).entry := by
    simp
  refine ⟨hsuccessful, (orderIndependent_iff hsuccessful).mpr (fun id => ?_)⟩
  by_cases hid : id = ⟨7⟩
  · subst hid
    refine Or.inr ⟨(publishCall 1).entry, by simp, rfl, ?_, ?_⟩
    · intro e he _ hlink _
      rcases (hmem e).mp he with rfl | rfl
      · exact absurd hlink (by decide)
      · rfl
    · rintro e he _ hne ⟨f, hf, _, hlink, _, hpublished⟩
      rcases (hmem e).mp he with rfl | rfl
      · rcases (hmem f).mp hf with rfl | rfl
        · exact absurd hpublished (by decide)
        · exact absurd hlink (by decide)
      · exact absurd rfl hne
  · refine Or.inl ?_
    rintro link ⟨e, he, heid, _⟩
    rcases (hmem e).mp he with rfl | rfl
    · exact hid heid.symm
    · exact hid heid.symm

end JaxFs
