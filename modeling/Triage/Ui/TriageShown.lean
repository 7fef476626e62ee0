import Triage.Ui.TriageGroup

/-!
# What a row shows and what is written for it

A row shows a status where its annotated members agree on it. What is written for its findings
leaves everything but their statuses, and with it the tab that is open.

## Main results

* `rollup_spec` : the rollup of members that agree, and of others.
* `commonTriage_eq` : the status that a row shows.
* `activeTabFor_congr` : the tab that is open depends on no status.
* `applyTriage_spec` : what is written.
-/

namespace Triage.GroupTriage

open Client List Option Rollup Prod

/-! ### The rollup -/

/-- An entry with its bucket is of an annotated member. -/
def Annotated (x : TriageEntry × Option TriageBucket) : Prop :=
  x.1.color ≠ none ∨ x.2 ≠ none

/-- The members have one color at most, and the annotated ones one status. -/
structure Agree (xs : List (TriageEntry × Option TriageBucket)) : Prop where
  color : ∀ x ∈ xs, ∀ y ∈ xs, x.1.color ≠ none → y.1.color ≠ none → x.1.color = y.1.color
  bucket : ∀ x ∈ xs, ∀ y ∈ xs, Annotated x → Annotated y → x.2 = y.2

/-! #### First values -/

section FirstSeen

variable {α : Type*} [DecidableEq α] {vs : List (Option α)} {seen : Option α}

omit [DecidableEq α] in
theorem findSome_append (vs : List (Option α)) (v : Option α) :
    (vs ++ [v]).findSome? id = (vs.findSome? id).or v := by
  rw [findSome?_append]
  cases v <;> rfl

/-- A value that is not the first one seen is a conflict. -/
theorem conflict_next {conflict : Bool} (hseen : seen = vs.findSome? id)
    (hconflict : conflict = false ↔ ∀ v ∈ vs, v ≠ none → v = seen) (v : Option α) :
    (conflict || decide (v ≠ none ∧ seen ≠ none ∧ v ≠ seen)) = false ↔
      ∀ w ∈ vs ++ [v], w ≠ none → w = seen.or v := by
  rw [Bool.or_eq_false_iff, hconflict, decide_eq_false_iff_not]
  simp only [mem_append, mem_singleton, or_imp, forall_and, forall_eq]
  cases seen with
  | none =>
    have hnone : ∀ w ∈ vs, w = none := by simpa using findSome?_eq_none_iff.1 hseen.symm
    refine ⟨fun _ => ⟨fun w hw hne => absurd (hnone w hw) hne, fun _ => rfl⟩,
      fun _ => ⟨fun w hw hne => absurd (hnone w hw) hne, fun h => h.2.1 rfl⟩⟩
  | some a =>
    refine and_congr_right fun _ => ⟨fun h hne => ?_, fun h hn => hn.2.2 (h hn.1)⟩
    by_contra hv
    exact h ⟨hne, some_ne_none a, hv⟩

omit [DecidableEq α] in
/-- All values are the first one where any two are the same. -/
theorem all_seen_iff : (∀ v ∈ vs, v ≠ none → v = vs.findSome? id) ↔
    ∀ v ∈ vs, ∀ w ∈ vs, v ≠ none → w ≠ none → v = w := by
  refine ⟨fun h v hv w hw hne hne' => (h v hv hne).trans (h w hw hne').symm, fun h v hv hne => ?_⟩
  cases hseen : vs.findSome? id with
  | none =>
    have hnone := findSome?_eq_none_iff.1 hseen v hv
    exact absurd hnone hne
  | some a =>
    obtain ⟨w, hw, hwa⟩ := exists_of_findSome?_eq_some hseen
    have hwa' : w = some a := hwa
    rw [← hwa']
    exact h v hv w hw hne (by rw [hwa']; exact some_ne_none a)

end FirstSeen

/-- The status of an annotated member, which may be that it has none. -/
def slot (x : TriageEntry × Option TriageBucket) : Option (Option TriageBucket) :=
  if x.1.color = none ∧ x.2 = none then none else some x.2

variable {xs ys : List (TriageEntry × Option TriageBucket)}
  {x : TriageEntry × Option TriageBucket} {r : Rollup}

theorem slot_ne_none : slot x ≠ none ↔ Annotated x := by
  rw [slot, Annotated]
  split
  · rename_i h
    simp [h]
  · rename_i h
    simp only [ne_eq, some_ne_none, not_false_eq_true, true_iff]
    tauto

theorem Rollup.next_eq (r : Rollup) (x : TriageEntry × Option TriageBucket) :
    (r.next x).firstColor = r.firstColor.or x.1.color ∧
    (r.next x).colorsConflict = (r.colorsConflict ||
      decide (x.1.color ≠ none ∧ r.firstColor ≠ none ∧ x.1.color ≠ r.firstColor)) ∧
    (r.next x).firstBucketSlot = r.firstBucketSlot.or (slot x) ∧
    (r.next x).bucketsConflict = (r.bucketsConflict ||
      decide (slot x ≠ none ∧ r.firstBucketSlot ≠ none ∧ slot x ≠ r.firstBucketSlot)) ∧
    (r.next x).firstTriage = r.firstTriage.or x.2 := by
  rw [next, slot]
  split
  · rename_i h
    simp [h.1, h.2]
  · refine ⟨rfl, rfl, rfl, ?_, rfl⟩
    refine congrArg (r.bucketsConflict || ·) (decide_eq_decide.2 ?_)
    exact ⟨fun h => ⟨some_ne_none _, h.1, h.2.symm⟩, fun h => ⟨h.2.1, h.2.2.symm⟩⟩

/-- **The rollup** of the members of a row. -/
theorem rollup_spec (xs : List (TriageEntry × Option TriageBucket)) :
    (((xs.foldl next .start).colorsConflict ||
      (xs.foldl next .start).bucketsConflict) = false ↔ Agree xs) ∧
    (xs.foldl next .start).firstTriage = (xs.map snd).findSome? id := by
  have hall : (xs.foldl next .start).firstColor =
        (xs.map fun x => x.1.color).findSome? id ∧
      ((xs.foldl next .start).colorsConflict = false ↔
        ∀ v ∈ xs.map fun x => x.1.color, v ≠ none → v = (xs.foldl next .start).firstColor) ∧
      (xs.foldl next .start).firstBucketSlot = (xs.map slot).findSome? id ∧
      ((xs.foldl next .start).bucketsConflict = false ↔
        ∀ v ∈ xs.map slot, v ≠ none → v = (xs.foldl next .start).firstBucketSlot) ∧
      (xs.foldl next .start).firstTriage = (xs.map snd).findSome? id := by
    induction xs using reverseRecOn with
    | nil => simp [start]
    | append_singleton xs x ih =>
      obtain ⟨hcolor, hcolors, hslot, hslots, htriage⟩ := ih
      rw [foldl_append, foldl_cons, foldl_nil]
      generalize xs.foldl next .start = r at *
      obtain ⟨hc, hcs, hs, hss, ht⟩ := r.next_eq x
      simp only [map_append, map_cons, map_nil, findSome_append]
      rw [hc, hcs, hs, hss, ht, ← hcolor, ← hslot, ← htriage]
      exact ⟨rfl, conflict_next hcolor hcolors _, rfl, conflict_next hslot hslots _, rfl⟩
  obtain ⟨hcolor, hcolors, hslot, hslots, htriage⟩ := hall
  refine ⟨?_, htriage⟩
  rw [hcolor, all_seen_iff] at hcolors
  rw [hslot, all_seen_iff] at hslots
  rw [Bool.or_eq_false_iff, hcolors, hslots]
  simp only [List.forall_mem_map]
  refine ⟨fun h => ⟨h.1, fun x hx y hy hax hay => ?_⟩,
    fun h => ⟨h.color, fun x hx y hy hax hay => ?_⟩⟩
  · have heq := h.2 x hx y hy (slot_ne_none.2 hax) (slot_ne_none.2 hay)
    rw [slot, slot, if_neg (by rw [Annotated] at hax; tauto),
      if_neg (by rw [Annotated] at hay; tauto)] at heq
    exact some_injective _ heq
  · have hax' := slot_ne_none.1 hax
    have hay' := slot_ne_none.1 hay
    rw [slot, slot, if_neg (by rw [Annotated] at hax'; tauto),
      if_neg (by rw [Annotated] at hay'; tauto), h.bucket x hx y hy hax' hay']

/-! ### What a row shows -/

variable {v : View} {map map' : TriageStateMap} {row : Row} {f g : Tab}
  {target : Option TriageBucket} {b : TriageBucket}

theorem hasConflict_eq : (groupState v map row).hasConflict = false ↔
    Agree (annotations v map (triageTabs row)) := (rollup_spec _).1

/-- A row shows the status that its annotated members agree on. -/
theorem commonTriage_eq : (groupState v map row).commonTriage = some b ↔
    Agree (annotations v map (triageTabs row)) ∧
      ∃ f ∈ triageTabs row, tabTriage v map f = some b := by
  obtain ⟨hagree, htriage⟩ := rollup_spec (annotations v map (triageTabs row))
  have hcommon : (groupState v map row).commonTriage =
      if (groupState v map row).hasConflict then none
      else ((annotations v map (triageTabs row)).map snd).findSome? id := by
    rw [← htriage]
    rfl
  have hmem : ∀ o, o ∈ (annotations v map (triageTabs row)).map snd ↔
      ∃ f ∈ triageTabs row, tabTriage v map f = o := by
    intro o
    simp only [annotations, List.map_map, List.mem_map, Function.comp_apply]
  rw [hcommon]
  constructor
  · intro h
    split at h
    · cases h
    · rename_i hconflict
      obtain ⟨o, ho, hob⟩ := exists_of_findSome?_eq_some h
      have hob' : o = some b := hob
      rw [hob'] at ho
      exact ⟨hagree.1 (Bool.eq_false_iff.2 hconflict), (hmem _).1 ho⟩
  · rintro ⟨hall, hex⟩
    have hconflict : (groupState v map row).hasConflict = false := hasConflict_eq.2 hall
    rw [hconflict, if_neg Bool.false_ne_true]
    have hslots : ∀ o ∈ (annotations v map (triageTabs row)).map snd,
        ∀ o' ∈ (annotations v map (triageTabs row)).map snd, o ≠ none → o' ≠ none → o = o' := by
      simp only [List.forall_mem_map]
      exact fun x hx y hy hxn hyn => hall.bucket x hx y hy (.inr hxn) (.inr hyn)
    exact (all_seen_iff.2 hslots _ ((hmem _).2 hex) (some_ne_none b)).symm

/-- The comment that is shown for a finding. -/
def shownComment (v : View) (id : String) (comment : Option String) : Option String :=
  match v.managedComments with
  | none => comment
  | some comments =>
    if comments id = [] ∧ comment.getD "" = "" then comment
    else some ("\n\n".intercalate (comments id))

theorem triageEntry_eq (hcan : canTriageFinding v f = true) : orEmpty (triageEntry v map f) =
    { orEmpty (map f.id) with
      triage := if (orEmpty (map f.id)).triage = some .ignored ∧ f.usesReportIgnore then none
        else (orEmpty (map f.id)).triage
      comment := shownComment v f.id (orEmpty (map f.id)).comment } := by
  have hentry : orEmpty (if (orEmpty (map f.id)).triage = some .ignored ∧ f.usesReportIgnore then
      (map f.id).map fun e => { e with triage := none } else map f.id) =
      { orEmpty (map f.id) with
        triage := if (orEmpty (map f.id)).triage = some .ignored ∧ f.usesReportIgnore then none
          else (orEmpty (map f.id)).triage } := by
    split
    · cases map f.id <;> rfl
    · rfl
  rw [triageEntry, if_pos hcan, shownComment]
  dsimp only
  generalize (if (orEmpty (map f.id)).triage = some .ignored ∧ f.usesReportIgnore then
      (map f.id).map fun e => { e with triage := none } else map f.id) = entry at hentry ⊢
  cases v.managedComments with
  | none => exact hentry
  | some comments =>
    have hcomment : (orEmpty entry).comment = (orEmpty (map f.id)).comment := by rw [hentry]
    dsimp only
    rw [hcomment]
    split
    · exact hentry
    · rw [hentry]
      rfl

/-- The status of a finding that can be triaged is that of its occurrence. -/
theorem tabTriage_eq (hcan : canTriageFinding v f = true) (hkept : Kept (map f.id)) :
    tabTriage v map f = effective f.usesReportIgnore f.report (map f.id) := by
  have hlegacy := hkept.legacyDeleted
  have hshared : sharedFindingTriage f.usesReportIgnore (orEmpty (triageEntry v map f)) =
      sharedFindingTriage f.usesReportIgnore (orEmpty (map f.id)) := by
    rw [triageEntry_eq hcan, sharedFindingTriage, sharedFindingTriage, bucketOf, bucketOf]
    dsimp only
    rw [hlegacy]
    by_cases hi : (orEmpty (map f.id)).triage = some .ignored ∧ f.usesReportIgnore
    · rw [if_pos hi, hi.1]
      simp [hi.2]
    · rw [if_neg hi]
  rw [tabTriage, if_pos hcan, hshared, effective, isIgnored, hcan, Bool.true_and]
  cases sharedFindingTriage f.usesReportIgnore (orEmpty (map f.id)) with
  | none => simp
  | some b => rfl

theorem tabTriage_of_not (hcan : canTriageFinding v f = false) : tabTriage v map f = none := by
  rw [tabTriage, hcan]
  rfl

/-! ### What a click leaves alone -/

/-- Entries that are the same but for statuses. -/
def SameMarks (map map' : TriageStateMap) : Prop :=
  ∀ id, ∀ p ≠ ConflictProperty.triage, p.norm (orEmpty (map' id)) = p.norm (orEmpty (map id))

section

variable (h : SameMarks map map')
include h

theorem SameMarks.color (hkept : ∀ id, Kept (map id)) (hkept' : ∀ id, Kept (map' id)) (f : Tab) :
    (orEmpty (triageEntry v map' f)).color = (orEmpty (triageEntry v map f)).color := by
  cases hcan : canTriageFinding v f with
  | false =>
    rw [triageEntry, triageEntry, hcan]
    rfl
  | true =>
    rw [triageEntry_eq hcan, triageEntry_eq hcan]
    have hcolor : (orEmpty (map' f.id)).color.getD "" = (orEmpty (map f.id)).color.getD "" :=
      h f.id .color (by decide)
    rw [← nonempty_eq_iff, (hkept' f.id).normal_orEmpty.color,
      (hkept f.id).normal_orEmpty.color] at hcolor
    exact hcolor

theorem SameMarks.tabs : colored v map' = colored v map ∧
    tabHasMarks v map' = tabHasMarks v map := by
  have hall : ∀ f, colored v map' f = colored v map f ∧
      tabHasMarks v map' f = tabHasMarks v map f := by
    intro f
    rw [colored, colored, tabHasMarks, tabHasMarks]
    cases hcan : canTriageFinding v f with
    | false =>
      rw [triageEntry, triageEntry, hcan]
      exact ⟨rfl, rfl⟩
    | true =>
      rw [triageEntry_eq hcan, triageEntry_eq hcan]
      have hcolor : (orEmpty (map' f.id)).color.getD "" = (orEmpty (map f.id)).color.getD "" :=
        h f.id .color (by decide)
      have hcomment : (orEmpty (map' f.id)).comment.getD "" =
          (orEmpty (map f.id)).comment.getD "" := h f.id .comment (by decide)
      have hfix : (orEmpty (map' f.id)).fix.getD "" = (orEmpty (map f.id)).fix.getD "" :=
        h f.id .fix (by decide)
      have hflagged : (orEmpty (map' f.id)).flagged = (orEmpty (map f.id)).flagged :=
        flagged_inj (h f.id .flagged (by decide))
      have hshown : (shownComment v f.id (orEmpty (map' f.id)).comment).getD "" =
          (shownComment v f.id (orEmpty (map f.id)).comment).getD "" := by
        rw [shownComment, shownComment]
        cases v.managedComments with
        | none => exact hcomment
        | some comments =>
          dsimp only
          rw [hcomment]
          split
          · exact hcomment
          · rfl
      dsimp only
      rw [hcolor, hshown, hfix, hflagged]
      exact ⟨rfl, rfl⟩
  exact ⟨funext fun f => (hall f).1, funext fun f => (hall f).2⟩

/-- **The tab that is open** depends on no status. -/
theorem activeTabFor_congr (row : Row) : activeTabFor v map' row = activeTabFor v map row := by
  obtain ⟨hcolored, hmarks⟩ := h.tabs (v := v)
  have hle : tabLe v map' = tabLe v map := by
    funext a b
    rw [tabLe, tabLe, hcolored]
  rw [activeTabFor, activeTabFor, sortTabs, sortTabs, hle, hmarks]

end

theorem mem_drawnTabs (h : f ∈ drawnTabs v row) : f ∈ row.tabs := by
  rw [drawnTabs] at h
  split at h
  · exact h
  · cases hlinked : row.linkedTabs with
    | some ts =>
      rw [hlinked] at h
      exact row.linked ts hlinked f h
    | none =>
      rw [hlinked, getD_none] at h
      split at h
      · exact h
      · rw [foldedTabs] at h
        split at h
        · exact h
        · exact mem_of_mem_filter h

theorem activeTabFor_mem (v : View) (map : TriageStateMap) (row : Row) :
    activeTabFor v map row ∈ row.tabs := by
  have hsorted : ∀ f ∈ sortTabs v map row, f ∈ row.tabs := fun f hf =>
    mem_drawnTabs ((perm_insertionSort _ _).mem_iff.1 hf)
  have hgetD : ∀ o : Option Tab, (∀ f ∈ o, f ∈ row.tabs) →
      o.getD (row.tabs.head row.ne) ∈ row.tabs := by
    intro o ho
    cases o with
    | none => exact head_mem row.ne
    | some f => exact ho f rfl
  rw [activeTabFor]
  refine hgetD _ fun f hf => ?_
  split at hf
  · exact mem_of_mem_head? hf
  · split at hf
    · exact hsorted f (mem_of_mem_head? hf)
    · have hpool : ∀ f ∈ (if v.filtered ∧ (sortTabs v map row).any (·.matchesRunFilters) then
          (sortTabs v map row).filter (·.matchesRunFilters) else sortTabs v map row),
          f ∈ row.tabs := by
        intro f hf
        split at hf
        · exact hsorted f (mem_of_mem_filter hf)
        · exact hsorted f hf
      rcases or_eq_some_iff.1 hf with hf | ⟨-, hf⟩
      · obtain ⟨key, -, hkey⟩ := bind_eq_some_iff.1 hf
        exact hsorted f (mem_of_find?_eq_some hkey)
      · rcases or_eq_some_iff.1 hf with hf | ⟨-, hf⟩
        · exact hpool f (mem_of_find?_eq_some hf)
        · exact hpool f (mem_of_mem_head? hf)

/-! ### What a click writes -/

theorem norm_setEntryTriage {cur : Option TriageEntry} {perReport : Bool} {report : String}
    (p : ConflictProperty) (hp : p ≠ .triage) :
    p.norm (orEmpty (setEntryTriage perReport report target cur)) = p.norm (orEmpty cur) := by
  have hpatch : ∀ (cur : Option TriageEntry) (b : Option TriageBucket),
      p.norm (orEmpty (patchEntry cur fun e => { e with triage := b })) = p.norm (orEmpty cur) := by
    intro cur b
    rw [norm_patchEntry]
    cases p with
    | triage => exact absurd rfl hp
    | _ => rfl
  rw [setEntryTriage]
  split
  · rw [norm_setReportIgnored]
    split
    · rfl
    · exact hpatch cur none
  · split
    · exact hpatch cur target
    · rw [norm_setReportIgnored, hpatch]

/-- What is written for findings that can be edited. -/
structure Applied (map : TriageStateMap) (targets : List Tab) (target : Option TriageBucket)
    (map' : TriageStateMap) : Prop where
  kept : ∀ id, Kept (map' id)
  marks : SameMarks map map'
  frame : ∀ id, (∀ f ∈ targets, f.id ≠ id) → map' id = map id
  status : ∀ f ∈ targets, (f.usesReportIgnore = true → target = some .ignored → f.report ≠ "") →
    effective f.usesReportIgnore f.report (map' f.id) = target

theorem applyTriage_spec {targets : List Tab} (hkept : ∀ id, Kept (map id))
    (hedit : ∀ f ∈ targets, canEditTriage v f = true) (hnodup : (targets.map Tab.id).Nodup) :
    Applied map targets target (applyTriage v map targets target) := by
  rw [applyTriage]
  induction targets generalizing map with
  | nil => exact ⟨hkept, fun _ _ _ => rfl, fun _ _ => rfl, fun f hf => by cases hf⟩
  | cons f targets ih =>
    rw [map_cons, nodup_cons] at hnodup
    rw [foldl_cons, if_pos (hedit f mem_cons_self)]
    have hset : ∀ id, setFindingTriage map f.report ⟨some f.id, "", f.usesReportIgnore⟩ target id =
        if id = f.id then setEntryTriage f.usesReportIgnore f.report target (map f.id)
        else map id := fun id => setAt_apply ..
    obtain ⟨hkept', hmarks, hframe, hstatus⟩ := ih
      (fun id => by
        rw [hset]
        split
        · exact kept_setEntryTriage (hkept _)
        · exact hkept id)
      (fun g hg => hedit g (mem_cons_of_mem f hg)) hnodup.2
    refine ⟨hkept', fun id p hp => ?_, fun id hid => ?_, fun g hg hname => ?_⟩
    · rw [hmarks id p hp, hset]
      split
      · rename_i hid
        rw [hid, norm_setEntryTriage p hp]
      · rfl
    · rw [hframe id fun g hg => hid g (mem_cons_of_mem f hg), hset,
        if_neg (hid f mem_cons_self).symm]
    · rcases mem_cons.1 hg with rfl | hg
      · have hlater : ∀ g' ∈ targets, g'.id ≠ g.id :=
          fun g' hg' heq => hnodup.1 (heq ▸ List.mem_map_of_mem hg')
        rw [hframe g.id hlater, hset, if_pos rfl, effective_eq (kept_setEntryTriage (hkept _)),
          standing_setEntryTriage (hkept _)]
        exact Standing.status_set hname
      · exact hstatus g hg hname

/-! ### The members that a click is for -/

theorem triageTabs_sublist (row : Row) : (triageTabs row).Sublist row.tabs := by
  rw [triageTabs]
  split
  · exact List.Sublist.refl _
  · exact filter_sublist

theorem triageTabs_ne_nil (row : Row) : triageTabs row ≠ [] := by
  rw [triageTabs]
  split
  · exact row.ne
  · rename_i h
    exact fun hnil => h (.inl (by rw [hnil]; rfl))

/-- All members are upstream, or none. -/
theorem triageTabs_upstream (row : Row) :
    (∀ f ∈ triageTabs row, f.isUpstream = false) ∨ ∀ f ∈ row.tabs, f.isUpstream = true := by
  rw [triageTabs]
  split
  · rename_i h
    rcases h with h | h
    · refine .inr fun f hf => ?_
      have hnil := eq_nil_of_length_eq_zero h
      have hnot := filter_eq_nil_iff.1 hnil f hf
      simpa using hnot
    · refine .inl fun f hf => ?_
      have hall := (length_filter_eq_length_iff.1 h) f hf
      simpa using hall
  · exact .inl fun f hf => by simpa using (mem_filter.1 hf).2

/-- Where the tab that is open can be edited all members can. -/
theorem canEditTriage_members (hg : g ∈ row.tabs) (hedit : canEditTriage v g = true) :
    ∀ f ∈ triageTabs row, canEditTriage v f = true := by
  intro f hf
  rw [canEditTriage, canTriageFinding, Bool.and_eq_true] at hedit ⊢
  refine ⟨?_, hedit.2⟩
  rcases triageTabs_upstream row with hown | hupstream
  · rw [hown f hf]
    rfl
  · have hf' := (triageTabs_sublist row).subset hf
    rw [hupstream g hg] at hedit
    rw [hupstream f hf']
    exact hedit.1

end Triage.GroupTriage
