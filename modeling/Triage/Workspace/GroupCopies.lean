import Triage.Workspace.ReportGroups
import Triage.Data.EraseDups

/-!
# The one group of a component

The findings of a component's rows become one group: findings of one id one copy, each other finding
a copy of its own, those of combined rows first.

## Main results

* `represented_addFinding` : a finding folded in or copied is represented once more.
* `folds_merged`, `represented_merged` : **the group represents each finding of the rows once.**
-/

namespace Triage.ReportGroups

open List Option

variable {I : Type}

/-- The ids of some copies. -/
def idsOf (copies : List (Copy I)) : List I := copies.filterMap fun c => c.first.id

/-- Each id is one copy, whose folded findings have that id. -/
structure Folds (copies : List (Copy I)) : Prop where
  nodup : (idsOf copies).Nodup
  folded : ∀ c ∈ copies, ∀ f ∈ c.folded, f.id = c.first.id

/-- The findings that copies stand for. -/
def represented (copies : List (Copy I)) : List (Finding I) := copies.flatMap Copy.all

variable {copies copies' : List (Copy I)} {c : Copy I}

@[simp] theorem represented_cons (c : Copy I) (copies : List (Copy I)) :
    represented (c :: copies) = c.all ++ represented copies := rfl

@[simp] theorem represented_append (copies copies' : List (Copy I)) :
    represented (copies ++ copies') = represented copies ++ represented copies' :=
  flatMap_append

theorem represented_perm (h : copies.Perm copies') :
    (represented copies).Perm (represented copies') := h.flatMap_right _

theorem mem_idsOf {id : I} :
    id ∈ idsOf copies ↔ ∃ c ∈ copies, c.first.id = some id := List.mem_filterMap

theorem idsOf_perm (h : copies.Perm copies') : (idsOf copies).Perm (idsOf copies') := h.filterMap _

theorem folds_nil : Folds ([] : List (Copy I)) := ⟨nodup_nil, fun c hc => by cases hc⟩

theorem Folds.perm (h : Folds copies) (hperm : copies.Perm copies') : Folds copies' where
  nodup := (idsOf_perm hperm).nodup_iff.1 h.nodup
  folded c hc := h.folded c (hperm.mem_iff.2 hc)

theorem Folds.sublist (h : Folds copies) (hsub : copies'.Sublist copies) : Folds copies' where
  nodup := h.nodup.sublist (hsub.filterMap _)
  folded c hc := h.folded c (hsub.subset hc)

theorem Folds.notMem_of_cons (h : Folds (c :: copies))
    {id : I} (hid : c.first.id = some id) : id ∉ idsOf copies := by
  have hcons : idsOf (c :: copies) = id :: idsOf copies :=
    filterMap_cons_some (f := fun c : Copy I => c.first.id) hid
  have hnodup := h.nodup
  rw [hcons] at hnodup
  exact (nodup_cons.1 hnodup).1

/-- Two copies of one id are the same. -/
theorem Folds.eq_of_id (h : Folds copies) {c' : Copy I}
    (hc : c ∈ copies) (hc' : c' ∈ copies) {id : I} (hid : c.first.id = some id)
    (hid' : c'.first.id = some id) : c = c' := by
  induction copies with
  | nil => cases hc
  | cons d copies ih =>
    have htail : Folds copies := h.sublist (sublist_cons_self d copies)
    have hhead : ∀ e ∈ copies, ∀ id, d.first.id = some id → e.first.id ≠ some id := by
      intro e he id hd heid
      exact h.notMem_of_cons hd (mem_idsOf.2 ⟨e, he, heid⟩)
    rcases mem_cons.1 hc with rfl | hmem
    · rcases mem_cons.1 hc' with rfl | hmem'
      · rfl
      · exact absurd hid' (hhead c' hmem' id hid)
    · rcases mem_cons.1 hc' with rfl | hmem'
      · exact absurd hid (hhead c hmem id hid')
      · exact ih htail hmem hmem'

/-- Copies that have ids are there once. -/
theorem Folds.nodup_of_ids (h : Folds copies)
    (hids : ∀ c ∈ copies, c.first.id.isSome = true) : copies.Nodup := by
  induction copies with
  | nil => exact nodup_nil
  | cons c copies ih =>
    obtain ⟨id, hid⟩ := isSome_iff_exists.1 (hids c (by simp))
    refine nodup_cons.2 ⟨fun hmem => h.notMem_of_cons hid (mem_idsOf.2 ⟨c, hmem, hid⟩), ?_⟩
    exact ih (h.sublist (sublist_cons_self c copies)) fun c' hc' => hids c' (by simp [hc'])

variable (component : List (Row I)) (group : List (Finding I)) (f : Finding I)

theorem represented_originals : represented (group.map fun f => (⟨f, []⟩ : Copy I)) = group := by
  induction group with
  | nil => rfl
  | cons f group ih => rw [map_cons, represented_cons, ih]; rfl

theorem idsOf_originals :
    idsOf (group.map fun f => (⟨f, []⟩ : Copy I)) = group.filterMap Finding.id := by
  rw [idsOf, filterMap_map]
  rfl

variable [DecidableEq I]

/-! ### A finding added -/

/-- The fold of a finding into the copy of its id. -/
def foldInto (f : Finding I) (c : Copy I) : Copy I :=
  if c.first.id = f.id then { c with folded := c.folded ++ [f] } else c

theorem foldInto_first (c : Copy I) : (foldInto f c).first = c.first := by
  unfold foldInto
  split_ifs <;> rfl

theorem addFinding_eq (copies : List (Copy I)) (f : Finding I) : addFinding copies f =
    if f.id.isSome ∧ ∃ c ∈ copies, c.first.id = f.id then copies.map (foldInto f)
    else copies ++ [⟨f, []⟩] := rfl

theorem idsOf_map_foldInto (copies : List (Copy I)) :
    idsOf (copies.map (foldInto f)) = idsOf copies := by
  rw [idsOf, idsOf, filterMap_map]
  refine filterMap_congr fun c _ => ?_
  rw [Function.comp_apply, foldInto_first]

theorem represented_map_foldInto {f : Finding I} {id : I} (hf : f.id = some id)
    (h : Folds copies) (hex : ∃ c ∈ copies, c.first.id = f.id) :
    (represented (copies.map (foldInto f))).Perm (represented copies ++ [f]) := by
  induction copies with
  | nil => simp at hex
  | cons d copies ih =>
    have htail : Folds copies := h.sublist (sublist_cons_self d copies)
    rw [map_cons, represented_cons, represented_cons]
    by_cases hd : d.first.id = f.id
    · -- no other copy has the id
      have hrest : copies.map (foldInto f) = copies := by
        refine (map_congr_left fun c hc => ?_).trans (map_id copies)
        refine if_neg fun hcf => ?_
        exact h.notMem_of_cons (hd.trans hf) (mem_idsOf.2 ⟨c, hc, hcf.trans hf⟩)
      have hhead : (foldInto f d).all = d.all ++ [f] := by
        rw [foldInto, if_pos hd]
        rfl
      rw [hrest, hhead, append_assoc, append_assoc]
      exact perm_append_comm.append_left _
    · have hhead : foldInto f d = d := if_neg hd
      rw [hhead, append_assoc]
      refine (ih htail ?_).append_left _
      obtain ⟨c, hc, hcf⟩ := hex
      rcases mem_cons.1 hc with rfl | hc
      · exact absurd hcf hd
      · exact ⟨c, hc, hcf⟩

theorem folds_addFinding (h : Folds copies) (f : Finding I) : Folds (addFinding copies f) := by
  rw [addFinding_eq]
  split_ifs with hold
  · refine ⟨?_, ?_⟩
    · rw [idsOf_map_foldInto]
      exact h.nodup
    · intro c hc g hg
      obtain ⟨d, hd, rfl⟩ := mem_map.1 hc
      rw [foldInto_first]
      unfold foldInto at hg
      split_ifs at hg with hdf
      · rcases mem_append.1 hg with hg | hg
        · exact h.folded d hd g hg
        · obtain rfl : g = f := by simpa using hg
          exact hdf.symm
      · exact h.folded d hd g hg
  · refine ⟨?_, ?_⟩
    · rw [idsOf, filterMap_append]
      cases hid : f.id with
      | none => simpa [hid, idsOf] using h.nodup
      | some id =>
        have hnew : id ∉ idsOf copies := by
          intro hmem
          obtain ⟨c, hc, hcid⟩ := mem_idsOf.1 hmem
          exact hold ⟨by simp [hid], c, hc, hcid.trans hid.symm⟩
        have hlast : [(⟨f, []⟩ : Copy I)].filterMap (fun c => c.first.id) = [id] := by simp [hid]
        rw [hlast]
        exact nodup_append.2 ⟨h.nodup, nodup_singleton id, fun a ha b hb heq =>
          hnew (mem_singleton.1 hb ▸ heq ▸ ha)⟩
    · intro c hc g hg
      rcases mem_append.1 hc with hc | hc
      · exact h.folded c hc g hg
      · obtain rfl : c = ⟨f, []⟩ := by simpa using hc
        cases hg

/-- A finding that is added is represented once more. -/
theorem represented_addFinding (h : Folds copies) (f : Finding I) :
    (represented (addFinding copies f)).Perm (represented copies ++ [f]) := by
  rw [addFinding_eq]
  split_ifs with hold
  · obtain ⟨hsome, hex⟩ := hold
    obtain ⟨id, hid⟩ := isSome_iff_exists.1 hsome
    exact represented_map_foldInto hid h hex
  · rw [represented_append]
    exact .refl _

theorem copies_foldl (fs : List (Finding I)) (h : Folds copies) :
    Folds (fs.foldl addFinding copies) ∧
      (represented (fs.foldl addFinding copies)).Perm (represented copies ++ fs) := by
  induction fs generalizing copies with
  | nil => exact ⟨h, by simp⟩
  | cons f fs ih =>
    obtain ⟨hfolds, hperm⟩ := ih (folds_addFinding h f)
    refine ⟨hfolds, hperm.trans ?_⟩
    have hstep := (represented_addFinding h f).append_right fs
    rwa [append_assoc] at hstep

theorem folds_copiesOf : Folds (copiesOf component) :=
  (copies_foldl (component.flatMap Row.group) folds_nil).1

theorem represented_copiesOf :
    (represented (copiesOf component)).Perm (component.flatMap Row.group) :=
  (copies_foldl (component.flatMap Row.group) folds_nil).2

/-! ### The canonical order -/

/-- Copies picked by id, each id of some of them. -/
theorem filterMap_find?_perm (h : Folds copies) {ids : List I} (hids : ids.Nodup) :
    (ids.filterMap fun id => copies.find? fun c => c.first.id = some id).Perm
      (copies.filter fun c => ∃ id ∈ ids, c.first.id = some id) := by
  have hfound : ∀ {id c}, (copies.find? fun c => c.first.id = some id) = some c →
      c ∈ copies ∧ c.first.id = some id := by
    intro id c hc
    exact ⟨mem_of_find?_eq_some hc, by simpa using find?_some hc⟩
  refine (perm_ext_iff_of_nodup ?_ ?_).2 fun c => ?_
  · refine hids.filterMap fun id id' c hc hc' => ?_
    exact some.inj ((hfound hc).2.symm.trans (hfound hc').2)
  · refine (h.sublist filter_sublist).nodup_of_ids fun c hc => ?_
    obtain ⟨id, -, hid⟩ := of_decide_eq_true (mem_filter.1 hc).2
    rw [hid]
    rfl
  · rw [List.mem_filterMap, mem_filter, decide_eq_true_eq]
    constructor
    · rintro ⟨id, hid, hc⟩
      exact ⟨(hfound hc).1, id, hid, (hfound hc).2⟩
    · rintro ⟨hc, id, hid, hcid⟩
      refine ⟨id, hid, ?_⟩
      cases hfind : copies.find? fun c => c.first.id = some id with
      | none => exact absurd hcid (by simpa using find?_eq_none.1 hfind c hc)
      | some c' => rw [h.eq_of_id (hfound hfind).1 hc (hfound hfind).2 hcid]

theorem nodup_canonical : (canonical component).Nodup :=
  nodup_eraseDups _

/-- The copies in their canonical order. -/
theorem canonical_perm :
    ((canonical component).filterMap (fun id => (copiesOf component).find? fun c =>
        c.first.id = some id) ++
      (copiesOf component).filter fun c => ∀ id ∈ canonical component, c.first.id ≠ some id).Perm
        (copiesOf component) := by
  have hpicked := filterMap_find?_perm (folds_copiesOf component) (nodup_canonical component)
  refine (hpicked.append_right _).trans ?_
  have hrest : (copiesOf component).filter (fun c => ∀ id ∈ canonical component,
      c.first.id ≠ some id) = (copiesOf component).filter fun c =>
        !decide (∃ id ∈ canonical component, c.first.id = some id) := by
    refine List.filter_congr fun c _ => ?_
    rw [← decide_not, decide_eq_decide]
    simp
  rw [hrest]
  exact filter_append_perm _ _

/-- **The group of a component**: each id one copy, and each finding of its rows represented
once. -/
theorem merged_spec : Folds (merged component) ∧
    (represented (merged component)).Perm (component.flatMap Row.group) := by
  have hcanonical := canonical_perm component
  unfold merged
  dsimp only
  split
  · rename_i original hwhole
    split at hwhole
    · rename_i row
      split_ifs at hwhole with hnodup
      obtain rfl := some.inj hwhole
      refine ⟨⟨?_, fun c hc f hf => ?_⟩, ?_⟩
      · rw [idsOf_originals]
        exact hnodup
      · obtain ⟨g, -, rfl⟩ := mem_map.1 hc
        cases hf
      · rw [represented_originals, flatMap_singleton]
    · cases hwhole
  · exact ⟨(folds_copiesOf component).perm hcanonical.symm,
      (represented_perm hcanonical).trans (represented_copiesOf component)⟩

end Triage.ReportGroups
