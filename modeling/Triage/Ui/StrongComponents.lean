import Mathlib.Data.List.Sort
import Triage.Data.Components

/-!
# Strong components of a table of links

The rows of a dependency matrix fall into groups that import each other. The table of links may
have rows and targets that are no rows of the matrix; those are left out.

## Main results

* `stronglyConnected_right` : **the groups** are the strong components, numbered along the links.
-/

namespace Triage.StrongComponents

open List

variable {F : Type*} [DecidableEq F]

/-- `links.get(id) ?? []` -/
def row (links : List (F × List F)) (id : F) : List F :=
  ((links.find? (·.1 = id)).map Prod.snd).getD []

/-- `row`, without the ids that are not known. -/
def known (ids : List F) (links : List (F × List F)) (id : F) : List F :=
  (row links id).filter (ids.contains ·)

/-- The known ids that link to one, in the order of the table. -/
def reverse (ids : List F) (links : List (F × List F)) (target : F) : List F :=
  links.flatMap fun r =>
    (r.2.filter fun w => ids.contains r.1 ∧ ids.contains w ∧ w = target).map fun _ => r.1

def stronglyConnected (le : F → F → Bool) (ids : List F) (links : List (F × List F)) :
    List (List F) :=
  (Components.groups (known ids links) (reverse ids links) ids).map (List.mergeSort · le)

def componentOf (le : F → F → Bool) (ids : List F) (links : List (F × List F)) (id : F) :
    Option ℕ :=
  (stronglyConnected le ids links).findIdx? (·.contains id)

variable {ids : List F} {links : List (F × List F)} {le : F → F → Bool} {v w : F}

theorem mem_row (hkeys : (links.map Prod.fst).Nodup) :
    w ∈ row links v ↔ ∃ r ∈ links, r.1 = v ∧ w ∈ r.2 := by
  rw [row]
  cases hfind : links.find? (·.1 = v) with
  | none =>
    have hnone := find?_eq_none.1 hfind
    constructor
    · intro h
      cases h
    · rintro ⟨r, hr, hv, -⟩
      exact absurd (decide_eq_true hv) (hnone r hr)
  | some r =>
    have hr := mem_of_find?_eq_some hfind
    have hv : r.1 = v := by simpa only [decide_eq_true_eq] using find?_some hfind
    constructor
    · exact fun h => ⟨r, hr, hv, h⟩
    · rintro ⟨r', hr', hv', hw⟩
      rw [inj_on_of_nodup_map hkeys hr' hr (hv'.trans hv.symm)] at hw
      exact hw

theorem mem_known : w ∈ known ids links v ↔ w ∈ row links v ∧ w ∈ ids := by
  rw [known, mem_filter, contains_iff_mem]

/-- Only known ids are linked. -/
theorem opposite (hkeys : (links.map Prod.fst).Nodup) :
    Components.Opposite (known ids links) (reverse ids links) ids := by
  intro v w
  rw [mem_known, mem_row hkeys, reverse, mem_flatMap]
  constructor
  · rintro ⟨r, hr, hv⟩
    obtain ⟨w', hw', rfl⟩ := mem_map.1 hv
    obtain ⟨hmem, hknown⟩ := mem_filter.1 hw'
    simp only [contains_iff_mem, decide_eq_true_eq] at hknown
    obtain ⟨hknown, hw, rfl⟩ := hknown
    exact ⟨hknown, hw, ⟨r, hr, rfl, hmem⟩, hw⟩
  · rintro ⟨hv, hw, ⟨r, hr, rfl, hmem⟩, -⟩
    refine ⟨r, hr, mem_map.2 ⟨w, mem_filter.2 ⟨hmem, ?_⟩, rfl⟩⟩
    simpa only [contains_iff_mem, decide_eq_true_eq] using ⟨hv, hw, trivial⟩

theorem closed : ∀ v ∈ ids, ∀ w ∈ known ids links v, w ∈ ids :=
  fun _ _ _ hw => (mem_known.1 hw).2

theorem components_spec (hids : ids.Nodup) (hkeys : (links.map Prod.fst).Nodup) :
    Components (known ids links) ids (stronglyConnected le ids links) :=
  (Components.groups_spec hids closed (opposite hkeys)).map_perm
    fun group => mergeSort_perm group le

theorem ordered_spec (hids : ids.Nodup) (hkeys : (links.map Prod.fst).Nodup) :
    Components.Ordered (reverse ids links) (stronglyConnected le ids links) := by
  have hordered := Components.groups_ordered hids closed (opposite hkeys)
  intro pre group post hsplit w hw v hv
  obtain ⟨pre', rest, hgroups, rfl, hrest⟩ := map_eq_append_iff.1 hsplit
  obtain ⟨group', post', rfl, rfl, rfl⟩ := map_eq_cons_iff.1 hrest
  rw [(mergeSort_perm group' le).mem_iff] at hw ⊢
  refine (hordered pre' group' post' hgroups w hw v hv).imp_left fun hpre => ?_
  obtain ⟨g, hg, hmem⟩ := mem_flatten.1 hpre
  exact mem_flatten.2 ⟨g.mergeSort le, mem_map_of_mem hg, (mergeSort_perm g le).mem_iff.2 hmem⟩

/-- The groups that are the strong components of a graph, numbered along its links. -/
structure Right (next : F → List F) (ids : List F) (groups : List (List F))
    (number : F → Option ℕ) : Prop where
  once : groups.flatten.Perm ids
  numbered : ∀ id i, number id = some i ↔ ∃ group, groups[i]? = some group ∧ id ∈ group
  strong : ∀ v ∈ ids, ∀ w ∈ ids,
    number v = number w ↔ Links.Leads next v w ∧ Links.Leads next w v
  along : ∀ v ∈ ids, ∀ w ∈ next v, ∀ i j, number v = some i → number w = some j → i ≠ j → i < j

theorem numbered_spec {groups : List (List F)} (hnodup : groups.flatten.Nodup) (id : F) (i : ℕ) :
    groups.findIdx? (·.contains id) = some i ↔ ∃ group, groups[i]? = some group ∧ id ∈ group := by
  rw [findIdx?_eq_some_iff_getElem]
  constructor
  · rintro ⟨hi, hcontains, -⟩
    exact ⟨groups[i], getElem?_eq_getElem hi, contains_iff_mem.1 hcontains⟩
  · rintro ⟨group, hgroup, hmem⟩
    obtain ⟨hi, rfl⟩ := List.getElem?_eq_some_iff.1 hgroup
    refine ⟨hi, contains_iff_mem.2 hmem, fun j hj hcontains => ?_⟩
    have hapart := pairwise_iff_getElem.1 (nodup_flatten.1 hnodup).2 j i (by omega) hi hj
    exact hapart (contains_iff_mem.1 hcontains) hmem

/-- **The groups** are the strong components of the known ids, numbered along the links. -/
theorem stronglyConnected_right (le : F → F → Bool) (ids : List F) (links : List (F × List F))
    (hids : ids.Nodup) (hkeys : (links.map Prod.fst).Nodup) :
    Right (known ids links) ids (stronglyConnected le ids links) (componentOf le ids links) := by
  have h : Components (known ids links) ids (stronglyConnected le ids links) :=
    components_spec hids hkeys
  have hordered : Components.Ordered (reverse ids links) (stronglyConnected le ids links) :=
    ordered_spec hids hkeys
  have hnumbered : ∀ id i, componentOf le ids links id = some i ↔
      ∃ group, (stronglyConnected le ids links)[i]? = some group ∧ id ∈ group :=
    numbered_spec (h.perm.nodup_iff.2 hids)
  have hall : ∀ id ∈ ids, ∃ i group, componentOf le ids links id = some i ∧
      (stronglyConnected le ids links)[i]? = some group ∧ id ∈ group := by
    intro id hid
    obtain ⟨group, hgroup, hmem⟩ := mem_flatten.1 (h.perm.mem_iff.2 hid)
    obtain ⟨i, hi⟩ := getElem?_of_mem hgroup
    exact ⟨i, group, (hnumbered id i).2 ⟨group, hi, hmem⟩, hi, hmem⟩
  refine ⟨h.perm, hnumbered, fun v hv w hw => ?_, fun v hv w hw i j hi hj hne => ?_⟩
  · obtain ⟨i, group, hi, hgroup, hmem⟩ := hall v hv
    rw [hi, eq_comm, hnumbered, ← h.strong group (mem_of_getElem? hgroup) v hmem w hw]
    constructor
    · rintro ⟨group', hgroup', hw⟩
      cases hgroup.symm.trans hgroup'
      exact hw
    · exact fun hw => ⟨group, hgroup, hw⟩
  · obtain ⟨group, hgroup, hmem⟩ := (hnumbered w j).1 hj
    obtain ⟨hlt, rfl⟩ := List.getElem?_eq_some_iff.1 hgroup
    have hsplit := (take_append_drop j (stronglyConnected le ids links)).symm
    rw [drop_eq_getElem_cons hlt] at hsplit
    have hback := (opposite hkeys v w).2 ⟨hv, (mem_known.1 hw).2, hw⟩
    rcases hordered _ _ _ hsplit w hmem v hback with hbefore | hsame
    · obtain ⟨group', hgroup', hv'⟩ := mem_flatten.1 hbefore
      obtain ⟨i', hi'⟩ := getElem?_of_mem hgroup'
      rw [getElem?_take] at hi'
      split at hi'
      · have hnumber := (hnumbered v i').2 ⟨group', hi', hv'⟩
        cases hi.symm.trans hnumber
        assumption
      · cases hi'
    · cases hi.symm.trans ((hnumbered v j).2 ⟨_, hgroup, hsame⟩)
      exact absurd rfl hne

/-- Two ids that link to each other, an unknown one, and one without a row. -/
theorem stronglyConnected_right_known :
    Right (known [1, 2, 3] [(1, [2, 1, 9]), (2, [1, 3]), (9, [3, 1])]) [1, 2, 3]
      (stronglyConnected (· ≤ ·) [1, 2, 3] [(1, [2, 1, 9]), (2, [1, 3]), (9, [3, 1])])
      (componentOf (· ≤ ·) [1, 2, 3] [(1, [2, 1, 9]), (2, [1, 3]), (9, [3, 1])]) :=
  stronglyConnected_right (fun a b : ℕ => decide (a ≤ b)) _ _ (by decide) (by decide)

end Triage.StrongComponents
