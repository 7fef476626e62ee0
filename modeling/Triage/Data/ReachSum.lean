import Mathlib.Algebra.BigOperators.Group.List.Basic
import Triage.Data.Arrivals

/-!
# Sums over what is reached

The sum of the weights of what some vertices lead to counts each vertex once. Where a vertex links
to only one other, and is on no cycle, it adds its own weight to the sum of the other; an order in
which each vertex comes after all that it links to finds the sums one after the other.

## Main results

* `Links.reachSum_eq` : any list of what is reached, without repeats, has the sum.
* `Links.reachSum_head` : the sum of a vertex with only one link.
* `Links.Settled.of_topological` : a topological order the other way round.
-/

namespace Triage.Links

open List

section Sums

variable {V : Type*} {M : Type*} [AddCommMonoid M] (next : V → List V) (vertices : List V)
  (weight : V → M)

open Classical in
/-- The sum over what is reached from some vertices. -/
noncomputable def reachSum (starts : List V) : M :=
  ((vertices.filter fun v => ReachedFrom next starts v).map weight).sum

variable {next vertices} {weight} {starts starts' : List V} {v w : V}

theorem reachSum_eq (hvertices : vertices.Nodup) {found : List V} (hfound : found.Nodup)
    (hmem : ∀ v, v ∈ found ↔ v ∈ vertices ∧ ReachedFrom next starts v) :
    (found.map weight).sum = reachSum next vertices weight starts := by
  classical
  rw [reachSum]
  refine List.Perm.sum_eq (List.Perm.map weight ?_)
  rw [perm_ext_iff_of_nodup hfound (hvertices.filter _)]
  intro v
  rw [hmem, mem_filter, decide_eq_true_iff]

theorem exists_reached (next : V → List V) (hvertices : vertices.Nodup) (starts : List V) :
    ∃ found : List V, found.Nodup ∧ ∀ v, v ∈ found ↔ v ∈ vertices ∧ ReachedFrom next starts v := by
  classical
  refine ⟨vertices.filter fun v => ReachedFrom next starts v, hvertices.filter _, fun v => ?_⟩
  rw [mem_filter, decide_eq_true_iff]

theorem reached_singleton : ReachedFrom next [v] w ↔ Leads next v w := by
  rw [ReachedFrom]
  simp

/-- A vertex is reached from itself, or else from what it links to. -/
theorem leads_iff_head : Leads next v w ↔ v = w ∨ ∃ u ∈ next v, Leads next u w :=
  Relation.ReflTransGen.cases_head_iff

theorem reachSum_head (hvertices : vertices.Nodup) (hv : v ∈ vertices) (hnext : next v = [w])
    (hback : ¬Leads next w v) :
    reachSum next vertices weight [v] = weight v + reachSum next vertices weight [w] := by
  obtain ⟨found, hfound, hmem⟩ := exists_reached next hvertices [w]
  have hnot : v ∉ found := fun h => hback (reached_singleton.1 ((hmem v).1 h).2)
  have hcons : ∀ u, u ∈ v :: found ↔ u ∈ vertices ∧ ReachedFrom next [v] u := by
    intro u
    rw [mem_cons, hmem, reached_singleton, reached_singleton, leads_iff_head (v := v), hnext]
    simp only [mem_singleton, exists_eq_left]
    constructor
    · rintro (rfl | ⟨hu, hlead⟩)
      · exact ⟨hv, .inl rfl⟩
      · exact ⟨hu, .inr hlead⟩
    · rintro ⟨hu, rfl | hlead⟩
      · exact .inl rfl
      · exact .inr ⟨hu, hlead⟩
  rw [← reachSum_eq hvertices hfound hmem,
    ← reachSum_eq hvertices (nodup_cons.2 ⟨hnot, hfound⟩) hcons, map_cons, sum_cons]

end Sums

/-! ### Orders -/

section Orders

variable {V : Type*} {next : V → List V}

def Settled (next : V → List V) (order : List V) : Prop :=
  ∀ done v rest, order = done ++ v :: rest → ∀ w ∈ next v, w ∈ done

theorem Settled.of_append {done rest : List V} (h : Settled next (done ++ rest)) :
    Settled next done := by
  rintro pre v post rfl w hw
  refine h pre v (post ++ rest) ?_ w hw
  rw [append_assoc, cons_append]

theorem Settled.of_topological {next : ℕ → List ℕ} {n : ℕ} {order : List ℕ}
    (h : Topological n next order) (hnumbered : Arrivals.Numbered n next)
    (hacyclic : ∀ v, v ∉ next v) : Settled next order.reverse := by
  intro done v rest heq w hw
  have horder : order = rest.reverse ++ v :: done.reverse := by
    rw [← reverse_reverse order, heq]
    simp
  have hv : v < n := by
    rw [← mem_range, ← h.perm.mem_iff, horder]
    simp
  have hmem : w ∈ order := h.perm.mem_iff.2 (mem_range.2 (hnumbered.closed v hv w hw))
  have hsorted := h.sorted
  rw [horder, pairwise_append] at hsorted
  rw [horder, mem_append, mem_cons, mem_reverse, mem_reverse] at hmem
  rcases hmem with hmem | rfl | hmem
  · have hnot := hsorted.2.2 w (mem_reverse.2 hmem) v mem_cons_self
    exact absurd hw hnot
  · exact absurd hw (hacyclic w)
  · exact hmem

end Orders

end Triage.Links
