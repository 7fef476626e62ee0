import Triage.Data.Condensation
import Triage.Data.ReachSum

/-!
# Greatest values along links

The greatest value among the vertices that lead to a vertex. Values are pushed along the links in
a topological order, so that each vertex has its greatest before it pushes; where links go round in
cycles, their groups take the place of the vertices.

## Main results

* `Arrivals.le_carryAll` : what is pushed is the greatest of those that lead to a vertex.
* `Components.le_maxima` : the same over groups of vertices.
-/

namespace Triage

open List Relation.ReflTransGen

variable {α : Type*} [LinearOrder α]

namespace Arrivals

def raise (v : ℕ) (p : ℕ → α) (w : ℕ) : ℕ → α := Function.update p w (max (p w) (p v))

variable {n : ℕ} {next : ℕ → List ℕ} {order ws : List ℕ} {p : ℕ → α} {m : α} {v c : ℕ}

theorem foldl_raise (hv : v ∉ ws) :
    ws.foldl (raise v) p c = if c ∈ ws then max (p c) (p v) else p c := by
  induction ws using reverseRecOn generalizing c with
  | nil => rfl
  | append_singleton ws w ih =>
    rw [mem_append, not_or, mem_singleton] at hv
    rw [foldl_append, foldl_cons, foldl_nil, raise, Function.update_apply]
    simp only [ih hv.1, if_neg hv.1, mem_append, mem_singleton]
    by_cases hc : c = w
    · subst hc
      rw [if_pos rfl, if_pos (Or.inr rfl)]
      split
      · rw [max_assoc, max_self]
      · rfl
    · rw [if_neg hc]
      simp only [hc, or_false]

/-- What leads to a vertex is the vertex, or leads to one that links to it. -/
theorem exists_leads_iff {P : ℕ → Prop} : (∃ a, Links.Leads next a v ∧ P a) ↔
    P v ∨ ∃ u, v ∈ next u ∧ ∃ a, Links.Leads next a u ∧ P a := by
  constructor
  · rintro ⟨a, hlead, ha⟩
    rcases cases_tail hlead with rfl | ⟨u, hau, huv⟩
    · exact .inl ha
    · exact .inr ⟨u, huv, a, hau, ha⟩
  · rintro (hv | ⟨u, huv, a, hau, ha⟩)
    · exact ⟨v, refl, hv⟩
    · exact ⟨a, hau.step huv, ha⟩

theorem le_carryAll (htopological : Topological n next order)
    (hinside : ∀ u, ∀ w ∈ next u, u < n) (hself : ∀ v, v ∉ next v) :
    m ≤ carryAll next raise order p c ↔ ∃ a, Links.Leads next a c ∧ m ≤ p a := by
  have hall : ∀ done rest, order = done ++ rest → ∀ c, m ≤ carryAll next raise done p c ↔
      m ≤ p c ∨ ∃ u ∈ done, c ∈ next u ∧ ∃ a, Links.Leads next a u ∧ m ≤ p a := by
    intro done
    induction done using reverseRecOn with
    | nil => simp [carryAll]
    | append_singleton done v ih =>
      intro rest horder c
      rw [append_assoc, singleton_append] at horder
      have ih := ih (v :: rest) horder
      -- all that links to the vertex came before it
      have hv : m ≤ carryAll next raise done p v ↔ ∃ a, Links.Leads next a v ∧ m ≤ p a := by
        rw [ih, exists_leads_iff]
        refine or_congr_right (exists_congr fun u => and_iff_right_of_imp ?_)
        rintro ⟨huv, -⟩
        have hmem : u ∈ order := htopological.perm.mem_iff.2 (mem_range.2 (hinside u v huv))
        have hsorted := htopological.sorted
        rw [horder, pairwise_append, pairwise_cons] at hsorted
        rw [horder, mem_append, mem_cons] at hmem
        rcases hmem with hmem | rfl | hmem
        · exact hmem
        · exact absurd huv (hself u)
        · exact absurd huv (hsorted.2.1.1 u hmem)
      have hlast : carryAll next raise (done ++ [v]) p =
          (next v).foldl (raise v) (carryAll next raise done p) := by
        rw [carryAll, foldl_append]
        rfl
      have hmem : (∃ u ∈ done ++ [v], c ∈ next u ∧ ∃ a, Links.Leads next a u ∧ m ≤ p a) ↔
          (∃ u ∈ done, c ∈ next u ∧ ∃ a, Links.Leads next a u ∧ m ≤ p a) ∨
            (c ∈ next v ∧ ∃ a, Links.Leads next a v ∧ m ≤ p a) := by
        simp only [mem_append, mem_singleton, or_and_right, exists_or, exists_eq_left]
      rw [hlast, foldl_raise (hself v), hmem, ← hv, ← or_assoc, ← ih]
      split
      · rename_i hc
        rw [le_max_iff, and_iff_right hc]
      · rename_i hc
        exact (or_iff_left fun h => hc h.1).symm
  rw [hall order [] (append_nil order).symm, exists_leads_iff]
  refine or_congr_right (exists_congr fun u => and_iff_right_of_imp ?_)
  rintro ⟨huv, -⟩
  exact htopological.perm.mem_iff.2 (mem_range.2 (hinside u c huv))

end Arrivals

namespace Components

variable {V : Type*} [DecidableEq V]

/-- The values of the groups, pushed along the links between them. -/
def maxima (next : V → List V) (vertices : List V) (groups : List (List V)) (value : ℕ → α) :
    ℕ → α :=
  have condensed := condense (groupLinks next vertices groups)
  (Arrivals.settle condensed.1 Arrivals.raise groups.length condensed.2 value).carried

variable {next : V → List V} {vertices : List V} {groups : List (List V)} {value : ℕ → α} {m : α}
  {v : V}

theorem le_maxima (h : Components next vertices groups)
    (hclosed : ∀ v ∈ vertices, ∀ w ∈ next v, w ∈ vertices) (hv : v ∈ vertices) :
    m ≤ maxima next vertices groups value (groupOf groups v) ↔
      ∃ u ∈ vertices, Links.Leads next u v ∧ m ≤ value (groupOf groups u) := by
  have hacyclic := acyclic h hclosed
  have hinside : ∀ a, ∀ b ∈ (condense (groupLinks next vertices groups)).1 a,
      a < groups.length := fun a b hb => groupLinks_lt h (a, b) (mem_condense.1 hb).1
  obtain ⟨htopological, hcarried⟩ := Arrivals.settle_spec Arrivals.raise value
    (numbered h hclosed) (fun v _ => condense_snd (groupLinks_lt h)) hacyclic
  rw [maxima, hcarried, Arrivals.le_carryAll htopological hinside
    fun a ha => hacyclic a (Relation.TransGen.single ha)]
  constructor
  · rintro ⟨a, hlead, ha⟩
    obtain ⟨u, hu, rfl⟩ : ∃ u ∈ vertices, groupOf groups u = a := by
      rcases Links.leads_iff_head.1 hlead with rfl | ⟨b, hb, -⟩
      · exact ⟨v, hv, rfl⟩
      · obtain ⟨u, hu, -, -, hua, -⟩ := mem_groupLinks.1 (mem_condense.1 hb).1
        exact ⟨u, hu, hua⟩
    exact ⟨u, hu, (leads_iff h hclosed hu hv).1 hlead, ha⟩
  · rintro ⟨u, hu, hlead, hm⟩
    exact ⟨_, (leads_iff h hclosed hu hv).2 hlead, hm⟩

end Components

end Triage
