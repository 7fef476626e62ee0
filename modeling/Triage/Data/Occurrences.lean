import Mathlib.Data.List.Infix

/-!
# Occurrences of a list in another

The places of a list in another are found from the left, each after the end of the last one.

## Main results

* `walk_spec` : the places are in order and apart.
* `walk_ne_nil` : there is one where the one list is a part of the other.
-/

namespace Triage.Occurrences

open List

variable {α : Type*} [DecidableEq α]

def indexOf (hay needle : List α) (start : ℕ) : Option ℕ :=
  (List.range (hay.length + 1)).find? fun i => start ≤ i ∧ needle <+: hay.drop i

/-- The beginning and the end of each place. -/
def walk (hay needle : List α) : ℕ → ℕ → List (ℕ × ℕ)
  | 0, _ => []
  | n + 1, start =>
    match indexOf hay needle start with
    | none => []
    | some i => (i, i + needle.length) :: walk hay needle n (i + needle.length)

variable {hay needle : List α} {start i n : ℕ} {r : ℕ × ℕ}

theorem indexOf_spec (h : indexOf hay needle start = some i) :
    start ≤ i ∧ needle <+: hay.drop i := by
  rw [indexOf] at h
  simpa only [decide_eq_true_eq] using find?_some h

theorem indexOf_ne_none : indexOf hay needle 0 ≠ none ↔ needle <:+: hay := by
  constructor
  · intro h
    obtain ⟨i, hi⟩ := Option.ne_none_iff_exists'.1 h
    exact (indexOf_spec hi).2.isInfix.trans (drop_suffix i hay).isInfix
  · rintro ⟨before, after, rfl⟩ hnone
    have hnot := find?_eq_none.1 hnone before.length (by
      rw [mem_range]
      simp only [length_append]
      omega)
    refine hnot (decide_eq_true ⟨Nat.zero_le _, ?_⟩)
    rw [append_assoc, drop_left]
    exact prefix_append needle after

/-- **The places** are in order and apart. -/
theorem walk_spec (n start : ℕ) :
    (∀ r ∈ walk hay needle n start,
      start ≤ r.1 ∧ r.2 = r.1 + needle.length ∧ needle <+: hay.drop r.1) ∧
    (walk hay needle n start).Pairwise fun a b => a.2 ≤ b.1 := by
  induction n generalizing start with
  | zero => exact ⟨fun r hr => (by cases hr), List.Pairwise.nil⟩
  | succ n ih =>
    rw [walk]
    split
    · exact ⟨fun r hr => (by cases hr), List.Pairwise.nil⟩
    · rename_i i hi
      obtain ⟨hle, hprefix⟩ := indexOf_spec hi
      obtain ⟨hall, hpairs⟩ := ih (i + needle.length)
      refine ⟨fun r hr => ?_, pairwise_cons.2 ⟨fun r hr => (hall r hr).1, hpairs⟩⟩
      rcases mem_cons.1 hr with rfl | hr
      · exact ⟨hle, rfl, hprefix⟩
      · obtain ⟨hstart, hrest⟩ := hall r hr
        exact ⟨by omega, hrest⟩

theorem walk_ne_nil : walk hay needle (n + 1) 0 ≠ [] ↔ needle <:+: hay := by
  rw [← indexOf_ne_none, walk]
  split
  · rename_i h
    rw [h]
    simp
  · rename_i i h
    rw [h]
    simp

end Triage.Occurrences
