import Mathlib.Order.Lattice
import Mathlib.Data.List.Basic
import Mathlib.Data.List.Pairwise

/-!
# Insertion by binary search

The place of a key in a sorted list is found by halving, before the first item whose key is not
less, and an item put there leaves the list sorted.

## Main results

* `insertSorted_sorted` : a sorted list stays sorted.
* `mem_insertSorted`, `insertSorted_nodup` : what is in it.
-/

namespace Triage.Sorted

open List Option

variable {α β : Type*} [LinearOrder β]

/-- The first place between `low` and `high` where the keys are not less than `k`. -/
def lowerBound (keys : List β) (k : β) (low high : ℕ) : ℕ :=
  if low < high then
    if keys[(low + high) / 2]?.any fun x => decide (x < k) then
      lowerBound keys k ((low + high) / 2 + 1) high
    else lowerBound keys k low ((low + high) / 2)
  else low
termination_by high - low

/-- An item is put where its key belongs. -/
def insertSorted (key : α → β) (l : List α) (x : α) : List α :=
  l.take (lowerBound (l.map key) (key x) 0 l.length) ++
    x :: l.drop (lowerBound (l.map key) (key x) 0 l.length)

/-- A place that parts the smaller keys from the others. -/
def Parts (keys : List β) (k : β) (i : ℕ) : Prop :=
  ∀ j x, keys[j]? = some x → (j < i → x < k) ∧ (i ≤ j → k ≤ x)

variable {keys : List β}

section

variable (h : keys.Pairwise (· ≤ ·))
include h

theorem le_of_getElem? {i j : ℕ} {x y : β}
    (hij : i ≤ j) (hx : keys[i]? = some x) (hy : keys[j]? = some y) : x ≤ y := by
  rcases hij.eq_or_lt with rfl | hlt
  · rw [hx, Option.some.injEq] at hy
    exact hy.le
  · obtain ⟨hi, rfl⟩ := List.getElem?_eq_some_iff.1 hx
    obtain ⟨hj, rfl⟩ := List.getElem?_eq_some_iff.1 hy
    exact pairwise_iff_getElem.1 h i j hi hj hlt

theorem lowerBound_parts {k : β} {low high : ℕ} (hle : low ≤ high) (hhigh : high ≤ keys.length)
    (hbelow : ∀ j x, keys[j]? = some x → j < low → x < k)
    (habove : ∀ j x, keys[j]? = some x → high ≤ j → k ≤ x) :
    Parts keys k (lowerBound keys k low high) := by
  induction low, high using lowerBound.induct keys k with
  | case1 low high hlt hless ih =>
    rw [lowerBound, if_pos hlt, if_pos hless]
    refine ih (by omega) hhigh (fun j x hx hj => ?_) habove
    obtain ⟨y, hy, hyk⟩ := (Option.any_eq_true _ _).1 hless
    exact (le_of_getElem? h (by omega) hx hy).trans_lt (of_decide_eq_true hyk)
  | case2 low high hlt hless ih =>
    rw [lowerBound, if_pos hlt, if_neg hless]
    refine ih (by omega) (by omega) hbelow fun j x hx hj => ?_
    have hmid : (low + high) / 2 < keys.length := by omega
    have hy := getElem?_eq_getElem hmid
    have hyk : k ≤ keys[(low + high) / 2] := by
      rw [hy, any_some, decide_eq_true_eq] at hless
      exact not_lt.1 hless
    exact hyk.trans (le_of_getElem? h hj hy hx)
  | case3 low high hlt =>
    rw [lowerBound, if_neg hlt]
    have heq : low = high := by omega
    exact fun j x hx => ⟨hbelow j x hx, fun hj => habove j x hx (heq ▸ hj)⟩

theorem lowerBound_spec (k : β) : Parts keys k (lowerBound keys k 0 keys.length) := by
  refine lowerBound_parts h (Nat.zero_le _) le_rfl (fun j x _ hj => absurd hj (Nat.not_lt_zero j))
    fun j x hx hj => ?_
  rw [getElem?_eq_none hj] at hx
  cases hx

end

variable {key : α → β} {l : List α} {x : α}

theorem mem_insertSorted {y : α} : y ∈ insertSorted key l x ↔ y = x ∨ y ∈ l := by
  rw [insertSorted, mem_append, mem_cons, or_left_comm, ← mem_append, take_append_drop]

theorem insertSorted_perm : (insertSorted key l x).Perm (x :: l) := by
  refine perm_middle.trans (List.Perm.cons x ?_)
  rw [take_append_drop]

theorem insertSorted_nodup (h : l.Nodup) (hx : x ∉ l) : (insertSorted key l x).Nodup :=
  insertSorted_perm.nodup_iff.2 (nodup_cons.2 ⟨hx, h⟩)

/-- **An item put where its key belongs leaves a list sorted.** -/
theorem insertSorted_sorted (h : l.Pairwise fun a b => key a ≤ key b) :
    (insertSorted key l x).Pairwise fun a b => key a ≤ key b := by
  have hparts := lowerBound_spec (pairwise_map.2 h) (key x)
  rw [length_map] at hparts
  have hbelow : ∀ y ∈ l.take (lowerBound (l.map key) (key x) 0 l.length), key y < key x := by
    intro y hy
    obtain ⟨j, hj, rfl⟩ := getElem_of_mem hy
    rw [length_take] at hj
    rw [getElem_take]
    refine (hparts j _ ?_).1 (by omega)
    rw [getElem?_map, getElem?_eq_getElem (by omega), map_some]
  have habove : ∀ y ∈ l.drop (lowerBound (l.map key) (key x) 0 l.length), key x ≤ key y := by
    intro y hy
    obtain ⟨j, hj, rfl⟩ := getElem_of_mem hy
    rw [length_drop] at hj
    rw [getElem_drop]
    refine (hparts (lowerBound (l.map key) (key x) 0 l.length + j) _ ?_).2 (by omega)
    rw [getElem?_map, getElem?_eq_getElem (by omega), map_some]
  rw [insertSorted, pairwise_append, pairwise_cons]
  refine ⟨h.sublist (take_sublist _ _), ⟨habove, h.sublist (drop_sublist _ _)⟩, ?_⟩
  intro a ha b hb
  rcases mem_cons.1 hb with rfl | hb
  · exact (hbelow a ha).le
  · exact (hbelow a ha).le.trans (habove b hb)

end Triage.Sorted
