import Mathlib.Data.Nat.ModEq

/-!
# Ring queues

A queue of a fixed number of slots: what goes in is written at the tail and what comes out is read
at the head, and both go round.

## Main results

* `RingQueue.Holds.push`, `RingQueue.Holds.pop` : as long as a slot is free, what is pushed goes to
  the end of the list, and what is popped comes from its front.
-/

namespace Triage

open List Nat

/-- A queue over slots that are taken from the head to the tail. -/
structure RingQueue (α : Type*) where
  slots : List α
  head : ℕ
  tail : ℕ
  pending : ℕ

namespace RingQueue

variable {α : Type*}

def empty (slots : List α) : RingQueue α := ⟨slots, 0, 0, 0⟩

def push (q : RingQueue α) (x : α) : RingQueue α where
  slots := q.slots.set q.tail x
  head := q.head
  tail := (q.tail + 1) % q.slots.length
  pending := q.pending + 1

def pop (q : RingQueue α) : Option (α × RingQueue α) :=
  if q.pending = 0 then none
  else q.slots[q.head]?.map fun x =>
    (x, { q with head := (q.head + 1) % q.slots.length, pending := q.pending - 1 })

/-- The list that a queue stands for, its front first. -/
structure Holds (q : RingQueue α) (xs : List α) : Prop where
  pending : q.pending = xs.length
  fits : xs.length ≤ q.slots.length
  head : q.head < q.slots.length ∨ q.slots = []
  tail : q.tail = (q.head + xs.length) % q.slots.length
  slot : ∀ k, k < xs.length → q.slots[(q.head + k) % q.slots.length]? = xs[k]?

variable {q : RingQueue α} {x : α} {xs : List α}

theorem holds_empty (slots : List α) : (empty slots).Holds [] where
  pending := rfl
  fits := zero_le _
  head := by
    cases slots with
    | nil => exact .inr rfl
    | cons x xs => exact .inl (succ_pos _)
  tail := (zero_mod _).symm
  slot k hk := absurd hk (not_lt_zero k)

/-- Two offsets of a ring lead to one slot only where they are the same. -/
theorem offset_inj {n h i j : ℕ} (hi : i < n) (hj : j < n) (heq : (h + i) % n = (h + j) % n) :
    i = j := by
  have hmod : i % n = j % n := Nat.ModEq.add_left_cancel' h heq
  rwa [mod_eq_of_lt hi, mod_eq_of_lt hj] at hmod

theorem Holds.push (h : q.Holds xs) (hfree : xs.length < q.slots.length) (x : α) :
    (q.push x).Holds (xs ++ [x]) := by
  have hlength : (q.push x).slots.length = q.slots.length := length_set
  refine ⟨?_, ?_, ?_, ?_, fun k hk => ?_⟩
  · rw [length_append, ← h.pending]
    rfl
  · rw [hlength, length_append]
    exact hfree
  · rw [hlength]
    exact .inl (h.head.resolve_right fun hnil => by simp [hnil] at hfree)
  · rw [hlength, length_append]
    change (q.tail + 1) % _ = _
    rw [h.tail, mod_add_mod, add_assoc]
    rfl
  · rw [length_append, length_singleton] at hk
    rw [hlength]
    change (q.slots.set q.tail x)[(q.head + k) % _]? = _
    by_cases heq : k = xs.length
    · subst heq
      rw [getElem?_concat_length, ← h.tail, getElem?_set_self]
      rw [h.tail]
      exact mod_lt _ (by omega)
    · have hlt : k < xs.length := by omega
      rw [getElem?_append_left hlt, getElem?_set_ne, h.slot k hlt]
      rw [h.tail]
      exact fun hsame => heq (offset_inj (by omega) hfree hsame.symm)

theorem Holds.pop (h : q.Holds (x :: xs)) : ∃ q', q.pop = some (x, q') ∧ q'.Holds xs := by
  have hfits := h.fits
  rw [length_cons] at hfits
  have hhead : q.head < q.slots.length := h.head.resolve_right fun hnil => by simp [hnil] at hfits
  have hfirst : q.slots[q.head]? = some x := by
    have hslot := h.slot 0 (succ_pos _)
    rwa [add_zero, mod_eq_of_lt hhead] at hslot
  have hpending : q.pending ≠ 0 := by
    rw [h.pending]
    exact succ_ne_zero _
  refine ⟨_, by rw [RingQueue.pop, if_neg hpending, hfirst]; rfl, ?_, ?_, ?_, ?_, fun k hk => ?_⟩
  · change q.pending - 1 = _
    rw [h.pending]
    rfl
  · exact (le_succ _).trans hfits
  · exact .inl (mod_lt _ (by omega))
  · change q.tail = ((q.head + 1) % q.slots.length + xs.length) % q.slots.length
    rw [h.tail, mod_add_mod, length_cons]
    congr 1
    omega
  · change q.slots[((q.head + 1) % q.slots.length + k) % q.slots.length]? = _
    have hslot := h.slot (k + 1) (succ_lt_succ hk)
    rw [getElem?_cons_succ] at hslot
    rw [mod_add_mod, ← hslot]
    congr 2
    omega

theorem slots_of_pop {q' : RingQueue α} (h : q.pop = some (x, q')) : q'.slots = q.slots := by
  rw [RingQueue.pop] at h
  split at h
  · cases h
  · obtain ⟨y, -, hy⟩ := Option.map_eq_some_iff.1 h
    cases hy
    rfl

theorem Holds.pop_nil (h : q.Holds []) : q.pop = none := by
  have hpending : q.pending = 0 := h.pending
  rw [RingQueue.pop, if_pos hpending]

end RingQueue

end Triage
