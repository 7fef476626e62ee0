import Mathlib.Data.List.DropRight
import Mathlib.Data.List.GetD

/-!
# Rows of lanes

A row of lanes, each of which is free or taken by something. A lane past the end is free; putting
something there makes the lanes up to it. The first free lane may be asked for from some lane on,
those before it being reserved.
-/

namespace Triage.Lanes

open List Option

variable {α : Type*}

/-- What takes a lane. -/
def content (lanes : List (Option α)) (k : ℕ) : Option α := lanes.getD k none

def put (lanes : List (Option α)) (k : ℕ) (x : Option α) : List (Option α) :=
  if k < lanes.length then lanes.set k x
  else lanes ++ List.replicate (k - lanes.length) none ++ [x]

/-- The lanes without the free ones at the end. -/
def trim (lanes : List (Option α)) : List (Option α) := lanes.rdropWhile Option.isNone

/-- The first free lane that is not reserved. -/
def freeLane (reserved : ℕ) (lanes : List (Option α)) : ℕ :=
  ((List.range lanes.length).find? fun k => decide (reserved ≤ k) && (content lanes k).isNone).getD
    (max lanes.length reserved)

variable {lanes : List (Option α)} {k j : ℕ} {x : Option α} {a : α}

theorem content_of_le (h : lanes.length ≤ k) : content lanes k = none :=
  getD_eq_default _ _ h

theorem lt_of_content (h : content lanes k = some a) : k < lanes.length := by
  by_contra hk
  rw [content_of_le (Nat.le_of_not_lt hk)] at h
  cases h

theorem content_put : content (put lanes k x) j = if j = k then x else content lanes j := by
  rw [put, content, content]
  split
  · rename_i hk
    rw [getD_eq_getElem?_getD, getElem?_set, getD_eq_getElem?_getD]
    rcases eq_or_ne k j with rfl | hne
    · rw [if_pos rfl, if_pos hk, if_pos rfl]
      rfl
    · rw [if_neg hne, if_neg hne.symm]
  · rename_i hk
    simp only [getD_eq_getElem?_getD, append_assoc]
    rcases Nat.lt_trichotomy j k with hj | rfl | hj
    · rw [if_neg hj.ne]
      rcases Nat.lt_or_ge j lanes.length with hlt | hge
      · rw [getElem?_append_left hlt]
      · rw [getElem?_append_right hge, getElem?_append_left (by simp; omega),
          getElem?_replicate, if_pos (by omega), getElem?_eq_none hge]
        rfl
    · rw [if_pos rfl, getElem?_append_right (by omega),
        getElem?_append_right (by simp), length_replicate]
      simp
    · rw [if_neg hj.ne', getElem?_eq_none (by simp; omega), getElem?_eq_none (by omega)]

theorem lt_length_put : k < (put lanes k x).length := by
  rw [put]
  split
  · rwa [length_set]
  · simp
    omega

theorem length_le_put : lanes.length ≤ (put lanes k x).length := by
  rw [put]
  split
  · rw [length_set]
  · simp

theorem content_freeLane (reserved : ℕ) (lanes : List (Option α)) :
    content lanes (freeLane reserved lanes) = none := by
  rw [freeLane]
  cases h : (List.range lanes.length).find?
      fun k => decide (reserved ≤ k) && (content lanes k).isNone with
  | none => exact content_of_le (le_max_left ..)
  | some k =>
    have hk := find?_some h
    rw [Bool.and_eq_true, isNone_iff_eq_none] at hk
    exact hk.2

theorem le_freeLane (reserved : ℕ) (lanes : List (Option α)) :
    reserved ≤ freeLane reserved lanes := by
  rw [freeLane]
  cases h : (List.range lanes.length).find?
      fun k => decide (reserved ≤ k) && (content lanes k).isNone with
  | none => exact le_max_right ..
  | some k =>
    have hk := find?_some h
    rw [Bool.and_eq_true, decide_eq_true_eq] at hk
    exact hk.1

/-- Trimming only drops free lanes. -/
theorem exists_trim (lanes : List (Option α)) :
    ∃ n, lanes = trim lanes ++ List.replicate n none := by
  induction lanes using reverseRecOn with
  | nil => exact ⟨0, rfl⟩
  | append_singleton lanes x ih =>
    rw [trim, rdropWhile_concat]
    cases x with
    | none =>
      obtain ⟨n, hn⟩ := ih
      refine ⟨n + 1, ?_⟩
      rw [if_pos isNone_none, replicate_succ', ← append_assoc]
      exact congrArg (· ++ [none]) hn
    | some a => exact ⟨0, by simp⟩

theorem content_trim (lanes : List (Option α)) (k : ℕ) :
    content (trim lanes) k = content lanes k := by
  obtain ⟨n, hn⟩ := exists_trim lanes
  conv_rhs => rw [hn]
  rw [content, content, getD_eq_getElem?_getD, getD_eq_getElem?_getD]
  rcases Nat.lt_or_ge k (trim lanes).length with hlt | hge
  · rw [getElem?_append_left hlt]
  · rw [getElem?_append_right hge, getElem?_eq_none hge, getElem?_replicate]
    split <;> rfl

section DecidableEq

variable [DecidableEq α]

/-- The lanes with what something takes freed. -/
def release (lanes : List (Option α)) (a : α) : List (Option α) :=
  lanes.map fun x => if x = some a then none else x

/-- The first lane that something takes. -/
def waiting (lanes : List (Option α)) (a : α) : Option ℕ := lanes.findIdx? (· = some a)

theorem content_release :
    content (release lanes a) k = if content lanes k = some a then none else content lanes k := by
  rw [content, content, release, getD_eq_getElem?_getD, getD_eq_getElem?_getD, getElem?_map]
  cases lanes[k]? with
  | none => rfl
  | some x => rfl

theorem content_waiting (h : waiting lanes a = some k) : content lanes k = some a := by
  obtain ⟨hk, hka, -⟩ := findIdx?_eq_some_iff_getElem.1 h
  rw [content, getD_eq_getElem _ _ hk]
  exact of_decide_eq_true hka

theorem exists_waiting (h : content lanes k = some a) : ∃ j, waiting lanes a = some j := by
  have hk := lt_of_content h
  rw [content, getD_eq_getElem _ _ hk] at h
  cases hw : waiting lanes a with
  | some j => exact ⟨j, rfl⟩
  | none =>
    have hnone := findIdx?_eq_none_iff.1 hw lanes[k] (getElem_mem hk)
    rw [h] at hnone
    simp at hnone

/-- What takes the first lane waits there. -/
theorem waiting_zero (h : content lanes 0 = some a) : waiting lanes a = some 0 := by
  cases lanes with
  | nil => cases h
  | cons x lanes =>
    have hx : x = some a := h
    rw [waiting, findIdx?_cons, hx, decide_eq_true rfl]
    rfl

theorem waiting_trim (lanes : List (Option α)) (a : α) :
    waiting (trim lanes) a = waiting lanes a := by
  obtain ⟨n, hn⟩ := exists_trim lanes
  conv_rhs => rw [hn]
  have hnone : (List.replicate n (none : Option α)).findIdx? (· = some a) = none := by
    rw [findIdx?_eq_none_iff]
    intro x hx
    rw [eq_of_mem_replicate hx]
    rfl
  rw [waiting, waiting, findIdx?_append, hnone]
  simp

end DecidableEq

end Triage.Lanes
