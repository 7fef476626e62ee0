import Mathlib.Data.List.Nodup
import Triage.Machine.Basic

/-!
# Linked logs

A *linked log* is a list of entries each of which has a key and names the key of the entry before
it (the first names none). This is the shape of a revision chain, of a journal with back pointers
or of a block chain; the entries and their keys are arbitrary here.

## Main results

* `LinkedLog.linear_reachable` : every log the machine reaches is linear.
* `LinkedLog.Linear.root_unique`, `Linear.existsUnique_prev`, `Linear.prev_inj`,
  `Linear.unnamed_iff` : a linear log has one root, no fork and one unnamed entry, its last.
-/

namespace Triage.LinkedLog

open List Option

variable {α κ : Type*} (key : α → κ) (prev : α → Option κ)

/-- The first entry names `p` and each later one names its predecessor. -/
def Linked : Option κ → List α → Prop
  | _, [] => True
  | p, a :: l => prev a = p ∧ Linked (some (key a)) l

/-- The key of the last entry, or `p` when the list is empty. -/
def lastKey (p : Option κ) : List α → Option κ
  | [] => p
  | a :: l => lastKey (some (key a)) l

/-- A log linked from its start on, whose keys are all different. -/
structure Linear (l : List α) : Prop where
  linked : Linked key prev none l
  nodup : (l.map key).Nodup

/-- The log that accepts exactly the entries naming its last key, under a new key. -/
def machine [DecidableEq κ] : Machine (List α) α where
  step l a := if prev a = lastKey key none l ∧ key a ∉ l.map key then some (l ++ [a]) else none

variable {key prev}

variable (p : Option κ)

@[simp] theorem linked_nil : Linked key prev p [] := trivial

@[simp] theorem linked_cons (a : α) (l : List α) :
    Linked key prev p (a :: l) ↔ prev a = p ∧ Linked key prev (some (key a)) l := Iff.rfl

@[simp] theorem lastKey_nil : lastKey key p [] = p := rfl

@[simp] theorem lastKey_cons (a : α) (l : List α) :
    lastKey key p (a :: l) = lastKey key (some (key a)) l := rfl

theorem lastKey_append (l m : List α) :
    lastKey key p (l ++ m) = lastKey key (lastKey key p l) m := by
  induction l generalizing p with
  | nil => rfl
  | cons a l ih => exact ih _

theorem lastKey_eq_getLast? (l : List α) : lastKey key p l = (l.getLast?.map key).or p := by
  induction l generalizing p with
  | nil => simp
  | cons a l ih =>
    rw [lastKey_cons, ih]
    cases l with
    | nil => simp
    | cons b l => simp [getLast?_eq_some_getLast]

variable {l : List α}

theorem lastKey_mem {k : κ} (h : lastKey key none l = some k) : k ∈ l.map key := by
  rw [lastKey_eq_getLast?, or_none, map_eq_some_iff] at h
  obtain ⟨a, ha, rfl⟩ := h
  exact List.mem_map_of_mem (mem_of_getLast? ha)

theorem linked_append {p : Option κ} {l m : List α} :
    Linked key prev p (l ++ m) ↔ Linked key prev p l ∧ Linked key prev (lastKey key p l) m := by
  induction l generalizing p with
  | nil => simp
  | cons a l ih => simp [ih, and_assoc]

/-- A linked list entry by entry: entry `i + 1` names entry `i`. -/
theorem Linked.getElem_succ {p : Option κ} (h : Linked key prev p l) {i : ℕ}
    (hi : i + 1 < l.length) : prev l[i + 1] = some (key l[i]) := by
  induction l generalizing p i with
  | nil => simp at hi
  | cons a l ih =>
    cases i with
    | zero =>
      cases l with
      | nil => simp at hi
      | cons b l => exact h.2.1
    | succ i => exact ih h.2 (by simpa using hi)

theorem Linked.getElem_zero {p : Option κ} (h : Linked key prev p l)
    (hl : 0 < l.length) : prev l[0] = p := by
  cases l with
  | nil => simp at hl
  | cons a l => exact h.1

theorem linear_nil : Linear key prev [] := ⟨trivial, by simp⟩

/-- Appending an entry that names the last key under a new key keeps the log linear. -/
theorem Linear.snoc {a : α} (h : Linear key prev l)
    (hprev : prev a = lastKey key none l) (hkey : key a ∉ l.map key) :
    Linear key prev (l ++ [a]) := by
  refine ⟨linked_append.mpr ⟨h.linked, hprev, trivial⟩, ?_⟩
  rw [map_append, nodup_append]
  refine ⟨h.nodup, by simp, ?_⟩
  intro k hk k' hk'
  rw [map_singleton, mem_singleton] at hk'
  subst hk'
  rintro rfl
  exact hkey hk

/-- **The log machine only reaches linear logs.** -/
theorem linear_reachable [DecidableEq κ] {l l' : List α}
    (h : (machine key prev).Reachable l l') (hl : Linear key prev l) : Linear key prev l' := by
  refine h.invariant hl fun m a m' hm hst => ?_
  simp only [machine] at hst
  split_ifs at hst with hc
  cases hst
  exact hm.snoc hc.1 hc.2

namespace Linear

variable {l : List α} (h : Linear key prev l) {a b : α}
include h

theorem key_inj (ha : a ∈ l) (hb : b ∈ l) (hk : key a = key b) : a = b :=
  inj_on_of_nodup_map h.nodup ha hb hk

theorem index_inj {i j : ℕ} (hi : i < l.length) (hj : j < l.length) (hk : key l[i] = key l[j]) :
    i = j := by
  have hi' : i < (l.map key).length := by simpa using hi
  have hj' : j < (l.map key).length := by simpa using hj
  have hij : (l.map key)[i] = (l.map key)[j] := by simpa using hk
  exact (h.nodup.getElem_inj_iff).mp hij

/-- At most one entry names no predecessor. -/
theorem root_unique (ha : a ∈ l) (hb : b ∈ l) (hpa : prev a = none) (hpb : prev b = none) :
    a = b := by
  obtain ⟨i, hi, rfl⟩ := getElem_of_mem ha
  obtain ⟨j, hj, rfl⟩ := getElem_of_mem hb
  cases i with
  | succ i => simp [h.linked.getElem_succ hi] at hpa
  | zero =>
    cases j with
    | succ j => simp [h.linked.getElem_succ hj] at hpb
    | zero => rfl

/-- An entry that names a predecessor names exactly one entry of the log. -/
theorem existsUnique_prev {k : κ} (ha : a ∈ l) (hpa : prev a = some k) :
    ∃! b, b ∈ l ∧ key b = k := by
  obtain ⟨i, hi, rfl⟩ := getElem_of_mem ha
  cases i with
  | zero => simp [h.linked.getElem_zero hi] at hpa
  | succ i =>
    have hk : key l[i] = k := by simpa [h.linked.getElem_succ hi] using hpa
    refine ⟨l[i], ⟨getElem_mem _, hk⟩, ?_⟩
    rintro b ⟨hb, hkb⟩
    exact h.key_inj hb (getElem_mem _) (hkb.trans hk.symm)

/-- No two entries name the same predecessor. -/
theorem prev_inj (ha : a ∈ l) (hb : b ∈ l) (hp : prev a = prev b) : a = b := by
  obtain ⟨i, hi, rfl⟩ := getElem_of_mem ha
  obtain ⟨j, hj, rfl⟩ := getElem_of_mem hb
  cases i with
  | zero =>
    rw [h.linked.getElem_zero hi] at hp
    exact h.root_unique ha hb (h.linked.getElem_zero hi) hp.symm
  | succ i =>
    cases j with
    | zero => simp [h.linked.getElem_succ hi, h.linked.getElem_zero hj] at hp
    | succ j =>
      rw [h.linked.getElem_succ hi, h.linked.getElem_succ hj, Option.some.injEq] at hp
      have hij := h.index_inj (by omega) (by omega) hp
      subst hij
      rfl

/-- The last entry is the one that no entry names. -/
theorem unnamed_iff (ha : a ∈ l) :
    (∀ b ∈ l, prev b ≠ some (key a)) ↔ lastKey key none l = some (key a) := by
  obtain ⟨i, hi, rfl⟩ := getElem_of_mem ha
  have hlast : lastKey key none l = some (key l[l.length - 1]) := by
    rw [lastKey_eq_getLast?, getLast?_eq_getElem?, getElem?_eq_getElem (by omega)]
    rfl
  constructor
  · intro hun
    by_contra hne
    have hi' : i + 1 < l.length := by
      by_contra hc
      have : i = l.length - 1 := by omega
      subst this
      exact hne hlast
    exact hun _ (getElem_mem hi') (h.linked.getElem_succ hi')
  · intro hl b hb hpb
    obtain ⟨j, hj, rfl⟩ := getElem_of_mem hb
    have hil : l.length - 1 = i := h.index_inj (by omega) hi (some.inj (hlast.symm.trans hl))
    cases j with
    | zero => simp [h.linked.getElem_zero hj] at hpb
    | succ j =>
      rw [h.linked.getElem_succ hj, Option.some.injEq] at hpb
      have := h.index_inj (by omega) hi hpb
      omega

end Linear

end Triage.LinkedLog
