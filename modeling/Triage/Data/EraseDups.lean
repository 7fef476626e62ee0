import Mathlib.Data.List.Nodup
import Mathlib.Data.List.Perm.Subperm

/-!
# Repeats erased

What is left of a list whose repeats are erased, the first of each staying.

## Main results

* `nodup_eraseDups`, `eraseDups_of_nodup` : what is left has no repeats.
* `length_eraseDups_eq_iff` : as many are left of two lists, one part of the other, if their
  elements are the same.
-/

namespace Triage

open List

variable {α : Type*} [DecidableEq α]

theorem eraseDups_of_nodup {l : List α} (hl : l.Nodup) : l.eraseDups = l := by
  induction l with
  | nil => rfl
  | cons a l ih =>
    obtain ⟨ha, hl⟩ := nodup_cons.mp hl
    have hfilter : l.filter (fun b => !b == a) = l := by
      refine List.filter_eq_self.mpr fun b hb => ?_
      have hne : b ≠ a := fun h => ha (h ▸ hb)
      simp [hne]
    rw [eraseDups_cons, hfilter, ih hl]

theorem nodup_eraseDups (l : List α) : l.eraseDups.Nodup := by
  -- by the length, as the rest is filtered before it is gone through:
  induction hn : l.length using Nat.strongRecOn generalizing l with
  | _ n ih =>
    cases l with
    | nil => exact nodup_nil
    | cons a l =>
      rw [eraseDups_cons, nodup_cons, mem_eraseDups]
      refine ⟨fun h => ?_, ih _ ?_ _ rfl⟩
      · simp at h
      · rw [← hn, length_cons]
        exact Nat.lt_succ_of_le (length_filter_le _ l)

theorem length_eraseDups_eq_iff {l l' : List α} (h : l ⊆ l') :
    l.eraseDups.length = l'.eraseDups.length ↔ l' ⊆ l := by
  have hsubset : l.eraseDups ⊆ l'.eraseDups := fun a ha => mem_eraseDups.2 (h (mem_eraseDups.1 ha))
  have hsubperm := (nodup_eraseDups l).subperm hsubset
  constructor
  · intro hlength a ha
    have hperm := hsubperm.perm_of_length_le (Nat.le_of_eq hlength.symm)
    exact mem_eraseDups.1 (hperm.mem_iff.2 (mem_eraseDups.2 ha))
  · intro hsub
    refine ((perm_ext_iff_of_nodup (nodup_eraseDups l) (nodup_eraseDups l')).2
      fun a => ?_).length_eq
    rw [mem_eraseDups, mem_eraseDups]
    exact ⟨fun ha => h ha, fun ha => hsub ha⟩

end Triage
