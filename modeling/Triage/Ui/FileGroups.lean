import Mathlib.Data.List.Sort
import Triage.Data.Components

/-!
# Files that import each other

Files that import each other, directly or not, make up a group.

## Main results

* `stronglyConnected_spec` : a group has the files that lead to each other, and each file a group.
-/

namespace Triage.FileGroups

open List

variable {F : Type*} [DecidableEq F]

/-- The files that import a file. -/
def reverse (ids : List F) (links : F → List F) (target : F) : List F :=
  if ids.contains target then ids.flatMap fun id => ((links id).filter (· = target)).map fun _ => id
  else []

/-- The groups of files that import each other, each sorted. -/
def stronglyConnected (le : F → F → Bool) (ids : List F) (links : F → List F) : List (List F) :=
  (Components.groups (fun id => (links id).filter (ids.contains ·)) (reverse ids links) ids).map
    (List.mergeSort · le)

variable {ids : List F} {links : F → List F}

theorem opposite : Components.Opposite (fun id => (links id).filter (ids.contains ·))
    (reverse ids links) ids := by
  intro v w
  rw [reverse]
  split
  · rename_i hw
    rw [contains_iff_mem] at hw
    simp [hw]
  · rename_i hw
    rw [contains_iff_mem] at hw
    simp [hw]

/-- The groups of some files, where each file imports only some of them. -/
theorem stronglyConnected_spec (le : F → F → Bool) (hids : ids.Nodup)
    (hclosed : ∀ id ∈ ids, ∀ f ∈ links id, f ∈ ids) :
    Components links ids (stronglyConnected le ids links) := by
  have hfilter : ∀ id ∈ ids, links id = (links id).filter (ids.contains ·) := by
    intro id hid
    refine (List.filter_eq_self.2 fun f hf => ?_).symm
    exact contains_iff_mem.2 (hclosed id hid f hf)
  have hclosed' : ∀ id ∈ ids, ∀ f ∈ (links id).filter (ids.contains ·), f ∈ ids :=
    fun id _ f hf => contains_iff_mem.1 (mem_filter.1 hf).2
  have hgroups := Components.groups_spec hids hclosed' opposite
  exact (hgroups.map_perm fun group => mergeSort_perm group le).congr hclosed' hfilter

end Triage.FileGroups
