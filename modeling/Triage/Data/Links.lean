import Mathlib.Data.List.Nodup
import Mathlib.Logic.Relation
import Triage.Data.Loops

/-!
# Linked vertices

What is reached along the links of a graph, from some vertices, and what is reached still once some
vertices are gone.

## Main results

* `Links.ReachedFrom.mem` : what is closed under the links holds what it leads to.
-/

namespace Triage.Links

open List Relation.ReflTransGen

variable {V : Type*} (next : V → List V)

def Leads : V → V → Prop := Relation.ReflTransGen fun a b => b ∈ next a

/-- Reached from one of some vertices. -/
def ReachedFrom (starts : List V) (v : V) : Prop := ∃ s ∈ starts, Leads next s v

/-- The links that lead to no vertex that is gone. -/
def avoiding (gone : V → Bool) (v : V) : List V := (next v).filter fun w => !gone w

/-- Reached still, with some vertices gone. -/
def Stays (starts : List V) (gone : V → Bool) (v : V) : Prop :=
  ReachedFrom (avoiding next gone) (starts.filter fun s => !gone s) v

variable {next} {starts : List V} {a b v w : V}

theorem Leads.step (h : Leads next a b) (hw : w ∈ next b) : Leads next a w :=
  tail h hw

theorem ReachedFrom.start (h : v ∈ starts) : ReachedFrom next starts v :=
  ⟨v, h, refl⟩

theorem ReachedFrom.step (h : ReachedFrom next starts v) (hw : w ∈ next v) :
    ReachedFrom next starts w := by
  obtain ⟨s, hs, hleads⟩ := h
  exact ⟨s, hs, hleads.step hw⟩

variable {P : V → Prop}

section

variable (hclosed : ∀ v, P v → ∀ w ∈ next v, P w)
include hclosed

theorem Leads.mem (h : Leads next a b) (ha : P a) : P b := by
  induction h with
  | refl => exact ha
  | tail _ hw ih => exact hclosed _ ih _ hw

/-- What is closed under the links holds all that it leads to. -/
theorem ReachedFrom.mem (hstarts : ∀ s ∈ starts, P s) (h : ReachedFrom next starts v) : P v := by
  obtain ⟨s, hs, hleads⟩ := h
  exact hleads.mem hclosed (hstarts s hs)

/-- What leads to nothing but its own kind leads there by any links that are the same for it. -/
theorem Leads.congr {next' : V → List V} (heq : ∀ v, P v → next' v = next v)
    (h : Leads next a b) (ha : P a) : Leads next' a b := by
  induction h with
  | refl => exact refl
  | tail hlead hw ih =>
    rw [← heq _ (Leads.mem hclosed hlead ha)] at hw
    exact ih.step hw

end

variable {gone : V → Bool}

theorem Stays.start (h : v ∈ starts) (hgone : gone v = false) : Stays next starts gone v :=
  ReachedFrom.start (mem_filter.2 ⟨h, by rw [hgone]; rfl⟩)

theorem Stays.step (h : Stays next starts gone v) (hw : w ∈ next v)
    (hgone : gone w = false) : Stays next starts gone w :=
  ReachedFrom.step h (mem_filter.2 ⟨hw, by rw [hgone]; rfl⟩)

/-- What holds the starts that are not gone and goes on along the links to what is not gone holds
what stays reached. -/
theorem Stays.mem (hclosed : ∀ v, P v → ∀ w ∈ next v, gone w = false → P w)
    (hstarts : ∀ s ∈ starts, gone s = false → P s) (h : Stays next starts gone v) : P v := by
  refine ReachedFrom.mem (fun v hv w hw => ?_) (fun s hs => ?_) h
  · obtain ⟨hw, hgone⟩ := mem_filter.1 hw
    exact hclosed v hv w hw (by simpa using hgone)
  · obtain ⟨hs, hgone⟩ := mem_filter.1 hs
    exact hstarts s hs (by simpa using hgone)

theorem Stays.not_gone (h : Stays next starts gone v) : gone v = false :=
  h.mem (P := fun v => gone v = false) (fun _ _ _ _ hw => hw) fun _ _ hs => hs

end Triage.Links
