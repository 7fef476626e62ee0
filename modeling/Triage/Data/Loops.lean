import Mathlib.Data.Nat.Notation

/-!
# Loops

A loop takes its body's steps until there is none left. A bound on the steps makes it a function;
a measure that each step lowers makes the bound one that is not met.

## Main results

* `loop_spec` : with a bound above the measure, the loop ends where no step is left, and what each
  step keeps holds there.
-/

namespace Triage

variable {S : Type*}

/-- The steps of a body, until there is none left or the bound is met. -/
def loop (body : S → Option S) : ℕ → S → S
  | 0, s => s
  | n + 1, s =>
    match body s with
    | none => s
    | some s' => loop body n s'

variable {body : S → Option S}

/-- What each step keeps holds after the loop, met its bound or not. -/
theorem loop_invariant {I : S → Prop} (hstep : ∀ s s', I s → body s = some s' → I s') (n : ℕ)
    {s : S} (h : I s) : I (loop body n s) := by
  induction n generalizing s with
  | zero => exact h
  | succ n ih =>
    rw [loop]
    split
    · exact h
    · rename_i s' hs'
      exact ih (hstep s s' h hs')

theorem loop_spec {I : S → Prop} {measure : S → ℕ}
    (hstep : ∀ s s', I s → body s = some s' → I s' ∧ measure s' < measure s) {n : ℕ} {s : S}
    (h : I s) (hn : measure s ≤ n) : I (loop body n s) ∧ body (loop body n s) = none := by
  induction n generalizing s with
  | zero =>
    refine ⟨h, ?_⟩
    cases hs : body s with
    | none => exact hs
    | some s' =>
      have hlt := (hstep s s' h hs).2
      omega
  | succ n ih =>
    rw [loop]
    split
    · rename_i hs
      exact ⟨h, hs⟩
    · rename_i s' hs
      obtain ⟨hs', hlt⟩ := hstep s s' h hs
      exact ih hs' (by omega)

end Triage
