import Mathlib.Order.Basic
import Mathlib.Logic.Relation

/-!
# Labelled machines

Every concurrent component of this development is a *labelled machine*: a state, and a partial
step function that takes a label. The label carries everything the component does not decide by
itself (which party moves, what its environment answers), so that a step is a function and a run
can be computed.

## Main results

* `Machine.ReachableUnder.invariant` : what holds at the start and is preserved by every step that
  meets the condition holds of every state reached.
* `Machine.Simulation.reachable` : a simulation maps reachable states to reachable states.
-/

namespace Triage

open Option

/-- A machine with states `S` and labels `A`; `none` means that the label is not enabled. -/
structure Machine (S : Type*) (A : Type*) where
  /-- `step s a` : the state after performing `a` in `s`. -/
  step : S → A → Option S

namespace Machine

variable {S A : Type*} (M : Machine S A)

/-- The state after performing the labels in order. -/
def run (s : S) : List A → Option S
  | [] => some s
  | a :: as => (M.step s a).bind fun s' => run s' as

/-- `s` is reached from `s₀` by steps that all meet `C` in the state they are made from. -/
inductive ReachableUnder (C : S → A → Prop) (s₀ : S) : S → Prop
  | refl : ReachableUnder C s₀ s₀
  | tail {s s' : S} {a : A} :
      ReachableUnder C s₀ s → C s a → M.step s a = some s' → ReachableUnder C s₀ s'

/-- `C` is met at every step of a run. -/
def RunMeets (C : S → A → Prop) (s : S) : List A → Prop
  | [] => True
  | a :: as => C s a ∧
    match M.step s a with
    | none => True
    | some s' => RunMeets C s' as

instance RunMeets.decidable (C : S → A → Prop) [∀ s a, Decidable (C s a)] :
    ∀ s as, Decidable (M.RunMeets C s as)
  | _, [] => instDecidableTrue
  | s, a :: as =>
    have : Decidable (match M.step s a with
        | none => True
        | some s' => M.RunMeets C s' as) :=
      match M.step s a with
      | none => instDecidableTrue
      | some s' => RunMeets.decidable C s' as
    instDecidableAnd

/-- `s` is reached from `s₀`. -/
def Reachable (s₀ s : S) : Prop := M.ReachableUnder (fun _ _ => True) s₀ s

@[simp] theorem run_nil (s : S) : M.run s [] = some s := rfl

@[simp] theorem run_cons (s : S) (a : A) (as : List A) :
    M.run s (a :: as) = (M.step s a).bind fun s' => M.run s' as := rfl

theorem run_append (s : S) (as bs : List A) :
    M.run s (as ++ bs) = (M.run s as).bind fun s' => M.run s' bs := by
  induction as generalizing s with
  | nil => rfl
  | cons a as ih =>
    rw [List.cons_append, run_cons, run_cons, bind_assoc]
    congr 1
    funext s'
    exact ih s'

variable {as : List A}

/-- The last step of a run. -/
theorem run_concat_eq_some {s s' : S} {a : A} :
    M.run s (as ++ [a]) = some s' ↔ ∃ t, M.run s as = some t ∧ M.step t a = some s' := by
  rw [run_append, bind_eq_some_iff]
  simp

variable {M}

namespace ReachableUnder

variable {C C' : S → A → Prop} {s₀ s s' : S}

theorem head {a : A} (hC : C s₀ a) (hst : M.step s₀ a = some s) (h : M.ReachableUnder C s s') :
    M.ReachableUnder C s₀ s' := by
  induction h with
  | refl => exact .tail .refl hC hst
  | tail _ hC' hst' ih => exact .tail ih hC' hst'

theorem mono (hCC : ∀ s a, C s a → C' s a) (h : M.ReachableUnder C s₀ s) :
    M.ReachableUnder C' s₀ s := by
  induction h with
  | refl => exact .refl
  | tail _ hC hst ih => exact .tail ih (hCC _ _ hC) hst

theorem reachable (h : M.ReachableUnder C s₀ s) : M.Reachable s₀ s :=
  h.mono fun _ _ _ => trivial

/-- A state reached under a condition satisfies every predicate that holds at the start and is
preserved by every step that meets the condition. -/
theorem invariant {I : S → Prop} (h : M.ReachableUnder C s₀ s) (h₀ : I s₀)
    (hstep : ∀ s a s', I s → C s a → M.step s a = some s' → I s') : I s := by
  induction h with
  | refl => exact h₀
  | tail _ hC hst ih => exact hstep _ _ _ ih hC hst

end ReachableUnder

namespace Reachable

variable {s₀ s s' : S}

@[refl] theorem refl (s : S) : M.Reachable s s := ReachableUnder.refl

section

variable (h : M.Reachable s₀ s)
include h

theorem tail {a : A} (hst : M.step s a = some s') : M.Reachable s₀ s' :=
  ReachableUnder.tail h trivial hst

@[trans] theorem trans (h' : M.Reachable s s') : M.Reachable s₀ s' := by
  induction h' with
  | refl => exact h
  | tail _ _ hst ih => exact ih.tail hst

/-- An inductive invariant holds of every reachable state. -/
theorem invariant {I : S → Prop} (h₀ : I s₀)
    (hstep : ∀ s a s', I s → M.step s a = some s' → I s') : I s :=
  ReachableUnder.invariant h h₀ fun s a s' hI _ hst => hstep s a s' hI hst

end

end Reachable

/-- Computing a run shows its last state reachable. -/
theorem reachable_of_run {s₀ s : S} (h : M.run s₀ as = some s) : M.Reachable s₀ s := by
  induction as generalizing s₀ with
  | nil =>
    simp only [run_nil, Option.some.injEq] at h
    subst h
    exact .refl s₀
  | cons a as ih =>
    simp only [run_cons, bind_eq_some_iff] at h
    obtain ⟨s₁, hst, hrun⟩ := h
    exact ReachableUnder.head trivial hst (ih hrun)

/-- Computing a run that meets a condition at every step. -/
theorem reachableUnder_of_run {C : S → A → Prop} {s₀ s : S}
    (h : M.run s₀ as = some s) (hC : M.RunMeets C s₀ as) : M.ReachableUnder C s₀ s := by
  induction as generalizing s₀ with
  | nil =>
    simp only [run_nil, Option.some.injEq] at h
    subst h
    exact .refl
  | cons a as ih =>
    simp only [run_cons, bind_eq_some_iff] at h
    obtain ⟨s₁, hst, hrun⟩ := h
    obtain ⟨hCa, hrest⟩ := hC
    rw [hst] at hrest
    exact ReachableUnder.head hCa hst (ih hrun hrest)

/-- A refinement of `M` by `N`: an abstraction of the states under which each step that `M` makes
in a state satisfying `inv` is one step of `N` or leaves the abstract state as it is. -/
structure Simulation {T B : Type*} (M : Machine S A) (N : Machine T B) where
  /-- What holds of the reachable states of `M`. -/
  inv : S → Prop
  /-- The abstract state a state of `M` stands for. -/
  abs : S → T
  inv_step : ∀ {s a s'}, inv s → M.step s a = some s' → inv s'
  abs_step : ∀ {s a s'}, inv s → M.step s a = some s' →
    abs s' = abs s ∨ ∃ b, N.step (abs s) b = some (abs s')

namespace Simulation

variable {T B : Type*} {N : Machine T B} (R : Simulation M N) {s₀ s : S}

include R in
theorem inv_reachable (h₀ : R.inv s₀) (h : M.Reachable s₀ s) : R.inv s :=
  h.invariant h₀ fun _ _ _ hI hst => R.inv_step hI hst

/-- **A simulation maps runs to runs.** -/
theorem reachable (h₀ : R.inv s₀) (h : M.Reachable s₀ s) : N.Reachable (R.abs s₀) (R.abs s) := by
  have key : R.inv s ∧ N.Reachable (R.abs s₀) (R.abs s) := by
    refine h.invariant (I := fun s => R.inv s ∧ N.Reachable (R.abs s₀) (R.abs s)) ⟨h₀, .refl _⟩
      fun s a s' hI hst => ⟨R.inv_step hI.1 hst, ?_⟩
    rcases R.abs_step hI.1 hst with heq | ⟨b, hb⟩
    · rw [heq]
      exact hI.2
    · exact hI.2.tail hb
  exact key.2

end Simulation

end Machine

end Triage
