import Mathlib.Order.Basic

/-!
# Asynchronous programs

A handler is a program that asks its environment one question after another and goes on with the
answers. An answer may make it throw, and what it throws may be caught. What the environment
answers is not known; a *run* records the questions with their answers, so a statement about every
run is one about every environment.

## Main results

* `Async.Ensures.bind`, `Async.Ensures.handle`, `Async.Ensures.cleanup` : the rules for programs
  made of others.
* `Async.runs_run` : an environment that answers each question alone gives a run.
-/

namespace Triage

universe u

/-- A finite program that returns, throws, or asks and goes on with the answer. -/
inductive Async {Q : Type u} (R : Q → Type u) (ε α : Type u) : Type u
  | done (a : α)
  | throw (e : ε)
  | ask (q : Q) (k : R q → Async R ε α)

namespace Async

variable {Q : Type u} {R : Q → Type u} {ε α β : Type u}

/-- `x`, then `f` on what it returns. -/
def bind : Async R ε α → (α → Async R ε β) → Async R ε β
  | .done a, f => f a
  | .throw e, _ => .throw e
  | .ask q k, f => .ask q fun r => (k r).bind f

instance : Monad (Async R ε) where
  pure := .done
  bind := .bind

/-- `try { x } catch (e) { h e }` -/
def handle : Async R ε α → (ε → Async R ε α) → Async R ε α
  | .done a, _ => .done a
  | .throw e, h => h e
  | .ask q k, h => .ask q fun r => (k r).handle h

/-- `try { x } finally { y }` -/
def cleanup : Async R ε α → Async R ε β → Async R ε α
  | .done a, y => y.bind fun _ => .done a
  | .throw e, y => y.bind fun _ => .throw e
  | .ask q k, y => .ask q fun r => (k r).cleanup y

/-- A question with its answer. -/
abbrev Event (R : Q → Type u) : Type u := Σ q, R q

/-- `x` ends in `r` after the questions and answers of the list. -/
inductive Runs : Async R ε α → List (Event R) → Except ε α → Prop
  | done (a : α) : Runs (.done a) [] (.ok a)
  | throw (e : ε) : Runs (.throw e) [] (.error e)
  | ask {q : Q} {k : R q → Async R ε α} (r : R q) {t : List (Event R)} {b : Except ε α} :
      Runs (k r) t b → Runs (.ask q k) (⟨q, r⟩ :: t) b

/-- The run in an environment that answers each question alone. -/
def run (env : ∀ q, R q) : Async R ε α → List (Event R) × Except ε α
  | .done a => ([], .ok a)
  | .throw e => ([], .error e)
  | .ask q k => (⟨q, env q⟩ :: ((k (env q)).run env).1, ((k (env q)).run env).2)

theorem runs_run (env : ∀ q, R q) (x : Async R ε α) : x.Runs (x.run env).1 (x.run env).2 := by
  induction x with
  | done a => exact .done a
  | throw e => exact .throw e
  | ask q k ih => exact .ask (env q) (ih (env q))

/-! ### Postconditions -/

/-- Every run of `x` satisfies `post`. -/
def Ensures (x : Async R ε α) (post : List (Event R) → Except ε α → Prop) : Prop :=
  ∀ t r, x.Runs t r → post t r

variable {x : Async R ε α} {post : List (Event R) → Except ε α → Prop}

theorem ensures_done {a : α} (h : post [] (.ok a)) : Ensures (.done a) post := by
  intro t r hrun
  cases hrun
  exact h

theorem ensures_throw {e : ε} (h : post [] (.error e)) : Ensures (.throw e) post := by
  intro t r hrun
  cases hrun
  exact h

theorem ensures_ask {q : Q} {k : R q → Async R ε α}
    (h : ∀ r, (k r).Ensures fun t b => post (⟨q, r⟩ :: t) b) : Ensures (.ask q k) post := by
  intro t b hrun
  cases hrun with
  | ask r hrest => exact h r _ _ hrest

variable {post' : List (Event R) → Except ε α → Prop}

theorem Ensures.mono (h : x.Ensures post) (hpost : ∀ t r, post t r → post' t r) : x.Ensures post' :=
  fun t r hrun => hpost t r (h t r hrun)

/-- The rule for one program after another. -/
theorem Ensures.bind {f : α → Async R ε β} {post' : List (Event R) → Except ε β → Prop}
    (h : x.Ensures post) (hok : ∀ t a, post t (.ok a) → (f a).Ensures fun t' b => post' (t ++ t') b)
    (herror : ∀ t e, post t (.error e) → post' t (.error e)) : (x >>= f).Ensures post' := by
  induction x generalizing post post' with
  | done a => exact hok [] a (h [] _ (.done a))
  | throw e => exact ensures_throw (herror [] e (h [] _ (.throw e)))
  | ask q k ih =>
    refine ensures_ask fun r => ih r (?_ : (k r).Ensures fun t b => post (⟨q, r⟩ :: t) b) ?_ ?_
    · exact fun t b hrun => h _ b (.ask r hrun)
    · exact fun t a hpost => hok _ a hpost
    · exact fun t e hpost => herror _ e hpost

/-- The rule for `catch`. -/
theorem Ensures.handle {h : ε → Async R ε α}
    (hx : x.Ensures post) (hok : ∀ t a, post t (.ok a) → post' t (.ok a))
    (herror : ∀ t e, post t (.error e) → (h e).Ensures fun t' b => post' (t ++ t') b) :
    (x.handle h).Ensures post' := by
  induction x generalizing post post' with
  | done a => exact ensures_done (hok [] a (hx [] _ (.done a)))
  | throw e => exact herror [] e (hx [] _ (.throw e))
  | ask q k ih =>
    refine ensures_ask fun r => ih r (?_ : (k r).Ensures fun t b => post (⟨q, r⟩ :: t) b) ?_ ?_
    · exact fun t b hrun => hx _ b (.ask r hrun)
    · exact fun t a hpost => hok _ a hpost
    · exact fun t e hpost => herror _ e hpost

/-- The rule for a `finally` that does not throw. -/
theorem Ensures.cleanup {y : Async R ε β} (hx : x.Ensures post)
    (hy : ∀ t r, post t r → y.Ensures fun t' b => (∃ c, b = .ok c) ∧ post' (t ++ t') r) :
    (x.cleanup y).Ensures post' := by
  induction x generalizing post post' with
  | done a =>
    refine (hy [] _ (hx [] _ (.done a))).bind ?_ ?_
    · rintro t c ⟨-, hpost⟩
      exact ensures_done (by simpa using hpost)
    · rintro t e ⟨⟨c, hc⟩, -⟩
      cases hc
  | throw e =>
    refine (hy [] _ (hx [] _ (.throw e))).bind ?_ ?_
    · rintro t c ⟨-, hpost⟩
      exact ensures_throw (by simpa using hpost)
    · rintro t e' ⟨⟨c, hc⟩, -⟩
      cases hc
  | ask q k ih =>
    refine ensures_ask fun r => ih r (?_ : (k r).Ensures fun t b => post (⟨q, r⟩ :: t) b) ?_
    · exact fun t b hrun => hx _ b (.ask r hrun)
    · exact fun t b hpost => hy _ b hpost

end Async

end Triage
