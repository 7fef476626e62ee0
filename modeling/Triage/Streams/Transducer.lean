import Mathlib.Data.List.Basic

/-!
# Machines fed a stream in pieces

A *transducer* takes a piece of its input at a time, emits what it can and keeps the rest in its
state. What such a machine emits should depend on the stream and not on where the stream was cut:
`Transducer.Splits` says that it does not, and `Transducer.Splits.feedAll` is its use.

## Main results

* `Transducer.Splits.feedAll` : the pieces of a stream give what the stream gives.
* `Transducer.splits_ofStep`, `Transducer.Splits.comp` : where such machines come from.
-/

namespace Triage.Streams

open List

/-- A machine that reads a stream of `α` in pieces and emits a stream of `β`. -/
structure Transducer (σ α β : Type*) where
  /-- The state before any input. -/
  init : σ
  /-- What one more piece makes the machine emit, and the state after it. -/
  feed : σ → List α → List β × σ

namespace Transducer

variable {σ τ α β γ : Type*}

/-- The run of the machine over pieces of input, from a given state. -/
def feedAll (T : Transducer σ α β) : σ → List (List α) → List β × σ
  | s, [] => ([], s)
  | s, piece :: rest =>
    ((T.feed s piece).1 ++ (T.feedAll (T.feed s piece).2 rest).1,
      (T.feedAll (T.feed s piece).2 rest).2)

/-- The run over elements, one step each. -/
def foldSteps (step : σ → α → List β × σ) : σ → List α → List β × σ
  | s, [] => ([], s)
  | s, a :: rest =>
    ((step s a).1 ++ (foldSteps step (step s a).2 rest).1, (foldSteps step (step s a).2 rest).2)

/-- The machine that looks at one element at a time. -/
def ofStep (init : σ) (step : σ → α → List β × σ) : Transducer σ α β := ⟨init, foldSteps step⟩

/-- The machine that hands what the first one emits to the second. -/
def comp (T : Transducer σ α β) (U : Transducer τ β γ) : Transducer (σ × τ) α γ where
  init := (T.init, U.init)
  feed s piece :=
    ((U.feed s.2 (T.feed s.1 piece).1).1,
      ((T.feed s.1 piece).2, (U.feed s.2 (T.feed s.1 piece).1).2))

/-- Where the input is cut makes no difference. -/
structure Splits (T : Transducer σ α β) : Prop where
  init : T.feed T.init [] = ([], T.init)
  append : ∀ s xs ys, T.feed s (xs ++ ys) =
    ((T.feed s xs).1 ++ (T.feed (T.feed s xs).2 ys).1, (T.feed (T.feed s xs).2 ys).2)

variable {T : Transducer σ α β} {U : Transducer τ β γ}

/-- Nothing more comes of an empty piece after another. -/
theorem Splits.feed_nil (h : T.Splits) (s : σ) (xs : List α) :
    T.feed (T.feed s xs).2 [] = ([], (T.feed s xs).2) := by
  have happend := h.append s xs []
  rw [append_nil, Prod.ext_iff] at happend
  obtain ⟨hout, hstate⟩ := happend
  have hnil : (T.feed (T.feed s xs).2 []).1 = [] := self_eq_append_right.1 hout
  exact Prod.ext hnil hstate.symm

theorem Splits.feedAll_feed (h : T.Splits) (s : σ) (xs : List α) (pieces : List (List α)) :
    T.feedAll (T.feed s xs).2 pieces = T.feed (T.feed s xs).2 pieces.flatten := by
  induction pieces generalizing s xs with
  | nil => exact (h.feed_nil s xs).symm
  | cons piece rest ih =>
    show ((T.feed (T.feed s xs).2 piece).1 ++ _, _) = _
    rw [flatten_cons, h.append, ih (T.feed s xs).2 piece]

/-- **The pieces of a stream give what the stream gives.** -/
theorem Splits.feedAll (h : T.Splits) (pieces : List (List α)) :
    T.feedAll T.init pieces = T.feed T.init pieces.flatten := by
  have hinit : (T.feed T.init []).2 = T.init := by rw [h.init]
  have := h.feedAll_feed T.init [] pieces
  rwa [hinit] at this

theorem foldSteps_append (step : σ → α → List β × σ) (s : σ) (xs ys : List α) :
    foldSteps step s (xs ++ ys) =
      ((foldSteps step s xs).1 ++ (foldSteps step (foldSteps step s xs).2 ys).1,
        (foldSteps step (foldSteps step s xs).2 ys).2) := by
  induction xs generalizing s with
  | nil => rfl
  | cons a rest ih =>
    simp only [cons_append, foldSteps, ih, append_assoc]

theorem splits_ofStep (init : σ) (step : σ → α → List β × σ) : (ofStep init step).Splits :=
  ⟨rfl, foldSteps_append step⟩

theorem Splits.comp (hT : T.Splits) (hU : U.Splits) : (T.comp U).Splits := by
  refine ⟨?_, fun s xs ys => ?_⟩
  · simp only [Transducer.comp, hT.init, hU.init]
  · simp only [Transducer.comp, hT.append, hU.append]

end Transducer

end Triage.Streams
