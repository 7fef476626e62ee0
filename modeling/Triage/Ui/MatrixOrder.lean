import Mathlib.Tactic.Linarith
import Triage.Data.DepthFirst
import Triage.Data.Diagonal
import Triage.Data.LinkedHeap

/-!
# The order of a cyclic group

The rows of a cycle are put in an order that has as many imports above the diagonal as can be found:
rows are taken by their balance from a heap, to the left where they import more and to the right
where they are imported more; that order, the one of a depth-first walk and the given ones are each
rotated and improved by swapping neighbours.
-/

namespace Triage.MatrixOrder

open Diagonal

variable {V : Type*} [DecidableEq V]

/-- The counts of a row's imports, by the row that is imported. -/
structure Cells (V : Type*) where
  row : V → List (V × ℕ)
  nodup : ∀ v, ((row v).map Prod.fst).Nodup

section Nodes

variable (ids : List V) (cells : Cells V)

/-- `cells.get(a)?.get(b)?.cycleCount ?? 0` -/
def count (a b : V) : ℕ := (((cells.row a).find? (·.1 = b)).map Prod.snd).getD 0

/-- The imports of a row within the group, other than those of itself. -/
def outgoing (v : V) : List (V × ℕ) :=
  (cells.row v).filter fun e => ids.contains e.1 ∧ e.1 ≠ v ∧ e.2 ≠ 0

def incoming (v : V) : List (V × ℕ) :=
  ids.flatMap fun u => ((outgoing ids cells u).filter (·.1 = v)).map fun e => (u, e.2)

def originalBalance (v : V) : ℤ :=
  ((outgoing ids cells v).map Prod.snd).sum - ((incoming ids cells v).map Prod.snd).sum

end Nodes

/-! ### The greedy order -/

def before (balance : V → ℤ) (tie : V → ℕ) (a b : V) : Bool :=
  (balance b).natAbs < (balance a).natAbs ||
    (balance a).natAbs = (balance b).natAbs &&
      (balance b < balance a || balance a = balance b && tie a < tie b)

structure Greedy (V : Type*) where
  queue : LinkedHeap V
  balance : V → ℤ
  left : List V
  right : List V

namespace Greedy

variable (ids : List V) (cells : Cells V)

/-- The balance of a row that is not taken yet rises or falls. -/
def adjust (s : Greedy V) (v : V) (change : ℤ) : Greedy V :=
  if s.queue.position v = none then s
  else
    have balance := Function.update s.balance v (s.balance v + change)
    { s with balance, queue := s.queue.update (before balance ids.idxOf) v }

def body (s : Greedy V) : Option (Greedy V) :=
  (s.queue.take (before s.balance ids.idxOf)).map fun p =>
    have taken : Greedy V :=
      { queue := p.2
        balance := s.balance
        left := if 0 ≤ s.balance p.1 then s.left ++ [p.1] else s.left
        right := if 0 ≤ s.balance p.1 then s.right else s.right ++ [p.1] }
    have raised := (outgoing ids cells p.1).foldl (fun s e => s.adjust ids e.1 e.2) taken
    (incoming ids cells p.1).foldl (fun s e => s.adjust ids e.1 (-e.2)) raised

def start : Greedy V where
  queue := LinkedHeap.build (before (originalBalance ids cells) ids.idxOf) ids
  balance := originalBalance ids cells
  left := []
  right := []

def order : List V :=
  have s := loop (body ids cells) ids.length (start ids cells)
  s.left ++ s.right.reverse

end Greedy

/-! ### Orders -/

section Orders

variable (ids : List V) (cells : Cells V)

/-- Neighbours are swapped where that leaves fewer imports below. -/
def improveStep (s : List V × Bool) (i : ℕ) : List V × Bool :=
  match s.1[i]?, s.1[i + 1]? with
  | some a, some b =>
    if count cells b a ≤ count cells a b then s else ((s.1.set i b).set (i + 1) a, true)
  | _, _ => s

def improvePass (pass : ℕ) (order : List V) : List V × Bool :=
  (List.range (order.length - 1)).foldl (fun s step =>
    improveStep cells s (if pass % 2 = 1 then order.length - 2 - step else step)) (order, false)

/-- The passes from one on, until one changes nothing. -/
def improveFrom : ℕ → ℕ → List V → List V
  | 0, _, order => order
  | n + 1, pass, order =>
    have s := improvePass cells pass order
    if s.2 then improveFrom n (pass + 1) s.1 else s.1

def improveAdjacent (order : List V) : List V := improveFrom cells 8 0 order

/-- The targets of a row, the most imported first. -/
def sortedTargets (v : V) : List V :=
  ((outgoing ids cells v).mergeSort fun a b =>
    b.2 < a.2 || a.2 = b.2 && ids.idxOf a.1 ≤ ids.idxOf b.1).map Prod.fst

def dependencyOrder : List V := (DepthFirst.order (sortedTargets ids cells) ids).reverse

def forwardImports (order : List V) : ℕ :=
  (ids.map fun v => ((outgoing ids cells v).map fun e =>
    if order.idxOf v < order.idxOf e.1 then e.2 else 0).sum).sum

structure Rotation where
  count : ℤ
  best : ℤ
  start : ℕ

/-- The first row of a rotation comes last in the next. -/
def Rotation.next (order : List V) (r : Rotation) (i : ℕ) : Rotation :=
  have count := r.count - (order[i]?.map (originalBalance ids cells)).getD 0
  if r.best < count then ⟨count, count, i + 1⟩ else { r with count }

def rotateOrder (order : List V) : List V :=
  have forward : ℤ := forwardImports ids cells order
  have r := (List.range (order.length - 1)).foldl (Rotation.next ids cells order)
    ⟨forward, forward, 0⟩
  order.drop r.start ++ order.take r.start

def candidates : List (List V) :=
  [Greedy.order ids cells, dependencyOrder ids cells, ids, ids.reverse]

def orderCyclicGroup : List V :=
  if ids.length < 2 then ids
  else
    ((candidates ids cells).foldl (fun (best : List V × ℕ) candidate =>
      have improved := improveAdjacent cells (rotateOrder ids cells candidate)
      have next := forwardImports ids cells improved
      if best.2 < next then (improved, next) else best) (ids, forwardImports ids cells ids)).1

end Orders

end Triage.MatrixOrder
