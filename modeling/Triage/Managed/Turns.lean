import Triage.Machine.Basic
import Mathlib.Data.List.Nodup
import Mathlib.Algebra.Order.Ring.Nat

/-!
# Turns taken by a bounded number of calls at once

`rename-diff.ts`, `npm-delta.ts` and `queue.ts` each run the work asked of them a few at a time. A
call takes a place at once where one is free, else it waits; work that is done hands its place to
the first call waiting and only gives it up where none is. The three differ in how many run, how
many may wait, and whether a call stops waiting at its deadline.

## Main results

* `TurnsState.Inv.step` : every step keeps the invariant.
* `bounded_turns` : the three limiters are bounded.
-/

namespace Triage.Managed

open List

/-- What a limiter is set to. -/
structure Turns where
  /-- The places, `MAX_ACTIVE`. -/
  maxActive : ℕ
  /-- How many calls may wait, `MAX_WAITING`; any number for `none`. -/
  maxWaiting : Option ℕ
  /-- A call waits until its deadline only. -/
  deadlines : Bool

/-- `rename-diff.ts`: `MAX_ACTIVE_DIFFS` and `MAX_WAITING_DIFFS`. -/
def renameDiffTurns : Turns := ⟨2, some 16, true⟩

/-- `npm-delta.ts`: `MAX_ACTIVE` and `MAX_WAITING`. -/
def npmDeltaTurns : Turns := ⟨2, some 64, true⟩

/-- `queue.ts`: `inTurns(count)`. -/
def inTurns (count : ℕ) : Turns := ⟨count, none, false⟩

/-- `waiting.length >= MAX_WAITING`. -/
def Turns.full (l : Turns) (waiting : ℕ) : Bool :=
  match l.maxWaiting with
  | none => false
  | some most => decide (most ≤ waiting)

/-- `list.indexOf(item)`: −1 where it is not there. -/
def indexOf {α : Type*} [DecidableEq α] (list : List α) (item : α) : ℤ :=
  if item ∈ list then (list.idxOf item : ℤ) else -1

/-- `list.splice(at, 1)`: a position below zero counts from the end. -/
def spliceOne {α : Type*} (list : List α) (position : ℤ) : List α :=
  if 0 ≤ position then list.eraseIdx position.toNat
  else list.eraseIdx (list.length - (-position).toNat)

/-- The variables of a limiter, where each call is, and what has become of the calls so far. -/
structure TurnsState (Call : Type*) where
  active : ℤ
  /-- The `next` functions of the calls that wait. -/
  waiting : List Call
  /-- The timers set and not cleared. -/
  timers : List Call
  /-- The calls given a place as they came, whose work has not begun. -/
  entering : List Call
  /-- The calls handed a place while they waited, whose work has not begun. -/
  handed : List Call
  running : List Call
  /-- Every call so far, in the order they came. -/
  arrived : List Call
  /-- The calls that have had to wait, in the order they came. -/
  queued : List Call
  /-- The calls of `queued` whose work has begun, in the order it did. -/
  woken : List Call
  /-- The calls whose work has begun. -/
  started : List Call
  refused : List Call
  timedOut : List Call
  /-- The calls whose work is done, and whether it succeeded. -/
  settled : List (Call × Bool)

/-- What happens next. -/
inductive TurnsLabel (Call : Type*)
  /-- A new call asks for its turn. -/
  | arrive (call : Call)
  /-- The work of a call given a place as it came begins. -/
  | enter (call : Call)
  /-- The work of the first call handed a place begins: the promises resolved first are resumed
  first. -/
  | resume
  /-- The work of a call ends, in an error or not. -/
  | finish (call : Call) (ok : Bool)
  /-- The timer of a call goes off. -/
  | expire (call : Call)
  deriving DecidableEq

variable {Call : Type*} [DecidableEq Call]

namespace TurnsState

/-- No call has come yet. -/
def init : TurnsState Call := ⟨0, [], [], [], [], [], [], [], [], [], [], [], []⟩

/-- `turn`, and the start of `inTurns`. -/
def turn (l : Turns) (s : TurnsState Call) (call : Call) : TurnsState Call :=
  let s := { s with arrived := s.arrived ++ [call] }
  if s.active < (l.maxActive : ℤ) then
    { s with active := s.active + 1, entering := s.entering ++ [call] }
  else if l.full s.waiting.length then { s with refused := s.refused ++ [call] }
  else
    { s with
      timers := if l.deadlines then s.timers ++ [call] else s.timers
      waiting := s.waiting ++ [call]
      queued := s.queued ++ [call] }

/-- `done`, and the `finally` of `inTurns`: `next` clears the timer of its call. -/
def done (s : TurnsState Call) : TurnsState Call :=
  match s.waiting with
  | [] => { s with active := s.active - 1 }
  | next :: waiting =>
    { s with waiting := waiting, timers := s.timers.erase next, handed := s.handed ++ [next] }

/-- The timer of a waiting call. -/
def expire (s : TurnsState Call) (call : Call) : TurnsState Call :=
  { s with
    timers := s.timers.erase call
    waiting := spliceOne s.waiting (indexOf s.waiting call)
    timedOut := s.timedOut ++ [call] }

end TurnsState

namespace Turns

open TurnsState

/-- The limiter under any order of arrivals, completions and deadlines. -/
def machine (l : Turns) : Machine (TurnsState Call) (TurnsLabel Call) where
  step s
    | .arrive call => if call ∈ s.arrived then none else some (s.turn l call)
    | .enter call =>
      if call ∈ s.entering then
        some { s with
          entering := s.entering.erase call
          running := s.running ++ [call]
          started := s.started ++ [call] }
      else none
    | .resume =>
      match s.handed with
      | [] => none
      | call :: handed =>
        some { s with
          handed := handed
          running := s.running ++ [call]
          started := s.started ++ [call]
          woken := s.woken ++ [call] }
    | .finish call ok =>
      if call ∈ s.running then
        some (done { s with
          running := s.running.erase call
          settled := s.settled ++ [(call, ok)] })
      else none
    | .expire call => if call ∈ s.timers then some (s.expire call) else none

end Turns

open Turns

namespace TurnsState

/-! ### The invariant -/

/-- What holds of every state: the places counted are those held, a place is free only where no
call waits, and every call is in one place. -/
structure Inv (l : Turns) (s : TurnsState Call) : Prop where
  held : s.active = s.entering.length + s.handed.length + s.running.length
  most : s.active ≤ l.maxActive
  busy : s.waiting ≠ [] → s.active = l.maxActive
  fits : ∀ most, l.maxWaiting = some most → s.waiting.length ≤ most
  timers : s.timers = if l.deadlines then s.waiting else []
  in_order : s.woken ++ s.handed ++ s.waiting =
    s.queued.filter (fun call => decide (call ∉ s.timedOut))
  arrivals : s.queued.Sublist s.arrived
  nodup : s.arrived.Nodup
  conserved : ∀ call, s.arrived.count call =
    s.refused.count call + s.timedOut.count call + s.waiting.count call + s.entering.count call +
      s.handed.count call + s.running.count call + (s.settled.map Prod.fst).count call
  begun : ∀ call ∈ s.started, call ∈ s.running ∨ call ∈ s.settled.map Prod.fst

/-- Taking an item out of a list by its position, as `expire` does. -/
theorem spliceOne_indexOf {list : List Call} {item : Call} (h : item ∈ list) :
    spliceOne list (indexOf list item) = list.erase item := by
  rw [indexOf, if_pos h, spliceOne, if_pos (Int.natCast_nonneg _), Int.toNat_natCast]
  exact (erase_eq_eraseIdx_of_idxOf rfl).symm

namespace Inv

variable {l : Turns} {s : TurnsState Call}

theorem init (l : Turns) : Inv l (.init : TurnsState Call) := by
  constructor <;> simp [TurnsState.init]

variable {call : Call}

/-- A call that has timed out came. -/
theorem mem_arrived_of_timedOut (h : s.Inv l) (hc : call ∈ s.timedOut) : call ∈ s.arrived := by
  have hcount := h.conserved call
  have hpos := count_pos_iff.2 hc
  exact count_pos_iff.1 (by omega)

/-- A call is in one place only. -/
theorem count_le_one (h : s.Inv l) (call : Call) : s.arrived.count call ≤ 1 :=
  nodup_iff_count_le_one.1 h.nodup call

theorem waiters_nodup (h : s.Inv l) : (s.woken ++ s.handed ++ s.waiting).Nodup := by
  rw [h.in_order]
  exact (h.nodup.sublist h.arrivals).filter _

theorem arrive (h : s.Inv l) (hnew : call ∉ s.arrived) : (s.turn l call).Inv l := by
  have hnodup : (s.arrived ++ [call]).Nodup := by
    rw [nodup_append]
    refine ⟨h.nodup, nodup_singleton _, ?_⟩
    rintro x hx y hy rfl
    rw [mem_singleton] at hy
    exact hnew (hy ▸ hx)
  have hsub : s.queued.Sublist (s.arrived ++ [call]) := h.arrivals.trans (sublist_append_left _ _)
  have hlate : call ∉ s.timedOut := fun hc => hnew (h.mem_arrived_of_timedOut hc)
  have hheld := h.held
  simp only [turn]
  by_cases hfree : s.active < (l.maxActive : ℤ)
  · -- a place is free
    rw [if_pos hfree]
    refine ⟨?_, ?_, ?_, h.fits, h.timers, h.in_order, hsub, hnodup, fun c => ?_, h.begun⟩
    · simp only [length_append, length_singleton]
      omega
    · exact hfree
    · intro hne
      have := h.busy hne
      omega
    · have hc := h.conserved c
      simp only [count_append]
      omega
  rw [if_neg hfree]
  by_cases hfull : l.full s.waiting.length
  · -- too many wait
    rw [if_pos hfull]
    refine ⟨hheld, h.most, h.busy, h.fits, h.timers, h.in_order, hsub, hnodup, fun c => ?_, h.begun⟩
    have hc := h.conserved c
    simp only [count_append]
    omega
  · -- the call waits
    rw [if_neg hfull]
    refine ⟨hheld, h.most, fun _ => ?_, fun most hmost => ?_, ?_, ?_,
      h.arrivals.append (List.Sublist.refl _), hnodup, fun c => ?_, h.begun⟩
    · exact le_antisymm h.most (not_lt.1 hfree)
    · rw [full, hmost] at hfull
      simp only [decide_eq_true_eq] at hfull
      simp only [length_append, length_singleton]
      omega
    · rw [h.timers]
      split_ifs <;> rfl
    · rw [filter_append, ← h.in_order, ← append_assoc]
      simp [hlate]
    · have hc := h.conserved c
      simp only [count_append]
      omega

theorem enter (h : s.Inv l) {call : Call} (hc : call ∈ s.entering) :
    Inv l { s with
      entering := s.entering.erase call
      running := s.running ++ [call]
      started := s.started ++ [call] } := by
  have hpos := count_pos_iff.2 hc
  have hlen := length_erase_of_mem hc
  have hlt := length_pos_of_mem hc
  have hheld := h.held
  refine ⟨?_, h.most, h.busy, h.fits, h.timers, h.in_order, h.arrivals, h.nodup, fun c => ?_,
    fun c hcs => ?_⟩
  · simp only [length_append, length_singleton, hlen]
    omega
  · have hcount := h.conserved c
    simp only [count_append, count_erase, count_singleton]
    by_cases heq : call = c
    · subst heq
      simp only [beq_self_eq_true, if_true]
      omega
    · simp only [beq_iff_eq, heq, if_false]
      omega
  · simp only [mem_append, mem_singleton] at hcs ⊢
    rcases hcs with hcs | rfl
    · exact (h.begun c hcs).imp_left Or.inl
    · exact .inl (.inr rfl)

theorem resume (h : s.Inv l) {call : Call} {rest : List Call} (hh : s.handed = call :: rest) :
    Inv l { s with
      handed := rest
      running := s.running ++ [call]
      started := s.started ++ [call]
      woken := s.woken ++ [call] } := by
  have hheld := h.held
  rw [hh] at hheld
  refine ⟨?_, h.most, h.busy, h.fits, h.timers, ?_, h.arrivals, h.nodup, fun c => ?_,
    fun c hcs => ?_⟩
  · simp only [length_append, length_cons, length_nil] at hheld ⊢
    omega
  · rw [← h.in_order, hh]
    simp
  · have hcount := h.conserved c
    simp only [hh, count_append, count_cons, count_nil] at hcount ⊢
    omega
  · simp only [mem_append, mem_singleton] at hcs ⊢
    rcases hcs with hcs | rfl
    · exact (h.begun c hcs).imp_left Or.inl
    · exact .inl (.inr rfl)

/-- Work that is done hands its place to the first call waiting. -/
theorem finish (h : s.Inv l) {call : Call} {ok : Bool} (hc : call ∈ s.running) :
    Inv l (done { s with
      running := s.running.erase call
      settled := s.settled ++ [(call, ok)] }) := by
  have hlen := length_erase_of_mem hc
  have hlt := length_pos_of_mem hc
  have hheld := h.held
  -- the call moves from those running to those settled
  have hcount : ∀ c, (s.running.erase call).count c +
      ((s.settled ++ [(call, ok)]).map Prod.fst).count c =
        s.running.count c + (s.settled.map Prod.fst).count c := by
    intro c
    have hpos := count_pos_iff.2 hc
    simp only [map_append, count_append, count_erase, map_cons, map_nil, count_singleton]
    by_cases heq : call = c
    · subst heq
      simp only [beq_self_eq_true, if_true]
      omega
    · simp only [beq_iff_eq, heq, if_false]
      omega
  have hbegun : ∀ c ∈ s.started, c ∈ s.running.erase call ∨
      c ∈ (s.settled ++ [(call, ok)]).map Prod.fst := by
    intro c hcs
    by_cases heq : c = call
    · exact .inr (by simp [heq])
    · rcases h.begun c hcs with hr | hs
      · exact .inl ((mem_erase_of_ne heq).2 hr)
      · exact .inr (by simp only [map_append, mem_append]; exact .inl hs)
  cases hw : s.waiting with
  | nil =>
    simp only [done]
    have htimers := h.timers
    have horder := h.in_order
    rw [hw] at htimers horder
    refine ⟨?_, ?_, fun hne => absurd rfl hne, fun _ _ => Nat.zero_le _, htimers, horder,
      h.arrivals, h.nodup, fun c => ?_, hbegun⟩
    · simp only [hlen]
      omega
    · have := h.most
      simp only
      omega
    · have hcons := h.conserved c
      have := hcount c
      rw [hw, count_nil] at hcons
      simp only [count_nil]
      omega
  | cons next waiting =>
    simp only [done]
    have hbusy := h.busy (by simp [hw])
    refine ⟨?_, h.most, fun _ => hbusy, fun most hmost => ?_, ?_, ?_, h.arrivals, h.nodup,
      fun c => ?_, hbegun⟩
    · simp only [length_append, length_singleton, hlen]
      omega
    · have := h.fits most hmost
      rw [hw, length_cons] at this
      simp only
      omega
    · simp only [h.timers, hw]
      split_ifs <;> simp
    · simp only
      rw [← h.in_order, hw]
      simp
    · have hcons := h.conserved c
      have := hcount c
      simp only [hw, count_append, count_cons, count_nil] at hcons ⊢
      omega

/-- A call that times out leaves the queue, wherever it stands. -/
theorem expire (h : s.Inv l) (hc : call ∈ s.timers) : (s.expire call).Inv l := by
  have hdead : l.deadlines = true := by
    by_contra hno
    rw [h.timers, if_neg hno] at hc
    exact not_mem_nil hc
  have htimers := h.timers
  rw [if_pos hdead] at htimers
  rw [htimers] at hc
  have hpos := count_pos_iff.2 hc
  have hlen := length_erase_of_mem hc
  have hnot : call ∉ s.woken ++ s.handed := by
    intro hmem
    exact (nodup_append.1 h.waiters_nodup).2.2 _ hmem _ hc rfl
  rw [TurnsState.expire, spliceOne_indexOf hc]
  refine ⟨h.held, h.most, fun hne => h.busy ?_, fun most hmost => ?_, ?_, ?_, h.arrivals, h.nodup,
    fun c => ?_, h.begun⟩
  · exact ne_nil_of_mem hc
  · have := h.fits most hmost
    simp only
    omega
  · simp only [htimers, hdead, if_true]
  · simp only
    rw [← erase_append_right _ hnot, h.in_order,
      ((h.nodup.sublist h.arrivals).filter _).erase_eq_filter, filter_filter]
    refine List.filter_congr fun c _ => ?_
    by_cases heq : c = call <;> simp [heq]
  · have hcount := h.conserved c
    simp only [count_append, count_erase, count_singleton]
    by_cases heq : call = c
    · subst heq
      simp only [beq_self_eq_true, if_true]
      omega
    · simp only [beq_iff_eq, heq, if_false]
      omega

/-- Every step keeps the invariant. -/
theorem step (h : s.Inv l) {label : TurnsLabel Call} {s' : TurnsState Call}
    (hst : l.machine.step s label = some s') : s'.Inv l := by
  cases label with
  | arrive call =>
    simp only [machine] at hst
    split_ifs at hst with hnew
    rw [Option.some.injEq] at hst
    exact hst ▸ h.arrive hnew
  | enter call =>
    simp only [machine] at hst
    split_ifs at hst with hc
    rw [Option.some.injEq] at hst
    exact hst ▸ h.enter hc
  | resume =>
    simp only [machine] at hst
    cases hh : s.handed with
    | nil => simp [hh] at hst
    | cons call rest =>
      rw [hh] at hst
      simp only [Option.some.injEq] at hst
      exact hst ▸ h.resume hh
  | finish call ok =>
    simp only [machine] at hst
    split_ifs at hst with hc
    rw [Option.some.injEq] at hst
    exact hst ▸ h.finish hc
  | expire call =>
    simp only [machine] at hst
    split_ifs at hst with hc
    rw [Option.some.injEq] at hst
    exact hst ▸ h.expire hc

end Inv

end TurnsState

namespace Turns

/-- What a limiter promises of a state it reaches. -/
structure Holds (l : Turns) (s : TurnsState Call) : Prop where
  at_most : s.running.length ≤ l.maxActive
  /-- While a call waits every place is held: by work that runs, or by a call whose work is about
  to begin. -/
  no_idle : s.waiting ≠ [] →
    s.running.length + s.entering.length + s.handed.length = l.maxActive
  /-- The waiting calls given a place so far, and those still waiting, are those that have had to
  wait and have not timed out, in the order they came. -/
  in_order : s.woken ++ s.handed ++ s.waiting =
    s.queued.filter (fun call => decide (call ∉ s.timedOut))
  arrivals : s.queued.Sublist s.arrived
  none_late : ∀ call ∈ s.timedOut, call ∉ s.started ∧ call ∉ s.handed ∧ call ∉ s.waiting
  /-- A call is refused only where as many wait as may. -/
  refusal : ∀ call s', l.machine.step s (.arrive call) = some s' → s'.refused ≠ s.refused →
    s.active = l.maxActive ∧ l.maxWaiting = some s.waiting.length
  at_rest : (∀ call ∈ s.arrived,
      call ∈ s.refused ∨ call ∈ s.timedOut ∨ ∃ ok, (call, ok) ∈ s.settled) →
    s.active = 0 ∧ s.waiting = [] ∧ s.running = []

variable {l : Turns} {s : TurnsState Call}

/-- A call is refused only where every place is held and as many wait as may. -/
theorem refusal_of_inv (h : s.Inv l) {call : Call} {s' : TurnsState Call}
    (hst : l.machine.step s (.arrive call) = some s') (hne : s'.refused ≠ s.refused) :
    s.active = l.maxActive ∧ l.maxWaiting = some s.waiting.length := by
  simp only [machine] at hst
  split_ifs at hst with hnew
  rw [Option.some.injEq] at hst
  subst hst
  simp only [TurnsState.turn] at hne
  split_ifs at hne with hfree hfull
  · exact absurd rfl hne
  · refine ⟨le_antisymm h.most (not_lt.1 hfree), ?_⟩
    cases hmost : l.maxWaiting with
    | none => simp [full, hmost] at hfull
    | some most =>
      simp only [full, hmost, decide_eq_true_eq] at hfull
      rw [le_antisymm hfull (h.fits most hmost)]
  · exact absurd rfl hne
  · exact absurd rfl hne

theorem holds_of_inv (h : s.Inv l) : l.Holds s where
  at_most := by
    have := h.held
    have := h.most
    omega
  no_idle hne := by
    have := h.held
    have := h.busy hne
    omega
  in_order := h.in_order
  arrivals := h.arrivals
  none_late call hc := by
    have hcount := h.conserved call
    have hone := h.count_le_one call
    have hpos := count_pos_iff.2 hc
    refine ⟨fun hs => ?_, fun hh => ?_, fun hw => ?_⟩
    · rcases h.begun call hs with hr | hr
      · have := count_pos_iff.2 hr
        omega
      · have := count_pos_iff.2 hr
        omega
    · have := count_pos_iff.2 hh
      omega
    · have := count_pos_iff.2 hw
      omega
  refusal _ _ := refusal_of_inv h
  at_rest hall := by
    -- a call that is done is nowhere else
    have hnone : ∀ call, s.waiting.count call = 0 ∧ s.entering.count call = 0 ∧
        s.handed.count call = 0 ∧ s.running.count call = 0 := by
      intro call
      have hcount := h.conserved call
      have hone := h.count_le_one call
      by_cases hmem : call ∈ s.arrived
      · rcases hall call hmem with hr | ht | ⟨ok, hs⟩
        · have := count_pos_iff.2 hr
          omega
        · have := count_pos_iff.2 ht
          omega
        · have hfst : call ∈ s.settled.map Prod.fst := mem_map.2 ⟨_, hs, rfl⟩
          have := count_pos_iff.2 hfst
          omega
      · have := count_eq_zero.2 hmem
        omega
    have hnil : ∀ list : List Call, (∀ call, list.count call = 0) → list = [] := fun list hz =>
      eq_nil_iff_forall_not_mem.2 fun call => count_eq_zero.1 (hz call)
    have hheld := h.held
    rw [hnil _ fun call => (hnone call).2.1, hnil _ fun call => (hnone call).2.2.1,
      hnil _ fun call => (hnone call).2.2.2] at hheld
    exact ⟨by simpa using hheld, hnil _ fun call => (hnone call).1,
      hnil _ fun call => (hnone call).2.2.2⟩

/-- The promises hold of every state reached, whatever the order. -/
def Bounded (l : Turns) : Prop :=
  ∀ (Call : Type) [DecidableEq Call] (s : TurnsState Call),
    l.machine.Reachable .init s → l.Holds s

theorem bounded (l : Turns) : l.Bounded := by
  intro Call _ s h
  have hinv : s.Inv l := h.invariant (.init l) fun _ _ _ hI hst => hI.step hst
  exact holds_of_inv hinv

end Turns

/-- **The turns of `rename-diff.ts`, of `npm-delta.ts` and of every `inTurns` are bounded**: no
more run than there are places, no place is idle while a call waits, calls start in the order they
came, none that has timed out, none is refused before as many wait as may, and no place is held
when all is done. -/
theorem bounded_turns :
    renameDiffTurns.Bounded ∧ npmDeltaTurns.Bounded ∧ ∀ count, (inTurns count).Bounded :=
  ⟨Turns.bounded _, Turns.bounded _, fun _ => Turns.bounded _⟩

end Triage.Managed
