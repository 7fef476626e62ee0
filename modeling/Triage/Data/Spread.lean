import Mathlib.Algebra.Order.BigOperators.Group.List
import Mathlib.Algebra.Order.Ring.Nat
import Mathlib.Data.List.Induction
import Mathlib.Data.List.Perm.Subperm
import Triage.Data.Flags
import Triage.Data.Links
import Triage.Data.RingQueue

/-!
# Flags that spread along links

Each vertex has a word of flags, and each link passes on those flags that the other end allows. A
vertex whose flags grew waits in a ring queue, once at a time, with a slot for each vertex. When
none waits, a flag has reached the vertices that stay reached where those that do not allow it are
gone.

## Main results

* `Spread.settle_spec` : the flags settle, the queue is never overrun, and a flag has reached
  what stays reached.
-/

namespace Triage

open Flags List Function RingQueue Bool

structure Spread (V : Type*) where
  reached : V → Word
  queued : V → Bool
  queue : RingQueue V

namespace Spread

variable {V : Type*} [DecidableEq V] (next : V → List V) (allowed : V → Word)

def enqueue (s : Spread V) (v : V) : Spread V :=
  if s.queued v then s
  else { s with queued := update s.queued v true, queue := s.queue.push v }

/-- A start has all the flags it allows. -/
def begin (s : Spread V) (v : V) : Spread V :=
  have s' := { s with reached := update s.reached v (allowed v) }
  if allowed v = 0 then s' else s'.enqueue v

/-- A link passes on what is new at its other end. -/
def pass (v : V) (s : Spread V) (w : V) : Spread V :=
  have added := s.reached v &&& allowed w &&& ~~~s.reached w
  if added = 0 then s
  else enqueue { s with reached := update s.reached w (s.reached w ||| added) } w

/-- The links of the vertex at the front. -/
def body (s : Spread V) : Option (Spread V) :=
  s.queue.pop.map fun p =>
    (next p.1).foldl (pass allowed p.1)
      { s with queued := update s.queued p.1 false, queue := p.2 }

/-- The flags that settle, from some starts; `slots` are those of the queue. -/
def settle (slots : List V) (starts : List V) (bound : ℕ) : Spread V :=
  loop (body next allowed) bound
    (starts.foldl (begin allowed) ⟨fun _ => 0, fun _ => false, RingQueue.empty slots⟩)

/-- The vertices of the graph. -/
structure Over (vertices starts : List V) : Prop where
  nodup : vertices.Nodup
  starts : ∀ s ∈ starts, s ∈ vertices
  closed : ∀ v ∈ vertices, ∀ w ∈ next v, w ∈ vertices

/-- A vertex does not allow a flag. -/
def denies (b : ℕ) (v : V) : Bool := !(allowed v).getLsbD b

/-- What holds while flags spread: `xs` waits, `begun` are the starts that have begun, and the links
of what does not wait have passed on their flags as far as they were `followed`. -/
structure Spreading (vertices starts begun : List V) (followed : V → V → Prop) (xs : List V)
    (s : Spread V) : Prop where
  holds : s.queue.Holds xs
  slots : s.queue.slots.length = vertices.length
  nodup : xs.Nodup
  waiting : ∀ v, s.queued v = true ↔ v ∈ xs
  within : ∀ v ∈ xs, v ∈ vertices
  sound : ∀ b v, (s.reached v).getLsbD b = true → Links.Stays next starts (denies allowed b) v
  begun : ∀ b, ∀ v ∈ begun, (allowed v).getLsbD b = true → (s.reached v).getLsbD b = true
  settled : ∀ b v w, v ∉ xs → w ∈ next v → followed v w → (s.reached v).getLsbD b = true →
    (allowed w).getLsbD b = true → (s.reached w).getLsbD b = true

/-- The flags that a vertex has not got. -/
def lacking (w : Word) : ℕ := (List.range 32).countP fun b => !w.getLsbD b

/-- What is left to do: a flag that is got puts one vertex in the queue, and a step takes one
out. -/
def left (vertices : List V) (s : Spread V) : ℕ :=
  (vertices.map fun v => lacking (s.reached v)).sum + s.queue.pending

/-! ### Flags -/

theorem lacking_le {w w' : Word} (h : ∀ b, w.getLsbD b = true → w'.getLsbD b = true) :
    lacking w' ≤ lacking w := by
  refine countP_mono_left fun b _ hb => ?_
  rw [not_eq_true'] at hb ⊢
  exact eq_false_iff.2 fun hw => eq_false_iff.1 hb (h b hw)

variable {b : ℕ} {slots : List V}

theorem lacking_lt {w w' : Word} (h : ∀ b, w.getLsbD b = true → w'.getLsbD b = true)
    (hb : b < 32) (hw : w.getLsbD b = false) (hw' : w'.getLsbD b = true) :
    lacking w' < lacking w := by
  have hsub : List.Subperm (b :: (List.range 32).filter fun b => !w'.getLsbD b)
      ((List.range 32).filter fun b => !w.getLsbD b) := by
    refine List.Nodup.subperm (nodup_cons.2 ⟨?_, nodup_range.filter _⟩) ?_
    · intro hmem
      rw [mem_filter, hw'] at hmem
      exact absurd hmem.2 false_ne_true
    · intro c hc
      rcases mem_cons.1 hc with rfl | hc
      · exact mem_filter.2 ⟨mem_range.2 hb, by rw [hw]; rfl⟩
      · obtain ⟨hrange, hc⟩ := mem_filter.1 hc
        rw [not_eq_true'] at hc
        refine mem_filter.2 ⟨hrange, ?_⟩
        rw [not_eq_true']
        exact eq_false_iff.2 fun hwc => eq_false_iff.1 hc (h c hwc)
  have hlength := hsub.length_le
  rw [length_cons] at hlength
  rw [lacking, lacking, countP_eq_length_filter, countP_eq_length_filter]
  exact hlength

variable {next allowed} {vertices starts begun xs : List V} {followed : V → V → Prop} {s : Spread V}
  {v w : V} {word : Word}

theorem sum_lacking_lt (hw : w ∈ vertices)
    (h : ∀ b, (s.reached w).getLsbD b = true → word.getLsbD b = true) (hb : b < 32)
    (hold : (s.reached w).getLsbD b = false) (hnew : word.getLsbD b = true) :
    (vertices.map fun v => lacking (update s.reached w word v)).sum <
      (vertices.map fun v => lacking (s.reached v)).sum := by
  refine sum_lt_sum _ _ (fun v _ => lacking_le fun b hb => ?_) ⟨w, hw, ?_⟩
  · by_cases hv : v = w
    · subst hv
      rw [update_self]
      exact h b hb
    · rw [update_of_ne hv]
      exact hb
  · rw [update_self]
    exact lacking_lt h hb hold hnew

theorem lt_of_getLsbD (h : word.getLsbD b = true) : b < 32 := by
  by_contra hge
  rw [BitVec.getLsbD_of_ge _ _ (Nat.le_of_not_lt hge)] at h
  cases h

theorem reached_enqueue (s : Spread V) (v : V) : (s.enqueue v).reached = s.reached := by
  rw [enqueue]
  split <;> rfl

/-! ### Steps -/

namespace Spreading

variable (hs : Spreading next allowed vertices starts begun followed xs s)
include hs

omit [DecidableEq V] in
/-- A vertex that does not wait finds a slot. -/
theorem free (hw : w ∈ vertices) (hnot : w ∉ xs) : xs.length < s.queue.slots.length := by
  have hsub : (w :: xs).Subperm vertices := by
    refine List.Nodup.subperm (nodup_cons.2 ⟨hnot, hs.nodup⟩) fun v hv => ?_
    rcases mem_cons.1 hv with rfl | hv
    · exact hw
    · exact hs.within v hv
  rw [hs.slots]
  exact hsub.length_le

/-- The flags of a vertex grow, and it waits then. -/
theorem raise (hw : w ∈ vertices)
    (hgrow : ∀ b, (s.reached w).getLsbD b = true → word.getLsbD b = true)
    (hsound : ∀ b, word.getLsbD b = true → Links.Stays next starts (denies allowed b) w) :
    ∃ xs', Spreading next allowed vertices starts begun followed xs'
        (enqueue { s with reached := update s.reached w word } w) ∧
      xs'.length ≤ xs.length + 1 := by
  have hmono : ∀ b v, (s.reached v).getLsbD b = true →
      (update s.reached w word v).getLsbD b = true := by
    intro b v hv
    by_cases hvw : v = w
    · subst hvw
      rw [update_self]
      exact hgrow b hv
    · rwa [update_of_ne hvw]
  have hsound' : ∀ b v, (update s.reached w word v).getLsbD b = true →
      Links.Stays next starts (denies allowed b) v := by
    intro b v hv
    by_cases hvw : v = w
    · subst hvw
      rw [update_self] at hv
      exact hsound b hv
    · rw [update_of_ne hvw] at hv
      exact hs.sound b v hv
  have hsettled : ∀ xs' : List V, (∀ v ∈ xs, v ∈ xs') → w ∈ xs' → ∀ b v u, v ∉ xs' → u ∈ next v →
      followed v u → (update s.reached w word v).getLsbD b = true →
      (allowed u).getLsbD b = true → (update s.reached w word u).getLsbD b = true := by
    intro xs' hsub hmem b v u hv hu hfollowed hreached hallowed
    have hvw : v ≠ w := fun heq => hv (heq ▸ hmem)
    rw [update_of_ne hvw] at hreached
    exact hmono b u (hs.settled b v u (fun h => hv (hsub v h)) hu hfollowed hreached hallowed)
  rw [enqueue]
  split
  · rename_i hqueued
    refine ⟨xs, ⟨hs.holds, hs.slots, hs.nodup, hs.waiting, hs.within, hsound', ?_, ?_⟩,
      Nat.le_succ _⟩
    · exact fun b v hv hallowed => hmono b v (hs.begun b v hv hallowed)
    · exact hsettled xs (fun v hv => hv) ((hs.waiting w).1 hqueued)
  · rename_i hqueued
    have hnot : w ∉ xs := fun hmem => hqueued ((hs.waiting w).2 hmem)
    refine ⟨xs ++ [w], ⟨hs.holds.push (hs.free hw hnot) w, ?_, ?_, fun v => ?_, fun v hv => ?_,
      hsound', ?_, ?_⟩, by rw [length_append]; rfl⟩
    · exact length_set.trans hs.slots
    · exact hs.nodup.append (nodup_singleton w) (by simpa using hnot)
    · rw [mem_append, mem_singleton, ← hs.waiting]
      change update s.queued w true v = true ↔ _
      by_cases hvw : v = w
      · subst hvw
        rw [update_self]
        exact iff_of_true rfl (.inr rfl)
      · rw [update_of_ne hvw, or_iff_left hvw]
    · rcases mem_append.1 hv with hv | hv
      · exact hs.within v hv
      · rw [mem_singleton.1 hv]
        exact hw
    · exact fun b v hv hallowed => hmono b v (hs.begun b v hv hallowed)
    · exact hsettled (xs ++ [w]) (fun v hv => mem_append_left _ hv) (by simp)

omit [DecidableEq V] in
/-- What reached a vertex is allowed there. -/
theorem allowed_of_reached {b : ℕ} (h : (s.reached v).getLsbD b = true) :
    (allowed v).getLsbD b = true := by
  have hgone := (hs.sound b v h).not_gone
  rwa [denies, not_eq_false'] at hgone

theorem start (hover : Over next vertices starts) (hv : v ∈ starts) :
    ∃ xs', Spreading next allowed vertices starts (begun ++ [v]) followed xs'
      (Spread.begin allowed s v) := by
  have hbegun : ∀ reached : V → Word, (∀ b, ∀ u ∈ begun, (allowed u).getLsbD b = true →
        (reached u).getLsbD b = true) → (∀ b, (allowed v).getLsbD b = true →
        (reached v).getLsbD b = true) →
      ∀ b, ∀ u ∈ begun ++ [v], (allowed u).getLsbD b = true → (reached u).getLsbD b = true := by
    intro reached hold hnew b u hu
    rcases mem_append.1 hu with hu | hu
    · exact hold b u hu
    · rw [mem_singleton.1 hu]
      exact hnew b
  rw [Spread.begin]
  split
  · rename_i hzero
    have hclear : ∀ b, ¬(allowed v).getLsbD b = true := by
      intro b
      rw [hzero]
      change ¬(0#32).getLsbD b = true
      rw [BitVec.getLsbD_zero]
      exact false_ne_true
    have hsame : update s.reached v (allowed v) = s.reached := by
      rw [update_eq_self_iff, hzero]
      refine BitVec.eq_of_getLsbD_eq fun b _ => ?_
      change (0#32).getLsbD b = _
      rw [BitVec.getLsbD_zero]
      exact (eq_false_iff.2 fun h => hclear b (hs.allowed_of_reached h)).symm
    rw [hsame]
    exact ⟨xs, { hs with begun := hbegun s.reached hs.begun fun b h => absurd h (hclear b) }⟩
  · have hgrow : ∀ b, (s.reached v).getLsbD b = true → (allowed v).getLsbD b = true :=
      fun b => hs.allowed_of_reached
    obtain ⟨xs', hraised, -⟩ := hs.raise (hover.starts v hv) hgrow
      fun b hb => Links.Stays.start hv (by rw [denies, hb]; rfl)
    refine ⟨xs', { hraised with begun := hbegun _ hraised.begun fun b hb => ?_ }⟩
    rw [reached_enqueue]
    change (update s.reached v (allowed v) v).getLsbD b = true
    rw [update_self]
    exact hb

theorem pass (hv : v ∈ vertices) (hw : w ∈ next v) (hover : Over next vertices starts) :
    ∃ xs', Spreading next allowed vertices starts begun
        (fun a c => followed a c ∨ a = v ∧ c = w) xs' (Spread.pass allowed v s w) ∧
      left vertices (Spread.pass allowed v s w) ≤ left vertices s := by
  have hadded : ∀ b, (s.reached v &&& allowed w &&& ~~~s.reached w).getLsbD b = true ↔
      (s.reached v).getLsbD b = true ∧ (allowed w).getLsbD b = true ∧
        (s.reached w).getLsbD b = false := by
    intro b
    rw [BitVec.getLsbD_and, BitVec.getLsbD_and, BitVec.getLsbD_not, and_eq_true,
      and_eq_true, and_eq_true, not_eq_true', decide_eq_true_iff]
    constructor
    · rintro ⟨⟨hv, hw⟩, -, hnot⟩
      exact ⟨hv, hw, hnot⟩
    · rintro ⟨hv, hw, hnot⟩
      exact ⟨⟨hv, hw⟩, lt_of_getLsbD hv, hnot⟩
  rw [Spread.pass]
  split
  · rename_i hzero
    refine ⟨xs, { hs with settled := ?_ }, le_rfl⟩
    rintro b a c ha hc (hfollowed | ⟨rfl, rfl⟩) hreached hallowed
    · exact hs.settled b a c ha hc hfollowed hreached hallowed
    · by_contra hnot
      have hbit := (hadded b).2 ⟨hreached, hallowed, eq_false_iff.2 hnot⟩
      rw [hzero] at hbit
      change (0#32).getLsbD b = true at hbit
      rw [BitVec.getLsbD_zero] at hbit
      cases hbit
  · rename_i hne
    obtain ⟨k, hk, hset, -⟩ := exists_lowest hne
    obtain ⟨hreached, hallowed, hnot⟩ := (hadded k).1 hset
    have hword : ∀ b, (s.reached w).getLsbD b = true →
        (s.reached w ||| (s.reached v &&& allowed w &&& ~~~s.reached w)).getLsbD b = true := by
      intro b hb
      rw [BitVec.getLsbD_or, hb, Bool.true_or]
    obtain ⟨xs', hraised, hlength⟩ := hs.raise (hover.closed v hv w hw) hword (by
      intro b hb
      rw [BitVec.getLsbD_or, or_eq_true] at hb
      rcases hb with hb | hb
      · exact hs.sound b w hb
      · obtain ⟨hb, hallowed, -⟩ := (hadded b).1 hb
        exact (hs.sound b v hb).step hw (by rw [denies, hallowed]; rfl))
    refine ⟨xs', { hraised with settled := ?_ }, ?_⟩
    · rintro b a c ha hc (hfollowed | ⟨rfl, rfl⟩) hreached hallowed
      · exact hraised.settled b a c ha hc hfollowed hreached hallowed
      · rw [reached_enqueue] at hreached ⊢
        by_cases hac : a = c
        · subst hac
          exact hreached
        · change (update s.reached c _ a).getLsbD b = true at hreached
          change (update s.reached c _ c).getLsbD b = true
          rw [update_of_ne hac] at hreached
          rw [update_self]
          cases hold : (s.reached c).getLsbD b with
          | true => exact hword b hold
          | false =>
            rw [BitVec.getLsbD_or, (hadded b).2 ⟨hreached, hallowed, hold⟩, Bool.or_true]
    · have hsum := sum_lacking_lt (hover.closed v hv w hw) hword hk hnot
        (by rw [BitVec.getLsbD_or, hset, Bool.or_true])
      rw [left, left, reached_enqueue, hraised.holds.pending, hs.holds.pending]
      change (vertices.map fun u => lacking (update s.reached w _ u)).sum + _ ≤ _
      omega

theorem pass_all (hover : Over next vertices starts) (hv : v ∈ vertices) {ws : List V}
    (hws : ∀ w ∈ ws, w ∈ next v) :
    ∃ xs', Spreading next allowed vertices starts begun
        (fun a c => followed a c ∨ a = v ∧ c ∈ ws) xs' (ws.foldl (Spread.pass allowed v) s) ∧
      left vertices (ws.foldl (Spread.pass allowed v) s) ≤ left vertices s := by
  induction ws using reverseRecOn with
  | nil =>
    refine ⟨xs, { hs with settled := ?_ }, le_rfl⟩
    rintro b a c ha hc (hfollowed | ⟨-, hmem⟩)
    · exact hs.settled b a c ha hc hfollowed
    · cases hmem
  | append_singleton ws w ih =>
    obtain ⟨xs', hpassed, hle⟩ := ih fun w hw => hws w (mem_append_left _ hw)
    obtain ⟨xs'', hpassed', hle'⟩ := hpassed.pass hv (hws w (by simp)) hover
    rw [foldl_append]
    refine ⟨xs'', { hpassed' with settled := ?_ }, hle'.trans hle⟩
    rintro b a c ha hc (hfollowed | ⟨rfl, hmem⟩)
    · exact hpassed'.settled b a c ha hc (.inl (.inl hfollowed))
    · rcases mem_append.1 hmem with hmem | hmem
      · exact hpassed'.settled b a c ha hc (.inl (.inr ⟨rfl, hmem⟩))
      · exact hpassed'.settled b a c ha hc (.inr ⟨rfl, mem_singleton.1 hmem⟩)

theorem start_all (hover : Over next vertices starts) {more : List V}
    (hmore : ∀ v ∈ more, v ∈ starts) :
    ∃ xs', Spreading next allowed vertices starts (begun ++ more) followed xs'
      (more.foldl (begin allowed) s) := by
  induction more using reverseRecOn with
  | nil =>
    rw [append_nil]
    exact ⟨xs, hs⟩
  | append_singleton more v ih =>
    obtain ⟨xs', hstarted⟩ := ih fun v hv => hmore v (mem_append_left _ hv)
    obtain ⟨xs'', hstarted'⟩ := hstarted.start hover (hmore v (by simp))
    rw [foldl_append, ← append_assoc]
    exact ⟨xs'', hstarted'⟩

end Spreading

/-- All links of what does not wait were followed. -/
abbrev Settling (next : V → List V) (allowed : V → Word) (vertices starts xs : List V)
    (s : Spread V) : Prop :=
  Spreading next allowed vertices starts starts (fun _ _ => True) xs s

/-- A step takes the vertex at the front and leaves less to do. -/
theorem Spreading.body (hover : Over next vertices starts)
    (hs : Settling next allowed vertices starts xs s) {s' : Spread V}
    (hbody : Spread.body next allowed s = some s') :
    (∃ xs', Settling next allowed vertices starts xs' s') ∧ left vertices s' < left vertices s := by
  cases xs with
  | nil =>
    rw [Spread.body, hs.holds.pop_nil] at hbody
    cases hbody
  | cons v rest =>
    obtain ⟨queue, hpop, hholds⟩ := hs.holds.pop
    rw [Spread.body, hpop, Option.map_some] at hbody
    obtain rfl := Option.some.inj hbody
    obtain ⟨hv, hrest⟩ := nodup_cons.1 hs.nodup
    have hpopped : Spreading next allowed vertices starts starts (fun a _ => a ≠ v) rest
        { s with queued := update s.queued v false, queue := queue } := by
      refine ⟨hholds, ?_, hrest, fun w => ?_, fun w hw => hs.within w (mem_cons_of_mem v hw),
        hs.sound, hs.begun, fun b a c ha hc hne => ?_⟩
      · rw [← hs.slots]
        exact congrArg List.length (slots_of_pop hpop)
      · change update s.queued v false w = true ↔ w ∈ rest
        by_cases hwv : w = v
        · subst hwv
          rw [update_self]
          exact iff_of_false false_ne_true hv
        · rw [update_of_ne hwv, hs.waiting, mem_cons, or_iff_right hwv]
      · refine hs.settled b a c (fun hmem => ?_) hc trivial
        exact (mem_cons.1 hmem).elim hne ha
    obtain ⟨xs', hpassed, hle⟩ := hpopped.pass_all hover (hs.within v mem_cons_self) fun w hw => hw
    refine ⟨⟨xs', { hpassed with settled := fun b a c ha hc _ => ?_ }⟩, hle.trans_lt ?_⟩
    · refine hpassed.settled b a c ha hc ?_
      by_cases hav : a = v
      · subst hav
        exact .inr ⟨rfl, hc⟩
      · exact .inl hav
    · rw [left, left, hs.holds.pending, hholds.pending]
      exact Nat.add_lt_add_left (Nat.lt_succ_self _) _

theorem settling_begun (hover : Over next vertices starts)
    (hslots : slots.length = vertices.length) :
    ∃ xs, Settling next allowed vertices starts xs
      (starts.foldl (begin allowed) ⟨fun _ => 0, fun _ => false, empty slots⟩) := by
  have hclear : ∀ b, ¬(0 : Word).getLsbD b = true := by
    intro b
    change ¬(0#32).getLsbD b = true
    rw [BitVec.getLsbD_zero]
    exact false_ne_true
  have hempty : Spreading next allowed vertices starts [] (fun _ _ => True) []
      ⟨fun _ => 0, fun _ => false, empty slots⟩ := by
    refine ⟨holds_empty slots, hslots, nodup_nil, fun v => ?_, fun v hv => (nomatch hv),
      fun b v hb => absurd hb (hclear b), fun b v hv => (nomatch hv), ?_⟩
    · exact iff_of_false false_ne_true not_mem_nil
    · exact fun b v w _ _ _ hb => absurd hb (hclear b)
  exact hempty.start_all hover fun v hv => hv

variable (allowed)

/-- The queue is never overrun: at each step it holds vertices of the graph, each once. -/
theorem settle_holds (hover : Over next vertices starts)
    (hslots : slots.length = vertices.length) (bound : ℕ) :
    ∃ xs, Settling next allowed vertices starts xs (settle next allowed slots starts bound) :=
  loop_invariant (I := fun s => ∃ xs, Settling next allowed vertices starts xs s)
    (fun _ _ ⟨_, hs⟩ hbody => (Spreading.body hover hs hbody).1) bound
    (settling_begun hover hslots)

/-- **The flags settle**, and a flag has reached just what stays reached. -/
theorem settle_spec (hover : Over next vertices starts)
    (hslots : slots.length = vertices.length) {bound : ℕ} (hbound : 33 * vertices.length ≤ bound) :
    body next allowed (settle next allowed slots starts bound) = none ∧
      ∀ b v, ((settle next allowed slots starts bound).reached v).getLsbD b = true ↔
        Links.Stays next starts (denies allowed b) v := by
  have hbegun : ∃ xs, Settling next allowed vertices starts xs _ := settling_begun hover hslots
  have hleft : left vertices
        (starts.foldl (begin allowed) ⟨fun _ => 0, fun _ => false, empty slots⟩) ≤
      bound := by
    obtain ⟨xs, hxs⟩ := hbegun
    have hlength : xs.length ≤ vertices.length := hxs.slots ▸ hxs.holds.fits
    have hsum := sum_le_card_nsmul
      (vertices.map fun v => lacking ((starts.foldl (begin allowed)
        ⟨fun _ => 0, fun _ => false, empty slots⟩ : Spread V).reached v)) 32 (by
          intro n hn
          obtain ⟨v, -, rfl⟩ := mem_map.1 hn
          exact countP_le_length)
    rw [length_map, nsmul_eq_mul, Nat.cast_id] at hsum
    rw [left, hxs.holds.pending]
    omega
  obtain ⟨⟨ys, hys⟩, hnone⟩ := loop_spec
    (I := fun s => ∃ xs, Settling next allowed vertices starts xs s)
    (fun _ _ ⟨_, hs⟩ hbody => Spreading.body hover hs hbody) hbegun hleft
  refine ⟨hnone, fun b v => ⟨hys.sound b v, fun h => ?_⟩⟩
  have hnil : ys = [] := by
    cases ys with
    | nil => rfl
    | cons u rest =>
      obtain ⟨queue, hpop, -⟩ := hys.holds.pop
      rw [body, hpop] at hnone
      cases hnone
  subst hnil
  refine h.mem
    (P := fun u => ((settle next allowed slots starts bound).reached u).getLsbD b = true)
    (fun u hu w hw hdenies => ?_) fun u hu hdenies => ?_
  · rw [denies, not_eq_false'] at hdenies
    exact hys.settled b u w not_mem_nil hw trivial hu hdenies
  · rw [denies, not_eq_false'] at hdenies
    exact hys.begun b u hu hdenies

end Spread

end Triage
