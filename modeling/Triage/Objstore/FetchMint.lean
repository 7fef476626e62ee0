import Mathlib.Data.List.Induction
import Mathlib.Tactic.NormNum

/-!
# The guard of signed requests

A signed request that carries a timestamp instead of a connection's nonce is admitted while its
timestamp is fresh, and once: the guard remembers the signatures that it admitted for as long as its
window.

## Main results

* `signature_single_use` : a signature that was admitted is refused while it is remembered, and
  after that when it had been signed before.
* `replay_admitted` : none is refused as seen that was not admitted, and no more than the cap are
  remembered.
-/

namespace Triage.Objstore

open List

/-- `FetchMintVerdict` -/
inductive FetchMintVerdict
  | ok
  | stale
  | replay
  deriving DecidableEq, Repr

/-- The options of `createFetchMintGuard`, over any ordered group of times. -/
structure MintGuard (T : Type*) where
  windowMs : T
  maxEntries : ℕ

/-- A call of `admitSignature`; a timestamp that is not finite is none. -/
structure MintCall (T : Type*) where
  signature : String
  ts : Option T
  now : T
  deriving DecidableEq

namespace MintGuard

variable {T : Type*} [AddCommGroup T] [LinearOrder T] (g : MintGuard T)

/-- `Math.abs(now - ts) > windowMs`, or the timestamp is not finite. -/
def isStale (c : MintCall T) : Bool := !c.ts.any fun ts => |c.now - ts| ≤ g.windowMs

/-- The signatures seen that have not expired, in the order in which they were seen. -/
def prune (now : T) (seen : List (String × T)) : List (String × T) :=
  seen.dropWhile fun p => decide (p.2 ≤ now)

/-- The oldest entries beyond the cap are dropped. -/
def cap (seen : List (String × T)) : List (String × T) := seen.drop (seen.length - g.maxEntries)

/-- What the guard answers, and the signatures with their expiries that it has seen then. -/
def admitSignature (seen : List (String × T)) (c : MintCall T) :
    FetchMintVerdict × List (String × T) :=
  if g.isStale c then (.stale, seen)
  else
    have pruned := prune c.now seen
    if pruned.any (·.1 = c.signature) then (.replay, pruned)
    else (.ok, g.cap (pruned ++ [(c.signature, c.now + g.windowMs)]))

/-- What the guard has seen after some calls. -/
def after (seen : List (String × T)) : List (MintCall T) → List (String × T)
  | [] => seen
  | c :: calls => after (g.admitSignature seen c).2 calls

/-- The number of calls that are admitted. -/
def admitted (seen : List (String × T)) : List (MintCall T) → ℕ
  | [] => 0
  | c :: calls =>
    (if (g.admitSignature seen c).1 = .ok then 1 else 0) +
      admitted (g.admitSignature seen c).2 calls

/-! ### Remembering -/

/-- A signature is remembered up to its expiry, with at most `k` newer ones. -/
def Remembers (signature : String) (exp : T) (k : ℕ) (seen : List (String × T)) : Prop :=
  ∃ older newer, seen = older ++ (signature, exp) :: newer ∧ newer.length ≤ k

variable {g} {signature : String} {exp now : T} {k : ℕ} {seen : List (String × T)}
  {c c' : MintCall T} {calls : List (MintCall T)}

omit [AddCommGroup T] in
/-- What has not expired stays, with what is newer. -/
theorem Remembers.prune (h : Remembers signature exp k seen) (hnow : now < exp) :
    Remembers signature exp k (prune now seen) := by
  obtain ⟨older, newer, rfl, hlength⟩ := h
  induction older with
  | nil =>
    refine ⟨[], newer, ?_, hlength⟩
    rw [MintGuard.prune, nil_append, dropWhile_cons, if_neg]
    exact fun hle => (not_le.2 hnow) (of_decide_eq_true hle)
  | cons p older ih =>
    by_cases hp : p.2 ≤ now
    · rw [MintGuard.prune, cons_append, dropWhile_cons, if_pos (decide_eq_true hp)]
      exact ih
    · refine ⟨p :: older, newer, ?_, hlength⟩
      rw [MintGuard.prune, cons_append, dropWhile_cons, if_neg]
      exact fun hle => hp (of_decide_eq_true hle)

section

omit [AddCommGroup T] [LinearOrder T]

/-- The cap drops what is older first. -/
theorem Remembers.cap (h : Remembers signature exp k seen) (hk : k < g.maxEntries) :
    Remembers signature exp k (g.cap seen) := by
  obtain ⟨older, newer, rfl, hlength⟩ := h
  refine ⟨older.drop ((older ++ (signature, exp) :: newer).length - g.maxEntries), newer, ?_,
    hlength⟩
  rw [MintGuard.cap, drop_append_of_le_length]
  rw [length_append, length_cons]
  omega

theorem Remembers.any (h : Remembers signature exp k seen) : seen.any (·.1 = signature) = true := by
  obtain ⟨older, newer, rfl, -⟩ := h
  rw [any_append, any_cons, decide_eq_true rfl, Bool.true_or, Bool.or_true]

/-- A newer signature is remembered after it. -/
theorem Remembers.append (h : Remembers signature exp k seen) (p : String × T) :
    Remembers signature exp (k + 1) (seen ++ [p]) := by
  obtain ⟨older, newer, rfl, hlength⟩ := h
  refine ⟨older, newer ++ [p], by rw [append_assoc, cons_append], ?_⟩
  rw [length_append, length_singleton]
  omega

end

/-- One call, before the expiry. -/
theorem Remembers.step (h : Remembers signature exp k seen) (hnow : c.now < exp)
    (hk : k + (if (g.admitSignature seen c).1 = .ok then 1 else 0) < g.maxEntries) :
    Remembers signature exp (k + if (g.admitSignature seen c).1 = .ok then 1 else 0)
      (g.admitSignature seen c).2 := by
  have hpruned := h.prune hnow
  simp only [MintGuard.admitSignature] at hk ⊢
  by_cases hstale : g.isStale c = true
  · rw [if_pos hstale]
    exact h
  · rw [if_neg hstale] at hk ⊢
    by_cases hseen : (MintGuard.prune c.now seen).any (·.1 = c.signature) = true
    · rw [if_pos hseen]
      exact hpruned
    · rw [if_neg hseen, if_pos rfl] at hk ⊢
      exact (hpruned.append _).cap hk

/-- Some calls, all before the expiry. -/
theorem Remembers.after (h : Remembers signature exp k seen) (hnow : ∀ c ∈ calls, c.now < exp)
    (hk : k + g.admitted seen calls < g.maxEntries) :
    Remembers signature exp (k + g.admitted seen calls) (g.after seen calls) := by
  induction calls generalizing seen k with
  | nil => exact h
  | cons c calls ih =>
    rw [admitted, ← Nat.add_assoc] at hk ⊢
    have hstep := h.step (hnow c mem_cons_self) (lt_of_le_of_lt (Nat.le_add_right _ _) hk)
    exact ih hstep (fun c hc => hnow c (mem_cons_of_mem _ hc)) hk

/-- What is admitted is remembered, unless nothing is. -/
theorem remembers_of_ok (h : (g.admitSignature seen c).1 = .ok) (hmax : 0 < g.maxEntries) :
    Remembers c.signature (c.now + g.windowMs) 0 (g.admitSignature seen c).2 ∧
      g.isStale c = false := by
  rw [MintGuard.admitSignature] at h ⊢
  by_cases hstale : g.isStale c = true
  · rw [if_pos hstale] at h
    cases h
  · rw [if_neg hstale] at h ⊢
    by_cases hseen : (MintGuard.prune c.now seen).any (·.1 = c.signature) = true
    · rw [if_pos hseen] at h
      cases h
    · rw [if_neg hseen]
      exact ⟨Remembers.cap ⟨_, [], rfl, le_rfl⟩ hmax, Bool.eq_false_iff.2 hstale⟩

/-- A signature that is remembered is not admitted. -/
theorem Remembers.not_ok (h : Remembers c.signature exp k seen) (hnow : c.now < exp) :
    (g.admitSignature seen c).1 ≠ .ok := by
  rw [MintGuard.admitSignature]
  by_cases hstale : g.isStale c = true
  · rw [if_pos hstale]
    intro h
    cases h
  · rw [if_neg hstale, if_pos (h.prune hnow).any]
    intro h
    cases h

/-! ### Use -/

theorem after_append (seen : List (String × T)) (calls calls' : List (MintCall T)) :
    g.after seen (calls ++ calls') = g.after (g.after seen calls) calls' := by
  induction calls generalizing seen with
  | nil => rfl
  | cons c calls ih => exact ih _

/-! ### No refusal without an admission -/

/-- What is remembered was admitted by one of the calls, and comes in the order of the expiries. -/
structure Admitted (g : MintGuard T) (calls : List (MintCall T)) (seen : List (String × T)) :
    Prop where
  sorted : seen.Pairwise fun p q => p.2 ≤ q.2
  length : seen.length ≤ g.maxEntries
  admitted : ∀ p ∈ seen, ∃ pre c post, calls = pre ++ c :: post ∧
    (g.admitSignature (g.after [] pre) c).1 = .ok ∧ p = (c.signature, c.now + g.windowMs)

theorem Admitted.sublist (h : Admitted g calls seen) (hseen : seen' <+ seen) :
    Admitted g (calls ++ [c]) seen' where
  sorted := h.sorted.sublist hseen
  length := hseen.length_le.trans h.length
  admitted p hp := by
    obtain ⟨pre, b, post, rfl, hb⟩ := h.admitted p (hseen.subset hp)
    exact ⟨pre, b, post ++ [c], by simp, hb⟩

omit [AddCommGroup T] in
/-- In the order of the expiries no entry is left that has expired. -/
theorem lt_of_mem_prune (h : seen.Pairwise fun p q => p.2 ≤ q.2) {p : String × T}
    (hp : p ∈ prune now seen) : now < p.2 := by
  induction seen with
  | nil => cases hp
  | cons q seen ih =>
    obtain ⟨hq, hseen⟩ := pairwise_cons.1 h
    rw [prune, dropWhile_cons] at hp
    split_ifs at hp with hexpired
    · exact ih hseen hp
    · have hlive : now < q.2 := not_le.1 fun hle => hexpired (decide_eq_true hle)
      rcases mem_cons.1 hp with rfl | hp
      · exact hlive
      · exact hlive.trans_le (hq p hp)

variable [IsOrderedAddMonoid T]

theorem admitted_after (hclock : calls.Pairwise fun a b => a.now ≤ b.now) :
    Admitted g calls (g.after [] calls) := by
  induction calls using reverseRecOn with
  | nil => exact ⟨.nil, Nat.zero_le _, nofun⟩
  | append_singleton calls c ih =>
    obtain ⟨hcalls, -, hlater⟩ := pairwise_append.1 hclock
    have hold := ih hcalls
    have hpruned : prune c.now (g.after [] calls) <+ g.after [] calls := dropWhile_sublist _
    rw [after_append]
    change Admitted g _ (g.admitSignature (g.after [] calls) c).2
    rw [admitSignature]
    by_cases hstale : g.isStale c = true
    · rw [if_pos hstale]
      exact hold.sublist (Sublist.refl _)
    · rw [if_neg hstale]
      by_cases hany : (prune c.now (g.after [] calls)).any (·.1 = c.signature) = true
      · rw [if_pos hany]
        exact hold.sublist hpruned
      · rw [if_neg hany]
        have hok : (g.admitSignature (g.after [] calls) c).1 = .ok := by
          rw [admitSignature, if_neg hstale, if_neg hany]
        have hkept := hold.sublist (c := c) hpruned
        refine ⟨Pairwise.sublist (drop_sublist ..) (pairwise_append.2 ⟨hkept.sorted, by simp, ?_⟩),
          ?_, fun p hp => ?_⟩
        · -- the clock does not go back, so what comes last expires last
          intro p hp q hq
          obtain ⟨pre, b, post, hb, -, rfl⟩ := hold.admitted p (hpruned.subset hp)
          rw [mem_singleton.1 hq]
          exact add_le_add_left (hlater b (hb ▸ mem_append_right _ mem_cons_self) c (by simp)) _
        · rw [cap, length_drop]
          omega
        · rcases mem_append.1 (mem_of_mem_drop hp) with hp | hp
          · exact hkept.admitted p hp
          · exact ⟨calls, c, [], rfl, hok, mem_singleton.1 hp⟩

/-- A timestamp from before an admission is stale once the window has passed since. -/
theorem isStale_of_expired {ts : T} (hts : c'.ts = some ts) (hlt : ts < c.now)
    (hexp : c.now + g.windowMs ≤ c'.now) : g.isStale c' = true := by
  have hdiff : g.windowMs < c'.now - ts := by
    calc g.windowMs ≤ c'.now - c.now := le_sub_iff_add_le'.2 hexp
      _ < c'.now - ts := sub_lt_sub_left hlt _
  rw [isStale, hts, Option.any_some, Bool.not_eq_true', decide_eq_false_iff_not, not_le]
  exact lt_of_lt_of_le hdiff (le_abs_self _)

/-- **A signature is used once**: at non-decreasing times, one that was admitted is refused when it
is presented again before the window has passed, as long as the cap did not make room of it; and
after that too, where it was signed before it was admitted. -/
theorem signature_single_use (before between : List (MintCall T))
    (hclock : (before ++ c :: between ++ [c']).Pairwise fun a b => a.now ≤ b.now)
    (hsignature : c'.signature = c.signature) (hts : c'.ts = c.ts)
    (hok : (g.admitSignature (g.after [] before) c).1 = .ok)
    (hroom : g.admitted (g.after [] (before ++ [c])) between < g.maxEntries)
    (h : c'.now < c.now + g.windowMs ∨ ∀ ts ∈ c.ts, ts < c.now) :
    (g.admitSignature (g.after [] (before ++ c :: between)) c').1 ≠ .ok := by
  have hmax : 0 < g.maxEntries := Nat.zero_lt_of_lt hroom
  obtain ⟨hremembers, hstale⟩ := remembers_of_ok hok hmax
  rw [after_append] at hroom
  have hbetween : ∀ b ∈ between, b.now ≤ c'.now := by
    intro b hb
    refine (pairwise_append.1 hclock).2.2 b ?_ c' mem_cons_self
    exact mem_append_right _ (mem_cons_of_mem _ hb)
  by_cases hexp : c'.now < c.now + g.windowMs
  · have hafter := hremembers.after (fun b hb => lt_of_le_of_lt (hbetween b hb) hexp)
      (by rwa [Nat.zero_add])
    rw [after_append]
    rw [← hsignature] at hafter
    exact hafter.not_ok hexp
  · have hold := h.resolve_left hexp
    cases hcts : c.ts with
    | none =>
      rw [isStale, hcts] at hstale
      cases hstale
    | some ts =>
      have hstale' := isStale_of_expired (hts.trans hcts) (hold ts hcts) (not_lt.1 hexp)
      rw [admitSignature, if_pos hstale']
      intro h
      cases h

/-- **A signature is refused as seen only if it was admitted**, at non-decreasing times by a call
less than the window before; and no more signatures are remembered than the cap. -/
theorem replay_admitted (before : List (MintCall T))
    (hclock : before.Pairwise fun a b => a.now ≤ b.now) :
    (g.after [] before).length ≤ g.maxEntries ∧
      ((g.admitSignature (g.after [] before) c).1 = .replay →
        ∃ pre b post, before = pre ++ b :: post ∧
          (g.admitSignature (g.after [] pre) b).1 = .ok ∧ b.signature = c.signature ∧
          c.now < b.now + g.windowMs) := by
  have hseen := admitted_after (g := g) hclock
  refine ⟨hseen.length, fun h => ?_⟩
  have hany : (prune c.now (g.after [] before)).any (·.1 = c.signature) = true := by
    rw [admitSignature] at h
    by_contra hany
    rw [if_neg hany] at h
    split_ifs at h
  obtain ⟨p, hp, hsignature⟩ := any_eq_true.1 hany
  obtain ⟨pre, b, post, hb, hok, rfl⟩ := hseen.admitted p ((dropWhile_sublist _).subset hp)
  exact ⟨pre, b, post, hb, hok, by simpa using hsignature, lt_of_mem_prune hseen.sorted hp⟩

end MintGuard

/-- The guard of the endpoints. -/
def mintGuard : MintGuard ℤ := ⟨60000, 50000⟩

/-- A request is captured and presented again half a minute, and two minutes, later. -/
theorem signature_single_use_captured :
    (mintGuard.admitSignature (mintGuard.after [] [⟨"s", some 900, 1000⟩])
      ⟨"s", some 900, 31000⟩).1 ≠ .ok ∧
    (mintGuard.admitSignature (mintGuard.after [] [⟨"s", some 900, 1000⟩])
      ⟨"s", some 900, 121000⟩).1 ≠
      .ok := by
  refine ⟨?_, ?_⟩
  · exact MintGuard.signature_single_use [] [] (c := ⟨"s", some 900, 1000⟩) (by decide) rfl rfl
      (by decide) (by decide) (.inl (by decide))
  · exact MintGuard.signature_single_use [] [] (c := ⟨"s", some 900, 1000⟩) (by decide) rfl rfl
      (by decide) (by decide) (.inr (by decide))

/-- A cap of one makes room of a signature for another one; and a signature that is dated a minute
ahead is fresh for longer than it is remembered. -/
theorem signature_used_twice :
    (have g : MintGuard ℤ := ⟨60000, 1⟩
    (g.admitSignature [] ⟨"s", some 900, 1000⟩).1 = .ok ∧
      (g.admitSignature (g.after [] [⟨"s", some 900, 1000⟩, ⟨"t", some 900, 1000⟩])
        ⟨"s", some 900, 2000⟩).1 = .ok) ∧
    (mintGuard.admitSignature [] ⟨"s", some 61000, 1000⟩).1 = .ok ∧
      (mintGuard.admitSignature (mintGuard.after [] [⟨"s", some 61000, 1000⟩])
        ⟨"s", some 61000, 61000⟩).1 = .ok := by
  decide +kernel

/-- A signature is presented once more after another one. -/
theorem replay_admitted_once : ∃ pre b post,
    [⟨"s", some 900, 1000⟩, ⟨"t", some 900, 2000⟩] = pre ++ b :: post ∧
      (mintGuard.admitSignature (mintGuard.after [] pre) b).1 = .ok ∧ b.signature = "s" ∧
      3000 < b.now + mintGuard.windowMs :=
  (MintGuard.replay_admitted (c := ⟨"s", some 900, 3000⟩) [⟨"s", some 900, 1000⟩,
    ⟨"t", some 900, 2000⟩] (by decide)).2 (by decide)

end Triage.Objstore
