import Triage.Data.Recency
import Triage.Machine.Basic

/-!
# Small caches

Two caches of the server keep values by key, the least recently used going first: `lru` up to a
weight, and `keptBriefly` up to so many bytes and entries, each for a while only.

## Main results

* `caches_right` : **both caches** are right, unless a value too large comes for a key that is held.
* `old_value_stays` : such a value leaves an older one in place.
-/

namespace Triage.SmallCaches

open Recency List Function Nat Prod

variable {K V : Type*} [DecidableEq K]

/-- Both caches are asked, and given values with their bytes; a timer of one may end. -/
inductive Act (K V : Type*)
  | get (key : K)
  | give (key : K) (value : V) (bytes : ℕ)
  | expire (timer : ℕ)

/-! ### `lru` -/

abbrev Lru (K V : Type*) := Recency K V

def Lru.set (limit : ℕ) (weight : V → ℕ) (key : K) (value : V) (kept : Lru K V) : Lru K V :=
  have kept := forget weight key kept
  if limit < weight value then kept
  else
    have kept := add weight key value kept
    evict weight (fun kept => kept.total ≤ limit) (kept.entries.map Prod.fst) kept

def Lru.step (limit : ℕ) (weight : V → ℕ) (kept : Lru K V) : Act K V → Option (Lru K V)
  | .get key => some (touch key kept)
  | .give key value _ => some (kept.set limit weight key value)
  | .expire _ => none

/-! ### `keptBriefly` -/

structure Entry (V : Type*) where
  value : V
  bytes : ℕ
  timer : ℕ

structure Kept (K V : Type*) where
  held : Recency K (Entry V)
  /-- The timers that have not ended, each with the key it will forget. -/
  timers : List (ℕ × K)
  armed : ℕ

def Kept.start : Kept K V := ⟨⟨[], 0⟩, [], 0⟩

def Kept.forget (key : K) (s : Kept K V) : Kept K V :=
  match s.held.lookup key with
  | none => s
  | some e => ⟨Recency.forget Entry.bytes key s.held, s.timers.filter (·.1 ≠ e.timer), s.armed⟩

/-- There is room for so many bytes more. -/
def fits (maxBytes : ℕ) (maxEntries : Option ℕ) (bytes : ℕ) (held : Recency K (Entry V)) : Bool :=
  (∀ most ∈ maxEntries, held.entries.length < most) ∧ held.total + bytes ≤ maxBytes

def Kept.evict (enough : Recency K (Entry V) → Bool) : List K → Kept K V → Kept K V
  | [], s => s
  | key :: keys, s => if enough s.held then s else evict enough keys (s.forget key)

def Kept.keep (maxBytes : ℕ) (maxEntries : Option ℕ) (key : K) (value : V) (bytes : ℕ)
    (s : Kept K V) : Kept K V :=
  if maxBytes < bytes then s
  else
    have s := s.forget key
    have s := s.evict (fits maxBytes maxEntries bytes) (s.held.entries.map Prod.fst)
    ⟨add Entry.bytes key ⟨value, bytes, s.armed⟩ s.held, s.timers ++ [(s.armed, key)], s.armed + 1⟩

def Kept.step (maxBytes : ℕ) (maxEntries : Option ℕ) (s : Kept K V) : Act K V → Option (Kept K V)
  | .get key => some { s with held := touch key s.held }
  | .give key value bytes => some (s.keep maxBytes maxEntries key value bytes)
  | .expire timer => (s.timers.find? (·.1 = timer)).map fun t =>
    Kept.forget t.2 { s with timers := s.timers.filter (·.1 ≠ timer) }

/-! ### What is watched -/

/-- A cache with the value that was given last for each key, and when the key was last used. -/
structure Watched (S K V : Type*) where
  cache : S
  given : K → Option V
  used : K → ℕ
  now : ℕ

def Watched.start {S : Type*} (cache : S) : Watched S K V := ⟨cache, fun _ => none, fun _ => 0, 0⟩

def watch {S : Type*} (step : S → Act K V → Option S) : Machine (Watched S K V) (Act K V) where
  step s a := (step s.cache a).map fun cache =>
    match a with
    | .get key => ⟨cache, s.given, update s.used key s.now, s.now + 1⟩
    | .give key value _ => ⟨cache, update s.given key (some value),
        update s.used key s.now, s.now + 1⟩
    | .expire _ => ⟨cache, s.given, s.used, s.now + 1⟩

/-- What is held is what was given last, in the order of its last use, and no more than a limit. -/
structure Right {E : Type*} (weight : E → ℕ) (value : E → V) (limit : ℕ) (held : Recency K E)
    (given : K → Option V) (used : K → ℕ) : Prop where
  sound : Sound weight held
  limit : held.total ≤ limit
  fresh : ∀ key e, held.lookup key = some e → given key = some (value e)
  recent : Recent used held

/-- What leaves `lru` in a step: entries from the front, no more than have to. -/
def Lru.Leaves (limit : ℕ) (weight : V → ℕ) (kept kept' : Lru K V) : Act K V → Prop
  | .get _ => kept'.entries.Perm kept.entries
  | .give key value _ =>
    if limit < weight value then kept'.entries = others key kept.entries
    else ∃ n, kept'.entries = (others key kept.entries ++ [(key, value)]).drop n ∧
      ∀ m < n, limit < weightOf weight ((others key kept.entries ++ [(key, value)]).drop m)
  | .expire _ => False

/-- What leaves `keptBriefly` in a step: entries from the front, no more than have to, and with a
timer its own entry. -/
def Kept.Leaves (maxBytes : ℕ) (maxEntries : Option ℕ) (s s' : Kept K V) : Act K V → Prop
  | .get _ => s'.held.entries.Perm s.held.entries
  | .give key value bytes =>
    if maxBytes < bytes then s'.held.entries = s.held.entries
    else ∃ n, s'.held.entries = (others key s.held.entries).drop n ++
        [(key, ⟨value, bytes, s.armed⟩)] ∧
      ∀ m < n, fits maxBytes maxEntries bytes ⟨(others key s.held.entries).drop m,
        weightOf Entry.bytes ((others key s.held.entries).drop m)⟩ = false
  | .expire timer => s'.held.entries = s.held.entries.filter (·.2.timer ≠ timer)

/-! ### Steps -/

section Right

variable {E : Type*} {weight : E → ℕ} {value : E → V} {limit now : ℕ} {held held' : Recency K E}
  {given : K → Option V} {used : K → ℕ} {key : K} {e : E}

/-- What is held was used before now. -/
def Before (held : Recency K E) (used : K → ℕ) (now : ℕ) : Prop :=
  ∀ x ∈ held.entries, used x.1 < now

section

variable (h : Right weight value limit held given used)
include h

theorem Right.use (hnow : Before held used now)
    (key : K) : Right weight value limit (touch key held) given (update used key now) ∧
      Before (touch key held) (update used key now) (now + 1) ∧
      (touch key held).entries.Perm held.entries := by
  have hperm : (touch key held).entries.Perm held.entries := by
    rw [touch]
    split
    · exact List.Perm.refl _
    · exact perm_others h.sound (by assumption)
  have hsound := h.sound.touch key
  refine ⟨⟨hsound, ?_, fun k e hk => ?_, ?_⟩, fun x hx => ?_, hperm⟩
  · rw [hsound.total, weightOf, (hperm.map _).sum_eq]
    exact h.sound.total.ge.trans h.limit
  · exact h.fresh k e ((lookup_eq_some h.sound).2 (hperm.mem_iff.1 ((lookup_eq_some hsound).1 hk)))
  · rw [Recent, touch]
    split
    · rename_i hnone
      have hother : ∀ x ∈ held.entries, x.1 ≠ key := fun x hx => by
        rw [← others_of_lookup_eq_none h.sound hnone] at hx
        exact (mem_others.1 hx).2
      refine h.recent.imp_of_mem fun {a b} ha hb hab => ?_
      rwa [update_of_ne (hother a ha), update_of_ne (hother b hb)]
    · exact Recent.use (h.recent.filter _) hnow
  · have hlt := hnow x (hperm.mem_iff.1 hx)
    by_cases hkey : x.1 = key
    · rw [hkey, update_self]
      exact lt_succ_self now
    · rw [update_of_ne hkey]
      exact hlt.trans (lt_succ_self now)

/-- What is held once a value was given is it and what was held of other keys, at most. -/
theorem Right.give (hnow : Before held used now)
    (hsound : Sound weight held') (hlimit : held'.total ≤ limit)
    (hsub : held'.entries.Sublist (others key held.entries ++ [(key, e)])) :
    Right weight value limit held' (update given key (some (value e))) (update used key now) ∧
      Before held' (update used key now) (now + 1) := by
  refine ⟨⟨hsound, hlimit, fun k e' hk => ?_, (Recent.use (h.recent.filter _) hnow).sublist hsub⟩,
    fun x hx => ?_⟩
  · rcases mem_append.1 (hsub.subset ((lookup_eq_some hsound).1 hk)) with hold | hnew
    · obtain ⟨hmem, hne⟩ := mem_others.1 hold
      rw [update_of_ne hne]
      exact h.fresh k e' ((lookup_eq_some h.sound).2 hmem)
    · cases mem_singleton.1 hnew
      rw [update_self]
  · rcases mem_append.1 (hsub.subset hx) with hold | hnew
    · obtain ⟨hmem, hne⟩ := mem_others.1 hold
      rw [update_of_ne hne]
      exact (hnow x hmem).trans (lt_succ_self now)
    · rw [mem_singleton.1 hnew, update_self]
      exact lt_succ_self now

end

end Right

variable {limit maxBytes now timer : ℕ} {maxEntries : Option ℕ} {weight : V → ℕ} {key : K}
  {value : V} {bytes : ℕ}

theorem lru_set_spec (limit : ℕ) {kept : Lru K V} (h : Sound weight kept) (key : K) (value : V)
    (bytes : ℕ) :
    Lru.Leaves limit weight kept (kept.set limit weight key value) (.give key value bytes) ∧
      Sound weight (kept.set limit weight key value) ∧
      (kept.total ≤ limit → (kept.set limit weight key value).total ≤ limit) ∧
      (kept.set limit weight key value).entries.Sublist
        (others key kept.entries ++ [(key, value)]) := by
  have hforget := forget_eq h key
  have hgone := h.forget key
  rw [Lru.Leaves, Lru.set]
  dsimp only
  rw [hforget] at hgone ⊢
  split
  · refine ⟨rfl, hgone, fun hlimit => ?_, sublist_append_left _ _⟩
    have hle : weightOf weight (others key kept.entries) ≤ weightOf weight kept.entries :=
      (filter_sublist.map _).sum_le_sum fun _ _ => zero_le _
    exact hle.trans (h.total ▸ hlimit)
  · rename_i hsmall
    have hadd : Sound weight (add weight key value ⟨others key kept.entries,
        weightOf weight (others key kept.entries)⟩) :=
      hgone.add fun x hx => (mem_others.1 hx).2
    obtain ⟨n, heq, hmin, hend⟩ := evict_spec (fun kept => kept.total ≤ limit) hadd
    rw [heq]
    refine ⟨⟨n, rfl, fun m hm => ?_⟩, ⟨?_, rfl⟩, fun _ => ?_, drop_sublist _ _⟩
    · exact not_le.1 (of_decide_eq_false (hmin m hm))
    · exact hadd.nodup.sublist ((drop_sublist _ _).map _)
    · rcases hend with hfits | hnil
      · exact of_decide_eq_true hfits
      · rw [hnil]
        exact zero_le _

/-! ### Timers -/

/-- Each entry has its own timer, and no other timer is left. -/
structure Timed (s : Kept K V) : Prop where
  armed : ∀ x ∈ s.held.entries, x.2.timer < s.armed
  distinct : (s.held.entries.map fun x => x.2.timer).Nodup
  pending : ∀ t k, (t, k) ∈ s.timers ↔ ∃ e, (k, e) ∈ s.held.entries ∧ e.timer = t

variable {s : Kept K V}

theorem forget_held (s : Kept K V) (key : K) :
    (s.forget key).held = Recency.forget Entry.bytes key s.held := by
  rw [Kept.forget, Recency.forget]
  cases hlookup : s.held.lookup key <;> rfl

theorem Timed.forget (hsound : Sound Entry.bytes s.held) (h : Timed s) (key : K) :
    Timed (s.forget key) := by
  rw [Kept.forget]
  cases hlookup : s.held.lookup key with
  | none => exact h
  | some e =>
    have hmem := (lookup_eq_some hsound).1 hlookup
    dsimp only
    rw [forget_eq hsound]
    refine ⟨fun x hx => h.armed x (mem_others.1 hx).1,
      h.distinct.sublist (filter_sublist.map _), fun t k => ?_⟩
    rw [mem_filter, decide_eq_true_eq, h.pending]
    constructor
    · rintro ⟨⟨e', he', rfl⟩, hne⟩
      refine ⟨e', mem_others.2 ⟨he', fun hkey => hne ?_⟩, rfl⟩
      cases inj_on_of_nodup_map hsound.nodup he' hmem hkey
      rfl
    · rintro ⟨e', he', rfl⟩
      obtain ⟨he', hne⟩ := mem_others.1 he'
      refine ⟨⟨e', he', rfl⟩, fun htimer => hne ?_⟩
      exact congrArg fst (inj_on_of_nodup_map h.distinct he' hmem htimer)

variable (enough : Recency K (Entry V) → Bool)

theorem evict_held (keys : List K) (s : Kept K V) :
    (s.evict enough keys).held = Recency.evict Entry.bytes enough keys s.held ∧
      (s.evict enough keys).armed = s.armed := by
  induction keys generalizing s with
  | nil => exact ⟨rfl, rfl⟩
  | cons k keys ih =>
    rw [Kept.evict, Recency.evict]
    split
    · exact ⟨rfl, rfl⟩
    · rw [← forget_held]
      have harmed : (s.forget k).armed = s.armed := by
        rw [Kept.forget]
        split <;> rfl
      rw [← harmed]
      exact ih _

theorem Timed.evict (keys : List K)
    (hsound : Sound Entry.bytes s.held) (h : Timed s) : Timed (s.evict enough keys) := by
  induction keys generalizing s with
  | nil => exact h
  | cons k keys ih =>
    rw [Kept.evict]
    split
    · exact h
    · refine ih ?_ (h.forget hsound k)
      rw [forget_held]
      exact hsound.forget k

/-- A value that is kept comes last, once there is room for it. -/
theorem keep_spec (hsound : Sound Entry.bytes s.held) (htimed : Timed s)
    (hbytes : ¬maxBytes < bytes) :
    Kept.Leaves maxBytes maxEntries s (s.keep maxBytes maxEntries key value bytes)
        (.give key value bytes) ∧
      Sound Entry.bytes (s.keep maxBytes maxEntries key value bytes).held ∧
      (s.keep maxBytes maxEntries key value bytes).held.total ≤ maxBytes ∧
      Timed (s.keep maxBytes maxEntries key value bytes) ∧
      (s.keep maxBytes maxEntries key value bytes).held.entries.Sublist
        (others key s.held.entries ++ [(key, ⟨value, bytes, s.armed⟩)]) := by
  have hgone : Sound Entry.bytes (s.forget key).held := by
    rw [forget_held]
    exact hsound.forget key
  have hheld : (s.forget key).held.entries = others key s.held.entries := by
    rw [forget_held, forget_eq hsound]
  obtain ⟨n, heq, hmin, hend⟩ := evict_spec (fits maxBytes maxEntries bytes) hgone
  obtain ⟨hevict, harmed⟩ := evict_held (fits maxBytes maxEntries bytes)
    ((s.forget key).held.entries.map fst) (s.forget key)
  have hsame : (s.forget key).armed = s.armed := by
    rw [Kept.forget]
    split <;> rfl
  have hroom := (htimed.forget hsound key).evict (fits maxBytes maxEntries bytes)
    ((s.forget key).held.entries.map fst) hgone
  rw [hheld] at hmin hend
  rw [Kept.Leaves, if_neg hbytes, Kept.keep, if_neg hbytes]
  dsimp only
  generalize (s.forget key).evict (fits maxBytes maxEntries bytes)
    ((s.forget key).held.entries.map fst) = room at hevict harmed hroom
  rw [heq, hheld] at hevict
  rw [hsame] at harmed
  have hother : ∀ x ∈ (others key s.held.entries).drop n, x.1 ≠ key :=
    fun x hx => (mem_others.1 (mem_of_mem_drop hx)).2
  have hkept : Sound Entry.bytes room.held := by
    rw [hevict]
    exact ⟨(nodup_others hsound).sublist ((drop_sublist _ _).map _), rfl⟩
  obtain ⟨harm, hdistinct, hpending⟩ := hroom
  refine ⟨⟨n, by rw [hevict, add, harmed], hmin⟩, hkept.add (by rw [hevict]; exact hother), ?_,
    ⟨?_, ?_, ?_⟩, ?_⟩
  · change room.held.total + bytes ≤ maxBytes
    rw [hevict]
    rcases hend with hfits | hnil
    · exact (of_decide_eq_true hfits).2
    · rw [hnil]
      exact (zero_add bytes).le.trans (not_lt.1 hbytes)
  · intro x hx
    rcases mem_append.1 hx with hx | hx
    · exact (harm x hx).trans (lt_succ_self _)
    · rw [mem_singleton.1 hx]
      exact lt_succ_self _
  · rw [add, map_append]
    refine hdistinct.append (nodup_singleton _) fun t ht ht' => ?_
    obtain ⟨x, hx, rfl⟩ := mem_map.1 ht
    exact absurd (mem_singleton.1 ht') (harm x hx).ne
  · intro t k
    rw [add, mem_append, hpending, mem_singleton]
    constructor
    · rintro (⟨e, he, rfl⟩ | hnew)
      · exact ⟨e, mem_append_left _ he, rfl⟩
      · cases hnew
        exact ⟨_, mem_append_right _ (mem_singleton_self _), rfl⟩
    · rintro ⟨e, he, rfl⟩
      rcases mem_append.1 he with he | he
      · exact .inl ⟨e, he, rfl⟩
      · cases mem_singleton.1 he
        exact .inr rfl
  · rw [add, hevict, harmed]
    exact (drop_sublist _ _).append (List.Sublist.refl _)

/-- A timer that ends forgets its own entry. -/
theorem expire_spec {s' : Kept K V} (hsound : Sound Entry.bytes s.held) (htimed : Timed s)
    (hstep : Kept.step maxBytes maxEntries s (.expire timer) = some s') :
    Timed s' ∧ ∃ key, s'.held = Recency.forget Entry.bytes key s.held ∧
      s'.held.entries = s.held.entries.filter (·.2.timer ≠ timer) := by
  obtain ⟨⟨t, key⟩, hfind, rfl⟩ := Option.map_eq_some_iff.1 hstep
  have ht : t = timer := by simpa only [decide_eq_true_eq] using find?_some hfind
  subst ht
  obtain ⟨e, he, rfl⟩ := (htimed.pending t key).1 (mem_of_find?_eq_some hfind)
  have hlookup := (lookup_eq_some hsound).2 he
  have hsame : Kept.forget key { s with timers := s.timers.filter (·.1 ≠ e.timer) } =
      s.forget key := by
    rw [Kept.forget, Kept.forget, hlookup]
    dsimp only
    rw [filter_filter]
    simp only [Bool.and_self]
  dsimp only
  rw [hsame]
  refine ⟨htimed.forget hsound key, key, forget_held s key, ?_⟩
  rw [forget_held, forget_eq hsound]
  refine List.filter_congr fun x hx => decide_eq_decide.2 ?_
  constructor
  · intro hkey htimer
    exact hkey (congrArg fst (inj_on_of_nodup_map htimed.distinct hx he htimer))
  · intro htimer hkey
    cases inj_on_of_nodup_map hsound.nodup hx he hkey
    exact htimer rfl

/-! ### Runs -/

/-- Nothing too large is given for a key that is held. -/
def NoneTooLarge (maxBytes : ℕ) (s : Watched (Kept K V) K V) : Act K V → Prop
  | .give key _ bytes => maxBytes < bytes → s.cache.held.lookup key = none
  | _ => True

theorem lru_step {w w' : Watched (Lru K V) K V} {a : Act K V}
    (h : Right weight id limit w.cache w.given w.used) (hnow : Before w.cache w.used w.now)
    (hstep : (watch (Lru.step limit weight)).step w a = some w') :
    Right weight id limit w'.cache w'.given w'.used ∧ Before w'.cache w'.used w'.now ∧
      Lru.Leaves limit weight w.cache w'.cache a := by
  obtain ⟨cache, hcache, rfl⟩ := Option.map_eq_some_iff.1 hstep
  cases a with
  | get key =>
    cases hcache
    exact h.use hnow key
  | give key value bytes =>
    cases hcache
    obtain ⟨hleaves, hsound, hlimit, hsub⟩ := lru_set_spec limit h.sound key value bytes
    obtain ⟨hright, hbefore⟩ := h.give hnow hsound (hlimit h.limit) hsub
    exact ⟨hright, hbefore, hleaves⟩
  | expire timer => cases hcache

theorem kept_step {w w' : Watched (Kept K V) K V} {a : Act K V}
    (h : Right Entry.bytes Entry.value maxBytes w.cache.held w.given w.used)
    (hnow : Before w.cache.held w.used w.now) (htimed : Timed w.cache)
    (hmeets : NoneTooLarge maxBytes w a)
    (hstep : (watch (Kept.step maxBytes maxEntries)).step w a = some w') :
    Right Entry.bytes Entry.value maxBytes w'.cache.held w'.given w'.used ∧
      Before w'.cache.held w'.used w'.now ∧ Timed w'.cache ∧
      Kept.Leaves maxBytes maxEntries w.cache w'.cache a := by
  obtain ⟨cache, hcache, rfl⟩ := Option.map_eq_some_iff.1 hstep
  cases a with
  | get key =>
    cases hcache
    obtain ⟨hright, hbefore, hperm⟩ := h.use hnow key
    refine ⟨hright, hbefore, ⟨fun x hx => htimed.armed x (hperm.mem_iff.1 hx),
      (hperm.map _).nodup_iff.2 htimed.distinct, fun t k => ?_⟩, hperm⟩
    rw [htimed.pending t k]
    exact exists_congr fun e => and_congr_left fun _ => (hperm.mem_iff).symm
  | give key value bytes =>
    cases hcache
    by_cases hbytes : maxBytes < bytes
    · -- too large: nothing changes, and the key had nothing before
      have hsame : w.cache.keep maxBytes maxEntries key value bytes = w.cache := if_pos hbytes
      dsimp only
      rw [hsame]
      have hothers := others_of_lookup_eq_none h.sound (hmeets hbytes)
      have hsub : w.cache.held.entries.Sublist
          (others key w.cache.held.entries ++ [(key, ⟨value, bytes, 0⟩)]) := by
        rw [hothers]
        exact sublist_append_left _ _
      obtain ⟨hright, hbefore⟩ := h.give hnow h.sound h.limit hsub
      exact ⟨hright, hbefore, htimed, by rw [Kept.Leaves, if_pos hbytes]⟩
    · obtain ⟨hleaves, hsound, hlimit, htimed, hsub⟩ := keep_spec h.sound htimed hbytes
      obtain ⟨hright, hbefore⟩ := h.give hnow hsound hlimit hsub
      exact ⟨hright, hbefore, htimed, hleaves⟩
  | expire timer =>
    obtain ⟨htimed, key, hheld, hleaves⟩ := expire_spec h.sound htimed hcache
    have hentries : cache.held.entries = others key w.cache.held.entries := by
      rw [hheld, forget_eq h.sound]
    have hsound : Sound Entry.bytes cache.held := by
      rw [hheld]
      exact h.sound.forget key
    refine ⟨⟨hsound, ?_, fun k e hk => ?_, ?_⟩, fun x hx => ?_, htimed, hleaves⟩
    · have hle : weightOf Entry.bytes cache.held.entries ≤
          weightOf Entry.bytes w.cache.held.entries := by
        rw [hentries]
        exact (filter_sublist.map _).sum_le_sum fun _ _ => zero_le _
      rw [hsound.total]
      exact hle.trans (h.sound.total.ge.trans h.limit)
    · have hmem := (lookup_eq_some hsound).1 hk
      rw [hentries] at hmem
      exact h.fresh k e ((lookup_eq_some h.sound).2 (mem_others.1 hmem).1)
    · rw [Recent, hentries]
      exact h.recent.filter _
    · rw [hentries] at hx
      exact (hnow x (mem_others.1 hx).1).trans (lt_succ_self _)

theorem right_start {E : Type*} {weight : E → ℕ} {value : E → V} :
    Right weight value limit (⟨[], 0⟩ : Recency K E) (fun _ => none) (fun _ => 0) ∧
      Before (⟨[], 0⟩ : Recency K E) (fun _ => 0) 0 :=
  ⟨⟨⟨nodup_nil, rfl⟩, zero_le _, fun _ _ h => (by cases h), List.Pairwise.nil⟩,
    fun _ h => by cases h⟩

omit [DecidableEq K] in
theorem timed_start : Timed (Kept.start : Kept K V) := by
  refine ⟨fun _ h => (by cases h), nodup_nil, fun t k => ?_⟩
  constructor
  · intro h
    cases h
  · rintro ⟨_, h, _⟩
    cases h

/-- **Both caches** are right in every state and every step of a run; `keptBriefly` in a run where
nothing too large is given for a key that is held. Its timers are those of its entries. -/
theorem caches_right (limit : ℕ) (weight : V → ℕ) (maxBytes : ℕ) (maxEntries : Option ℕ) :
    (∀ w, (watch (Lru.step limit weight)).Reachable (.start (⟨[], 0⟩ : Lru K V)) w →
      Right weight id limit w.cache w.given w.used ∧
      ∀ a w', (watch (Lru.step limit weight)).step w a = some w' →
        Lru.Leaves limit weight w.cache w'.cache a) ∧
    ∀ w, (watch (Kept.step maxBytes maxEntries)).ReachableUnder (NoneTooLarge maxBytes)
        (.start (Kept.start : Kept K V)) w →
      Right Entry.bytes Entry.value maxBytes w.cache.held w.given w.used ∧
      (∀ t k, (t, k) ∈ w.cache.timers ↔ ∃ e, (k, e) ∈ w.cache.held.entries ∧ e.timer = t) ∧
      ∀ a w', NoneTooLarge maxBytes w a →
        (watch (Kept.step maxBytes maxEntries)).step w a = some w' →
        Kept.Leaves maxBytes maxEntries w.cache w'.cache a := by
  constructor
  · intro w hw
    obtain ⟨hright, hbefore⟩ := hw.invariant (I := fun w => Right weight id limit w.cache w.given
      w.used ∧ Before w.cache w.used w.now) right_start
      fun w a w' hw hstep => ⟨(lru_step hw.1 hw.2 hstep).1, (lru_step hw.1 hw.2 hstep).2.1⟩
    exact ⟨hright, fun a w' hstep => (lru_step hright hbefore hstep).2.2⟩
  · intro w hw
    obtain ⟨⟨hright, hbefore⟩, htimed⟩ := hw.invariant (I := fun w => (Right Entry.bytes
      Entry.value maxBytes w.cache.held w.given w.used ∧ Before w.cache.held w.used w.now) ∧
      Timed w.cache) ⟨right_start, timed_start⟩ fun w a w' hw hmeets hstep => by
        obtain ⟨hright, hbefore, htimed, -⟩ := kept_step hw.1.1 hw.1.2 hw.2 hmeets hstep
        exact ⟨⟨hright, hbefore⟩, htimed⟩
    exact ⟨hright, htimed.pending, fun a w' hmeets hstep =>
      (kept_step hright hbefore htimed hmeets hstep).2.2.2⟩

/-- **A value too large** leaves an older one of its key in place. -/
theorem old_value_stays : ∃ w, (watch (Kept.step 10 none)).run (.start (Kept.start : Kept ℕ ℕ))
      [.give 1 7 4, .give 1 8 11] = some w ∧
    w.given 1 = some 8 ∧ (w.cache.held.lookup 1).map Entry.value = some 7 :=
  ⟨_, rfl, rfl, rfl⟩

end Triage.SmallCaches
