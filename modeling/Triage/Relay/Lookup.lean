import Triage.Relay.Subscribe

/-!
# Lookups begin and end

A lookup takes over the pause of the one it supersedes, so what was held back stays held back; a
lookup that ends while another one is current leaves the pause to it.

## Main results

* `HubInv.register`, `HubInv.finish` : the invariant through these steps.
-/

namespace Triage.Relay

open List Function HubState Socket Finset

variable {s s' : HubState} {k p q : ℕ} {g : Registration}

/-! ### A lookup begins -/

/-- What a registration does to its socket. -/
structure Registered (k k' : Socket) (tag : String) (p : ℕ) : Prop where
  sent : k'.sent = k.sent
  held : k'.held = k.held
  isOpen : k'.isOpen = k.isOpen
  tags : k'.tags = insert tag k.tags
  lookups : k'.lookups = update k.lookups tag (some p)
  newest : k'.newest = update k.newest tag (some p)

/-- The socket after a registration; when a lookup is superseded its pause is taken over. -/
theorem Socket.registered_none (k : Socket) (tag : String) (p : ℕ) :
    Registered k ((k.pauseBroadcasts.setLookup tag p).subscribe tag) tag p where
  sent := k.sent_pauseBroadcasts
  held := k.held_pauseBroadcasts
  isOpen := k.isOpen_pauseBroadcasts
  tags := congrArg (insert tag) k.tags_pauseBroadcasts
  lookups := by
    change update k.pauseBroadcasts.lookups tag (some p) = _
    rw [k.lookups_pauseBroadcasts]
  newest := by
    change update k.pauseBroadcasts.newest tag (some p) = _
    rw [k.newest_pauseBroadcasts]

/-- Taking over a pause leaves the depth as it was. -/
theorem Socket.release_setLookup {k : Socket} {z : Pause} (hz : k.paused = some z)
    (hpos : 0 < z.depth) (tag : String) (p : ℕ) :
    (k.pauseBroadcasts.setLookup tag p).release = k.setLookup tag p := by
  have hpause : k.pauseBroadcasts = { k with paused := some { z with depth := z.depth + 1 } } := by
    rw [pauseBroadcasts, hz]
  rw [hpause, release_of_two rfl (by dsimp only; omega)]
  simp only [setLookup, Nat.add_sub_cancel]
  rw [← hz]

theorem Socket.registered_some (k : Socket) (tag : String) (p : ℕ) :
    Registered k ((k.setLookup tag p).subscribe tag) tag p :=
  ⟨rfl, rfl, rfl, rfl, rfl, rfl⟩

namespace Registered

variable {k k' : Socket} {tag : String} {p : ℕ} (h : Registered k k' tag p)
include h

theorem quietStep : QuietStep k k' [] where
  tags := by rw [h.tags]; exact subset_insert tag k.tags
  grows := ⟨[], by simp [h.sent], by simp, by simp [h.held]⟩

theorem socketStep (hopen : k.isOpen) : SocketStep k k' [] where
  wasOpen := hopen
  tags := h.quietStep.tags
  grows := ⟨[], by simp [h.sent], by simp [h.held]⟩

end Registered

/-- What holds after handler `p` has registered the lookup `l`. -/
structure RegisterStep (s s' : HubState) (p : ℕ) (l : Lookup) : Prop where
  rows : s'.rows = s.rows
  calls : s'.calls = update s.calls p
    (.resources ⟨l, s.rows, (s.sockets l.socket).sent.length⟩)
  others : ∀ k, ¬k = l.socket → s'.sockets k = s.sockets k
  socket : Registered (s.sockets l.socket) (s'.sockets l.socket) l.tag p
  released : ∀ q, s'.released q = true ↔
    s.released q = true ∨ (s.sockets l.socket).lookups l.tag = some q
  paused : (s'.sockets l.socket).paused = match (s.sockets l.socket).lookups l.tag with
    | none => (s.sockets l.socket).pauseBroadcasts.paused
    | some _ => (s.sockets l.socket).paused

theorem HubInv.registerStep (hinv : HubInv s) {l : Lookup} (hopen : (s.sockets l.socket).isOpen) :
    RegisterStep s (s.register p l) p l := by
  cases hprev : (s.sockets l.socket).lookups l.tag with
  | none =>
    have hsocket : (s.register p l).sockets l.socket =
        (((s.sockets l.socket).pauseBroadcasts.setLookup l.tag p).subscribe l.tag) := by
      simp [HubState.register, hprev, HubState.setCall]
    refine ⟨?_, ?_, fun k hk => ?_, ?_, fun q => ?_, ?_⟩
    · simp [HubState.register, hprev, HubState.setCall, HubState.onSocket]
    · simp [HubState.register, hprev, HubState.setCall, HubState.onSocket]
    · simp [HubState.register, hprev, HubState.setCall, HubState.onSocket, update_of_ne hk]
    · rw [hsocket]
      exact registered_none ..
    · simp [HubState.register, hprev, HubState.setCall, HubState.onSocket]
    · rw [hsocket, hprev]
      rfl
  | some p' =>
    obtain ⟨z, holders, hz, hdepth, -, hmem⟩ := hinv.paused_of_current hopen hprev
    have hpos : 0 < z.depth := hdepth ▸ card_pos.mpr ⟨p', hmem⟩
    obtain ⟨-, -, -, -, hrel⟩ := hinv.current _ _ _ hprev
    have hsocket : (s.register p l).sockets l.socket =
        ((s.sockets l.socket).setLookup l.tag p).subscribe l.tag := by
      simp [HubState.register, hprev, HubState.setCall, HubState.resume, HubState.onSocket, hrel,
        release_setLookup hz hpos]
    refine ⟨?_, ?_, fun k hk => ?_, ?_, fun q => ?_, ?_⟩
    · simp [HubState.register, hprev, HubState.setCall, HubState.onSocket, HubState.resume, hrel]
    · simp [HubState.register, hprev, HubState.setCall, HubState.onSocket, HubState.resume, hrel]
    · simp [HubState.register, hprev, HubState.setCall, HubState.onSocket, HubState.resume, hrel,
        update_of_ne hk]
    · rw [hsocket]
      exact registered_some ..
    · have hreleased : (s.register p l).released = update s.released p' true := by
        simp [HubState.register, hprev, HubState.setCall, HubState.onSocket, HubState.resume, hrel]
      rw [hreleased, hprev, Option.some.injEq]
      by_cases hq : q = p'
      · simp [hq]
      · simp [update_of_ne hq, Ne.symm hq]
    · rw [hsocket, hprev]
      rfl

variable {tag : String}

/-- A lookup that is current holds a pause that has not been released. -/
theorem HubInv.pausing_of_current (hinv : HubInv s)
    (hcur : (s.sockets k).lookups tag = some p) : Pausing s k p := by
  obtain ⟨g, hg, hsock, -, hrel⟩ := hinv.current k tag p hcur
  exact ⟨⟨g, hg, hsock⟩, hrel⟩

/-- A handler is current at most once. -/
theorem HubInv.current_inj (hinv : HubInv s) {k' : ℕ} {tag tag' : String}
    (h : (s.sockets k).lookups tag = some p) (h' : (s.sockets k').lookups tag' = some p) :
    k = k' ∧ tag = tag' := by
  obtain ⟨g, hg, hsock, htag, -⟩ := hinv.current k tag p h
  obtain ⟨g', hg', hsock', htag', -⟩ := hinv.current k' tag' p h'
  rw [hg] at hg'
  cases hg'
  exact ⟨hsock.symm.trans hsock', htag.symm.trans htag'⟩

namespace RegisterStep

variable {l : Lookup} (h : RegisterStep s s' p l)
include h

theorem self : s'.calls p = .resources ⟨l, s.rows, (s.sockets l.socket).sent.length⟩ := by
  rw [h.calls, update_self]

theorem of_ne (hq : ¬q = p) : s'.calls q = s.calls q := by rw [h.calls, update_of_ne hq]

theorem released_eq_false : s'.released q = false ↔
    s.released q = false ∧ (s.sockets l.socket).lookups l.tag ≠ some q := by
  rw [← Bool.not_eq_true, h.released, not_or, Bool.not_eq_true]

theorem quietStep (k : ℕ) : QuietStep (s.sockets k) (s'.sockets k) [] := by
  by_cases hk : k = l.socket
  · rw [hk]
    exact h.socket.quietStep
  · rw [h.others k hk]
    exact .refl _

theorem socketStep (hk : (s'.sockets k).isOpen) : SocketStep (s.sockets k) (s'.sockets k) [] := by
  by_cases hkl : k = l.socket
  · rw [hkl] at hk ⊢
    exact h.socket.socketStep (h.socket.isOpen ▸ hk)
  · rw [h.others k hkl] at hk ⊢
    exact .refl hk

/-- Only the entries of this socket and workspace change. -/
theorem lookups_of_ne (hne : ¬(k = l.socket ∧ tag = l.tag)) :
    (s'.sockets k).lookups tag = (s.sockets k).lookups tag ∧
      (s'.sockets k).newest tag = (s.sockets k).newest tag := by
  by_cases hk : k = l.socket
  · have ht : ¬tag = l.tag := fun ht => hne ⟨hk, ht⟩
    rw [hk, h.socket.newest, h.socket.lookups, update_of_ne ht, update_of_ne ht]
    exact ⟨rfl, rfl⟩
  · rw [h.others k hk]
    exact ⟨rfl, rfl⟩

theorem lookups_self :
    (s'.sockets l.socket).lookups l.tag = some p ∧ (s'.sockets l.socket).newest l.tag = some p := by
  rw [h.socket.lookups, h.socket.newest, update_self, update_self]
  exact ⟨rfl, rfl⟩

variable (hp : s.calls p = .verifying l)
include hp

theorem saveStep (k : ℕ) : SaveStep s s' k [] := by
  have hkeep : ∀ c q, s.calls p ≠ c → s.calls q = c → s'.calls q = c := by
    intro c q hc hq
    by_cases hqp : q = p
    · rw [hqp] at hq
      exact absurd hq hc
    · rw [h.of_ne hqp, hq]
  exact .of_same h.rows (fun q row e => hkeep _ q (by rw [hp]; exact nofun))
    (fun q row e => hkeep _ q (by rw [hp]; exact nofun))

omit h in
theorem ne_of_registration (hg : (s.calls q).registration = some g) : ¬q = p := by
  rintro rfl
  rw [hp] at hg
  cases hg

variable (hinv : HubInv s)
include hinv

/-- The pauses afterwards: `p` has one, and the lookup it supersedes has none. -/
theorem pausing_iff (k q : ℕ) : Pausing s' k q ↔ (q = p ∧ k = l.socket) ∨
    (Pausing s k q ∧ (s.sockets l.socket).lookups l.tag ≠ some q) := by
  by_cases hq : q = p
  · subst hq
    have hold : ¬Pausing s k q := fun hpause => by
      obtain ⟨⟨g, hg, -⟩, -⟩ := hpause
      exact ne_of_registration hp hg rfl
    have hrel : s'.released q = false := by
      refine h.released_eq_false.mpr ⟨hinv.unreleased q (.inr ⟨l, hp⟩), fun hcur => ?_⟩
      obtain ⟨g, hg, -⟩ := hinv.current _ _ _ hcur
      exact ne_of_registration hp hg rfl
    constructor
    · rintro ⟨⟨g, hg, hsock⟩, -⟩
      rw [h.self] at hg
      cases hg
      exact .inl ⟨rfl, hsock.symm⟩
    · rintro (⟨-, hk⟩ | hpause)
      · exact ⟨⟨_, by rw [h.self]; rfl, hk.symm⟩, hrel⟩
      · exact absurd hpause.1 hold
  · simp only [Pausing, h.of_ne hq, h.released_eq_false, hq, false_and, false_or, and_assoc]

theorem counted (hk : (s'.sockets k).isOpen) : Counted s' k := by
  have hopen := (h.socketStep hk).wasOpen
  obtain ⟨holders, hmem, hpaused⟩ := hinv.counted k hopen
  have hnot : ∀ {k}, ¬Pausing s k p := fun hpause => by
    obtain ⟨⟨g, hg, -⟩, -⟩ := hpause
    exact ne_of_registration hp hg rfl
  by_cases hkl : k = l.socket
  swap
  · -- neither handler has a pause on this socket
    refine ⟨holders, fun q => ?_, by rw [h.others k hkl]; exact hpaused⟩
    rw [hmem, h.pausing_iff hp hinv]
    constructor
    · intro hq
      refine .inr ⟨hq, fun hcur => ?_⟩
      obtain ⟨⟨g, hg, hsock⟩, -⟩ := hq
      obtain ⟨⟨g', hg', hsock'⟩, -⟩ := hinv.pausing_of_current hcur
      rw [hg] at hg'
      cases hg'
      exact hkl (hsock.symm.trans hsock')
    · rintro (⟨-, hk'⟩ | hq)
      · exact absurd hk' hkl
      · exact hq.1
  subst hkl
  cases hprev : (s.sockets l.socket).lookups l.tag with
  | none =>
    -- the depth grows by one
    refine ⟨insert p holders, fun q => ?_, ?_⟩
    · rw [h.pausing_iff hp hinv, mem_insert, hmem, hprev]
      simp
    · rw [h.paused, hprev]
      cases hz : (s.sockets l.socket).paused with
      | none =>
        rw [hz] at hpaused
        simp [pauseBroadcasts, hz, hpaused]
      | some z =>
        rw [hz] at hpaused
        simp [pauseBroadcasts, hz, hpaused.1, card_insert_of_notMem (mt (hmem p).mp hnot)]
  | some p' =>
    -- `p` takes the place of `p'`
    obtain ⟨z, -, hz, -, -, -⟩ := hinv.paused_of_current hopen hprev
    have hmem' : p' ∈ holders := (hmem p').mpr (hinv.pausing_of_current hprev)
    have hpnot : p ∉ holders.erase p' := fun hp' => hnot ((hmem p).mp (mem_of_mem_erase hp'))
    rw [hz] at hpaused
    refine ⟨insert p (holders.erase p'), fun q => ?_, ?_⟩
    · rw [h.pausing_iff hp hinv, mem_insert, mem_erase, hmem, hprev]
      simp [eq_comm, and_comm]
    · rw [h.paused, hprev, hz]
      refine ⟨?_, insert_nonempty ..⟩
      have hpos : 0 < holders.card := card_pos.mpr ⟨p', hmem'⟩
      rw [card_insert_of_notMem hpnot, card_erase_of_mem hmem', hpaused.1]
      omega

theorem current (k : ℕ) (tag : String) (q : ℕ) (hq : (s'.sockets k).lookups tag = some q) :
    ∃ g, (s'.calls q).registration = some g ∧ g.lookup.socket = k ∧ g.lookup.tag = tag ∧
      s'.released q = false := by
  by_cases hboth : k = l.socket ∧ tag = l.tag
  · obtain ⟨rfl, rfl⟩ := hboth
    rw [h.lookups_self.1, Option.some.injEq] at hq
    subst hq
    exact ⟨_, by rw [h.self]; rfl, rfl, rfl, ((h.pausing_iff hp hinv _ _).mpr (.inl ⟨rfl, rfl⟩)).2⟩
  · rw [(h.lookups_of_ne hboth).1] at hq
    obtain ⟨g, hg, hsock, htag, hrel⟩ := hinv.current k tag q hq
    refine ⟨g, by rw [h.of_ne (ne_of_registration hp hg), hg], hsock, htag, ?_⟩
    exact h.released_eq_false.mpr ⟨hrel, fun hcur => hboth (hinv.current_inj hq hcur)⟩

theorem reading (q : ℕ) (g : Registration) (hg : (s'.calls q).registration = some g)
    (hcur : s'.isCurrent q g.lookup) : Reading s' g := by
  obtain ⟨hopen', hcur'⟩ := Bool.and_eq_true_iff.mp hcur
  rw [decide_eq_true_eq] at hcur'
  by_cases hqp : q = p
  · -- the lookup has just begun, and the table is the one it began with
    rw [hqp, h.self] at hg
    cases hg
    refine ⟨?_, ?_, ?_, [], by simp [h.rows], by simp⟩
    · rw [h.socket.tags]
      exact mem_insert_self ..
    · rw [h.socket.sent]
    · rw [h.socket.sent, drop_length]
      simp
  · rw [h.of_ne hqp] at hg
    have hne : ¬(g.lookup.socket = l.socket ∧ g.lookup.tag = l.tag) := by
      rintro ⟨hsock, htag⟩
      rw [hsock, htag, h.lookups_self.1, Option.some.injEq] at hcur'
      exact hqp hcur'.symm
    rw [(h.lookups_of_ne hne).1] at hcur'
    refine (hinv.reading q g hg ?_).step (h.saveStep hp _) (h.quietStep _)
    rw [isCurrent, hcur', (h.socketStep hopen').wasOpen]
    simp

theorem newest (k : ℕ) (tag : String) (q : ℕ) (hk : (s'.sockets k).isOpen)
    (hq : (s'.sockets k).newest tag = some q) :
    (s'.sockets k).lookups tag = some q ∨ ∃ g seen revisions,
      s'.calls q = .published g seen revisions ∧ g.lookup.socket = k ∧ g.lookup.tag = tag := by
  by_cases hboth : k = l.socket ∧ tag = l.tag
  · obtain ⟨rfl, rfl⟩ := hboth
    rw [h.lookups_self.2] at hq
    rw [h.lookups_self.1]
    exact .inl hq
  · rw [(h.lookups_of_ne hboth).2] at hq
    rw [(h.lookups_of_ne hboth).1]
    refine (hinv.newest k tag q (h.socketStep hk).wasOpen hq).imp id ?_
    rintro ⟨g, seen, revisions, hpub, hrest⟩
    refine ⟨g, seen, revisions, ?_, hrest⟩
    rw [h.of_ne (by rintro rfl; rw [hp] at hpub; cases hpub), hpub]

omit hp in
theorem subscribed (k : ℕ) (tag : String) (hk : tag ∈ (s'.sockets k).tags) :
    ((s'.sockets k).newest tag).isSome := by
  by_cases hboth : k = l.socket ∧ tag = l.tag
  · obtain ⟨rfl, rfl⟩ := hboth
    rw [h.lookups_self.2]
    rfl
  · rw [(h.lookups_of_ne hboth).2]
    refine hinv.subscribed k tag ?_
    by_cases hkl : k = l.socket
    · rw [hkl, h.socket.tags, mem_insert] at hk
      rw [hkl]
      exact hk.resolve_left fun ht => hboth ⟨hkl, ht⟩
    · rwa [h.others k hkl] at hk

end RegisterStep

/-- **A lookup begins.**  It takes over the pause of the lookup it supersedes, or adds its own. -/
theorem HubInv.register (hinv : HubInv s) {l : Lookup} (hp : s.calls p = .verifying l)
    (hopen : (s.sockets l.socket).isOpen) : HubInv (s.register p l) := by
  have h := hinv.registerStep (p := p) hopen
  refine ⟨h.rows ▸ hinv.table, h.rows ▸ hinv.linear, fun q => ?_, fun q hq => ?_,
    fun k => h.counted hp hinv, h.current hp hinv, h.reading hp hinv,
    fun q g seen revisions hq hk => ?_, h.newest hp hinv, h.subscribed hinv⟩
  · by_cases hqp : q = p
    · rw [hqp, h.self]
      exact h.rows ▸ prefix_rfl
    · rw [h.of_ne hqp]
      exact (hinv.queries q).mono (h.rows ▸ prefix_rfl)
  · by_cases hqp : q = p
    · rw [hqp, h.self] at hq
      rcases hq with hq | ⟨l', hq⟩ <;> cases hq
    · rw [h.of_ne hqp] at hq
      refine h.released_eq_false.mpr ⟨hinv.unreleased q hq, fun hcur => ?_⟩
      obtain ⟨g, hg, -⟩ := hinv.current _ _ _ hcur
      rcases hq with hq | ⟨l', hq⟩ <;> rw [hq] at hg <;> cases hg
  · have hqp : ¬q = p := by
      rintro rfl
      rw [h.self] at hq
      cases hq
    rw [h.of_ne hqp] at hq
    exact (hinv.complete q g seen revisions hq (h.socketStep hk).wasOpen).step (h.saveStep hp _)
      (h.socketStep hk)

/-! ### A lookup ends -/

/-- What holds after the `finally` of handler `p`, which had the lookup `g` under way. -/
structure FinishStep (s s' : HubState) (p : ℕ) (g : Registration) (c : HubCall) : Prop where
  rows : s'.rows = s.rows
  calls : s'.calls = update s.calls p c
  others : ∀ k, ¬k = g.lookup.socket → s'.sockets k = s.sockets k
  released : s'.released = update s.released p true
  socket : s'.sockets g.lookup.socket =
    if s.released p then (s.sockets g.lookup.socket).deleteLookup g.lookup.tag p
    else ((s.sockets g.lookup.socket).deleteLookup g.lookup.tag p).release

theorem finishStep (s : HubState) (p : ℕ) (g : Registration) (c : HubCall) :
    FinishStep s (s.finish p g.lookup c) p g c := by
  cases hrel : s.released p with
  | false =>
    refine ⟨?_, ?_, fun k hk => ?_, ?_, ?_⟩
    · simp [finish, resume, onSocket, setCall, hrel]
    · simp [finish, resume, onSocket, setCall, hrel]
    · simp [finish, resume, onSocket, setCall, hrel, update_of_ne hk]
    · simp [finish, resume, onSocket, setCall, hrel]
    · simp [finish, resume, onSocket, setCall, hrel]
  | true =>
    refine ⟨?_, ?_, fun k hk => ?_, ?_, ?_⟩
    · simp [finish, resume, onSocket, setCall, hrel]
    · simp [finish, resume, onSocket, setCall, hrel]
    · simp [finish, resume, onSocket, setCall, hrel, update_of_ne hk]
    · rw [← hrel, Function.update_eq_self]
      simp [finish, resume, onSocket, setCall, hrel]
    · simp [finish, resume, onSocket, setCall, hrel]

namespace FinishStep

variable {c : HubCall} (h : FinishStep s s' p g c)
include h

theorem self : s'.calls p = c := by rw [h.calls, update_self]

theorem of_ne (hq : ¬q = p) : s'.calls q = s.calls q := by rw [h.calls, update_of_ne hq]

/-- What `finally` leaves alone. -/
theorem same (k : ℕ) : (s'.sockets k).isOpen = (s.sockets k).isOpen ∧
    (s'.sockets k).tags = (s.sockets k).tags ∧ (s'.sockets k).newest = (s.sockets k).newest := by
  by_cases hk : k = g.lookup.socket
  · rw [hk, h.socket]
    split_ifs <;> simp
  · rw [h.others k hk]
    exact ⟨rfl, rfl, rfl⟩

theorem lookups_iff : (s'.sockets k).lookups tag = some q ↔
    (s.sockets k).lookups tag = some q ∧ ¬(k = g.lookup.socket ∧ tag = g.lookup.tag ∧ q = p) := by
  by_cases hk : k = g.lookup.socket
  · have hsame : (s'.sockets k).lookups =
        ((s.sockets k).deleteLookup g.lookup.tag p).lookups := by
      rw [hk, h.socket]
      split_ifs <;> simp
    rw [hsame, lookups_deleteLookup_eq]
    simp [hk]
  · rw [h.others k hk]
    simp [hk]

theorem socketStep (hk : (s'.sockets k).isOpen) : SocketStep (s.sockets k) (s'.sockets k) [] := by
  have hopen := (h.same k).1 ▸ hk
  have hdelete : SocketStep (s.sockets k) ((s.sockets k).deleteLookup g.lookup.tag p) [] :=
    ⟨hopen, by simp, [], by simp, by simp⟩
  by_cases hkl : k = g.lookup.socket
  · rw [hkl, h.socket]
    rw [hkl] at hopen hdelete
    split_ifs
    · exact hdelete
    · exact hdelete.trans (socketStep_release (by simpa using hopen))
  · rw [h.others k hkl]
    exact .refl hopen

variable (hg : (s.calls p).registration = some g)
include hg

theorem saveStep (k : ℕ) : SaveStep s s' k [] := by
  have hkeep : ∀ c q, c.registration = none → s.calls q = c → s'.calls q = c := by
    intro c q hc hq
    by_cases hqp : q = p
    · rw [hqp] at hq
      rw [hq, hc] at hg
      cases hg
    · rw [h.of_ne hqp, hq]
  exact .of_same h.rows (fun q row e => hkeep _ q rfl) (fun q row e => hkeep _ q rfl)

variable (hc : c.registration = none)
include hc

omit hg in
/-- The pauses afterwards: `p` has none. -/
theorem pausing_iff (k q : ℕ) : Pausing s' k q ↔ Pausing s k q ∧ ¬q = p := by
  by_cases hq : q = p
  · simp [hq, Pausing, h.self, hc]
  · simp [Pausing, h.of_ne hq, h.released, hq]

variable (hinv : HubInv s)
include hinv

theorem counted (hk : (s'.sockets k).isOpen) : Counted s' k := by
  obtain ⟨holders, hmem, hpaused⟩ := hinv.counted k (h.socketStep hk).wasOpen
  by_cases hp : p ∈ holders
  · -- `p` releases its pause on this socket
    obtain ⟨⟨g', hg', hsock⟩, hrel⟩ := (hmem p).mp hp
    rw [hg] at hg'
    cases hg'
    subst hsock
    refine ⟨holders.erase p, fun q => ?_, ?_⟩
    · rw [h.pausing_iff hc, mem_erase, hmem, and_comm]
    · rw [h.socket, hrel]
      cases hz : (s.sockets g.lookup.socket).paused with
      | none =>
        rw [hz] at hpaused
        rw [hpaused] at hp
        exact absurd hp (notMem_empty p)
      | some z =>
        rw [hz] at hpaused
        have hcard := card_erase_of_mem hp
        rw [if_neg Bool.false_ne_true, paused_release (by simpa using hz)]
        split_ifs with hdepth
        · dsimp only
          refine ⟨by rw [hcard, hpaused.1], card_pos.mp ?_⟩
          rw [hcard, ← hpaused.1]
          exact hdepth
        · dsimp only
          rw [← card_eq_zero, hcard, ← hpaused.1]
          omega
  · refine ⟨holders, fun q => ?_, ?_⟩
    · rw [h.pausing_iff hc, hmem]
      refine ⟨fun hq => ⟨hq, ?_⟩, fun hq => hq.1⟩
      rintro rfl
      exact hp ((hmem q).mpr hq)
    · have hsame : (s'.sockets k).paused = (s.sockets k).paused := by
        by_cases hkl : k = g.lookup.socket
        · rw [hkl, h.socket]
          have hrel : s.released p = true := by
            by_contra hrel
            exact hp ((hmem p).mpr ⟨⟨g, hg, hkl.symm⟩, by simpa using hrel⟩)
          simp [hrel]
        · rw [h.others k hkl]
      rw [hsame]
      exact hpaused

omit hc in
theorem current (k : ℕ) (tag : String) (q : ℕ) (hq : (s'.sockets k).lookups tag = some q) :
    ¬q = p ∧ ∃ g', (s'.calls q).registration = some g' ∧ g'.lookup.socket = k ∧
      g'.lookup.tag = tag ∧ s'.released q = false := by
  obtain ⟨hold, hne⟩ := h.lookups_iff.mp hq
  obtain ⟨g', hg', hsock, htag, hrel⟩ := hinv.current k tag q hold
  have hqp : ¬q = p := by
    rintro rfl
    rw [hg] at hg'
    cases hg'
    exact hne ⟨hsock.symm, htag.symm, rfl⟩
  refine ⟨hqp, g', by rw [h.of_ne hqp, hg'], hsock, htag, ?_⟩
  rw [h.released, update_of_ne hqp, hrel]

omit hc in
/-- Another lookup that is current has a pause of its own, so nothing is sent. -/
theorem quietStep (hk : (s'.sockets k).isOpen)
    (hq : (s'.sockets k).lookups tag = some q) : QuietStep (s.sockets k) (s'.sockets k) [] := by
  by_cases hkl : k = g.lookup.socket
  swap
  · rw [h.others k hkl]
    exact .refl _
  subst hkl
  have hopen := (h.socketStep hk).wasOpen
  have hdelete : QuietStep (s.sockets g.lookup.socket)
      ((s.sockets g.lookup.socket).deleteLookup g.lookup.tag p) [] :=
    ⟨by simp, [], by simp, by simp, by simp⟩
  rw [h.socket]
  split_ifs with hrel
  · exact hdelete
  · have hqp := (h.current hg hinv _ _ _ hq).1
    obtain ⟨holders, hmem, hpaused⟩ := hinv.counted _ hopen
    have hp : p ∈ holders := (hmem p).mpr ⟨⟨g, hg, rfl⟩, by simpa using hrel⟩
    have hq' : q ∈ holders := (hmem q).mpr (hinv.pausing_of_current (h.lookups_iff.mp hq).1)
    cases hz : (s.sockets g.lookup.socket).paused with
    | none =>
      rw [hz] at hpaused
      rw [hpaused] at hp
      exact absurd hp (notMem_empty p)
    | some z =>
      rw [hz] at hpaused
      have htwo : 2 ≤ z.depth := by
        rw [hpaused.1]
        exact one_lt_card.mpr ⟨p, hp, q, hq', Ne.symm hqp⟩
      exact hdelete.trans (quietStep_release (by simpa using hz) htwo)

end FinishStep

/-- **A lookup ends.**  The pause is released; when it was the last one, what it held back is sent,
after the snapshot. -/
theorem HubInv.finish (hinv : HubInv s) {c : HubCall} (hg : (s.calls p).registration = some g)
    (hc : c.registration = none) (hq : QueriesOk s c) (hstage : c ≠ .idle ∧ ∀ l, c ≠ .verifying l)
    (hpub : ∀ g' seen revisions, c = .published g' seen revisions →
      (s.sockets g'.lookup.socket).isOpen → Complete s p g' seen revisions)
    (hnewest : (s.sockets g.lookup.socket).isOpen →
      (s.sockets g.lookup.socket).lookups g.lookup.tag = some p →
      ∃ seen revisions, c = .published g seen revisions) :
    HubInv (s.finish p g.lookup c) := by
  have h := finishStep s p g c
  generalize s.finish p g.lookup c = s' at h
  refine ⟨h.rows ▸ hinv.table, h.rows ▸ hinv.linear, fun q => ?_, fun q hq => ?_,
    fun k => h.counted hg hc hinv, fun k tag q hq => (h.current hg hinv k tag q hq).2,
    fun q g' hg' hcur => ?_, fun q g' seen revisions hq hk => ?_, fun k tag q hk hq => ?_,
    fun k tag hk => ?_⟩
  · by_cases hqp : q = p
    · rw [hqp, h.self]
      exact hq.mono (h.rows ▸ prefix_rfl)
    · rw [h.of_ne hqp]
      exact (hinv.queries q).mono (h.rows ▸ prefix_rfl)
  · by_cases hqp : q = p
    · rw [hqp, h.self] at hq
      rcases hq with hq | ⟨l', hq⟩
      · exact absurd hq hstage.1
      · exact absurd hq (hstage.2 l')
    · rw [h.of_ne hqp] at hq
      rw [h.released, update_of_ne hqp]
      exact hinv.unreleased q hq
  · obtain ⟨hopen', hcur'⟩ := Bool.and_eq_true_iff.mp hcur
    rw [decide_eq_true_eq] at hcur'
    have hqp := (h.current hg hinv _ _ _ hcur').1
    rw [h.of_ne hqp] at hg'
    refine (hinv.reading q g' hg' ?_).step (h.saveStep hg _) (h.quietStep hg hinv hopen' hcur')
    rw [isCurrent, (h.lookups_iff.mp hcur').1, (h.socketStep hopen').wasOpen]
    simp
  · have hopen := (h.socketStep hk).wasOpen
    have hold : Complete s q g' seen revisions := by
      by_cases hqp : q = p
      · rw [hqp, h.self] at hq
        exact hqp ▸ hpub _ _ _ hq hopen
      · rw [h.of_ne hqp] at hq
        exact hinv.complete q g' seen revisions hq hopen
    exact hold.step (h.saveStep hg _) (h.socketStep hk)
  · have hopen := (h.socketStep hk).wasOpen
    rw [(h.same k).2.2] at hq
    by_cases hqp : k = g.lookup.socket ∧ tag = g.lookup.tag ∧ q = p
    · obtain ⟨rfl, rfl, rfl⟩ := hqp
      rcases hinv.newest _ _ _ hopen hq with hcur | ⟨g', seen, revisions, hp, -⟩
      · obtain ⟨seen, revisions, rfl⟩ := hnewest hopen hcur
        exact .inr ⟨g, seen, revisions, h.self, rfl, rfl⟩
      · rw [hp] at hg
        cases hg
    · rcases hinv.newest _ _ _ hopen hq with hcur | ⟨g', seen, revisions, hp, hrest⟩
      · exact .inl (h.lookups_iff.mpr ⟨hcur, hqp⟩)
      · refine .inr ⟨g', seen, revisions, ?_, hrest⟩
        rw [h.of_ne (by rintro rfl; rw [hp] at hg; cases hg), hp]
  · rw [(h.same k).2.1] at hk
    rw [(h.same k).2.2]
    exact hinv.subscribed k tag hk

end Triage.Relay
