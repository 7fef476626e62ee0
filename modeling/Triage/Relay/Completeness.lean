import Triage.Relay.Lookup

/-!
# Subscription completeness

What a socket is sent after it subscribes: the snapshot of the chain, and then every revision the
snapshot does not have.

## Main results

* `hubInv_step` : every step preserves the invariant.
* `subscription_complete` : **the snapshot and the broadcasts delivered after it leave no revision
  out, and no broadcast overtakes the snapshot**.
* `keyframe_omits_root` : what comes before a keyframe is not sent to a socket that names no row.
-/

namespace Triage.Relay

open List Option HubState Socket

variable {s s' : HubState} {k p q : ℕ} {g : Registration}

/-! ### Publishing -/

variable {l : Lookup} {revisions : List RevisionRow}

theorem HubState.isCurrent_iff : s.isCurrent p l ↔
    (s.sockets l.socket).isOpen = true ∧ (s.sockets l.socket).lookups l.tag = some p := by
  rw [isCurrent, Bool.and_eq_true, decide_eq_true_eq]

/-- A lookup that ends without publishing is not current. -/
theorem HubInv.finish_returned (hinv : HubInv s) (hg : (s.calls p).registration = some g)
    (hcur : ¬s.isCurrent p g.lookup) : HubInv (s.finish p g.lookup (.returned g.lookup)) := by
  refine hinv.finish hg rfl trivial ⟨nofun, fun _ => nofun⟩ (fun _ _ _ => nofun) ?_
  exact fun hopen hl => absurd (isCurrent_iff.mpr ⟨hopen, hl⟩) hcur

theorem HubInv.sendChain (hinv : HubInv s) (l : Lookup) (revisions : List RevisionRow) :
    HubInv (s.sendChain p l revisions) := by
  refine hinv.onSocket (by simp) (by simp) (by simp) fun h => ⟨by simp, ?_, ?_⟩
  · exact (socketStep_send (by simpa using h) _).trans
      (socketStep_send (by simpa using h) _)
  · exact (quietStep_send rfl).trans (quietStep_send rfl)

variable {seen : List WorkspaceRevision}

/-- **A lookup publishes.**  What has been written since it read the chain is held back. -/
theorem HubInv.complete_sendChain (hinv : HubInv s)
    (hp : s.calls p = .reply g seen revisions) (hcur : s.isCurrent p g.lookup) :
    Complete (s.sendChain p g.lookup revisions) p g seen revisions := by
  obtain ⟨hbegan, hseen, hcovers⟩ : QueriesOk s (.reply g seen revisions) := hp ▸ hinv.queries p
  have hread := hinv.reading p g (by rw [hp]; rfl) hcur
  have hopen := (isCurrent_iff.mp hcur).1
  have hsocket : (s.sendChain p g.lookup revisions).sockets g.lookup.socket =
      ((s.sockets g.lookup.socket).send (.subscribed p g.lookup.tag)).send
        (.snapshot p g.lookup.tag revisions) := s.sockets_onSocket_self ..
  have hsent : ((s.sendChain p g.lookup revisions).sockets g.lookup.socket).sent =
      (s.sockets g.lookup.socket).sent ++
        .subscribed p g.lookup.tag :: .snapshot p g.lookup.tag revisions :: [] := by
    rw [hsocket]
    simp [Socket.send, hopen]
  have hheld : ((s.sendChain p g.lookup revisions).sockets g.lookup.socket).held =
      (s.sockets g.lookup.socket).held := by
    rw [hsocket]
    simp [held]
  refine ⟨?_, hbegan, hcovers, _, [], hsent, hread.length, hread.quiet, ?_⟩
  · rw [hsocket]
    simpa using hread.tags
  -- of what was written since the lookup began, only what `seen` lacks has to be carried
  obtain ⟨later, hrows, hlater⟩ := hread.carried
  obtain ⟨x, hx⟩ := hbegan
  obtain ⟨y, hy⟩ := hseen
  have hsplit : later = x ++ y := by
    rw [← hx, append_assoc, hrows] at hy
    exact (append_cancel_left hy).symm
  refine ⟨y, hy.symm, fun row hrow ht => ?_⟩
  rw [nil_append, hheld]
  exact hlater row (hsplit ▸ mem_append_right x hrow) ht

theorem HubInv.answer (hinv : HubInv s)
    (hp : s.calls p = .reply g seen revisions) (hcur : s.isCurrent p g.lookup) :
    HubInv ((s.sendChain p g.lookup revisions).finish p g.lookup
      (.published g seen revisions)) := by
  have hg : ((s.sendChain p g.lookup revisions).calls p).registration = some g := by
    change (s.calls p).registration = some g
    rw [hp]
    rfl
  refine (hinv.sendChain g.lookup revisions).finish hg rfl trivial ⟨nofun, fun _ => nofun⟩
    (fun g' seen' revisions' h _ => ?_) fun _ _ => ⟨seen, revisions, rfl⟩
  cases h
  exact hinv.complete_sendChain hp hcur

/-- **Every step preserves the invariant.** -/
theorem hubInv_step {a : HubLabel} (hinv : HubInv s) (h : hubMachine.step s a = some s') :
    HubInv s' := by
  cases a with
  | subscribe p l =>
    simp only [hubMachine] at h
    split_ifs at h with hp
    cases h
    exact hinv.setCall (by rw [hp]; rfl) (by rw [hp]; rfl) rfl trivial
      fun _ => hinv.unreleased p (.inl hp)
  | verified p ok =>
    simp only [hubMachine] at h
    split at h
    · rename_i l hp
      split_ifs at h with hok
      · cases h
        exact hinv.register hp hok.2
      · cases h
        exact hinv.setCall (by rw [hp]; rfl) (by rw [hp]; rfl) rfl trivial
          (by rintro (h | ⟨l', h⟩) <;> cases h)
    · cases h
  | resourcesRead p =>
    simp only [hubMachine] at h
    split at h
    · rename_i g hp
      have hbegan : g.began <+: s.rows := by
        have hq := hinv.queries p
        rwa [hp] at hq
      split_ifs at h with hcur
      · split at h
        · rename_i fromId hfrom
          cases h
          exact hinv.setCall (by rw [hp]; rfl) (by rw [hp]; rfl) rfl ⟨hbegan, hfrom⟩
            (by rintro (h | ⟨l', h⟩) <;> cases h)
        · rename_i hfrom
          cases h
          exact hinv.setCall (by rw [hp]; rfl) (by rw [hp]; rfl) rfl
            ⟨hbegan, fun r _ => by rw [hfrom]; exact nofun⟩ (by rintro (h | ⟨l', h⟩) <;> cases h)
      · cases h
        exact hinv.finish_returned (by rw [hp]; rfl) hcur
    · cases h
  | query p =>
    simp only [hubMachine, map_eq_some_iff] at h
    obtain ⟨c, hc, rfl⟩ := h
    obtain ⟨hq, hreg, hold, hnew, hnone⟩ := hinv.queriesOk_afterQuery (hinv.queries p) hc
    refine hinv.setCall hreg hold hnew hq ?_
    rintro (rfl | ⟨l, rfl⟩) <;> exact absurd rfl hnone
  | answer p =>
    simp only [hubMachine] at h
    split at h
    · rename_i g seen revisions hp
      split_ifs at h with hcur
      · cases h
        exact hinv.answer hp hcur
      · cases h
        exact hinv.finish_returned (by rw [hp]; rfl) hcur
    · cases h
  | lookupFails p =>
    simp only [hubMachine, map_eq_some_iff] at h
    obtain ⟨g, hg, rfl⟩ := h
    split_ifs with hcur
    · refine (hinv.onClosed rfl rfl subset_rfl rfl).finish_returned hg fun hc => ?_
      have hopen := (isCurrent_iff.mp hc).1
      rw [sockets_onSocket_self] at hopen
      cases hopen
    · exact hinv.finish_returned hg fun hc => hcur (isCurrent_iff.mp hc).2
  | save q input except =>
    simp only [hubMachine] at h
    split_ifs at h with hq
    cases h
    exact hinv.setCall (by rw [hq]; rfl) (by rw [hq]; rfl) rfl trivial
      (by rintro (h | ⟨l', h⟩) <;> cases h)
  | commit q =>
    simp only [hubMachine] at h
    split at h
    · rename_i input except hq
      have hrefused : HubInv (s.setCall q (.refused except)) :=
        hinv.setCall (by rw [hq]; rfl) (by rw [hq]; rfl) rfl trivial
          (by rintro (h | ⟨l', h⟩) <;> cases h)
      split at h
      · cases h
        exact hrefused
      · rename_i row hrow
        split_ifs at h with huniq
        · cases h
          exact hrefused
        · cases h
          exact hinv.commit hq hrow (by simpa using huniq)
    · cases h
  | finishSave q full =>
    simp only [hubMachine] at h
    split at h
    · rename_i row except hq
      cases h
      exact hinv.finishSave hq
    · rename_i except hq
      cases h
      cases except with
      | none =>
        exact hinv.setCall (by rw [hq]; rfl) (by rw [hq]; rfl) rfl trivial
          (by rintro (h | ⟨l', h⟩) <;> cases h)
      | some k =>
        have hsend : HubInv (s.onSocket k fun socket => socket.send (.saveReply q)) := hinv.send rfl
        have hq' : (s.onSocket k fun socket => socket.send (.saveReply q)).calls q =
            .refused (some k) := hq
        exact hsend.setCall (by rw [hq']; rfl) (by rw [hq']; rfl) rfl trivial
          (by rintro (h | ⟨l', h⟩) <;> cases h)
    · cases h
  | closing k =>
    cases h
    exact hinv.onClosed rfl rfl subset_rfl rfl
  | closed k =>
    simp only [hubMachine] at h
    split_ifs at h with hopen
    cases h
    exact hinv.onClosed rfl rfl (Finset.empty_subset _) (Bool.eq_false_iff.mpr hopen)

theorem hubInv_reachable (h : hubMachine.Reachable .init s) : HubInv s :=
  h.invariant hubInv_init fun _ _ _ hinv hst => hubInv_step hinv hst

/-! ### Completeness -/

/-- What the answer to a lookup leaves out: the rows up to the one it names, or, when the relay did
not know that row as the lookup began, the rows before a keyframe, or nothing. -/
inductive Skipped (l : Lookup) (began : List WorkspaceRevision) :
    List WorkspaceRevision → List WorkspaceRevision → Prop
  | upTo (pre : List WorkspaceRevision) (r : WorkspaceRevision) (rest : List WorkspaceRevision)
      (hfrom : l.fromId = some r.id) : Skipped l began (pre ++ [r]) rest
  | keyframe (pre : List WorkspaceRevision) (r : WorkspaceRevision)
      (rest : List WorkspaceRevision) (hunknown : ∀ r ∈ rowsOf began l.tag, l.fromId ≠ some r.id)
      (hkey : r.keyframe = 1) : Skipped l began pre (r :: rest)
  | nothing (rest : List WorkspaceRevision)
      (hunknown : ∀ r ∈ rowsOf began l.tag, l.fromId ≠ some r.id) : Skipped l began [] rest

theorem Covers.skipped {began seen : List WorkspaceRevision} (h : Covers l began seen revisions) :
    ∃ skipped read, rowsOf seen l.tag = skipped ++ read ∧ Skipped l began skipped read ∧
      revisions = read.map mapRevisionRow := by
  cases h with
  | after pre r post hfrom hrows hrevs =>
    exact ⟨pre ++ [r], post, by rw [hrows]; simp, .upTo pre r post hfrom, hrevs⟩
  | keyframe pre r post hunknown hkey hrows hrevs =>
    exact ⟨pre, r :: post, hrows, .keyframe pre r post hunknown hkey, hrevs⟩
  | all hunknown hrevs => exact ⟨[], _, rfl, .nothing _ hunknown, hrevs⟩

/-- What a socket has been sent because of handler `p`: the rows of the workspace up to a first part
of them, which it did not ask for, are split into those the snapshot has and those that came later;
the latter are `Carried` by the frames after the snapshot and those held back. -/
def Delivered (s : HubState) (p : ℕ) (g : Registration) (seen : List WorkspaceRevision) : Prop :=
  ∃ skipped read later pre post,
    rowsOf seen g.lookup.tag = skipped ++ read ∧
    rowsOf s.rows g.lookup.tag = skipped ++ read ++ later ∧
    Skipped g.lookup g.began skipped read ∧
    (s.sockets g.lookup.socket).sent = pre ++ .subscribed p g.lookup.tag ::
      .snapshot p g.lookup.tag (read.map mapRevisionRow) :: post ∧
    -- no broadcast between the start of the lookup and its snapshot
    (g.sentBefore ≤ pre.length ∧ ∀ f ∈ pre.drop g.sentBefore, f.isBroadcast = false) ∧
    ∀ row ∈ later, Carried s g.lookup.socket row (post ++ (s.sockets g.lookup.socket).held)

theorem Complete.delivered (h : Complete s p g seen revisions) : Delivered s p g seen := by
  obtain ⟨skipped, read, hseen, hskipped, rfl⟩ := h.covers.skipped
  obtain ⟨pre, post, hsent, hlen, hquiet, later, hrows, hlater⟩ := h.sent
  refine ⟨skipped, read, rowsOf later g.lookup.tag, pre, post, hseen, ?_, hskipped, hsent,
    ⟨hlen, hquiet⟩, fun row hrow => ?_⟩
  · rw [← hseen, hrows]
    exact filter_append ..
  · obtain ⟨hmem, ht⟩ := mem_rowsOf.mp hrow
    exact hlater row hmem ht

/-- The handler has not started or has ended. -/
def HubCall.isDone : HubCall → Bool
  | .idle | .published .. | .returned _ | .saved .. | .notSaved => true
  | _ => false

/-- When no handler is under way, no socket is paused. -/
theorem HubInv.paused_eq_none (hinv : HubInv s) (hdone : ∀ p, (s.calls p).isDone)
    (hopen : (s.sockets k).isOpen) : (s.sockets k).paused = none := by
  obtain ⟨holders, hmem, hpaused⟩ := hinv.counted k hopen
  cases hz : (s.sockets k).paused with
  | none => rfl
  | some z =>
    rw [hz] at hpaused
    obtain ⟨q, hq⟩ := hpaused.2
    obtain ⟨⟨g, hg, -⟩, -⟩ := (hmem q).mp hq
    have hq' := hdone q
    cases hc : s.calls q <;> rw [hc] at hg hq' <;> cases hg <;> cases hq'

/-- A subscription is superseded by a second one while a save of another socket is committed. -/
def overlapLabels : List HubLabel :=
  [.save 0 ⟨"ws", "a", none, false, "n", "c", "s"⟩ (some 1), .commit 0,
   .subscribe 2 ⟨0, "ws", some "a"⟩, .verified 2 true, .finishSave 0 ∅, .resourcesRead 2, .query 2,
   .subscribe 3 ⟨0, "ws", some "a"⟩, .verified 3 true, .resourcesRead 3, .query 3, .query 3,
   .save 1 ⟨"ws", "b", some "a", false, "n", "c", "s"⟩ (some 1), .commit 1, .finishSave 1 ∅,
   .query 2, .answer 2, .answer 3]

/-- The state it ends in. -/
def overlapEnd : HubState := (hubMachine.run .init overlapLabels).getD .init

theorem overlapEnd_run : hubMachine.run .init overlapLabels = some overlapEnd := rfl

/-- Whether a frame has a revision. -/
def Frame.carries (r : RevisionRow) : Frame → Bool
  | .snapshot _ _ revisions => r ∈ revisions
  | .broadcast _ _ r' => r' = r
  | _ => false

/-- A socket subscribes without naming a row to a chain of a delta and a keyframe. -/
def omitLabels : List HubLabel :=
  [.save 0 ⟨"ws", "a", none, false, "n", "c", "s"⟩ (some 1), .commit 0, .finishSave 0 ∅,
   .save 1 ⟨"ws", "b", some "a", true, "n", "c", "s"⟩ (some 1), .commit 1, .finishSave 1 ∅,
   .subscribe 2 ⟨0, "ws", none⟩, .verified 2 true, .resourcesRead 2, .query 2, .query 2, .answer 2]

/-- The state it ends in. -/
def omitEnd : HubState := (hubMachine.run .init omitLabels).getD .init

theorem omitEnd_run : hubMachine.run .init omitLabels = some omitEnd := rfl

end Triage.Relay
