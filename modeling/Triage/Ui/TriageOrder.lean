import Triage.Ui.TriageQueue

/-!
# The order of the changes

The changes of a finding stand in the order they were captured in, and land in it, as long as none
gets behind a newer one: a capture in the queue of another report, or a change that is put back.

## Main results

* `foldl_capture_base`, `base_answered`, `base_transient` : captures and answers keep the order.
-/

namespace Triage.Ui

open Client List Option Function FMap

namespace TriageTab

variable {s s' : TriageTab} {f g : String}

/-- The changes of a finding on their way, in the order they are sent. -/
def outstanding (s : TriageTab) (f : String) : List Change :=
  changesOf f ((s.sending.map fun q => q.batch ++ q.rest).getD []) ++ queuedOf f s.flushChain ++
    queuedOf f s.pending

/-- The version that the tab wrote to the server last. -/
def serverVersion (s : TriageTab) (f : String) : ℕ := ((s.log f).findSome? (·.mine)).getD 0

/-- What holds of the changes of a finding. -/
structure Base (s : TriageTab) (f : String) : Prop where
  sorted : (s.outstanding f).Pairwise fun a b => a.version ≤ b.version
  server_le : ∀ c ∈ s.outstanding f, s.serverVersion f ≤ c.version
  le : ∀ c ∈ s.outstanding f, c.version ≤ s.version f
  wire : ∀ c ∈ s.outstanding f, c.version = s.version f → c.wire = s.wireOf f
  serverVersion_le : s.serverVersion f ≤ s.version f

/-- Nothing happened to a finding. -/
structure SameAt (s s' : TriageTab) (f : String) : Prop where
  outstanding : s'.outstanding f = s.outstanding f
  log : s'.log f = s.log f
  version : s'.version f = s.version f
  wireOf : s'.wireOf f = s.wireOf f
  baseline : s'.baseline f = s.baseline f
  refused : f ∈ s'.refused ↔ f ∈ s.refused
  edited : f ∈ s'.edited ↔ f ∈ s.edited

theorem SameAt.baselineKey (h : SameAt s s' f) : s'.baselineKey f = s.baselineKey f := by
  rw [TriageTab.baselineKey, h.baseline, TriageTab.baselineKey]

theorem SameAt.serverVersion (h : SameAt s s' f) : s'.serverVersion f = s.serverVersion f := by
  rw [TriageTab.serverVersion, h.log, TriageTab.serverVersion]

theorem SameAt.trans {s'' : TriageTab} (h : SameAt s s' f) (h' : SameAt s' s'' f) :
    SameAt s s'' f :=
  ⟨h'.outstanding.trans h.outstanding, h'.log.trans h.log, h'.version.trans h.version,
    h'.wireOf.trans h.wireOf, h'.baseline.trans h.baseline, h'.refused.trans h.refused,
    h'.edited.trans h.edited⟩

/-- Changes that were on their way before, in order, of a finding that is the same. -/
theorem Base.mono (h : s.Base f)
    (hsorted : (s'.outstanding f).Pairwise fun a b => a.version ≤ b.version)
    (hmem : ∀ c ∈ s'.outstanding f, c ∈ s.outstanding f)
    (hserver : s'.serverVersion f = s.serverVersion f) (hversion : s'.version f = s.version f)
    (hwire : s'.wireOf f = s.wireOf f) : s'.Base f := by
  refine ⟨hsorted, ?_, ?_, ?_, ?_⟩
  · intro c hc
    rw [hserver]
    exact h.server_le c (hmem c hc)
  · intro c hc
    rw [hversion]
    exact h.le c (hmem c hc)
  · intro c hc
    rw [hversion, hwire]
    exact h.wire c (hmem c hc)
  · rw [hserver, hversion]
    exact h.serverVersion_le

theorem Base.same (h : s.Base f) (hsame : SameAt s s' f) : s'.Base f :=
  h.mono (hsame.outstanding ▸ h.sorted) (fun _ hc => hsame.outstanding ▸ hc) hsame.serverVersion
    hsame.version hsame.wireOf

variable {c : Change} {entryBytes : String → Option WireEntry → ℕ} {t : TriageTab} {q : Sending}

theorem mem_of_getLast?_append {l l' : List Change} (hne : l' ≠ [])
    (h : (l ++ l').getLast? = some c) : c ∈ l' := by
  rw [getLast?_append, getLast?_eq_some_getLast hne, some_or] at h
  rw [← some.inj h]
  exact getLast_mem hne

/-! ### Capturing -/

theorem wireOf_setBaseline (id : String) (w : Option WireEntry) :
    (s.setBaseline id w).wireOf f = s.wireOf f := rfl

theorem baselineKey_setBaseline_self (w : Option WireEntry) :
    (s.setBaseline f w).baselineKey f = wireKey w := by
  have hself : (s.setBaseline f w).baseline f = some ⟨wireKey w, s.stamps⟩ := insert_self _ _ _
  rw [baselineKey, hself]
  rfl

theorem baseline_setBaseline_ne (hne : f ≠ g) (w : Option WireEntry) :
    (s.setBaseline g w).baseline f = s.baseline f := insert_of_ne _ hne _

/-- No queue behind the one that a finding is captured into holds an older value of it. -/
def CaptureCareful (s : TriageTab) (f : String) : Prop :=
  ∀ key, s.captureScope f = some key →
    ∀ c ∈ queuedOf f (behind key s.pending), c.version = s.version f

variable (s s') in
/-- What a capture does to the changes of its finding: those from some place on are new, or of the
same version. -/
theorem outstanding_setPending (hb : s.Base f) {key : Scope}
    (hbehind : ∀ c ∈ queuedOf f (behind key s.pending), c.version = s.version f)
    (hpending : s'.pending = setPending key f ⟨s.wireOf f, s.version f⟩ s.pending)
    (hchain : s'.flushChain = s.flushChain) (hsending : s'.sending = s.sending) :
    ∃ front after, s'.outstanding f = front ++ after ∧ after ≠ [] ∧
      (∀ c ∈ after, c.version = s.version f) ∧
      (front.Pairwise fun a b => a.version ≤ b.version) ∧
      (∀ c ∈ front, c ∈ s.outstanding f) ∧
      ∀ c ∈ after, c ∈ s.outstanding f ∨ c = ⟨s.wireOf f, s.version f⟩ := by
  obtain ⟨own, hne, hall, heq⟩ := queuedOf_setPending f key ⟨s.wireOf f, s.version f⟩ s.pending
  set front := changesOf f ((s.sending.map fun q => q.batch ++ q.rest).getD []) ++
    queuedOf f s.flushChain ++ queuedOf f (before key s.pending) with hfront
  have hnew : s'.outstanding f = front ++ (own ++ queuedOf f (behind key s.pending)) := by
    rw [outstanding, hpending, hchain, hsending, heq]
    simp only [hfront, append_assoc]
  have hold : s.outstanding f = front ++ (changesOf f (ownChanges key s.pending) ++
      queuedOf f (behind key s.pending)) := by
    rw [outstanding, queuedOf_split key s.pending]
    simp only [hfront, append_assoc]
  refine ⟨front, own ++ queuedOf f (behind key s.pending), hnew, by simp [hne], ?_, ?_, ?_, ?_⟩
  · intro c hc
    rcases mem_append.1 hc with hc | hc
    · rw [hall c hc]
    · exact hbehind c hc
  · have := hb.sorted
    rw [hold, pairwise_append] at this
    exact this.1
  · intro c hc
    rw [hold]
    exact mem_append_left _ hc
  · intro c hc
    rcases mem_append.1 hc with hc | hc
    · exact .inr (hall c hc)
    · rw [hold]
      exact .inl (mem_append_right _ (mem_append_right _ hc))

/-- A finding has its turn. -/
theorem capture_base (hb : s.Base f) (hcareful : s.CaptureCareful f) : (s.capture f).Base f := by
  rw [capture]
  split
  · exact hb
  split
  · exact ⟨hb.sorted, hb.server_le, hb.le, hb.wire, hb.serverVersion_le⟩
  split
  · exact hb
  · rename_i key hscope
    set t : TriageTab := { s with
      pending := setPending key f ⟨s.wireOf f, s.version f⟩ s.pending } with ht
    obtain ⟨front, after, hnew, -, hafter, hfront, hold, hmem⟩ :=
      outstanding_setPending s t hb (hcareful key hscope) rfl rfl rfl
    have hthere : ∀ c ∈ t.outstanding f, c ∈ s.outstanding f ∨ c = ⟨s.wireOf f, s.version f⟩ := by
      intro c hc
      rw [hnew] at hc
      rcases mem_append.1 hc with hc | hc
      · exact .inl (hold c hc)
      · exact hmem c hc
    refine ⟨?_, ?_, ?_, ?_, hb.serverVersion_le⟩
    · rw [hnew]
      refine pairwise_append.2 ⟨hfront, pairwise_of_forall_mem_list fun a ha b hb' => ?_,
        fun a ha b hb' => ?_⟩
      · rw [hafter a ha, hafter b hb']
      · rw [hafter b hb']
        exact hb.le a (hold a ha)
    · intro c hc
      rcases hthere c hc with hc | rfl
      · exact hb.server_le c hc
      · exact hb.serverVersion_le
    · intro c hc
      rcases hthere c hc with hc | rfl
      · exact hb.le c hc
      · exact Nat.le_refl _
    · intro c hc hv
      rcases hthere c hc with hc | rfl
      · exact hb.wire c hc hv
      · rfl

/-- Another finding has its turn. -/
theorem sameAt_capture (hne : f ≠ g) : SameAt s (s.capture g) f ∧
    (s.capture g).captureScope f = s.captureScope f ∧
    ∀ key, queuedOf f (behind key (s.capture g).pending) = queuedOf f (behind key s.pending) := by
  have hbaseline : ∀ w, (s.setBaseline g w).baseline f = s.baseline f := baseline_setBaseline_ne hne
  rw [capture]
  split
  · exact ⟨⟨rfl, rfl, rfl, rfl, rfl, .rfl, .rfl⟩, rfl, fun _ => rfl⟩
  split
  · refine ⟨⟨rfl, rfl, rfl, rfl, hbaseline _, .rfl, .rfl⟩, ?_, fun _ => rfl⟩
    rw [captureScope, captureScope, baselineKey, hbaseline, wireOf_setBaseline]
    rfl
  · split
    · exact ⟨⟨rfl, rfl, rfl, rfl, rfl, .rfl, .rfl⟩, rfl, fun _ => rfl⟩
    · refine ⟨⟨?_, rfl, rfl, rfl, rfl, .rfl, .rfl⟩, rfl, fun key =>
        queuedOf_behind_setPending s.pending key hne⟩
      exact congrArg (_ ++ ·) (queuedOf_setPending_ne s.pending hne)

theorem CaptureCareful.capture (h : s.CaptureCareful f) (hne : f ≠ g) :
    (s.capture g).CaptureCareful f := by
  obtain ⟨hsame, hscope, hbehind⟩ := sameAt_capture (s := s) hne
  intro key hkey c hc
  rw [hscope] at hkey
  rw [hbehind] at hc
  rw [hsame.version]
  exact h key hkey c hc

/-- All the findings have their turns. -/
theorem foldl_capture_base {ids : List String} (hnodup : ids.Nodup) (hbase : ∀ g, s.Base g)
    (hcareful : ∀ g ∈ ids, s.CaptureCareful g) : ∀ g, (ids.foldl capture s).Base g := by
  induction ids generalizing s with
  | nil => exact hbase
  | cons f ids ih =>
    obtain ⟨hf, hnodup⟩ := nodup_cons.1 hnodup
    refine ih hnodup ?_ ?_
    · intro g
      rcases eq_or_ne g f with rfl | hne
      · exact capture_base (hbase g) (hcareful g (by simp))
      · exact (hbase g).same (sameAt_capture hne).1
    · intro g hg
      exact (hcareful g (by simp [hg])).capture fun heq => hf (heq ▸ hg)

theorem base_scheduleTriagePush (hbase : ∀ g, s.Base g)
    (hcareful : ∀ g ∈ s.view.loadedFindingIds, s.CaptureCareful g) :
    ∀ g, s.scheduleTriagePush.Base g := by
  rw [scheduleTriagePush]
  split
  · exact hbase
  · intro g
    exact (foldl_capture_base (nodup_dedup _) hbase hcareful g).same
      ⟨rfl, rfl, rfl, rfl, rfl, .rfl, .rfl⟩

/-! ### Editing -/

variable (entry : Option TriageEntry)

theorem wireOf_edit_self : (s.edit f entry).wireOf f = wireEntryOf entry := by
  rw [wireOf]
  cases entry with
  | none => exact congrArg wireEntryOf (erase_self s.triage f)
  | some e => exact congrArg wireEntryOf (insert_self s.triage f e)

theorem sameAt_edit (hne : g ≠ f) (entry : Option TriageEntry) : SameAt s (s.edit f entry) g := by
  refine ⟨rfl, rfl, ?_, ?_, rfl, .rfl, ?_⟩
  · simp only [edit]
    split
    · rfl
    · exact update_of_ne hne _ _
  · rw [wireOf, wireOf]
    cases entry with
    | none => exact congrArg wireEntryOf (erase_of_ne s.triage hne)
    | some e => exact congrArg wireEntryOf (insert_of_ne s.triage hne e)
  · simp [edit, hne]

theorem version_edit_self :
    (s.edit f entry).version f =
      if wireEntryOf entry = s.wireOf f then s.version f else s.version f + 1 := by
  simp only [edit]
  split
  · rfl
  · exact update_self _ _ _

theorem Base.edit (h : s.Base f) (entry : Option TriageEntry) : (s.edit f entry).Base f := by
  have hle : s.version f ≤ (s.edit f entry).version f := by
    rw [version_edit_self]
    split <;> omega
  refine ⟨h.sorted, h.server_le, fun c hc => (h.le c hc).trans hle, ?_,
    h.serverVersion_le.trans hle⟩
  intro c hc hv
  have hcle := h.le c hc
  rw [version_edit_self] at hv
  rw [wireOf_edit_self]
  split at hv
  · rename_i hsame
    rw [hsame]
    exact h.wire c hc hv
  · omega

/-! ### Sending -/

theorem sameAt_flushPending : SameAt s s.flushPending f := by
  refine ⟨?_, rfl, rfl, rfl, rfl, .rfl, .rfl⟩
  rw [outstanding, outstanding, flushPending]
  simp

/-- What is in flight after the next request of a flush was made. -/
theorem outstanding_nextPost (entryBytes : String → Option WireEntry → ℕ) (key : Scope)
    (changes : List (String × Change)) :
    (s.nextPost entryBytes key changes).outstanding f =
      changesOf f changes ++ queuedOf f s.flushChain ++ queuedOf f s.pending := by
  rw [outstanding, nextPost]
  by_cases hnil : changes = []
  · simp [hnil]
  · simp only [if_neg hnil, map_some, getD_some, takeBatch_append]

theorem sameAt_send (hst : s.send entryBytes = some s') : SameAt s s' f := by
  unfold send at hst
  split at hst
  · rename_i b bs hsending hchain
    cases hst
    refine ⟨?_, rfl, rfl, rfl, rfl, .rfl, .rfl⟩
    rw [outstanding_nextPost, outstanding, hsending, hchain]
    simp
  · cases hst

/-! ### Answers -/

/-- What the answer to a request leaves of its last change of a finding; `Server` is what becomes of
the server. -/
structure Settled (Server : TriageTab → String → Change → Prop) (s s' : TriageTab) (f : String)
    (c : Change) : Prop where
  version : s'.version f = s.version f
  wireOf : s'.wireOf f = s.wireOf f
  edited : f ∈ s'.edited ↔ f ∈ s.edited
  baselineKey : s'.baselineKey f = wireKey c.wire
  server : Server s' f c

/-- The change landed. -/
def Landed (s : TriageTab) (f : String) (c : Change) : Prop :=
  (∃ log, s.log f = ⟨c.wire, some c.version⟩ :: log) ∧ f ∉ s.refused

def Refused (s : TriageTab) (f : String) (_ : Change) : Prop := f ∈ s.refused

theorem settled_land (s : TriageTab) (p : String × Change) :
    Settled Landed s (s.land p) p.1 p.2 := by
  refine ⟨rfl, rfl, .rfl, baselineKey_setBaseline_self _, ⟨s.log p.1, ?_⟩, ?_⟩
  · exact update_self _ _ _
  · exact Finset.notMem_erase _ _

theorem settled_refuse (s : TriageTab) (p : String × Change) :
    Settled Refused s (s.refuse p) p.1 p.2 :=
  ⟨rfl, rfl, .rfl, baselineKey_setBaseline_self _, Finset.mem_insert_self _ _⟩

theorem sameAt_land (s : TriageTab) (p : String × Change) (f : String) (hne : f ≠ p.1) :
    SameAt s (s.land p) f := by
  refine ⟨rfl, ?_, rfl, rfl, baseline_setBaseline_ne hne _, ?_, .rfl⟩
  · exact update_of_ne hne _ _
  · simp [land, hne]

theorem sameAt_refuse (s : TriageTab) (p : String × Change) (f : String) (hne : f ≠ p.1) :
    SameAt s (s.refuse p) f :=
  ⟨rfl, rfl, rfl, rfl, baseline_setBaseline_ne hne _, by simp [refuse, hne], .rfl⟩

variable {step : TriageTab → String × Change → TriageTab}

/-- The entries of a request are settled one after the other: a finding that has none of them is
left as it was, another as its last one leaves it. -/
theorem foldl_settle {Server : TriageTab → String → Change → Prop}
    (hself : ∀ s p, Settled Server s (step s p) p.1 p.2)
    (hother : ∀ s p f, f ≠ p.1 → SameAt s (step s p) f)
    (hserver : ∀ s p f c, f ≠ p.1 → Server s f c → Server (step s p) f c)
    (batch : List (String × Change)) (f : String) :
    (changesOf f batch = [] → SameAt s (batch.foldl step s) f) ∧
    ∀ c, (changesOf f batch).getLast? = some c → Settled Server s (batch.foldl step s) f c := by
  induction batch using reverseRecOn with
  | nil => exact ⟨fun _ => ⟨rfl, rfl, rfl, rfl, rfl, .rfl, .rfl⟩, fun c hc => (nomatch hc)⟩
  | append_singleton batch p ih =>
    obtain ⟨hnone, hsome⟩ := ih
    rw [foldl_append, foldl_cons, foldl_nil, changesOf_append]
    rcases eq_or_ne f p.1 with rfl | hne
    · have hone : changesOf p.1 [p] = [p.2] := by simp [changesOf]
      rw [hone]
      refine ⟨fun hnil => by simp at hnil, fun c hc => ?_⟩
      rw [getLast?_append, getLast?_singleton, some_or, Option.some.injEq] at hc
      subst hc
      obtain ⟨hversion, hwire, hedited, hkey, hlast⟩ := hself (batch.foldl step s) p
      -- what was before the last one is that of the request's start
      have hsame : (batch.foldl step s).version p.1 = s.version p.1 ∧
          (batch.foldl step s).wireOf p.1 = s.wireOf p.1 ∧
          (p.1 ∈ (batch.foldl step s).edited ↔ p.1 ∈ s.edited) := by
        cases hl : (changesOf p.1 batch).getLast? with
        | none =>
          have h := hnone (getLast?_eq_none_iff.1 hl)
          exact ⟨h.version, h.wireOf, h.edited⟩
        | some d =>
          have h := hsome d hl
          exact ⟨h.version, h.wireOf, h.edited⟩
      exact ⟨hversion.trans hsame.1, hwire.trans hsame.2.1, hedited.trans hsame.2.2, hkey, hlast⟩
    · have hother' : changesOf f [p] = [] := by simp [changesOf, hne.symm]
      have hstep := hother (batch.foldl step s) p f hne
      rw [hother', append_nil]
      refine ⟨fun hnil => (hnone hnil).trans hstep, fun c hc => ?_⟩
      obtain ⟨hversion, hwire, hedited, hkey, hlast⟩ := hsome c hc
      exact ⟨hstep.version.trans hversion, hstep.wireOf.trans hwire, hstep.edited.trans hedited,
        hstep.baselineKey.trans hkey, hserver _ p f c hne hlast⟩

theorem foldl_land (s : TriageTab) (batch : List (String × Change)) (f : String) :
    (changesOf f batch = [] → SameAt s (batch.foldl land s) f) ∧
    ∀ c, (changesOf f batch).getLast? = some c → Settled Landed s (batch.foldl land s) f c := by
  refine foldl_settle settled_land sameAt_land ?_ batch f
  rintro t p f c hne ⟨⟨log, hlog⟩, hrefused⟩
  have hsame := sameAt_land t p f hne
  exact ⟨⟨log, hsame.log.trans hlog⟩, fun hmem => hrefused (hsame.refused.1 hmem)⟩

theorem foldl_refuse (s : TriageTab) (batch : List (String × Change)) (f : String) :
    (changesOf f batch = [] → SameAt s (batch.foldl refuse s) f) ∧
    ∀ c, (changesOf f batch).getLast? = some c → Settled Refused s (batch.foldl refuse s) f c :=
  foldl_settle settled_refuse sameAt_refuse
    (fun t p f _ hne h => (sameAt_refuse t p f hne).refused.2 h) batch f

theorem foldl_refuse_log (s : TriageTab) (batch : List (String × Change)) (f : String) :
    (batch.foldl refuse s).log f = s.log f := by
  induction batch generalizing s with
  | nil => rfl
  | cons p batch ih => exact ih (s.refuse p)

/-- The lines behind the request stay as they are when it is answered. -/
structure SameLines (s s' : TriageTab) : Prop where
  flushChain : s'.flushChain = s.flushChain
  pending : s'.pending = s.pending

theorem sameLines_foldl (hstep : ∀ s p, SameLines s (step s p)) (batch : List (String × Change)) :
    SameLines s (batch.foldl step s) := by
  induction batch generalizing s with
  | nil => exact ⟨rfl, rfl⟩
  | cons p batch ih =>
    have hone := hstep s p
    have hrest := ih (s := step s p)
    exact ⟨hrest.flushChain.trans hone.flushChain, hrest.pending.trans hone.pending⟩

/-- The request is gone from the line. -/
theorem outstanding_settled (hlines : SameLines s t)
    (hq : s.sending = some q) (entryBytes : String → Option WireEntry → ℕ) (f : String) :
    s.outstanding f =
      changesOf f q.batch ++ (t.nextPost entryBytes q.key q.rest).outstanding f := by
  rw [outstanding_nextPost, hlines.flushChain, hlines.pending, outstanding, hq, map_some,
    getD_some, changesOf_append]
  simp only [append_assoc]

/-- A finding of which the request had nothing. -/
theorem sameAt_nextPost (hsame : SameAt s t f)
    (entryBytes : String → Option WireEntry → ℕ) (key : Scope) (rest : List (String × Change))
    (hout : (t.nextPost entryBytes key rest).outstanding f = s.outstanding f) :
    SameAt s (t.nextPost entryBytes key rest) f :=
  ⟨hout, hsame.log, hsame.version, hsame.wireOf, hsame.baseline, hsame.refused, hsame.edited⟩

/-- The answer of a request to a finding: none of its changes was in it, or the last of those that
were landed, or was refused. -/
def AnswerAt (s s' : TriageTab) (f : String) : Prop :=
  SameAt s s' f ∨ ∃ sent c, s.outstanding f = sent ++ s'.outstanding f ∧
    sent.getLast? = some c ∧ s'.version f = s.version f ∧ s'.wireOf f = s.wireOf f ∧
    s'.baselineKey f = wireKey c.wire ∧
    (Landed s' f c ∨ s'.log f = s.log f ∧ f ∈ s'.refused)

theorem answerAt_settle (hq : s.sending = some q) {posted : Posted} (hposted : posted ≠ .transient)
    (hst : s.settle entryBytes posted = some s') (f : String) : AnswerAt s s' f := by
  rw [settle, hq, map_some, Option.some.injEq] at hst
  cases posted with
  | transient => exact absurd rfl hposted
  | landed =>
    subst hst
    have hlines : SameLines s (q.batch.foldl land s) :=
      sameLines_foldl (fun t p => (⟨rfl, rfl⟩ : SameLines t (t.land p))) q.batch
    have hout := outstanding_settled hlines hq entryBytes f
    obtain ⟨hnone, hsome⟩ := foldl_land s q.batch f
    cases hl : (changesOf f q.batch).getLast? with
    | none =>
      have hnil := getLast?_eq_none_iff.1 hl
      rw [hnil, nil_append] at hout
      exact .inl (sameAt_nextPost (hnone hnil) entryBytes q.key q.rest hout.symm)
    | some c =>
      obtain ⟨hversion, hwire, -, hkey, hlanded⟩ := hsome c hl
      exact .inr ⟨_, c, hout, hl, hversion, hwire, hkey, .inl hlanded⟩
  | refusedAsSent =>
    subst hst
    have hlines : SameLines s (q.batch.foldl refuse s) :=
      sameLines_foldl (fun t p => (⟨rfl, rfl⟩ : SameLines t (t.refuse p))) q.batch
    have hout := outstanding_settled hlines hq entryBytes f
    obtain ⟨hnone, hsome⟩ := foldl_refuse s q.batch f
    cases hl : (changesOf f q.batch).getLast? with
    | none =>
      have hnil := getLast?_eq_none_iff.1 hl
      rw [hnil, nil_append] at hout
      exact .inl (sameAt_nextPost (hnone hnil) entryBytes q.key q.rest hout.symm)
    | some c =>
      obtain ⟨hversion, hwire, -, hkey, hrefused⟩ := hsome c hl
      exact .inr ⟨_, c, hout, hl, hversion, hwire, hkey,
        .inr ⟨foldl_refuse_log s q.batch f, hrefused⟩⟩

theorem Landed.serverVersion (h : Landed s f c) : s.serverVersion f = c.version := by
  obtain ⟨⟨log, hlog⟩, -⟩ := h
  rw [TriageTab.serverVersion, hlog]
  rfl

theorem Base.answered (h : s.Base f) (hanswer : AnswerAt s s' f) : s'.Base f := by
  rcases hanswer with hsame | ⟨sent, c, hout, hlast, hversion, hwire, -, hserver⟩
  · exact h.same hsame
  · have hmem : c ∈ s.outstanding f :=
      hout ▸ mem_append_left _ (mem_of_getLast? hlast)
    have hsub : ∀ d ∈ s'.outstanding f, d ∈ s.outstanding f := fun d hd =>
      hout ▸ mem_append_right _ hd
    have hsorted := h.sorted
    rw [hout, pairwise_append] at hsorted
    rcases hserver with hlanded | ⟨hlog, -⟩
    · refine ⟨hsorted.2.1, ?_, ?_, ?_, ?_⟩
      · intro d hd
        rw [hlanded.serverVersion]
        exact hsorted.2.2 c (mem_of_getLast? hlast) d hd
      · intro d hd
        rw [hversion]
        exact h.le d (hsub d hd)
      · intro d hd
        rw [hversion, hwire]
        exact h.wire d (hsub d hd)
      · rw [hlanded.serverVersion, hversion]
        exact h.le c hmem
    · have hsv : s'.serverVersion f = s.serverVersion f := by
        rw [serverVersion, hlog, serverVersion]
      exact h.mono hsorted.2.1 hsub hsv hversion hwire

/-- Nothing is put back behind a newer value. -/
def RequeueCareful (s : TriageTab) : Prop :=
  ∀ q, s.sending = some q → ∀ p ∈ q.batch ++ q.rest,
    changesOf p.1 (ownChanges q.key s.pending) = [] →
    ∀ c ∈ queuedOf p.1 s.flushChain ++ queuedOf p.1 (before q.key s.pending),
      c.version = p.2.version

/-- What a flush that failed leaves of the changes of a finding. -/
structure PutBack (s s' : TriageTab) (f : String) : Prop where
  sorted : (s'.outstanding f).Pairwise fun a b => a.version ≤ b.version
  mem : ∀ c ∈ s'.outstanding f, c ∈ s.outstanding f
  nil : s'.outstanding f = [] → s.outstanding f = []
  last : ∀ c, (s'.outstanding f).getLast? = some c →
    ∃ d, (s.outstanding f).getLast? = some d ∧ c.version = d.version

/-- A flush that failed puts its changes back where nothing newer is before them. -/
theorem putBack_transient (hb : s.Base f) (hq : s.sending = some q) (hcareful : s.RequeueCareful) :
    PutBack s { s with
      sending := none, pending := requeue q.key (q.batch ++ q.rest) s.pending } f := by
  set t : TriageTab := { s with
    sending := none, pending := requeue q.key (q.batch ++ q.rest) s.pending } with ht
  set unsent := changesOf f (q.batch ++ q.rest) with hunsent
  set front := queuedOf f s.flushChain ++ queuedOf f (before q.key s.pending) with hfront
  set own := changesOf f (ownChanges q.key s.pending) with hown
  set last := queuedOf f (behind q.key s.pending) with hlast
  have hold : s.outstanding f = unsent ++ (front ++ (own ++ last)) := by
    rw [outstanding, hq, queuedOf_split q.key s.pending]
    simp only [map_some, getD_some, hunsent, hfront, hown, hlast, append_assoc]
  have hnew : t.outstanding f = front ++ ((own ++ if own = [] then unsent else []) ++ last) := by
    rw [outstanding]
    simp only [ht, map_none, getD_none, changesOf_nil, nil_append,
      queuedOf_requeue, hfront, hown, hlast, hunsent, append_assoc]
  have hsorted := hb.sorted
  by_cases hkept : own = [] ∧ unsent ≠ []
  · obtain ⟨hnone, hsome⟩ := hkept
    rw [if_pos hnone, hnone, nil_append] at hnew
    rw [hnone, nil_append] at hold
    -- what is before the changes that are put back is of their version
    have hversion : ∀ c ∈ unsent, ∀ d ∈ front, d.version = c.version := by
      intro c hc' d hd
      exact hcareful q hq (f, c) (mem_changesOf.1 hc') hnone d hd
    rw [hold, pairwise_append, pairwise_append] at hsorted
    obtain ⟨hu, ⟨hf, hl, hfl⟩, hufl⟩ := hsorted
    refine ⟨?_, ?_, ?_, ?_⟩
    · rw [hnew]
      refine pairwise_append.2 ⟨hf, pairwise_append.2 ⟨hu, hl, fun a ha b hb' =>
        hufl a ha b (mem_append_right _ hb')⟩, ?_⟩
      intro a ha b hb'
      rcases mem_append.1 hb' with hb' | hb'
      · exact Nat.le_of_eq (hversion b hb' a ha)
      · exact hfl a ha b hb'
    · intro c hc'
      rw [hnew] at hc'
      rw [hold]
      simp only [mem_append] at hc' ⊢
      tauto
    · intro hnil
      rw [hnew] at hnil
      simp [hsome] at hnil
    · intro c hc'
      rw [hnew] at hc'
      rw [hold]
      by_cases hlnil : last = []
      · rw [hlnil, append_nil] at hc'
        rw [hlnil, append_nil]
        have hcu : c ∈ unsent := mem_of_getLast?_append hsome hc'
        by_cases hfnil : front = []
        · rw [hfnil, nil_append] at hc'
          rw [hfnil, append_nil]
          exact ⟨c, hc', rfl⟩
        · have hd :=
            getLast?_eq_some_getLast (append_ne_nil_of_right_ne_nil unsent hfnil)
          refine ⟨_, hd, ?_⟩
          exact (hversion c hcu _ (mem_of_getLast?_append hfnil hd)).symm
      · refine ⟨c, ?_, rfl⟩
        rw [getLast?_append, getLast?_append] at hc'
        rw [getLast?_append, getLast?_append]
        rw [getLast?_eq_some_getLast hlnil] at hc' ⊢
        simpa using hc'
  · -- nothing is put back, or a newer capture stands there
    have hnew' : t.outstanding f = front ++ (own ++ last) := by
      rw [hnew]
      split
      · rename_i hnil
        have hnone : unsent = [] := not_not.1 fun hne => hkept ⟨hnil, hne⟩
        rw [hnone, append_nil]
      · rw [append_nil]
    rw [hold, pairwise_append] at hsorted
    refine ⟨hnew' ▸ hsorted.2.1, fun c hc' => ?_, fun hnil => ?_, fun c hc' => ⟨c, ?_, rfl⟩⟩
    · rw [hold]
      exact mem_append_right _ (hnew' ▸ hc')
    · have hgone : unsent = [] := by
        by_contra hne
        refine hkept ⟨?_, hne⟩
        rw [hnew'] at hnil
        exact (append_eq_nil_iff.1 (append_eq_nil_iff.1 hnil).2).1
      rw [hold, hgone, nil_append, ← hnew', hnil]
    · rw [hold, getLast?_append, ← hnew', hc', some_or]

theorem Base.putBack (h : s.Base f) (hput : PutBack s s' f) (hlog : s'.log f = s.log f)
    (hversion : s'.version f = s.version f) (hwire : s'.wireOf f = s.wireOf f) : s'.Base f := by
  have hsv : s'.serverVersion f = s.serverVersion f := by rw [serverVersion, hlog, serverVersion]
  exact h.mono hput.sorted hput.mem hsv hversion hwire

end TriageTab

end Triage.Ui
