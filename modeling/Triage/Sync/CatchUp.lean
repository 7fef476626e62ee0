import Triage.Relay.Commit
import Triage.Client.Chain

/-!
# Catching up from a keyframe

A subscriber names the last revision it has applied, and the relay sends it the rows `chainFrom`
picks: what follows that revision or, when the relay does not know it, what starts at the newest
keyframe. The client walks these rows with `applyChainToBase`.

## Main results

* `catch_up` : **whatever the placement of the keyframes, the rows sent take the session to the head
  of the chain and to the fold of the whole chain**.
-/

namespace Triage.Sync

open Relay Client List Option LinkedLog

variable {E : Type*} (c : WorkspaceCrypto E)

/-! ### The fold of a chain -/

/-- The revision `chainForWire` makes of a row. -/
def wireRevision (r : RevisionRow) : WireRevision where
  base := r.base
  id := some r.id
  keyframe := r.keyframe = 1
  nonce := some r.nonce
  ciphertext := some r.ciphertext
  signature := some r.signature

/-- `chainForWire` -/
def chainForWire (revisions : List RevisionRow) : List WireRevision := revisions.map wireRevision

/-- The state after a row: a keyframe replaces the state, a delta is applied to it. -/
def foldRow (state : FMap String E) (r : WorkspaceRevision) : FMap String E :=
  match c.decrypt r.base r.nonce r.ciphertext with
  | some cs => applyChangeset (applyTo (r.keyframe = 1) state) cs
  | none => state

/-- The state after a chain. -/
def foldChain (state : FMap String E) (rows : List WorkspaceRevision) : FMap String E :=
  rows.foldl (foldRow c) state

/-- A row the relay has verified and a peer can decrypt. -/
structure Authentic (r : WorkspaceRevision) : Prop where
  verify : c.verifySave ⟨r.base, r.keyframe = 1, r.nonce, r.ciphertext⟩ r.signature = true
  id_eq : r.id = c.revisionId ⟨r.base, r.keyframe = 1, r.nonce, r.ciphertext⟩
  decrypt : (c.decrypt r.base r.nonce r.ciphertext).isSome

variable {c}

@[simp] theorem foldChain_cons (state : FMap String E) (r : WorkspaceRevision)
    (rows : List WorkspaceRevision) :
    foldChain c state (r :: rows) = foldChain c (foldRow c state r) rows := rfl

theorem foldChain_append (state : FMap String E) (rows rows' : List WorkspaceRevision) :
    foldChain c state (rows ++ rows') = foldChain c (foldChain c state rows) rows' :=
  foldl_append

variable {r : WorkspaceRevision} {pre post db : List WorkspaceRevision} {tag : String}

/-- A keyframe forgets the state before it. -/
theorem foldRow_keyframe (h : Authentic c r) (hkey : r.keyframe = 1)
    (state state' : FMap String E) : foldRow c state r = foldRow c state' r := by
  obtain ⟨cs, hcs⟩ := isSome_iff_exists.mp h.decrypt
  simp only [foldRow, hcs, hkey, applyTo, decide_true, if_true]

/-! ### Applying the rows of a chain -/

variable (c) in
/-- `applyChainToBase` applies every revision, one after the other. -/
inductive Accepts (known : Finset String) : ChainState E → List WireRevision → ChainState E → Prop
  | nil (s : ChainState E) : Accepts known s [] s
  | cons {s s₁ s' : ChainState E} {rev : WireRevision} {revisions : List WireRevision} :
      applyRevision c known s rev = .applied s₁ → Accepts known s₁ revisions s' →
      Accepts known s (rev :: revisions) s'

theorem Accepts.applyChainToBase {known : Finset String} {s s' : ChainState E}
    {revisions : List WireRevision} (h : Accepts c known s revisions s') :
    applyChainToBase c known s revisions = (s', true) := by
  induction h with
  | nil s => rfl
  | cons hrev _ ih =>
    rw [Client.applyChainToBase, hrev]
    exact ih

variable {known : Finset String} {s : ChainState E}

/-- The row of the table, on the wire. -/
def wireRow (r : WorkspaceRevision) : WireRevision := wireRevision (mapRevisionRow r)

theorem genuine_wireRow (h : Authentic c r) :
    ∃ cs, Genuine c (wireRow r) r.id cs ∧
      ∀ state, foldRow c state r = applyChangeset (applyTo (wireRow r).keyframe state) cs := by
  obtain ⟨cs, hcs⟩ := isSome_iff_exists.mp h.decrypt
  have hkey : (wireRow r).keyframe = decide (r.keyframe = 1) := by
    by_cases hk : r.keyframe = 1 <;> simp [wireRow, wireRevision, mapRevisionRow, hk]
  refine ⟨cs, ⟨r.nonce, r.ciphertext, r.signature, rfl, rfl, rfl, rfl, ?_, ?_, hcs⟩, ?_⟩
  · rw [hkey]
    exact h.verify
  · rw [hkey]
    exact h.id_eq
  · intro state
    rw [hkey, foldRow, hcs]

/-- One row of a chain: it is applied when it is new and continues the chain. -/
theorem applyRevision_wireRow (hauth : Authentic c r)
    (hbase : s.baseRevision ≠ some r.id) (hnew : r.id ∉ s.appliedRevisions ∧ r.id ∉ known)
    (hcont : s.baseRevision = r.base ∨ s.baseRevision = none ∧ r.keyframe = 1) :
    ∃ s₁, applyRevision c known s (wireRow r) = .applied s₁ ∧ s₁.baseRevision = some r.id ∧
      s₁.baseState = foldRow c s.baseState r ∧
      s₁.appliedRevisions = insert r.id s.appliedRevisions := by
  obtain ⟨cs, hgen, hfold⟩ := genuine_wireRow hauth
  refine ⟨_, applyRevision_genuine hgen hbase hnew.1 hnew.2 ?_, rfl, (hfold _).symm, rfl⟩
  have hwire : (wireRow r).base = r.base := rfl
  unfold continues
  rcases hcont with heq | ⟨hnone, hkey⟩
  · cases hb : s.baseRevision with
    | none => simp [hwire, ← heq, hb]
    | some b => simp [hwire, ← heq, hb]
  · simp [hnone, wireRow, wireRevision, mapRevisionRow, hkey]

variable {rows : List WorkspaceRevision}

/-- Rows linked to each other are accepted in order, once the first of them is. -/
theorem accepts_linked (hcont : s.baseRevision = r.base ∨ s.baseRevision = none ∧ r.keyframe = 1)
    (hlink : LinkedLog.Linked WorkspaceRevision.id WorkspaceRevision.base (some r.id) rows)
    (hnodup : ((r :: rows).map (·.id)).Nodup) (hauth : ∀ r' ∈ r :: rows, Authentic c r')
    (hbase : s.baseRevision ≠ some r.id)
    (hnew : ∀ r' ∈ r :: rows, r'.id ∉ s.appliedRevisions ∧ r'.id ∉ known) :
    ∃ s', Accepts c known s ((r :: rows).map wireRow) s' ∧
      s'.baseRevision = lastKey WorkspaceRevision.id (some r.id) rows ∧
      s'.baseState = foldChain c s.baseState (r :: rows) := by
  induction rows generalizing r s with
  | nil =>
    obtain ⟨s₁, hstep, hrev, hstate, -⟩ := applyRevision_wireRow (hauth r mem_cons_self)
      hbase (hnew r mem_cons_self) hcont
    exact ⟨s₁, .cons hstep (.nil s₁), hrev, hstate⟩
  | cons r' rows ih =>
    obtain ⟨hprev, hlink⟩ := linked_cons _ _ _ |>.mp hlink
    rw [map_cons, nodup_cons] at hnodup
    have hne : ∀ r'' ∈ r' :: rows, r''.id ≠ r.id := fun r'' hr'' heq =>
      hnodup.1 (heq ▸ List.mem_map_of_mem hr'')
    obtain ⟨s₁, hstep, hrev, hstate, happ⟩ := applyRevision_wireRow (hauth r mem_cons_self)
      hbase (hnew r mem_cons_self) hcont
    have hnew₁ : ∀ r'' ∈ r' :: rows, r''.id ∉ s₁.appliedRevisions ∧ r''.id ∉ known := by
      intro r'' hr''
      have hold := hnew r'' (mem_cons_of_mem _ hr'')
      rw [happ, Finset.mem_insert, not_or]
      exact ⟨⟨hne r'' hr'', hold.1⟩, hold.2⟩
    have hbase₁ : s₁.baseRevision ≠ some r'.id := fun heq =>
      hne r' mem_cons_self (some.inj (hrev.symm.trans heq)).symm
    obtain ⟨s', hacc, hlast, hfold⟩ := ih (.inl (hrev.trans hprev.symm)) hlink hnodup.2
      (fun r'' hr'' => hauth r'' (mem_cons_of_mem _ hr'')) hbase₁ hnew₁
    refine ⟨s', .cons hstep hacc, ?_, ?_⟩
    · rw [hlast, lastKey_cons]
    · rw [hfold, hstate]
      rfl

/-! ### Catching up -/

variable (c) in
/-- The sessions that subscribe from `fromId`: one without a base when the chain does not have that
revision, else one that holds the fold of the chain up to it. -/
inductive StartsAt (rows : List WorkspaceRevision) (fromId : Option String) (s : ChainState E) :
    Prop
  | fresh (hunknown : ∀ r ∈ rows, fromId ≠ some r.id) (hrev : s.baseRevision = none)
      (hstate : s.baseState = ∅)
  | known (pre : List WorkspaceRevision) (r : WorkspaceRevision) (post : List WorkspaceRevision)
      (hrows : rows = pre ++ r :: post) (hfrom : fromId = some r.id)
      (hrev : s.baseRevision = fromId) (hstate : s.baseState = foldChain c ∅ (pre ++ [r]))

/-- The rows sent to a session, and what they do to it. -/
structure CaughtUp (c : WorkspaceCrypto E) (known : Finset String) (rows : List WorkspaceRevision)
    (sent : List RevisionRow) (s : ChainState E) : Prop where
  accepted : ∃ s', Accepts c known s (chainForWire sent) s' ∧
    applyChainToBase c known s (chainForWire sent) = (s', true) ∧
    s'.baseRevision = LinkedLog.lastKey WorkspaceRevision.id none rows ∧
    s'.baseState = foldChain c ∅ rows

theorem caughtUp_nil (hrev : s.baseRevision = lastKey WorkspaceRevision.id none rows)
    (hstate : s.baseState = foldChain c ∅ rows) : CaughtUp c known rows [] s :=
  ⟨s, .nil s, rfl, hrev, hstate⟩

/-- What is sent is the end of the chain, from a row on that the session can continue with. -/
theorem caughtUp_suffix
    (hlin : LinkedLog.Linear WorkspaceRevision.id WorkspaceRevision.base (pre ++ r :: post))
    (hauth : ∀ r' ∈ pre ++ r :: post, Authentic c r')
    (hcont : s.baseRevision = r.base ∨ s.baseRevision = none ∧ r.keyframe = 1)
    (hbase : s.baseRevision ≠ some r.id)
    (hnew : ∀ r' ∈ r :: post, r'.id ∉ s.appliedRevisions ∧ r'.id ∉ known)
    (hfold : foldRow c s.baseState r = foldRow c (foldChain c ∅ pre) r) :
    CaughtUp c known (pre ++ r :: post) ((r :: post).map mapRevisionRow) s := by
  have hlink := (linked_append.mp hlin.linked).2.2
  have hnodup : ((r :: post).map (·.id)).Nodup := by
    have h := hlin.nodup
    rw [map_append, nodup_append] at h
    exact h.2.1
  obtain ⟨s', hacc, hlast, hstate⟩ := accepts_linked hcont hlink hnodup
    (fun r' hr' => hauth r' (mem_append_right _ hr')) hbase hnew
  have hwire : chainForWire ((r :: post).map mapRevisionRow) = (r :: post).map wireRow := by
    rw [chainForWire, List.map_map]
    rfl
  refine ⟨s', hwire ▸ hacc, hwire ▸ hacc.applyChainToBase, ?_, ?_⟩
  · rw [hlast, lastKey_append, lastKey_cons]
  · rw [hstate, foldChain_append, foldChain_cons, foldChain_cons, hfold]

/-- A session that has the chain up to `r` is sent the rows after it. -/
theorem caughtUp_known (htable : TableInv db)
    (hlin : LinkedLog.Linear WorkspaceRevision.id WorkspaceRevision.base (rowsOf db tag))
    (hauth : ∀ r ∈ rowsOf db tag, Authentic c r) (hrows : rowsOf db tag = pre ++ r :: post)
    (hrev : s.baseRevision = some r.id) (hstate : s.baseState = foldChain c ∅ (pre ++ [r]))
    (hnew : ∀ r' ∈ chainFrom db tag (some r.id), r'.id ∉ s.appliedRevisions ∧ r'.id ∉ known) :
    CaughtUp c known (rowsOf db tag) (chainFrom db tag (some r.id)) s := by
  have hchain : chainFrom db tag (some r.id) = post.map mapRevisionRow := by
    rw [chainFrom, bind_some, seqOfId_eq hlin.nodup hrows]
    exact htable.chainAfterSeq_eq tag hrows
  rw [hchain] at hnew ⊢
  cases post with
  | nil =>
    refine caughtUp_nil ?_ ?_
    · rw [hrev, hrows, lastKey_append]
      rfl
    · rw [hstate, hrows]
  | cons r' post =>
    have hsplit : rowsOf db tag = (pre ++ [r]) ++ r' :: post := by rw [hrows]; simp
    have hlink := hlin.linked
    rw [hsplit, linked_append, linked_cons] at hlink
    have hne : r.id ≠ r'.id := by
      have h := hlin.nodup
      rw [hrows, map_append, nodup_append, map_cons, nodup_cons] at h
      exact fun heq => h.2.1.1 (heq ▸ List.mem_map_of_mem mem_cons_self)
    rw [hsplit]
    refine caughtUp_suffix (hsplit ▸ hlin) (hsplit ▸ hauth) (.inl ?_) ?_ ?_ ?_
    · rw [hrev, hlink.2.1, lastKey_append]
      rfl
    · rw [hrev]
      exact fun heq => hne (some.inj heq)
    · intro r'' hr''
      exact hnew (mapRevisionRow r'') (List.mem_map_of_mem hr'')
    · rw [hstate]

/-- A session without a base is sent the chain from the newest keyframe on, or all of it. -/
theorem caughtUp_fresh (htable : TableInv db)
    (hlin : LinkedLog.Linear WorkspaceRevision.id WorkspaceRevision.base (rowsOf db tag))
    (hauth : ∀ r ∈ rowsOf db tag, Authentic c r) {fromId : Option String}
    (hunknown : ∀ r ∈ rowsOf db tag, fromId ≠ some r.id)
    (hrev : s.baseRevision = none) (hstate : s.baseState = ∅)
    (hnew : ∀ r' ∈ chainFrom db tag fromId, r'.id ∉ s.appliedRevisions ∧ r'.id ∉ known) :
    CaughtUp c known (rowsOf db tag) (chainFrom db tag fromId) s := by
  -- the server does not know the revision:
  have hseq : fromId.bind (seqOfId db tag) = none := by
    rw [bind_eq_none_iff]
    exact fun k hk => seqOfId_eq_none fun r hr heq => hunknown r hr (heq ▸ hk)
  cases hkey : lastKeyframeSeq db tag with
  | some k =>
    obtain ⟨pre, r, post, hrows, hkf, rfl⟩ := TableInv.lastKeyframeSeq_eq tag hkey
    -- it sends the rows from the last keyframe on:
    have hchain : chainFrom db tag fromId = (r :: post).map mapRevisionRow := by
      simp only [chainFrom, hseq, hkey]
      exact htable.chainFromSeq_eq tag hrows
    rw [hchain] at hnew ⊢
    rw [hrows] at hlin hauth ⊢
    refine caughtUp_suffix hlin hauth (.inr ⟨hrev, hkf⟩) (by simp [hrev]) ?_ ?_
    · intro r'' hr''
      exact hnew (mapRevisionRow r'') (List.mem_map_of_mem hr'')
    · exact foldRow_keyframe (hauth r (by simp)) hkf _ _
  | none =>
    -- there is no keyframe, and it sends all:
    have hchain : chainFrom db tag fromId = (rowsOf db tag).map mapRevisionRow := by
      simp only [chainFrom, hseq, hkey]
      exact htable.chainAll_eq tag
    rw [hchain] at hnew ⊢
    cases hrows : rowsOf db tag with
    | nil => exact caughtUp_nil hrev hstate
    | cons r post =>
      rw [hrows] at hlin hauth hnew
      change CaughtUp c known ([] ++ r :: post) ((r :: post).map mapRevisionRow) s
      refine caughtUp_suffix hlin hauth (.inl ?_) (by simp [hrev]) ?_ ?_
      · rw [hrev, hlin.linked.1]
      · intro r'' hr''
        exact hnew (mapRevisionRow r'') (List.mem_map_of_mem hr'')
      · rw [hstate]
        rfl

/-- **Keyframe catch-up agrees with full replay.**  For every chain the relay can have stored and
every revision a subscriber may name, the rows `chainFrom` returns are all accepted in order and
lead to the head of the chain and the fold of the whole chain. -/
theorem catch_up {st : CommitState} (h : commitMachine.Reachable .init st) (tag : String)
    (fromId : Option String) (hauth : ∀ r ∈ rowsOf st.rows tag, Authentic c r)
    (hstart : StartsAt c (rowsOf st.rows tag) fromId s)
    (hnew : ∀ r ∈ chainFrom st.rows tag fromId, r.id ∉ s.appliedRevisions ∧ r.id ∉ known) :
    ∃ s', Accepts c known s (chainForWire (chainFrom st.rows tag fromId)) s' ∧
      applyChainToBase c known s (chainForWire (chainFrom st.rows tag fromId)) = (s', true) ∧
      s'.baseRevision = headFor st.rows tag ∧
      s'.baseState = foldChain c ∅ (rowsOf st.rows tag) := by
  have htable : TableInv st.rows := ((commitSimulation tag).inv_reachable commitInv_init h).table
  have hlin := LinkedLog.linear_reachable ((commitSimulation tag).reachable commitInv_init h)
    LinkedLog.linear_nil
  rw [htable.headFor_eq tag]
  cases hstart with
  | fresh hunknown hrev hstate =>
    exact (caughtUp_fresh htable hlin hauth hunknown hrev hstate hnew).accepted
  | known pre r post hrows hfrom hrev hstate =>
    subst hfrom
    exact (caughtUp_known htable hlin hauth hrows hrev hstate hnew).accepted

/-- A workspace whose revisions each set the finding named by their ciphertext. -/
def sampleCrypto : WorkspaceCrypto String where
  verifySave _ signature := signature = "sig"
  revisionId payload := payload.ciphertext
  decrypt _ _ ciphertext := some ((∅ : FMap String (Option String)).insert ciphertext (some "red"))

theorem authentic_sampleCrypto (h : r.signature = "sig" ∧ r.id = r.ciphertext) :
    Authentic sampleCrypto r :=
  ⟨by simp [sampleCrypto, h.1], h.2, rfl⟩

/-- Three saves, the second of them a keyframe. -/
def sampleLabels : List CommitLabel :=
  [.commitRevision 0 .sqlite ⟨"ws", "f1", none, false, "n", "f1", "sig"⟩, .statement 0,
   .commitRevision 1 .sqlite ⟨"ws", "f2", some "f1", true, "n", "f2", "sig"⟩, .statement 1,
   .commitRevision 2 .sqlite ⟨"ws", "f3", some "f2", false, "n", "f3", "sig"⟩, .statement 2]

/-- The state of the relay after them. -/
def sampleEnd : CommitState := (commitMachine.run .init sampleLabels).getD .init

theorem sampleEnd_run : commitMachine.run .init sampleLabels = some sampleEnd := rfl

/-- A session that has nothing yet. -/
def freshSession : ChainState String := ⟨none, ∅, ∅, none, 0⟩

/-- A subscriber with an unknown revision is sent the keyframe and what follows it. -/
theorem catch_up_keyframe :
    (chainFrom sampleEnd.rows "ws" (some "lost")).map (·.id) = ["f2", "f3"] ∧
      ∃ s', applyChainToBase sampleCrypto ∅ freshSession
          (chainForWire (chainFrom sampleEnd.rows "ws" (some "lost"))) = (s', true) ∧
        s'.baseRevision = headFor sampleEnd.rows "ws" := by
  refine ⟨by decide, ?_⟩
  have hrows : ∀ r ∈ rowsOf sampleEnd.rows "ws", r.signature = "sig" ∧ r.id = r.ciphertext := by
    decide
  have hnew : ∀ r ∈ chainFrom sampleEnd.rows "ws" (some "lost"),
      r.id ∉ freshSession.appliedRevisions ∧ r.id ∉ (∅ : Finset String) := by
    intro r _
    exact ⟨Finset.notMem_empty _, Finset.notMem_empty _⟩
  obtain ⟨s', -, happly, hhead, -⟩ := catch_up (c := sampleCrypto)
    (Machine.reachable_of_run sampleEnd_run) "ws" (some "lost")
    (fun r hr => authentic_sampleCrypto (hrows r hr)) (.fresh (by decide) rfl rfl) hnew
  exact ⟨s', happly, hhead⟩

end Triage.Sync
