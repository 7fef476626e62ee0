import Mathlib.Data.Finset.Card
import Triage.Relay.Hub

/-!
# What a subscriber is owed

The invariant of the hub: what a lookup under way has been kept from, and what one that has
published has sent. A row that is committed is either still to be broadcast, or in a frame sent
after the snapshot, or held back.

## Main results

* `HubInv.of_sameLookups` : the invariant through a step that leaves the lookups alone.
* `HubInv.commit`, `HubInv.finishSave` : the two steps of a save.
-/

namespace Triage.Relay

open List Option Function HubState Socket HubCall

/-! ### What the frames carry -/

/-- The save that wrote `row` is about to broadcast it, or came from the socket `k` itself, or has
put it into one of `frames`. -/
def Carried (s : HubState) (k : ℕ) (row : WorkspaceRevision) (frames : List Frame) : Prop :=
  ∃ q except, s.calls q = .broadcasting row except ∨
    s.calls q = .saved row except ∧ (except = some k ∨
      Frame.broadcast q row.workspaceTag (mapRevisionRow row) ∈ frames)

/-- The rows written since the table was `db` are carried by `frames`. -/
def CarriedSince (s : HubState) (k : ℕ) (tag : String) (db : List WorkspaceRevision)
    (frames : List Frame) : Prop :=
  ∃ later, s.rows = db ++ later ∧ ∀ row ∈ later, row.workspaceTag = tag → Carried s k row frames

/-- What a lookup answers with when it reads the table `seen`: the rows after the one named, or,
when the relay did not know it as the lookup began, all rows or the rows from a keyframe on. -/
inductive Covers (l : Lookup) (began seen : List WorkspaceRevision) (revisions : List RevisionRow) :
    Prop
  | after (pre : List WorkspaceRevision) (r : WorkspaceRevision) (post : List WorkspaceRevision)
      (hfrom : l.fromId = some r.id) (hrows : rowsOf seen l.tag = pre ++ r :: post)
      (hrevs : revisions = post.map mapRevisionRow)
  | keyframe (pre : List WorkspaceRevision) (r : WorkspaceRevision) (post : List WorkspaceRevision)
      (hunknown : ∀ r ∈ rowsOf began l.tag, l.fromId ≠ some r.id)
      (hkey : r.keyframe = 1) (hrows : rowsOf seen l.tag = pre ++ r :: post)
      (hrevs : revisions = (r :: post).map mapRevisionRow)
  | all (hunknown : ∀ r ∈ rowsOf began l.tag, l.fromId ≠ some r.id)
      (hrevs : revisions = (rowsOf seen l.tag).map mapRevisionRow)

/-- What the queries made so far have found. -/
def QueriesOk (s : HubState) : HubCall → Prop
  | .resources g => g.began <+: s.rows
  | .querySeqOfId g fromId => g.began <+: s.rows ∧ g.lookup.fromId = some fromId
  | .queryKeyframe g | .queryAll g =>
    g.began <+: s.rows ∧ ∀ r ∈ rowsOf g.began g.lookup.tag, g.lookup.fromId ≠ some r.id
  | .queryAfterSeq g seq =>
    g.began <+: s.rows ∧
      ∃ r ∈ rowsOf s.rows g.lookup.tag, g.lookup.fromId = some r.id ∧ r.seq = seq
  | .queryFromSeq g seq =>
    g.began <+: s.rows ∧ (∀ r ∈ rowsOf g.began g.lookup.tag, g.lookup.fromId ≠ some r.id) ∧
      ∃ r ∈ rowsOf s.rows g.lookup.tag, r.keyframe = 1 ∧ r.seq = seq
  | .reply g seen revisions =>
    g.began <+: seen ∧ seen <+: s.rows ∧ Covers g.lookup g.began seen revisions
  | _ => True

/-- A lookup that is current: nothing has been broadcast to its socket since it began, and what has
been written since is held back. -/
structure Reading (s : HubState) (g : Registration) : Prop where
  tags : g.lookup.tag ∈ (s.sockets g.lookup.socket).tags
  length : g.sentBefore ≤ (s.sockets g.lookup.socket).sent.length
  quiet : ∀ f ∈ (s.sockets g.lookup.socket).sent.drop g.sentBefore, f.isBroadcast = false
  carried : CarriedSince s g.lookup.socket g.lookup.tag g.began (s.sockets g.lookup.socket).held

/-- What a lookup that has published promises its socket. -/
structure Complete (s : HubState) (p : ℕ) (g : Registration) (seen : List WorkspaceRevision)
    (revisions : List RevisionRow) : Prop where
  tags : g.lookup.tag ∈ (s.sockets g.lookup.socket).tags
  began : g.began <+: seen
  covers : Covers g.lookup g.began seen revisions
  /-- The snapshot stands in the frames sent; between the start of the lookup and the snapshot there
  is no broadcast, and the frames after it, with those held back, carry what the table has had
  written to it since the snapshot was read. -/
  sent : ∃ pre post, (s.sockets g.lookup.socket).sent =
      pre ++ .subscribed p g.lookup.tag :: .snapshot p g.lookup.tag revisions :: post ∧
    g.sentBefore ≤ pre.length ∧ (∀ f ∈ pre.drop g.sentBefore, f.isBroadcast = false) ∧
    CarriedSince s g.lookup.socket g.lookup.tag seen
      (post ++ (s.sockets g.lookup.socket).held)

/-- Handler `p` holds a pause on socket `k`. -/
def Pausing (s : HubState) (k p : ℕ) : Prop :=
  (∃ g, (s.calls p).registration = some g ∧ g.lookup.socket = k) ∧ s.released p = false

/-- The pause of a socket counts the handlers that hold it. -/
def Counted (s : HubState) (k : ℕ) : Prop :=
  ∃ holders : Finset ℕ, (∀ p, p ∈ holders ↔ Pausing s k p) ∧
    match (s.sockets k).paused with
    | none => holders = ∅
    | some z => z.depth = holders.card ∧ holders.Nonempty

/-- What holds of every reachable state. -/
structure HubInv (s : HubState) : Prop where
  table : TableInv s.rows
  linear : ∀ tag, LinkedLog.Linear WorkspaceRevision.id WorkspaceRevision.base (rowsOf s.rows tag)
  queries : ∀ p, QueriesOk s (s.calls p)
  /-- A handler that has not registered has not released. -/
  unreleased : ∀ p, s.calls p = .idle ∨ (∃ l, s.calls p = .verifying l) → s.released p = false
  counted : ∀ k, (s.sockets k).isOpen → Counted s k
  current : ∀ k tag p, (s.sockets k).lookups tag = some p → ∃ g,
    (s.calls p).registration = some g ∧ g.lookup.socket = k ∧ g.lookup.tag = tag ∧
      s.released p = false
  reading : ∀ p g, (s.calls p).registration = some g → s.isCurrent p g.lookup → Reading s g
  complete : ∀ p g seen revisions, s.calls p = .published g seen revisions →
    (s.sockets g.lookup.socket).isOpen → Complete s p g seen revisions
  newest : ∀ k tag p, (s.sockets k).isOpen → (s.sockets k).newest tag = some p →
    (s.sockets k).lookups tag = some p ∨ ∃ g seen revisions,
      s.calls p = .published g seen revisions ∧ g.lookup.socket = k ∧ g.lookup.tag = tag
  /-- A socket that subscribes has been through a registration. -/
  subscribed : ∀ k tag, tag ∈ (s.sockets k).tags → ((s.sockets k).newest tag).isSome

theorem hubInv_init : HubInv .init where
  table := tableInv_nil
  linear tag := LinkedLog.linear_nil
  queries p := trivial
  unreleased p _ := rfl
  counted k _ := ⟨∅, fun p => by simp [Pausing, init, registration], rfl⟩
  current k tag p h := by cases h
  reading p g h := by cases h
  complete p g seen revisions h := by cases h
  newest k tag p _ h := by cases h
  subscribed k tag h := by simp [init, connected] at h

/-! ### One step, seen from a socket -/

/-- What a step does to a socket that is open after it; `news` is what it broadcasts to it. -/
structure SocketStep (k k' : Socket) (news : List Frame) : Prop where
  wasOpen : k.isOpen
  tags : k.tags ⊆ k'.tags
  grows : ∃ extra, k'.sent = k.sent ++ extra ∧ ∀ f ∈ k.held ++ news, f ∈ extra ++ k'.held

/-- What a step does to an open socket that stays paused. -/
structure QuietStep (k k' : Socket) (news : List Frame) : Prop where
  tags : k.tags ⊆ k'.tags
  grows : ∃ extra, k'.sent = k.sent ++ extra ∧ (∀ f ∈ extra, f.isBroadcast = false) ∧
    ∀ f ∈ k.held ++ news, f ∈ k'.held

/-- What a step does to the saves, seen from socket `k`. -/
structure SaveStep (s s' : HubState) (k : ℕ) (news : List Frame) : Prop where
  rows : ∃ new, s'.rows = s.rows ++ new ∧
    ∀ row ∈ new, ∃ q except, s'.calls q = .broadcasting row except
  /-- A broadcast that comes is part of `news` if `k` subscribes to the workspace. -/
  old : ∀ q row except, s.calls q = .broadcasting row except →
    row.workspaceTag ∈ (s.sockets k).tags →
    s'.calls q = .broadcasting row except ∨ s'.calls q = .saved row except ∧
      (except = some k ∨ Frame.broadcast q row.workspaceTag (mapRevisionRow row) ∈ news)
  done : ∀ q row except, s.calls q = .saved row except → s'.calls q = .saved row except

variable {s s' : HubState} {k p q : ℕ} {g : Registration} {news : List Frame}

theorem SocketStep.refl {k : Socket} (h : k.isOpen) : SocketStep k k [] :=
  ⟨h, subset_rfl, [], by simp, by simp⟩

theorem QuietStep.refl (k : Socket) : QuietStep k k [] :=
  ⟨subset_rfl, [], by simp, by simp, by simp⟩

variable {k₁ k₂ k₃ : Socket} {f : Socket → Socket} {except : Option ℕ}

theorem QuietStep.trans {news : List Frame} (h : QuietStep k₁ k₂ [])
    (h' : QuietStep k₂ k₃ news) : QuietStep k₁ k₃ news := by
  obtain ⟨extra, hsent, hquiet, hheld⟩ := h.grows
  obtain ⟨extra', hsent', hquiet', hheld'⟩ := h'.grows
  refine ⟨h.tags.trans h'.tags, extra ++ extra', ?_, ?_, ?_⟩
  · rw [hsent', hsent, append_assoc]
  · intro f hf
    rcases mem_append.mp hf with hf | hf
    · exact hquiet f hf
    · exact hquiet' f hf
  · intro f hf
    rcases mem_append.mp hf with hf | hf
    · exact hheld' f (mem_append_left _ (hheld f (mem_append_left _ hf)))
    · exact hheld' f (mem_append_right _ hf)

theorem SocketStep.trans {news : List Frame} (h : SocketStep k₁ k₂ [])
    (h' : SocketStep k₂ k₃ news) : SocketStep k₁ k₃ news := by
  obtain ⟨extra, hsent, hheld⟩ := h.grows
  obtain ⟨extra', hsent', hheld'⟩ := h'.grows
  refine ⟨h.wasOpen, h.tags.trans h'.tags, extra ++ extra', ?_, ?_⟩
  · rw [hsent', hsent, append_assoc]
  · intro f hf
    rw [append_assoc]
    rcases mem_append.mp hf with hf | hf
    · rcases mem_append.mp (hheld f (mem_append_left _ hf)) with hf | hf
      · exact mem_append_left _ hf
      · exact mem_append_right _ (hheld' f (mem_append_left _ hf))
    · exact mem_append_right _ (hheld' f (mem_append_right _ hf))

/-- The saves stay where they are. -/
theorem SaveStep.of_same (hrows : s'.rows = s.rows)
    (hbroad : ∀ q row except, s.calls q = .broadcasting row except →
      s'.calls q = .broadcasting row except)
    (hsaved : ∀ q row except, s.calls q = .saved row except → s'.calls q = .saved row except) :
    SaveStep s s' k [] where
  rows := ⟨[], by simp [hrows], by simp⟩
  old q row except h _ := .inl (hbroad q row except h)
  done := hsaved

theorem CarriedSince.step {tag : String} {db : List WorkspaceRevision} {frames frames' : List Frame}
    (h : CarriedSince s k tag db frames) (hs : SaveStep s s' k news)
    (htag : tag ∈ (s.sockets k).tags) (hf : ∀ f ∈ frames ++ news, f ∈ frames') :
    CarriedSince s' k tag db frames' := by
  obtain ⟨later, hrows, hlater⟩ := h
  obtain ⟨new, hrows', hnew⟩ := hs.rows
  refine ⟨later ++ new, by rw [hrows', hrows, append_assoc], fun row hrow ht => ?_⟩
  rcases mem_append.mp hrow with hrow | hrow
  · obtain ⟨q, except, hq | ⟨hq, hin⟩⟩ := hlater row hrow ht
    · rcases hs.old q row except hq (ht ▸ htag) with hq' | ⟨hq', hin⟩
      · exact ⟨q, except, .inl hq'⟩
      · refine ⟨q, except, .inr ⟨hq', hin.imp id fun hin => ?_⟩⟩
        exact hf _ (mem_append_right _ hin)
    · refine ⟨q, except, .inr ⟨hs.done q row except hq, hin.imp id fun hin => ?_⟩⟩
      exact hf _ (mem_append_left _ hin)
  · obtain ⟨q, except, hq⟩ := hnew row hrow
    exact ⟨q, except, .inl hq⟩

/-- A published lookup keeps its promise. -/
theorem Complete.step {seen : List WorkspaceRevision} {revisions : List RevisionRow}
    (h : Complete s p g seen revisions) (hs : SaveStep s s' g.lookup.socket news)
    (hk : SocketStep (s.sockets g.lookup.socket) (s'.sockets g.lookup.socket) news) :
    Complete s' p g seen revisions := by
  obtain ⟨pre, post, hsent, hlen, hquiet, hcarried⟩ := h.sent
  obtain ⟨extra, hsent', hheld⟩ := hk.grows
  refine ⟨hk.tags h.tags, h.began, h.covers, pre, post ++ extra, ?_, hlen, hquiet, ?_⟩
  · rw [hsent', hsent]
    simp
  · refine hcarried.step hs h.tags fun f hf => ?_
    rw [append_assoc] at hf ⊢
    rcases mem_append.mp hf with hf | hf
    · exact mem_append_left _ hf
    · exact mem_append_right _ (hheld f hf)

/-- A lookup under way stays undisturbed. -/
theorem Reading.step (h : Reading s g) (hs : SaveStep s s' g.lookup.socket news)
    (hk : QuietStep (s.sockets g.lookup.socket) (s'.sockets g.lookup.socket) news) :
    Reading s' g := by
  obtain ⟨extra, hsent, hquiet, hheld⟩ := hk.grows
  refine ⟨hk.tags h.tags, ?_, ?_, h.carried.step hs h.tags hheld⟩
  · rw [hsent, length_append]
    have hlen := h.length
    omega
  · rw [hsent, drop_append_of_le_length h.length]
    intro f hf
    rcases mem_append.mp hf with hf | hf
    · exact h.quiet f hf
    · exact hquiet f hf

/-! ### The operations of the hub -/

namespace Socket

variable (k : Socket)

theorem quietStep_send {k : Socket} {f : Frame} (hf : f.isBroadcast = false) :
    QuietStep k (k.send f) [] := by
  unfold send
  split_ifs
  · exact ⟨subset_rfl, [f], rfl, by simpa using hf, by simp [held]⟩
  · exact .refl k

theorem socketStep_send {k : Socket} (h : k.isOpen) (f : Frame) : SocketStep k (k.send f) [] := by
  unfold send
  rw [if_pos h]
  refine ⟨h, subset_rfl, [f], rfl, fun f' hf' => ?_⟩
  rw [append_nil] at hf'
  exact mem_append_right _ hf'

@[simp] theorem lookups_send (f : Frame) : (k.send f).lookups = k.lookups := by
  unfold send
  split_ifs <;> rfl

@[simp] theorem newest_send (f : Frame) : (k.send f).newest = k.newest := by
  unfold send
  split_ifs <;> rfl

@[simp] theorem tags_send (f : Frame) : (k.send f).tags = k.tags := by
  unfold send
  split_ifs <;> rfl

@[simp] theorem paused_send (f : Frame) : (k.send f).paused = k.paused := by
  unfold send
  split_ifs <;> rfl

@[simp] theorem isOpen_send (f : Frame) : (k.send f).isOpen = k.isOpen := by
  unfold send
  split_ifs <;> rfl

@[simp] theorem held_pauseBroadcasts : k.pauseBroadcasts.held = k.held := by
  unfold pauseBroadcasts
  split
  · rename_i h
    simp [held, h]
  · rename_i z h
    simp [held, h]

@[simp] theorem sent_pauseBroadcasts : k.pauseBroadcasts.sent = k.sent := by
  unfold pauseBroadcasts
  split <;> rfl

@[simp] theorem tags_pauseBroadcasts : k.pauseBroadcasts.tags = k.tags := by
  unfold pauseBroadcasts
  split <;> rfl

@[simp] theorem isOpen_pauseBroadcasts : k.pauseBroadcasts.isOpen = k.isOpen := by
  unfold pauseBroadcasts
  split <;> rfl

@[simp] theorem lookups_pauseBroadcasts : k.pauseBroadcasts.lookups = k.lookups := by
  unfold pauseBroadcasts
  split <;> rfl

@[simp] theorem newest_pauseBroadcasts : k.pauseBroadcasts.newest = k.newest := by
  unfold pauseBroadcasts
  split <;> rfl

@[simp] theorem tags_release : k.release.tags = k.tags := by
  unfold release
  split
  · rfl
  · split_ifs <;> rfl

@[simp] theorem isOpen_release : k.release.isOpen = k.isOpen := by
  unfold release
  split
  · rfl
  · split_ifs <;> rfl

@[simp] theorem lookups_release : k.release.lookups = k.lookups := by
  unfold release
  split
  · rfl
  · split_ifs <;> rfl

@[simp] theorem newest_release : k.release.newest = k.newest := by
  unfold release
  split
  · rfl
  · split_ifs <;> rfl

/-- A pause that is not the last one is released without sending anything. -/
theorem release_of_two {k : Socket} {z : Pause} (hz : k.paused = some z) (h : 2 ≤ z.depth) :
    k.release = { k with paused := some { z with depth := z.depth - 1 } } := by
  simp only [release, hz]
  rw [if_pos (by omega)]

theorem paused_release {k : Socket} {z : Pause} (hz : k.paused = some z) :
    k.release.paused = if 0 < z.depth - 1 then some { z with depth := z.depth - 1 } else none := by
  simp only [release, hz]
  by_cases h : 0 < z.depth - 1
  · rw [if_pos h, if_pos h]
  · rw [if_neg h, if_neg h]

theorem socketStep_release {k : Socket} (h : k.isOpen) : SocketStep k k.release [] := by
  unfold release
  split
  · exact .refl h
  · rename_i z hz
    split_ifs
    · exact ⟨h, subset_rfl, [], by simp, by simp [held, hz]⟩
    · exact ⟨h, subset_rfl, z.payloads, rfl, by simp [held, hz]⟩

theorem quietStep_release {k : Socket} {z : Pause} (hz : k.paused = some z) (h : 2 ≤ z.depth) :
    QuietStep k k.release [] := by
  rw [release_of_two hz h]
  exact ⟨subset_rfl, [], by simp, by simp, by simp [held, hz]⟩

variable (tag : String)

@[simp] theorem sent_deleteLookup (p : ℕ) : (k.deleteLookup tag p).sent = k.sent := by
  unfold deleteLookup
  split_ifs <;> rfl

@[simp] theorem held_deleteLookup (p : ℕ) : (k.deleteLookup tag p).held = k.held := by
  unfold deleteLookup
  split_ifs <;> rfl

@[simp] theorem paused_deleteLookup (p : ℕ) : (k.deleteLookup tag p).paused = k.paused := by
  unfold deleteLookup
  split_ifs <;> rfl

@[simp] theorem tags_deleteLookup (p : ℕ) : (k.deleteLookup tag p).tags = k.tags := by
  unfold deleteLookup
  split_ifs <;> rfl

@[simp] theorem isOpen_deleteLookup (p : ℕ) : (k.deleteLookup tag p).isOpen = k.isOpen := by
  unfold deleteLookup
  split_ifs <;> rfl

@[simp] theorem newest_deleteLookup (p : ℕ) : (k.deleteLookup tag p).newest = k.newest := by
  unfold deleteLookup
  split_ifs <;> rfl

/-- The lookups that stay when one is deleted. -/
theorem lookups_deleteLookup_eq {tag tag' : String} {p q : ℕ} :
    (k.deleteLookup tag p).lookups tag' = some q ↔
      k.lookups tag' = some q ∧ ¬(tag' = tag ∧ q = p) := by
  unfold deleteLookup
  split_ifs with h
  · by_cases ht : tag' = tag
    · subst ht
      simp [h, eq_comm]
    · simp [ht]
  · constructor
    · rintro hq
      refine ⟨hq, ?_⟩
      rintro ⟨rfl, rfl⟩
      exact h hq
    · exact fun hq => hq.1

theorem socketStep_fanOut {k : Socket} {f : Frame} {full : Bool} (h : (k.fanOut f full).isOpen) :
    SocketStep k (k.fanOut f full) [f] := by
  unfold fanOut at h ⊢
  split at h
  · rename_i hz
    by_cases hfull : full
    · simp [hfull] at h
    · simp only [hfull, Bool.false_eq_true, if_false] at h ⊢
      have hopen := k.isOpen_send f ▸ h
      simp only [send, if_pos hopen]
      exact ⟨hopen, subset_rfl, [f], rfl, by simp [held, hz]⟩
  · rename_i z hz
    by_cases hfull : full
    · simp [hfull] at h
    · simp only [hfull, Bool.false_eq_true, if_false] at h ⊢
      exact ⟨h, subset_rfl, [], by simp, by simp [held, hz]⟩

theorem quietStep_fanOut {k : Socket} {f : Frame} {full : Bool} (h : (k.fanOut f full).isOpen)
    (hz : k.paused ≠ none) : QuietStep k (k.fanOut f full) [f] := by
  unfold fanOut at h ⊢
  split at h
  · rename_i hnone
    exact absurd hnone hz
  · rename_i z hz
    by_cases hfull : full
    · simp [hfull] at h
    · simp only [hfull, Bool.false_eq_true, if_false]
      exact ⟨subset_rfl, [], by simp, by simp, by simp [held, hz]⟩

end Socket

/-! ### The queries -/

/-- A stage that later stages of the run refer to. -/
def HubCall.isKept : HubCall → Bool
  | .published .. | .broadcasting .. | .saved .. => true
  | _ => false

theorem QueriesOk.mono {c : HubCall} (h : QueriesOk s c) (hrows : s.rows <+: s'.rows) :
    QueriesOk s' c := by
  have hmem : ∀ {tag r}, r ∈ rowsOf s.rows tag → r ∈ rowsOf s'.rows tag :=
    fun hr => (rowsOf_mono hrows _).subset hr
  cases c with
  | resources g => exact List.IsPrefix.trans h hrows
  | querySeqOfId g fromId => exact ⟨h.1.trans hrows, h.2⟩
  | queryKeyframe g => exact ⟨h.1.trans hrows, h.2⟩
  | queryAll g => exact ⟨h.1.trans hrows, h.2⟩
  | queryAfterSeq g seq =>
    obtain ⟨hpre, r, hr, hrest⟩ := h
    exact ⟨hpre.trans hrows, r, hmem hr, hrest⟩
  | queryFromSeq g seq =>
    obtain ⟨hpre, hunknown, r, hr, hrest⟩ := h
    exact ⟨hpre.trans hrows, hunknown, r, hmem hr, hrest⟩
  | reply g seen revisions => exact ⟨h.1, h.2.1.trans hrows, h.2.2⟩
  | _ => trivial

/-- What the next query finds. -/
theorem HubInv.queriesOk_afterQuery (hinv : HubInv s) {c c' : HubCall} (h : QueriesOk s c)
    (hc : c.afterQuery s.rows = some c') :
    QueriesOk s c' ∧ c'.registration = c.registration ∧ c.isKept = false ∧ c'.isKept = false ∧
      c'.registration ≠ none := by
  cases c with
  | querySeqOfId g fromId =>
    obtain ⟨hpre, hfrom⟩ := h
    by_cases hknown : ∃ r ∈ rowsOf s.rows g.lookup.tag, r.id = fromId
    · obtain ⟨r, hr, rfl⟩ := hknown
      obtain ⟨pre, post, hrows⟩ := append_of_mem hr
      rw [afterQuery, seqOfId_eq (hinv.linear g.lookup.tag).nodup hrows] at hc
      cases hc
      exact ⟨⟨hpre, r, hr, hfrom, rfl⟩, rfl, rfl, rfl, nofun⟩
    · push Not at hknown
      rw [afterQuery, seqOfId_eq_none hknown] at hc
      cases hc
      refine ⟨⟨hpre, fun r hr heq => ?_⟩, rfl, rfl, rfl, nofun⟩
      rw [hfrom, Option.some.injEq] at heq
      exact hknown r ((rowsOf_mono hpre _).subset hr) heq.symm
  | queryKeyframe g =>
    obtain ⟨hpre, hunknown⟩ := h
    cases hk : lastKeyframeSeq s.rows g.lookup.tag with
    | none =>
      rw [afterQuery, hk] at hc
      cases hc
      exact ⟨⟨hpre, hunknown⟩, rfl, rfl, rfl, nofun⟩
    | some seq =>
      rw [afterQuery, hk] at hc
      cases hc
      obtain ⟨pre, r, post, hrows, hkey, hseq⟩ := TableInv.lastKeyframeSeq_eq _ hk
      exact ⟨⟨hpre, hunknown, r, by simp [hrows], hkey, hseq⟩, rfl, rfl, rfl, nofun⟩
  | queryAfterSeq g seq =>
    obtain ⟨hpre, r, hr, hfrom, rfl⟩ := h
    obtain ⟨pre, post, hrows⟩ := append_of_mem hr
    cases hc
    exact ⟨⟨hpre, prefix_rfl,
      .after pre r post hfrom hrows (hinv.table.chainAfterSeq_eq _ hrows)⟩, rfl, rfl, rfl, nofun⟩
  | queryFromSeq g seq =>
    obtain ⟨hpre, hunknown, r, hr, hkey, rfl⟩ := h
    obtain ⟨pre, post, hrows⟩ := append_of_mem hr
    cases hc
    exact ⟨⟨hpre, prefix_rfl, .keyframe pre r post hunknown hkey hrows
      (hinv.table.chainFromSeq_eq _ hrows)⟩, rfl, rfl, rfl, nofun⟩
  | queryAll g =>
    obtain ⟨hpre, hunknown⟩ := h
    cases hc
    exact ⟨⟨hpre, prefix_rfl, .all hunknown (hinv.table.chainAll_eq _)⟩, rfl, rfl, rfl, nofun⟩
  | _ => cases hc

namespace HubState

variable (s : HubState)

@[simp] theorem sockets_onSocket_self (k : ℕ) (f : Socket → Socket) :
    (s.onSocket k f).sockets k = f (s.sockets k) := update_self ..

theorem sockets_onSocket_of_ne {s : HubState} {k k' : ℕ} {f : Socket → Socket} (h : ¬k' = k) :
    (s.onSocket k f).sockets k' = s.sockets k' := update_of_ne h ..

end HubState

/-! ### Steps that leave the lookups alone -/

/-- The lookups, their pauses and their handlers stay as they are. -/
structure SameLookups (s s' : HubState) : Prop where
  lookups : ∀ k, (s'.sockets k).lookups = (s.sockets k).lookups
  newest : ∀ k, (s'.sockets k).newest = (s.sockets k).newest
  tags : ∀ k, (s'.sockets k).tags ⊆ (s.sockets k).tags
  depth : ∀ k, (s'.sockets k).isOpen →
    (s'.sockets k).paused.map Pause.depth = (s.sockets k).paused.map Pause.depth
  registration : ∀ p, (s'.calls p).registration = (s.calls p).registration
  published : ∀ p g seen revisions,
    s'.calls p = .published g seen revisions ↔ s.calls p = .published g seen revisions
  released : s'.released = s.released

theorem SameLookups.pausing (h : SameLookups s s') : Pausing s' k p ↔ Pausing s k p := by
  simp only [Pausing, h.registration, h.released]

/-- A current lookup holds a pause. -/
theorem HubInv.paused_of_current (hinv : HubInv s) {l : Lookup}
    (hopen : (s.sockets l.socket).isOpen) (hcur : (s.sockets l.socket).lookups l.tag = some p) :
    ∃ z holders, (s.sockets l.socket).paused = some z ∧ z.depth = Finset.card holders ∧
      (∀ q, q ∈ holders ↔ Pausing s l.socket q) ∧ p ∈ holders := by
  obtain ⟨g, hreg, hsock, -, hrel⟩ := hinv.current _ _ _ hcur
  obtain ⟨holders, hmem, hpaused⟩ := hinv.counted _ hopen
  have hp : p ∈ holders := (hmem p).mpr ⟨⟨g, hreg, hsock⟩, hrel⟩
  split at hpaused
  · rw [hpaused] at hp
    exact absurd hp (Finset.notMem_empty p)
  · rename_i z hz
    exact ⟨z, holders, hz, hpaused.1, hmem, hp⟩

theorem HubInv.of_sameLookups (hinv : HubInv s) (h : SameLookups s s') (htable : TableInv s'.rows)
    (hlinear : ∀ tag,
      LinkedLog.Linear WorkspaceRevision.id WorkspaceRevision.base (rowsOf s'.rows tag))
    (hqueries : ∀ p, QueriesOk s' (s'.calls p))
    (hunreleased : ∀ p, s'.calls p = .idle ∨ (∃ l, s'.calls p = .verifying l) →
      s.released p = false) (hsockets : ∀ k, (s'.sockets k).isOpen → ∃ news, SaveStep s s' k news ∧
      SocketStep (s.sockets k) (s'.sockets k) news ∧
      ((s.sockets k).paused ≠ none → QuietStep (s.sockets k) (s'.sockets k) news)) :
    HubInv s' where
  table := htable
  linear := hlinear
  queries := hqueries
  unreleased p hp := by rw [h.released]; exact hunreleased p hp
  counted k hopen := by
    obtain ⟨_, _, hstep, _⟩ := hsockets k hopen
    obtain ⟨holders, hmem, hpaused⟩ := hinv.counted k hstep.wasOpen
    refine ⟨holders, fun p => (hmem p).trans h.pausing.symm, ?_⟩
    have hdepth := h.depth k hopen
    cases hz : (s.sockets k).paused with
    | none =>
      rw [hz] at hdepth hpaused
      rw [map_none, map_eq_none_iff] at hdepth
      rw [hdepth]
      exact hpaused
    | some z =>
      rw [hz] at hdepth hpaused
      rw [map_some, map_eq_some_iff] at hdepth
      obtain ⟨z', hz', hd⟩ := hdepth
      rw [hz']
      exact ⟨hd.trans hpaused.1, hpaused.2⟩
  current k tag p hp := by
    rw [h.lookups] at hp
    obtain ⟨g, hreg, hsock, htag, hrel⟩ := hinv.current k tag p hp
    exact ⟨g, by rw [h.registration, hreg], hsock, htag, by rw [h.released, hrel]⟩
  reading p g hreg hcur := by
    rw [h.registration] at hreg
    obtain ⟨hopen', hcur'⟩ := Bool.and_eq_true_iff.mp hcur
    obtain ⟨news, hsave, hstep, hquiet⟩ := hsockets g.lookup.socket hopen'
    rw [h.lookups, decide_eq_true_eq] at hcur'
    obtain ⟨z, -, hz, -⟩ := hinv.paused_of_current hstep.wasOpen hcur'
    have hcurs : s.isCurrent p g.lookup := by
      rw [isCurrent, hcur', hstep.wasOpen]
      simp
    exact (hinv.reading p g hreg hcurs).step hsave (hquiet (by simp [hz]))
  complete p g seen revisions hp hopen := by
    obtain ⟨news, hsave, hstep, _⟩ := hsockets g.lookup.socket hopen
    rw [h.published] at hp
    exact (hinv.complete p g seen revisions hp hstep.wasOpen).step hsave hstep
  newest k tag p hopen hp := by
    obtain ⟨_, _, hstep, _⟩ := hsockets k hopen
    rw [h.newest] at hp
    rcases hinv.newest k tag p hstep.wasOpen hp with hcur | ⟨g, seen, revisions, hpub, hsock, htag⟩
    · exact .inl (by rw [h.lookups, hcur])
    · exact .inr ⟨g, seen, revisions, (h.published p g seen revisions).mpr hpub, hsock, htag⟩
  subscribed k tag hk := by
    rw [h.newest]
    exact hinv.subscribed k tag (h.tags k hk)

/-- Handler `p` moves to stage `c`, with the same lookup under way. -/
structure Moves (s s' : HubState) (p : ℕ) (c : HubCall) : Prop where
  calls : s'.calls = update s.calls p c
  released : s'.released = s.released
  registration : c.registration = (s.calls p).registration
  old : ∀ g seen revisions, s.calls p ≠ .published g seen revisions
  new : ∀ g seen revisions, c ≠ .published g seen revisions
  idle : c = .idle ∨ (∃ l, c = .verifying l) → s.released p = false

namespace Moves

variable {c : HubCall} (h : Moves s s' p c)
include h

theorem self : s'.calls p = c := by rw [h.calls, update_self]

theorem of_ne (hq : ¬q = p) : s'.calls q = s.calls q := by rw [h.calls, update_of_ne hq]

theorem registration_eq (q : ℕ) : (s'.calls q).registration = (s.calls q).registration := by
  by_cases hq : q = p
  · rw [hq, h.self, h.registration]
  · rw [h.of_ne hq]

theorem published_iff (q : ℕ) (g : Registration) (seen : List WorkspaceRevision)
    (revisions : List RevisionRow) :
    s'.calls q = .published g seen revisions ↔ s.calls q = .published g seen revisions := by
  by_cases hq : q = p
  · rw [hq, h.self]
    exact ⟨fun hc => absurd hc (h.new g seen revisions),
      fun hc => absurd hc (h.old g seen revisions)⟩
  · rw [h.of_ne hq]

theorem queries (hinv : HubInv s) (hrows : s.rows <+: s'.rows) (hc : QueriesOk s c) (q : ℕ) :
    QueriesOk s' (s'.calls q) := by
  by_cases hq : q = p
  · rw [hq, h.self]
    exact hc.mono hrows
  · rw [h.of_ne hq]
    exact (hinv.queries q).mono hrows

theorem unreleased (hinv : HubInv s) (q : ℕ)
    (hq : s'.calls q = .idle ∨ ∃ l, s'.calls q = .verifying l) : s.released q = false := by
  by_cases hqp : q = p
  · rw [hqp, h.self] at hq
    exact hqp ▸ h.idle hq
  · rw [h.of_ne hqp] at hq
    exact hinv.unreleased q hq

/-- A stage the handler was not at is kept. -/
theorem keeps {c' : HubCall} (hc' : s.calls p ≠ c') (hq : s.calls q = c') : s'.calls q = c' := by
  by_cases hqp : q = p
  · rw [hqp] at hq
    exact absurd hq hc'
  · rw [h.of_ne hqp, hq]

end Moves

section

variable (hinv : HubInv s)
include hinv

/-- A step of handler `p` that leaves the table, the sockets and the pauses as they are. -/
theorem HubInv.setCall {c : HubCall} (hreg : c.registration = (s.calls p).registration)
    (hold : (s.calls p).isKept = false) (hnew : c.isKept = false) (hq : QueriesOk s c)
    (hidle : c = .idle ∨ (∃ l, c = .verifying l) → s.released p = false) :
    HubInv (s.setCall p c) := by
  have hkept : ∀ c' : HubCall, c'.isKept → s.calls p ≠ c' := by
    rintro c' hc' rfl
    rw [hold] at hc'
    cases hc'
  have hpub : ∀ g seen revisions, c ≠ .published g seen revisions := by
    intro g seen revisions hc
    rw [hc] at hnew
    cases hnew
  have hmoves : Moves s (s.setCall p c) p c :=
    ⟨rfl, rfl, hreg, fun _ _ _ => hkept _ rfl, hpub, hidle⟩
  refine hinv.of_sameLookups ⟨fun _ => rfl, fun _ => rfl, fun _ => subset_rfl, fun _ _ => rfl,
    hmoves.registration_eq, hmoves.published_iff, rfl⟩ hinv.table hinv.linear
    (hmoves.queries hinv prefix_rfl hq) (hmoves.unreleased hinv) fun k hopen => ?_
  exact ⟨[], .of_same rfl (fun _ _ _ => hmoves.keeps (hkept _ rfl))
    (fun _ _ _ => hmoves.keeps (hkept _ rfl)), .refl hopen, fun _ => .refl _⟩

/-- A step that changes one socket, by an operation that leaves its lookups and pauses alone. -/
theorem HubInv.onSocket (hlookups : (f (s.sockets k)).lookups = (s.sockets k).lookups)
    (hnewest : (f (s.sockets k)).newest = (s.sockets k).newest)
    (htags : (f (s.sockets k)).tags ⊆ (s.sockets k).tags) (hopen : (f (s.sockets k)).isOpen →
      (f (s.sockets k)).paused = (s.sockets k).paused ∧
      SocketStep (s.sockets k) (f (s.sockets k)) [] ∧
      QuietStep (s.sockets k) (f (s.sockets k)) []) : HubInv (s.onSocket k f) := by
  have hcases : ∀ (P : ℕ → Socket → Prop), P k (f (s.sockets k)) →
      (∀ k', P k' (s.sockets k')) → ∀ k', P k' ((s.onSocket k f).sockets k') := by
    intro P hk hother k'
    by_cases hkk : k' = k
    · rwa [hkk, sockets_onSocket_self]
    · rw [sockets_onSocket_of_ne hkk]
      exact hother k'
  have hsave : ∀ k', SaveStep s (s.onSocket k f) k' [] := fun k' =>
    .of_same rfl (fun _ _ _ h => h) (fun _ _ _ h => h)
  refine hinv.of_sameLookups ⟨?_, ?_, ?_, ?_, fun _ => rfl, fun _ _ _ _ => Iff.rfl, rfl⟩
    hinv.table hinv.linear (fun q => (hinv.queries q).mono prefix_rfl) hinv.unreleased ?_
  · exact hcases (fun k' socket => socket.lookups = (s.sockets k').lookups) hlookups fun _ => rfl
  · exact hcases (fun k' socket => socket.newest = (s.sockets k').newest) hnewest fun _ => rfl
  · exact hcases (fun k' socket => socket.tags ⊆ (s.sockets k').tags) htags fun _ => subset_rfl
  · exact hcases (fun k' socket => socket.isOpen →
      socket.paused.map Pause.depth = (s.sockets k').paused.map Pause.depth)
      (fun h => by rw [(hopen h).1]) fun _ _ => rfl
  · refine hcases (fun k' socket => socket.isOpen → ∃ news, SaveStep s (s.onSocket k f) k' news ∧
      SocketStep (s.sockets k') socket news ∧
      ((s.sockets k').paused ≠ none → QuietStep (s.sockets k') socket news)) ?_ ?_
    · exact fun h => ⟨[], hsave k, (hopen h).2.1, fun _ => (hopen h).2.2⟩
    · exact fun k' h => ⟨[], hsave k', .refl h, fun _ => .refl _⟩

theorem HubInv.send {f : Frame} (hf : f.isBroadcast = false) :
    HubInv (s.onSocket k fun socket => socket.send f) := by
  refine hinv.onSocket (by simp) (by simp) (by simp) fun h => ⟨by simp, ?_, ?_⟩
  · exact socketStep_send (by simpa using h) f
  · exact quietStep_send hf

/-- A socket that is closed and dropped from the hub. -/
theorem HubInv.onClosed (hlookups : (f (s.sockets k)).lookups = (s.sockets k).lookups)
    (hnewest : (f (s.sockets k)).newest = (s.sockets k).newest)
    (htags : (f (s.sockets k)).tags ⊆ (s.sockets k).tags)
    (hclosed : (f (s.sockets k)).isOpen = false) : HubInv (s.onSocket k f) :=
  hinv.onSocket hlookups hnewest htags fun h => by
    rw [hclosed] at h
    cases h

/-- A row is inserted, and its broadcast is still to come. -/
theorem HubInv.commit {input : RevisionInsert}
    {row : WorkspaceRevision} (hq : s.calls q = .committing input except)
    (hrow : gatedInsert s.rows input = some row) (huniq : uniqueViolation s.rows row = false) :
    HubInv ({ s with rows := s.rows ++ [row] }.setCall q (.broadcasting row except)) := by
  obtain ⟨htag, hid, hbase, -, hnew, hhead⟩ := gatedInsert_spec hinv.table hrow
  have hmoves : Moves s ({ s with rows := s.rows ++ [row] }.setCall q (.broadcasting row except)) q
      (.broadcasting row except) :=
    ⟨rfl, rfl, by rw [hq]; rfl, by rw [hq]; exact fun _ _ _ => nofun, fun _ _ _ => nofun,
      by rintro (h | ⟨l, h⟩) <;> cases h⟩
  refine hinv.of_sameLookups ⟨fun _ => rfl, fun _ => rfl, fun _ => subset_rfl, fun _ _ => rfl,
    hmoves.registration_eq, hmoves.published_iff, rfl⟩
    (hinv.table.insert hinv.table prefix_rfl hrow huniq).2 (fun tag => ?_)
    (hmoves.queries hinv (prefix_append ..) trivial) (hmoves.unreleased hinv)
    fun k hopen => ⟨[], ?_, .refl hopen, fun _ => .refl _⟩
  · change LinkedLog.Linear _ _ (rowsOf (s.rows ++ [row]) tag)
    rw [rowsOf_append]
    by_cases ht : row.workspaceTag = tag
    · rw [if_pos ht]
      have htag' : input.tag = tag := htag.symm.trans ht
      rw [htag'] at hnew hhead
      exact (hinv.linear tag).snoc (hbase.trans hhead) (hid ▸ hnew)
    · rw [if_neg ht, append_nil]
      exact hinv.linear tag
  · refine ⟨⟨[row], rfl, fun r hr => ?_⟩, fun q' r e h _ => .inl ?_, fun q' r e h => ?_⟩
    · rw [mem_singleton] at hr
      subst hr
      exact ⟨q, except, hmoves.self⟩
    · exact hmoves.keeps (by rw [hq]; exact nofun) h
    · exact hmoves.keeps (by rw [hq]; exact nofun) h

end

/-- What the reply to a save does to a socket. -/
theorem HubState.sockets_replySave (except : Option ℕ) (k : ℕ) :
    (s.replySave q except).sockets k =
      if except = some k then (s.sockets k).send (.saveReply q) else s.sockets k := by
  cases except with
  | none => simp [replySave]
  | some k' =>
    by_cases hk : k = k'
    · subst hk
      simp [replySave]
    · rw [replySave, sockets_onSocket_of_ne hk, if_neg (by simpa using Ne.symm hk)]

@[simp] theorem Socket.lookups_fanOut (k : Socket) (f : Frame) (full : Bool) :
    (k.fanOut f full).lookups = k.lookups := by
  unfold fanOut
  split <;> split_ifs <;> simp

@[simp] theorem Socket.newest_fanOut (k : Socket) (f : Frame) (full : Bool) :
    (k.fanOut f full).newest = k.newest := by
  unfold fanOut
  split <;> split_ifs <;> simp

@[simp] theorem Socket.tags_fanOut (k : Socket) (f : Frame) (full : Bool) :
    (k.fanOut f full).tags = k.tags := by
  unfold fanOut
  split <;> split_ifs <;> simp

/-- A broadcast to a socket that stays open leaves the depth of its pause. -/
theorem Socket.depth_fanOut {k : Socket} {f : Frame} {full : Bool} (h : (k.fanOut f full).isOpen) :
    (k.fanOut f full).paused.map Pause.depth = k.paused.map Pause.depth := by
  unfold fanOut at h ⊢
  split
  · rename_i hz
    by_cases hfull : full
    · simp [hfull]
    · simp [hfull]
  · rename_i z hz
    by_cases hfull : full
    · simp [hfull, hz] at h
    · simp [hfull, hz]

/-- **The broadcast of a save.**  A subscriber that stays open is sent the row, or it is held back
for it, unless the save came from it. -/
theorem HubInv.finishSave (hinv : HubInv s) {row : WorkspaceRevision}
    {full : Finset ℕ} (hq : s.calls q = .broadcasting row except) :
    HubInv (((s.broadcast row.workspaceTag (.broadcast q row.workspaceTag (mapRevisionRow row))
      except full).replySave q except).setCall q (.saved row except)) := by
  generalize hs' : ((s.broadcast row.workspaceTag
    (.broadcast q row.workspaceTag (mapRevisionRow row)) except full).replySave q
      except).setCall q (.saved row except) = s'
  have hrows : s'.rows = s.rows := by
    subst hs'
    cases except <;> rfl
  have hmoves : Moves s s' q (.saved row except) := by
    subst hs'
    refine ⟨?_, ?_, by rw [hq]; rfl, by rw [hq]; exact fun _ _ _ => nofun, fun _ _ _ => nofun, ?_⟩
    · cases except <;> rfl
    · cases except <;> rfl
    · rintro (h | ⟨l, h⟩) <;> cases h
  have hframe : ∀ k, s'.sockets k =
      if except = some k then (s.sockets k).send (.saveReply q)
      else if row.workspaceTag ∈ (s.sockets k).tags then
        (s.sockets k).fanOut (.broadcast q row.workspaceTag (mapRevisionRow row)) (k ∈ full)
      else s.sockets k := by
    intro k
    subst hs'
    change (replySave _ q except).sockets k = _
    rw [sockets_replySave]
    by_cases hk : except = some k
    · simp [hk, broadcast]
    · simp [hk, broadcast]
  -- the saves that have broadcast stay, and this one joins them
  have hsave : ∀ k news, (row.workspaceTag ∈ (s.sockets k).tags → except = some k ∨
      Frame.broadcast q row.workspaceTag (mapRevisionRow row) ∈ news) →
      SaveStep s s' k news := by
    intro k news hnews
    refine ⟨⟨[], by simp [hrows], by simp⟩, fun q' r e h ht => ?_, fun q' r e h => ?_⟩
    · by_cases hqq : q' = q
      · rw [hqq, hq] at h
        cases h
        rw [hqq]
        exact .inr ⟨hmoves.self, hnews ht⟩
      · exact .inl (by rw [hmoves.of_ne hqq, h])
    · exact hmoves.keeps (by rw [hq]; exact nofun) h
  refine hinv.of_sameLookups ⟨fun k => ?_, fun k => ?_, fun k => ?_, fun k hopen => ?_,
    hmoves.registration_eq, hmoves.published_iff, hmoves.released⟩ (hrows ▸ hinv.table)
    (hrows ▸ hinv.linear) (hmoves.queries hinv (hrows ▸ prefix_rfl) trivial)
    (hmoves.unreleased hinv) fun k hopen => ?_
  · rw [hframe]
    split_ifs <;> simp
  · rw [hframe]
    split_ifs <;> simp
  · rw [hframe]
    split_ifs <;> simp
  · rw [hframe] at hopen ⊢
    split_ifs at hopen ⊢ with h₁ h₂
    · simp
    · exact depth_fanOut hopen
    · rfl
  · rw [hframe] at hopen ⊢
    split_ifs at hopen ⊢ with h₁ h₂
    · exact ⟨[], hsave k _ fun _ => .inl h₁, socketStep_send (by simpa using hopen) _,
        fun _ => quietStep_send rfl⟩
    · exact ⟨_, hsave k [_] fun _ => .inr (mem_singleton_self _),
        socketStep_fanOut hopen, quietStep_fanOut hopen⟩
    · exact ⟨[], hsave k _ fun h => absurd h h₂, .refl hopen, fun _ => .refl _⟩

end Triage.Relay
