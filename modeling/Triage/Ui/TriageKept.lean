import Triage.Ui.TriageAdopt

/-!
# What the server returns

What the server returns was written in an order: what this tab wrote of a finding, in the order of
its edits. So an entry that it returns, where the last edit is among the writes it knows, is that
edit or a later write of someone else.

## Main results

* `Sound.replaced` : what replaces an edit that the server knew.
* `moved_settle`, `Sound.turn` : answers and adoptions keep a finding sound.
-/

namespace Triage.Ui

open Client List Nat Change

/-- The write of a version of this tab is among the writes. -/
def Has (log : List ServerWrite) (version : ℕ) : Prop := ∃ w ∈ log, w.mine = some version

instance (log : List ServerWrite) (version : ℕ) : Decidable (Has log version) :=
  inferInstanceAs (Decidable (∃ w ∈ log, _))

/-- The write of a change. -/
def Change.write (c : Change) : ServerWrite := ⟨c.wire, some c.version⟩

variable {v : ℕ}

theorem Has.mono {l l' : List ServerWrite} (hsub : l <:+ l') (h : Has l v) : Has l' v := by
  obtain ⟨w, hw, hmine⟩ := h
  exact ⟨w, hsub.subset hw, hmine⟩

/-- The versions that this tab wrote, the last first. -/
def ownVersions (log : List ServerWrite) : List ℕ := log.filterMap (·.mine)

theorem mem_ownVersions {log : List ServerWrite} : v ∈ ownVersions log ↔ Has log v :=
  List.mem_filterMap

namespace TriageTab

variable {s s' : TriageTab} {f id : String}

/-- What holds of a finding at the server and here. -/
structure Sound (s : TriageTab) (f : String) : Prop where
  base : s.Base f
  sorted : (ownVersions (s.log f)).Pairwise (· ≥ ·)
  current : ∀ w ∈ s.log f, w.mine = some (s.version f) → w.wire = s.wireOf f
  stamp : ∀ b, s.baseline f = some b → b.stamp < s.stamps

theorem findSome?_eq_head? (l : List ServerWrite) :
    l.findSome? (·.mine) = (ownVersions l).head? := by
  induction l with
  | nil => rfl
  | cons w l ih =>
    rw [findSome?_cons, ownVersions, filterMap_cons]
    cases w.mine with
    | none => exact ih
    | some v => rfl

/-- What was written last of this tab's is the newest. -/
theorem le_serverVersion (hsorted : (ownVersions (s.log f)).Pairwise (· ≥ ·))
    (h : Has (s.log f) v) : v ≤ s.serverVersion f := by
  rw [serverVersion, findSome?_eq_head?]
  have hmem := mem_ownVersions.2 h
  cases hl : ownVersions (s.log f) with
  | nil =>
    rw [hl] at hmem
    cases hmem
  | cons v' vs =>
    rw [hl] at hmem hsorted
    rcases mem_cons.1 hmem with rfl | hmem
    · exact le_refl _
    · exact (pairwise_cons.1 hsorted).1 v hmem

theorem Sound.le (h : s.Sound f) (hhas : Has (s.log f) v) : v ≤ s.version f :=
  (le_serverVersion h.sorted hhas).trans h.base.serverVersion_le

/-- The writes that the server knew when it had the last edit: what it returns is that edit, or
was written after it by someone else. -/
theorem Sound.replaced (h : s.Sound f) {l : List ServerWrite} (hsub : l <:+ s.log f)
    (hhas : Has l (s.version f)) :
    ∃ w ws, l = w :: ws ∧
      (w.wire = s.wireOf f ∨ w.mine = none ∧ ⟨s.wireOf f, some (s.version f)⟩ ∈ ws) := by
  obtain ⟨x, hx, hmine⟩ := hhas
  have hwire : x.wire = s.wireOf f := h.current x (hsub.subset hx) hmine
  have hself : x = ⟨s.wireOf f, some (s.version f)⟩ := by rw [← hwire, ← hmine]
  cases l with
  | nil => cases hx
  | cons w ws =>
    refine ⟨w, ws, rfl, ?_⟩
    have hwlog : w ∈ s.log f := hsub.subset (by simp)
    cases hw : w.mine with
    | none =>
      right
      rcases mem_cons.1 hx with rfl | hx
      · rw [hw] at hmine
        cases hmine
      · exact ⟨rfl, hself ▸ hx⟩
    | some v =>
      left
      -- the versions go down, and none is above the last edit's
      have hle : v ≤ s.version f := h.le ⟨w, hwlog, hw⟩
      have hge : s.version f ≤ v := by
        rcases mem_cons.1 hx with rfl | hx
        · rw [hw, Option.some.injEq] at hmine
          exact hmine.ge
        · have hsorted : (ownVersions (w :: ws)).Pairwise (· ≥ ·) :=
            h.sorted.sublist (hsub.sublist.filterMap _)
          rw [ownVersions, filterMap_cons, hw, pairwise_cons] at hsorted
          exact hsorted.1 _ (mem_ownVersions.2 ⟨x, hx, hmine⟩)
      exact h.current w hwlog (hw.trans (congrArg some (le_antisymm hle hge)))

/-! ### What a step does to a finding -/

/-- Pushes and captures move a finding: what is written here stays, and what is written there comes
with a new baseline. -/
structure Moved (s s' : TriageTab) (f : String) : Prop where
  version : s'.version f = s.version f
  wireOf : s'.wireOf f = s.wireOf f
  stamps : s.stamps ≤ s'.stamps
  log : s.log f <:+ s'.log f
  baseline : s'.baseline f = s.baseline f ∧ (∀ v, Has (s'.log f) v → Has (s.log f) v) ∨
    ∃ b, s'.baseline f = some b ∧ s.stamps ≤ b.stamp ∧ b.stamp < s'.stamps

theorem Moved.refl (s : TriageTab) (f : String) : s.Moved s f :=
  ⟨rfl, rfl, le_refl _, suffix_refl _, .inl ⟨rfl, fun _ h => h⟩⟩

theorem Moved.trans {s'' : TriageTab} (h : s.Moved s' f) (h' : s'.Moved s'' f) : s.Moved s'' f := by
  refine ⟨h'.version.trans h.version, h'.wireOf.trans h.wireOf, h.stamps.trans h'.stamps,
    h.log.trans h'.log, ?_⟩
  rcases h'.baseline with ⟨hb', hlog'⟩ | ⟨b, hb, hle, hlt⟩
  · rcases h.baseline with ⟨hb, hlog⟩ | ⟨b, hb, hle, hlt⟩
    · exact .inl ⟨hb'.trans hb, fun v hv => hlog v (hlog' v hv)⟩
    · exact .inr ⟨b, hb'.trans hb, hle, hlt.trans_le h'.stamps⟩
  · exact .inr ⟨b, hb, h.stamps.trans hle, hlt⟩

/-- A finding whose writes and baseline stay. -/
theorem Moved.of_same (hversion : s'.version f = s.version f) (hwire : s'.wireOf f = s.wireOf f)
    (hstamps : s.stamps ≤ s'.stamps) (hlog : s'.log f = s.log f)
    (hbaseline : s'.baseline f = s.baseline f) : s.Moved s' f :=
  ⟨hversion, hwire, hstamps, hlog ▸ suffix_refl _, .inl ⟨hbaseline, fun _ hv => hlog ▸ hv⟩⟩

theorem Moved.of_sameAt (h : SameAt s s' f) (hstamps : s.stamps ≤ s'.stamps) : s.Moved s' f :=
  .of_same h.version h.wireOf hstamps h.log h.baseline

theorem Sound.moved (h : s.Sound f) (hb : s'.Base f) (hm : s.Moved s' f)
    (hsorted : (ownVersions (s'.log f)).Pairwise (· ≥ ·))
    (hcurrent : ∀ w ∈ s'.log f, w ∈ s.log f ∨ ∀ v, w.mine = some v → v = s.version f →
      w.wire = s.wireOf f) : s'.Sound f := by
  refine ⟨hb, hsorted, ?_, ?_⟩
  · intro w hw hmine
    rw [hm.version] at hmine
    rw [hm.wireOf]
    rcases hcurrent w hw with hw | hnew
    · exact h.current w hw hmine
    · exact hnew _ hmine rfl
  · intro b hb'
    rcases hm.baseline with ⟨hsame, -⟩ | ⟨b', hb'', -, hlt⟩
    · exact (h.stamp b (hsame ▸ hb')).trans_le hm.stamps
    · rw [hb''] at hb'
      exact Option.some.inj hb' ▸ hlt

/-- A finding of which nothing was written. -/
theorem Sound.moved_log (h : s.Sound f) (hb : s'.Base f) (hm : s.Moved s' f)
    (hlog : s'.log f = s.log f) : s'.Sound f :=
  h.moved hb hm (hlog ▸ h.sorted) fun _ hw => .inl (hlog ▸ hw)

theorem Sound.same (h : s.Sound f) (hsame : SameAt s s' f) (hstamps : s.stamps ≤ s'.stamps) :
    s'.Sound f :=
  h.moved_log (h.base.same hsame) (.of_sameAt hsame hstamps) hsame.log

/-! ### Captures -/

theorem capture_log (id : String) : (s.capture id).log = s.log := by
  rw [capture]
  split
  · rfl
  split
  · rfl
  split <;> rfl

theorem moved_capture (s : TriageTab) (id f : String) : s.Moved (s.capture id) f := by
  rw [capture]
  split
  · exact .refl s f
  split
  · rcases eq_or_ne f id with rfl | hne
    · exact ⟨rfl, rfl, le_succ _, suffix_refl _,
        .inr ⟨_, FMap.insert_self _ _ _, le_refl _, lt_succ_self _⟩⟩
    · exact .of_same rfl rfl (le_succ _) rfl (baseline_setBaseline_ne hne _)
  split
  · exact .refl s f
  · exact .of_same rfl rfl (le_refl _) rfl rfl

theorem foldl_moved (ids : List String) (s : TriageTab) (f : String) :
    s.Moved (ids.foldl capture s) f ∧ (ids.foldl capture s).log = s.log := by
  induction ids generalizing s with
  | nil => exact ⟨.refl s f, rfl⟩
  | cons id ids ih =>
    obtain ⟨hm, hlog⟩ := ih (s.capture id)
    exact ⟨(moved_capture s id f).trans hm, hlog.trans (capture_log id)⟩

/-- A save captures what changed. -/
theorem moved_scheduleTriagePush (s : TriageTab) (f : String) :
    s.Moved s.scheduleTriagePush f ∧ s.scheduleTriagePush.log = s.log := by
  rw [scheduleTriagePush]
  split
  · exact ⟨.refl s f, rfl⟩
  · obtain ⟨⟨hversion, hwire, hstamps, hlog, hbaseline⟩, hsame⟩ :=
      foldl_moved s.view.loadedFindingIds s f
    exact ⟨⟨hversion, hwire, hstamps, hlog, hbaseline⟩, hsame⟩

theorem Sound.scheduleTriagePush (h : ∀ g, s.Sound g)
    (hcareful : ∀ g ∈ s.view.loadedFindingIds, s.CaptureCareful g) (f : String) :
    s.scheduleTriagePush.Sound f := by
  obtain ⟨hm, hlog⟩ := moved_scheduleTriagePush s f
  exact (h f).moved_log (base_scheduleTriagePush (fun g => (h g).base) hcareful f) hm
    (congrFun hlog f)

theorem Sound.edit (h : s.Sound f) (id : String) (entry : Option TriageEntry) :
    (s.edit id entry).Sound f := by
  rcases eq_or_ne f id with rfl | hne
  · refine ⟨h.base.edit entry, h.sorted, ?_, h.stamp⟩
    intro w hw hmine
    rw [version_edit_self] at hmine
    rw [wireOf_edit_self]
    split at hmine
    · rename_i hsame
      rw [hsame]
      exact h.current w hw hmine
    · exact absurd (h.le ⟨w, hw, hmine⟩) (by omega)
  · exact h.same (sameAt_edit hne entry) (le_refl _)

variable {entryBytes : String → Option WireEntry → ℕ}

theorem stamps_send (hst : s.send entryBytes = some s') : s'.stamps = s.stamps := by
  unfold send at hst
  split at hst
  · cases hst
    rfl
  · cases hst

/-! ### Answers -/

theorem foldl_land_log (s : TriageTab) (batch : List (String × Change)) (f : String) :
    (batch.foldl land s).log f = ((changesOf f batch).map write).reverse ++ s.log f := by
  induction batch generalizing s with
  | nil => rfl
  | cons p batch ih =>
    rw [foldl_cons, ih]
    rcases eq_or_ne f p.1 with rfl | hne
    · have hhead : changesOf p.1 (p :: batch) = p.2 :: changesOf p.1 batch := by
        simp [changesOf]
      have hlog : (s.land p).log p.1 = write p.2 :: s.log p.1 := Function.update_self _ _ _
      rw [hhead, hlog, map_cons, reverse_cons, append_assoc]
      rfl
    · have hhead : changesOf f (p :: batch) = changesOf f batch := by
        simp [changesOf, hne.symm]
      rw [hhead, (sameAt_land s p f hne).log]

/-- The entries of a request are settled: each gets a new baseline. -/
theorem foldl_settle_baseline (step : TriageTab → String × Change → TriageTab)
    (hbaseline : ∀ s p, (step s p).baseline = s.baseline.insert p.1 ⟨wireKey p.2.wire, s.stamps⟩)
    (hstamps : ∀ s p, (step s p).stamps = s.stamps + 1) (batch : List (String × Change))
    (s : TriageTab) (f : String) : s.stamps ≤ (batch.foldl step s).stamps ∧
      ((batch.foldl step s).baseline f = s.baseline f ∧ changesOf f batch = [] ∨
        ∃ b, (batch.foldl step s).baseline f = some b ∧ s.stamps ≤ b.stamp ∧
          b.stamp < (batch.foldl step s).stamps) := by
  induction batch generalizing s with
  | nil => exact ⟨le_refl _, .inl ⟨rfl, rfl⟩⟩
  | cons p batch ih =>
    rw [foldl_cons]
    obtain ⟨hle, hcases⟩ := ih (step s p)
    rw [hstamps] at hle hcases
    refine ⟨(le_succ _).trans hle, ?_⟩
    rcases hcases with ⟨hsame, hnil⟩ | ⟨b, hb, hge, hlt⟩
    · rw [hbaseline, FMap.insert_apply] at hsame
      rcases eq_or_ne f p.1 with rfl | hne
      · rw [if_pos rfl] at hsame
        exact .inr ⟨_, hsame, le_refl _, hle⟩
      · rw [if_neg hne] at hsame
        have hhead : changesOf f (p :: batch) = changesOf f batch := by
          simp [changesOf, hne.symm]
        exact .inl ⟨hsame, hhead.trans hnil⟩
    · exact .inr ⟨b, hb, (le_succ _).trans hge, hlt⟩

theorem moved_settle (h : s.Sound f) {q : Sending} (hq : s.sending = some q) {posted : Posted}
    (hst : s.settle entryBytes posted = some s')
    (hcareful : posted = .transient → s.RequeueCareful) : s.Moved s' f ∧ s'.Sound f := by
  have hanswered (hposted : posted ≠ .transient) :
      s'.Base f ∧ s'.version f = s.version f ∧ s'.wireOf f = s.wireOf f := by
    have hanswer := answerAt_settle hq hposted hst f
    refine ⟨h.base.answered hanswer, ?_⟩
    rcases hanswer with hs | ⟨-, -, -, -, hversion, hwire, -⟩
    · exact ⟨hs.version, hs.wireOf⟩
    · exact ⟨hversion, hwire⟩
  have hst' := hst
  rw [settle, hq, Option.map_some, Option.some.injEq] at hst'
  cases posted with
  | transient =>
    subst hst'
    have hput := putBack_transient h.base hq (hcareful rfl)
    have hm : s.Moved { s with
        sending := none, pending := requeue q.key (q.batch ++ q.rest) s.pending } f :=
      .of_same rfl rfl (le_refl _) rfl rfl
    exact ⟨hm, h.moved_log (h.base.putBack hput rfl rfl rfl) hm rfl⟩
  | refusedAsSent =>
    obtain ⟨hbase, hsame⟩ := hanswered (by simp)
    subst hst'
    obtain ⟨hstamps, hb⟩ := foldl_settle_baseline refuse (fun _ _ => rfl)
      (fun _ _ => rfl) q.batch s f
    have hlog := foldl_refuse_log s q.batch f
    have hm : s.Moved ((q.batch.foldl refuse s).nextPost entryBytes q.key q.rest) f := by
      refine ⟨hsame.1, hsame.2, hstamps, hlog ▸ suffix_refl _, ?_⟩
      rcases hb with ⟨hb, -⟩ | hb
      · exact .inl ⟨hb, fun v hv => hlog ▸ hv⟩
      · exact .inr hb
    exact ⟨hm, h.moved_log hbase hm hlog⟩
  | landed =>
    obtain ⟨hbase, hsame⟩ := hanswered (by simp)
    subst hst'
    have hlines : SameLines s (q.batch.foldl land s) :=
      sameLines_foldl (fun t p => (⟨rfl, rfl⟩ : SameLines t (t.land p))) q.batch
    have hout := outstanding_settled hlines hq entryBytes f
    obtain ⟨hstamps, hb⟩ := foldl_settle_baseline land (fun _ _ => rfl)
      (fun _ _ => rfl) q.batch s f
    have hlog := foldl_land_log s q.batch f
    have hm : s.Moved ((q.batch.foldl land s).nextPost entryBytes q.key q.rest) f := by
      refine ⟨hsame.1, hsame.2, hstamps, ⟨_, hlog.symm⟩, ?_⟩
      rcases hb with ⟨hb, hnil⟩ | hb
      · refine .inl ⟨hb, fun v hv => ?_⟩
        rw [hnil] at hlog
        have hlog : (q.batch.foldl land s).log f = s.log f := hlog
        exact hlog ▸ hv
      · exact .inr hb
    have hmem : ∀ c ∈ changesOf f q.batch, c ∈ s.outstanding f := fun c hc =>
      hout ▸ mem_append_left _ hc
    refine ⟨hm, h.moved hbase hm ?_ ?_⟩
    · -- the changes land in their order, over what was written before
      have hown : ownVersions (((q.batch.foldl land s).nextPost entryBytes q.key q.rest).log f) =
          ((changesOf f q.batch).map (·.version)).reverse ++ ownVersions (s.log f) := by
        refine (congrArg ownVersions hlog).trans ?_
        rw [ownVersions, filterMap_append, filterMap_reverse, filterMap_map]
        have hmine : (fun w : ServerWrite => w.mine) ∘ write = some ∘ (·.version) := by
          funext c
          rfl
        rw [hmine, filterMap_eq_map]
        rfl
      have hsorted := h.base.sorted
      rw [hout, pairwise_append] at hsorted
      rw [hown]
      refine pairwise_append.2 ⟨?_, h.sorted, ?_⟩
      · rw [pairwise_reverse, pairwise_map]
        exact hsorted.1
      · intro a ha v hv
        rw [mem_reverse, mem_map] at ha
        obtain ⟨c, hc, rfl⟩ := ha
        exact (le_serverVersion h.sorted (mem_ownVersions.1 hv)).trans
          (h.base.server_le c (hmem c hc))
    · intro w hw
      have hw : w ∈ ((changesOf f q.batch).map write).reverse ++ s.log f := hlog ▸ hw
      rcases mem_append.1 hw with hw | hw
      · right
        rw [mem_reverse, mem_map] at hw
        obtain ⟨c, hc, rfl⟩ := hw
        rintro v hv rfl
        exact h.base.wire c (hmem c hc) (Option.some.inj hv)
      · exact .inl hw

/-! ### Adoption -/

theorem Sound.turn (h : s.Sound f) (hqueues : SameQueues s s') {entries : String → List ServerWrite}
    (hturn : Turn entries s s' f) : s'.Sound f := by
  have hout := hqueues.outstanding f
  have hserver : s'.serverVersion f = s.serverVersion f := by
    rw [serverVersion, hqueues.log, serverVersion]
  have hlog : s'.log f = s.log f := congrFun hqueues.log f
  -- the entry and its version stay
  have hkeep : s'.triage f = s.triage f → s'.version f = s.version f →
      (∀ b, s'.baseline f = some b → b.stamp < s'.stamps) → s'.Sound f := by
    intro htriage hversion hstamp
    have hwire : s'.wireOf f = s.wireOf f := congrArg wireEntryOf htriage
    refine ⟨h.base.mono (hout ▸ h.base.sorted) (fun _ hc => hout ▸ hc) hserver hversion hwire,
      hlog ▸ h.sorted, ?_, hstamp⟩
    rw [hlog, hversion, hwire]
    exact h.current
  cases hturn with
  | still hs =>
    refine hkeep hs.triage hs.version fun b hb => ?_
    rw [hs.baseline] at hb
    exact (h.stamp b hb).trans_le hs.stamps
  | forgotten _ hs =>
    refine hkeep hs.triage hs.version fun b hb => ?_
    rw [hs.baseline] at hb
    cases hb
  | taken ht =>
    obtain ⟨b, hb, -, hlt⟩ := ht.baseline
    have hstamp : ∀ b, s'.baseline f = some b → b.stamp < s'.stamps := by
      intro b' hb'
      rw [hb] at hb'
      exact Option.some.inj hb' ▸ hlt
    by_cases hsame : (entries f).head?.bind (·.wire) = s.wireOf f
    · have hversion := ht.version
      rw [if_pos hsame] at hversion
      have hwire : s'.wireOf f = s.wireOf f := ht.entry.kept.trans hsame
      refine ⟨h.base.mono (hout ▸ h.base.sorted) (fun _ hc => hout ▸ hc) hserver hversion hwire,
        hlog ▸ h.sorted, ?_, hstamp⟩
      rw [hlog, hversion, hwire]
      exact h.current
    · have hversion := ht.version
      rw [if_neg hsame] at hversion
      refine ⟨⟨hout ▸ h.base.sorted, ?_, ?_, ?_, ?_⟩, hlog ▸ h.sorted, ?_, hstamp⟩
      · rw [hout, hserver]
        exact h.base.server_le
      · rw [hout, hversion]
        exact fun c hc => (h.base.le c hc).trans (le_succ _)
      · rw [hout, hversion]
        exact fun c hc hv => absurd (h.base.le c hc) (by omega)
      · rw [hserver, hversion]
        exact h.base.serverVersion_le.trans (le_succ _)
      · rw [hlog, hversion]
        exact fun w hw hmine => absurd (h.le ⟨w, hw, hmine⟩) (by omega)

end TriageTab

end Triage.Ui
