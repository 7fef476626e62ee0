import Triage.Ui.TriageOrder

/-!
# Pushes converge

The changes of a finding land in the order they were captured in, so the last one to land is the
last edit, if that is the last change. It is not where an edit goes back to what the baseline
holds: such an edit is not captured, though an older change is on its way.

## Main results

* `pushes_converge` : the server is left at the last edit, and never goes back.
-/

namespace Triage.Ui

open Client List Option

namespace TriageTab

variable {s s' : TriageTab} {f g : String}

def serverWire (s : TriageTab) (f : String) : Option WireEntry := (s.server f).bind (·.wire)

/-- The local entry of a finding is within the caps of the server. -/
def Fits (s : TriageTab) (f : String) : Prop := fitsWire f (s.wireOf f) = true

/-- The last edit of a finding is the last of its changes, or settled. -/
structure Caught (s : TriageTab) (f : String) : Prop where
  last : s.Fits f → ∀ c, (s.outstanding f).getLast? = some c → c.version = s.version f
  idle : s.outstanding f = [] → f ∈ s.edited → s.Fits f → s.baselineKey f = wireKey (s.wireOf f)
  known : s.outstanding f = [] → f ∉ s.refused → s.baselineKey f = wireKey (s.serverWire f) ∨
    ∃ w, fitsWire f w = false ∧ s.baselineKey f = wireKey w

theorem SameAt.serverWire (h : SameAt s s' f) : s'.serverWire f = s.serverWire f := by
  rw [TriageTab.serverWire, server, h.log, TriageTab.serverWire, server]

theorem fits_congr (h : s'.wireOf f = s.wireOf f) : s'.Fits f ↔ s.Fits f := by rw [Fits, h, Fits]

theorem Caught.same (h : s.Caught f) (hsame : SameAt s s' f) : s'.Caught f := by
  have hfits := fits_congr hsame.wireOf
  refine ⟨?_, ?_, ?_⟩
  · rw [hsame.outstanding, hsame.version, hfits]
    exact h.last
  · rw [hsame.outstanding, hsame.edited, hfits, hsame.baselineKey, hsame.wireOf]
    exact h.idle
  · rw [hsame.outstanding, hsame.refused, hsame.baselineKey, hsame.serverWire]
    exact h.known

/-! ### Capturing -/

/-- What a finding must be like for its turn to catch its last edit. -/
structure Ready (s : TriageTab) (f : String) : Prop where
  back : s.baselineKey f = wireKey (s.wireOf f) → s.Caught f
  missed : s.baselineKey f ≠ wireKey (s.wireOf f) → s.Fits f → s.captureScope f = none → s.Caught f
  careful : s.CaptureCareful f

/-- A finding has its turn. -/
theorem capture_caught (hb : s.Base f) (hr : s.Ready f) : (s.capture f).Caught f := by
  rw [capture]
  split
  · rename_i hback
    exact hr.back hback
  rename_i hback
  split
  · rename_i hcaps
    have hkey := baselineKey_setBaseline_self (s := s) (f := f) (s.wireOf f)
    have hfits : ¬(s.setBaseline f (s.wireOf f)).Fits f := by
      rw [Fits, wireOf_setBaseline, hcaps]
      simp
    exact ⟨fun h => absurd h hfits, fun _ _ h => absurd h hfits,
      fun _ _ => .inr ⟨s.wireOf f, hcaps, hkey⟩⟩
  · rename_i hcaps
    have hfits : s.Fits f := by simpa [Fits] using hcaps
    split
    · rename_i hscope
      exact hr.missed hback hfits hscope
    · rename_i key hscope
      set t : TriageTab := { s with
        pending := setPending key f ⟨s.wireOf f, s.version f⟩ s.pending } with ht
      obtain ⟨front, after, hnew, hne, hafter, -⟩ :=
        outstanding_setPending s t hb (hr.careful key hscope) rfl rfl rfl
      have hthere : t.outstanding f ≠ [] := by
        rw [hnew]
        simp [hne]
      refine ⟨fun _ c hc => ?_, fun hnil => absurd hnil hthere, fun hnil => absurd hnil hthere⟩
      rw [hnew] at hc
      exact hafter c (mem_of_getLast?_append hne hc)

/-- All the findings have their turns. -/
theorem foldl_capture {ids : List String} (hnodup : ids.Nodup) (hbase : ∀ g, s.Base g)
    (hcaught : ∀ g, g ∉ ids → s.Caught g) (hready : ∀ g ∈ ids, s.Ready g) :
    ∀ g, (ids.foldl capture s).Caught g := by
  induction ids generalizing s with
  | nil => exact fun g => hcaught g (by simp)
  | cons f ids ih =>
    obtain ⟨hf, hnodup⟩ := nodup_cons.1 hnodup
    have hcf := capture_caught (hbase f) (hready f (by simp))
    refine ih hnodup ?_ ?_ ?_
    · intro g
      rcases eq_or_ne g f with rfl | hne
      · exact capture_base (hbase g) (hready g (by simp)).careful
      · exact (hbase g).same (sameAt_capture hne).1
    · intro g hg
      rcases eq_or_ne g f with rfl | hne
      · exact hcf
      · exact (hcaught g (by simp [hne, hg])).same (sameAt_capture hne).1
    · intro g hg
      have hne : g ≠ f := fun heq => hf (heq ▸ hg)
      obtain ⟨hsame, hscope, -⟩ := sameAt_capture (s := s) hne
      have hr := hready g (by simp [hg])
      refine ⟨?_, ?_, hr.careful.capture hne⟩
      · rw [hsame.baselineKey, hsame.wireOf]
        exact fun hback => (hr.back hback).same hsame
      · rw [hsame.baselineKey, hsame.wireOf, fits_congr hsame.wireOf, hscope]
        exact fun hback hfits hnone => (hr.missed hback hfits hnone).same hsame

theorem Caught.ready (h : s.Caught f) (hcareful : s.CaptureCareful f) : s.Ready f :=
  ⟨fun _ => h, fun _ _ _ => h, hcareful⟩

end TriageTab

open TriageTab

/-- What a step must meet for the tab's order to be kept. -/
def PushCareful (s : TriageTab) : PushLabel → Prop
  | .edit id entry =>
    -- an edit back to the baseline's value is not made while older changes are on their way
    ((s.edit id entry).baselineKey id = wireKey (wireEntryOf entry) →
      wireEntryOf entry ≠ s.wireOf id → s.outstanding id = []) ∧
    -- nothing is captured into a queue that is sent before one with an older value
    ∀ g ∈ s.view.loadedFindingIds, (s.edit id entry).CaptureCareful g
  | .settle .transient => s.RequeueCareful
  | _ => True

namespace TriageTab

variable {s s' : TriageTab} {f g : String}

/-- What holds in a run whose steps are careful. -/
def Ordered (s : TriageTab) : Prop := ∀ f, s.Base f ∧ s.Caught f

theorem Ordered.same (h : s.Ordered) (hsame : ∀ f, SameAt s s' f) : s'.Ordered := fun f =>
  ⟨(h f).1.same (hsame f), (h f).2.same (hsame f)⟩

theorem Ordered.scheduleTriagePush (hbase : ∀ g, s.Base g)
    (hcaught : ∀ g, g ∉ s.view.loadedFindingIds → s.Caught g)
    (hready : ∀ g ∈ s.view.loadedFindingIds, s.Ready g)
    (hon : s.view.activeReports ≠ [] ∧ s.hydratedReports ≠ ∅) :
    s.scheduleTriagePush.Ordered := by
  rw [TriageTab.scheduleTriagePush, if_neg (by tauto)]
  have hnodup : s.view.loadedFindingIds.Nodup := nodup_dedup _
  have hfold := foldl_capture_base hnodup hbase fun g hg => (hready g hg).careful
  have hcaught' := foldl_capture hnodup hbase hcaught hready
  exact fun f => ⟨(hfold f).same ⟨rfl, rfl, rfl, rfl, rfl, .rfl, .rfl⟩,
    (hcaught' f).same ⟨rfl, rfl, rfl, rfl, rfl, .rfl, .rfl⟩⟩

/-- A finding that is captured for a report is shown. -/
theorem activeReports_ne_nil {v : TeamView} {id reportId : String}
    (h : v.reportForFinding id = some reportId) : v.activeReports ≠ [] := by
  intro hnil
  rw [TeamView.reportForFinding, hnil] at h
  simp only [contains_nil, Bool.and_false, head?_nil, or_none] at h
  obtain ⟨report, -, hfilter⟩ := exists_of_findSome?_eq_some h
  exact absurd (filter_eq_some_iff.1 hfilter).2 (by simp)

theorem Ordered.edit (h : s.Ordered) {id : String} {entry : Option TriageEntry}
    (hloaded : id ∈ s.view.loadedFindingIds)
    (hreport : ((s.view.reportForFinding id).any fun reportId =>
      ⟨s.view.teamId, reportId⟩ ∈ s.hydratedReports) = true)
    (hcareful : PushCareful s (.edit id entry)) : (s.edit id entry).scheduleTriagePush.Ordered := by
  obtain ⟨hback, hcapture⟩ := hcareful
  obtain ⟨reportId, hreportId, hhydrated⟩ := (Option.any_eq_true _ _).1 hreport
  have hhydrated : (⟨s.view.teamId, reportId⟩ : Scope) ∈ s.hydratedReports := by
    simpa using hhydrated
  have hother : ∀ g, g ≠ id → (s.edit id entry).Caught g := fun g hne =>
    (h g).2.same (sameAt_edit hne entry)
  refine Ordered.scheduleTriagePush ?_ ?_ ?_ ⟨activeReports_ne_nil hreportId, ?_⟩
  · intro g
    rcases eq_or_ne g id with rfl | hne
    · exact (h g).1.edit entry
    · exact (h g).1.same (sameAt_edit hne entry)
  · intro g hg
    exact hother g fun heq => hg (heq ▸ hloaded)
  · intro g hg
    rcases eq_or_ne g id with rfl | hne
    · refine ⟨?_, ?_, hcapture g hg⟩
      · -- the edit was not captured: nothing older of the finding is on its way
        intro heq
        rw [wireOf_edit_self] at heq
        refine ⟨fun hfits c hc => ?_, fun _ _ _ => ?_, (h g).2.known⟩
        · by_cases hsame : wireEntryOf entry = s.wireOf g
          · rw [version_edit_self, if_pos hsame]
            refine (h g).2.last ?_ c hc
            rw [Fits, wireOf_edit_self, hsame] at hfits
            exact hfits
          have hnil : (s.edit g entry).outstanding g = [] := hback heq hsame
          rw [hnil] at hc
          cases hc
        · rw [wireOf_edit_self]
          exact heq
      · -- the edit is captured, for its report is hydrated
        intro hne hfits hnone
        rw [captureScope, if_neg (by rw [Fits] at hfits; simp [hne, hfits])] at hnone
        have hsome : (s.edit g entry).view.reportForFinding g = some reportId := hreportId
        rw [hsome, map_some, filter_eq_none_iff] at hnone
        have hin : decide ((⟨s.view.teamId, reportId⟩ : Scope) ∈ s.hydratedReports) = true :=
          decide_eq_true hhydrated
        exact absurd hin (hnone _ rfl)
    · exact (hother g hne).ready (hcapture g hg)
  · exact Finset.ne_empty_of_mem hhydrated

/-! ### Answers -/

theorem Caught.answered (h : s.Caught f) (hb : s.Base f) (hanswer : AnswerAt s s' f) :
    s'.Caught f := by
  rcases hanswer with hsame | ⟨sent, c, hout, hlast, hversion, hwire, hkey, hserver⟩
  · exact h.same hsame
  · have hfits := fits_congr hwire
    refine ⟨?_, ?_, ?_⟩
    · intro hf d hd
      rw [hversion]
      refine h.last (hfits.1 hf) d ?_
      rw [hout, getLast?_append, hd, some_or]
    · intro hnil _ hf
      -- nothing is behind the last change, so it is the last edit
      have hclast : (s.outstanding f).getLast? = some c := by
        rw [hout, hnil, append_nil, hlast]
      have hmem : c ∈ s.outstanding f := mem_of_getLast? hclast
      rw [hkey, hwire, hb.wire c hmem (h.last (hfits.1 hf) c hclast)]
    · intro _ hrefused
      rcases hserver with ⟨⟨log, hlog⟩, -⟩ | ⟨-, hmem⟩
      · left
        rw [hkey, serverWire, server, hlog]
        rfl
      · exact absurd hmem hrefused

theorem Caught.putBack (h : s.Caught f) (hput : PutBack s s' f) (hlog : s'.log f = s.log f)
    (hversion : s'.version f = s.version f) (hwire : s'.wireOf f = s.wireOf f)
    (hbaseline : s'.baseline f = s.baseline f) (hedited : f ∈ s'.edited ↔ f ∈ s.edited)
    (hrefused : f ∈ s'.refused ↔ f ∈ s.refused) : s'.Caught f := by
  have hfits := fits_congr hwire
  have hkey : s'.baselineKey f = s.baselineKey f := by rw [baselineKey, hbaseline, baselineKey]
  have hsw : s'.serverWire f = s.serverWire f := by
    rw [serverWire, server, hlog, serverWire, server]
  refine ⟨?_, ?_, ?_⟩
  · intro hf c hc
    obtain ⟨d, hd, hv⟩ := hput.last c hc
    rw [hv, hversion]
    exact h.last (hfits.1 hf) d hd
  · intro hnil hmem hf
    rw [hkey, hwire]
    exact h.idle (hput.nil hnil) (hedited.1 hmem) (hfits.1 hf)
  · intro hnil hmem
    rw [hkey, hsw]
    exact h.known (hput.nil hnil) fun hr => hmem (hrefused.2 hr)

variable {entryBytes : String → Option WireEntry → ℕ}

theorem Ordered.settle (h : s.Ordered) {posted : Posted} (hcareful : PushCareful s (.settle posted))
    (hst : s.settle entryBytes posted = some s') : s'.Ordered := by
  obtain ⟨q, hq, hs'⟩ := map_eq_some_iff.1 hst
  intro f
  by_cases hposted : posted = .transient
  · subst hposted
    subst hs'
    have hput := putBack_transient (h f).1 hq hcareful
    exact ⟨(h f).1.putBack hput rfl rfl rfl, (h f).2.putBack hput rfl rfl rfl rfl .rfl .rfl⟩
  · have hanswer := answerAt_settle hq hposted hst f
    exact ⟨(h f).1.answered hanswer, (h f).2.answered (h f).1 hanswer⟩

theorem Ordered.step (h : s.Ordered) {a : PushLabel}
    (hcareful : PushCareful s a) (hst : (triagePushes entryBytes).step s a = some s') :
    s'.Ordered := by
  cases a with
  | edit id entry =>
    obtain ⟨⟨hloaded, hreport⟩, hst⟩ := ite_none_right_eq_some.1 hst
    cases hst
    exact h.edit hloaded hreport hcareful
  | view v =>
    cases hst
    exact h.same fun f => ⟨rfl, rfl, rfl, rfl, rfl, .rfl, .rfl⟩
  | expire =>
    obtain ⟨-, hst⟩ := ite_none_right_eq_some.1 hst
    cases hst
    exact h.same fun f => sameAt_flushPending
  | flush =>
    cases hst
    exact h.same fun f => sameAt_flushPending
  | send => exact h.same fun f => sameAt_send hst
  | settle posted => exact h.settle hcareful hst

end TriageTab

/-- A tab whose reports were hydrated: the baseline is the server's, and nothing is on its way. -/
structure Hydrated (s : TriageTab) : Prop where
  quiet : s.Quiet
  baseline : ∀ f, s.baselineKey f = wireKey (s.serverWire f)
  version : ∀ f, s.serverVersion f = 0
  edited : s.edited = ∅
  refused : s.refused = ∅

theorem Hydrated.ordered {s : TriageTab} (h : Hydrated s) : s.Ordered := by
  intro f
  obtain ⟨-, hpending, hchain, hsending⟩ := h.quiet
  have hnil : s.outstanding f = [] := by
    rw [outstanding, hpending, hchain, hsending]
    rfl
  refine ⟨⟨?_, ?_, ?_, ?_, ?_⟩, ?_, ?_, fun _ _ => .inl (h.baseline f)⟩
  · rw [hnil]
    exact List.Pairwise.nil
  · rw [hnil]
    intro c hc
    cases hc
  · rw [hnil]
    intro c hc
    cases hc
  · rw [hnil]
    intro c hc
    cases hc
  · rw [h.version f]
    exact Nat.zero_le _
  · rw [hnil]
    intro _ c hc
    cases hc
  · intro _ hedited
    rw [h.edited] at hedited
    cases hedited

/-- **Pushes converge.**  In every state of a careful run: when no timer, queued change or POST is
outstanding, the server has the local color, bucket, fix and flag of every finding that was edited
within the caps and whose last POST landed; and no POST holds an entry older than the one that it
would replace. -/
theorem pushes_converge {entryBytes : String → Option WireEntry → ℕ} {s₀ s : TriageTab}
    (h₀ : Hydrated s₀) (h : (triagePushes entryBytes).ReachableUnder PushCareful s₀ s) :
    (s.Quiet → ∀ f ∈ s.edited, f ∉ s.refused → s.Fits f → s.serverWire f = s.wireOf f) ∧
    ∀ q, s.sending = some q → ∀ p ∈ q.batch, s.serverVersion p.1 ≤ p.2.version := by
  have hordered : s.Ordered := h.invariant (I := Ordered) h₀.ordered
    fun _ _ _ hI hcareful hst => hI.step hcareful hst
  refine ⟨?_, ?_⟩
  · rintro ⟨-, hpending, hchain, hsending⟩ f hedited hrefused hfits
    obtain ⟨-, hc⟩ := hordered f
    have hnil : s.outstanding f = [] := by
      rw [outstanding, hpending, hchain, hsending]
      rfl
    have hidle := hc.idle hnil hedited hfits
    rcases hc.known hnil hrefused with hknown | ⟨w, hcaps, hw⟩
    · exact wireKey_inj (hknown.symm.trans hidle)
    · -- the baseline of an entry that is over the caps is not that of one within
      have heq : w = s.wireOf f := wireKey_inj (hw.symm.trans hidle)
      rw [Fits, ← heq, hcaps] at hfits
      cases hfits
  · intro q hq p hp
    refine (hordered p.1).1.server_le p.2 ?_
    rw [outstanding, hq]
    refine mem_append_left _ (mem_append_left _ (mem_changesOf.2 ?_))
    exact mem_append_left _ hp

/-! ### One finding -/

/-- A tab that shows one hydrated report, of one finding that nobody triaged. -/
def oneFinding : TriageTab where
  triage := ∅
  view := ⟨"t", ["r"], [⟨some "r", ["f"]⟩]⟩
  baseline := ∅
  hydratedReports := {⟨"t", "r"⟩}
  pending := []
  pushTimer := false
  flushChain := []
  sending := none
  log := fun _ => []
  version := fun _ => 0
  edited := ∅
  refused := ∅
  stamps := 0

theorem oneFinding_hydrated : Hydrated oneFinding :=
  ⟨⟨rfl, rfl, rfl, rfl⟩, fun _ => rfl, fun _ => rfl, rfl, rfl⟩

/-- The finding is marked red. -/
def markedRed : TriageEntry := { TriageEntry.empty with color := some "red" }

/-- An edit is posted and lands. -/
theorem pushes_converge_red : ∃ s : TriageTab,
    (triagePushes fun _ _ => 1).run oneFinding
      [.edit "f" (some markedRed), .expire, .send, .settle .landed] = some s ∧
    s.wireOf "f" = wireEntryOf (some markedRed) ∧ s.serverWire "f" = s.wireOf "f" := by
  have hend : ((triagePushes fun _ _ => 1).run oneFinding
      [.edit "f" (some markedRed), .expire, .send, .settle .landed]).map (fun s => (decide s.Quiet,
        decide ("f" ∈ s.edited), decide ("f" ∈ s.refused), fitsWire "f" (s.wireOf "f"),
        decide (s.wireOf "f" = wireEntryOf (some markedRed)))) =
      some (true, true, false, true, true) := by decide +kernel
  obtain ⟨s, hrun, hstate⟩ := map_eq_some_iff.1 hend
  simp only [Prod.mk.injEq, decide_eq_true_eq, decide_eq_false_iff_not] at hstate
  obtain ⟨hquiet, hedited, hrefused, hfits, hwire⟩ := hstate
  have hcareful : (triagePushes fun _ _ => 1).RunMeets PushCareful oneFinding
      [.edit "f" (some markedRed), .expire, .send, .settle .landed] := by
    refine ⟨⟨fun h => ?_, fun _ _ _ _ c hc => (nomatch hc)⟩, trivial, trivial, trivial, trivial⟩
    exact absurd h (by decide +kernel)
  obtain ⟨hconverge, -⟩ :=
    pushes_converge oneFinding_hydrated (Machine.reachableUnder_of_run hrun hcareful)
  exact ⟨s, hrun, hwire, hconverge hquiet "f" hedited hrefused hfits⟩

/-- An edit is undone before it is posted: it is posted all the same, and the server is left at
it. -/
theorem undone_edit_lands : ∃ s₀ s : TriageTab, Hydrated s₀ ∧
    (triagePushes fun _ _ => 1).Reachable s₀ s ∧ s.Quiet ∧ "f" ∈ s.edited ∧ "f" ∉ s.refused ∧
    s.Fits "f" ∧ s.serverWire "f" ≠ s.wireOf "f" := by
  have hend : ((triagePushes fun _ _ => 1).run oneFinding [.edit "f" (some markedRed),
      .edit "f" none, .expire, .send, .settle .landed]).map (fun s => (decide s.Quiet,
        decide ("f" ∈ s.edited), decide ("f" ∈ s.refused), fitsWire "f" (s.wireOf "f"),
        decide (s.serverWire "f" = s.wireOf "f"))) = some (true, true, false, true, false) := by
    decide +kernel
  obtain ⟨s, hrun, hstate⟩ := map_eq_some_iff.1 hend
  simp only [Prod.mk.injEq, decide_eq_true_eq, decide_eq_false_iff_not] at hstate
  obtain ⟨hquiet, hedited, hrefused, hfits, hother⟩ := hstate
  exact ⟨oneFinding, s, oneFinding_hydrated, Machine.reachable_of_run hrun, hquiet, hedited,
    hrefused, hfits, hother⟩

end Triage.Ui
