import Triage.Ui.TriageKept
import Triage.Ui.TriagePushes

/-!
# Reads lose no edit

A hydrate or a refresh puts the server's entry in place of an edit only where someone else wrote it
after the edit landed, as long as the edit had landed when the read that it adopts was answered.
A hydrate does not look: an edit made while its read is under way is gone.

## Main results

* `reads_lose_no_edit` : what becomes of an edit in a careful run, and what an adoption leaves.
-/

namespace Triage.Ui

open Client List Function TriageTab Option Nat FMap Finset

namespace ReadTab

variable (s : ReadTab)

/-- A call that can end: what its findings were known as, and what its read was answered. -/
def reading (call : ℕ) : Option (ReadCall × FMap String Baseline × (String → List ServerWrite)) :=
  match s.calls call with
  | some c@⟨_, _, _, .reading read before _⟩ =>
    match s.reads read with
    | some (.answered entries) => if s.isCurrent c then some (c, before, entries) else none
    | _ => none
  | _ => none

/-- The findings that a call is for. -/
def findings (c : ReadCall) : List String :=
  match c.kind with
  | .hydrate except => (s.tab.view.findingIdsForManagedReport c.reportId).filter (· ∉ except)
  | .refresh => s.tab.view.findingIdsForManagedReport c.reportId

/-- The entry of a finding is adopted when the call ends. -/
def Adopts (c : ReadCall) (before : FMap String Baseline) (entries : String → List ServerWrite)
    (f : String) : Prop :=
  f ∈ s.findings c ∧
    match c.kind with
    | .hydrate _ => entries f ≠ []
    | .refresh => s.tab.Unchanged before f

/-- The edits that give way to an adoption were known to the server when the read was answered, and
what is captured then gets in front of nothing older.  That a refresh finds the baseline it knew is
enough for it, once the edit landed at all. -/
def AdoptCareful (c : ReadCall) (before : FMap String Baseline)
    (entries : String → List ServerWrite) : Prop :=
  (∀ f ∈ s.own, f ∈ s.findings c →
    match c.kind with
    | .hydrate _ => entries f ≠ [] ∨ Has (s.tab.log f) (s.tab.version f) →
        Has (entries f) (s.tab.version f)
    | .refresh => s.tab.Unchanged before f → Has (s.tab.log f) (s.tab.version f)) ∧
  ∀ g ∈ s.tab.view.loadedFindingIds, (s.adopted c before entries).CaptureCareful g

/-- A refresh does not wait for a read that was answered before. -/
def AwaitCareful (call read : ℕ) : Prop :=
  (s.calls call).all (fun c => decide (c.kind ≠ .refresh)) = true ∨
    (s.reads read).all (fun r => match r with | .answered _ => false | _ => true) = true

/-- The local entry of a finding gives way to what someone else wrote to the server after it had
landed there. -/
def Replaced (s s' : ReadTab) (call : ℕ) (f : String) : Prop :=
  ∃ c before entries w ws, s.reading call = some (c, before, entries) ∧ entries f = w :: ws ∧
    w.mine = none ∧ ⟨s.tab.wireOf f, some (s.tab.version f)⟩ ∈ ws ∧ s'.tab.wireOf f = w.wire

end ReadTab

/-- What a step must meet for no edit to be lost. -/
def ReadCareful (s : ReadTab) : ReadLabel → Prop
  | .edit id entry => ∀ g ∈ s.tab.view.loadedFindingIds, (s.tab.edit id entry).CaptureCareful g
  | .settle .transient => s.tab.RequeueCareful
  | .await call read _ => s.AwaitCareful call read
  | .adopt call =>
    match s.reading call with
    | none => True
    | some (c, before, entries) => s.AdoptCareful c before entries
  | _ => True

/-! ### Adoption -/

namespace ReadTab

variable {s s' : ReadTab} {f : String} {call : ℕ} {c : ReadCall} {before : FMap String Baseline}
  {entries : String → List ServerWrite}

theorem nodup_findings (s : ReadTab) (c : ReadCall) : (s.findings c).Nodup := by
  have hnodup : (s.tab.view.findingIdsForManagedReport c.reportId).Nodup := by
    rw [TeamView.findingIdsForManagedReport]
    split
    · exact nodup_dedup _
    · exact nodup_dedup _
  rw [findings]
  split
  · exact hnodup.filter _
  · exact hnodup

/-- The end of a call, case by case. -/
theorem adopt_cases (hst : s.adopt call = some s') :
    (s.reading call = none ∧ s' = { s with calls := s.calls.erase call }) ∨
    ∃ c before entries, s.reading call = some (c, before, entries) ∧
      s' = { s with
        calls := s.calls.erase call
        tab := if s.captures c (s.adopted c before entries) then
            (s.adopted c before entries).scheduleTriagePush
          else s.adopted c before entries
        own := s.own.filter fun id =>
          (s.adopted c before entries).version id = s.tab.version id } := by
  rcases hcall : s.calls call with _ | ⟨kind, reportId, view, _ | ⟨read, before, known⟩⟩
  · simp only [ReadTab.adopt, hcall] at hst
    cases hst
  · simp only [ReadTab.adopt, hcall] at hst
    cases hst
  · rcases hread : s.reads read with _ | _ | _ | entries
    · simp only [ReadTab.adopt, hcall, hread] at hst
      cases hst
    · simp only [ReadTab.adopt, hcall, hread] at hst
      cases hst
    · simp only [ReadTab.adopt, hcall, hread] at hst
      cases hst
    · simp only [ReadTab.adopt, hcall, hread] at hst
      have hreading : s.reading call =
          if s.isCurrent ⟨kind, reportId, view, .reading read before known⟩ then
            some (⟨kind, reportId, view, .reading read before known⟩, before, entries)
          else none := by
        simp only [reading, hcall, hread]
      rw [hreading]
      split at hst
      · rename_i hcurrent
        rw [if_pos hcurrent]
        exact .inr ⟨_, _, _, rfl, (some.inj hst).symm⟩
      · rename_i hcurrent
        rw [if_neg hcurrent]
        exact .inl ⟨rfl, (some.inj hst).symm⟩

theorem sameQueues_adopted (s : ReadTab) (c : ReadCall) (before : FMap String Baseline)
    (entries : String → List ServerWrite) : s.tab.SameQueues (s.adopted c before entries) := by
  rw [adopted]
  split
  · obtain ⟨hlog, hpending, hchain, hsending, hview⟩ :=
      sameQueues_foldl (hydrateEntry · entries)
        (fun t id => t.sameQueues_hydrateEntry id) _ s.tab
    exact ⟨hlog, hpending, hchain, hsending, hview⟩
  · exact sameQueues_foldl (refreshEntry · before entries)
      (fun t id => t.sameQueues_refreshEntry id) _ s.tab

/-- An adoption adopts what it is to adopt, and leaves the findings of other reports alone. -/
theorem adopted_turn (s : ReadTab) (c : ReadCall) (before : FMap String Baseline)
    (entries : String → List ServerWrite) (f : String) :
    (s.Adopts c before entries f →
      s.tab.Taken (s.adopted c before entries) f ((entries f).head?.bind (·.wire))) ∧
    (f ∉ s.findings c → s.tab.Still (s.adopted c before entries) f) ∧
    (¬s.Adopts c before entries f → s.tab.Still (s.adopted c before entries) f ∨
      entries f = [] ∧ (∃ except, c.kind = .hydrate except) ∧ f ∈ s.findings c ∧
        s.tab.Forgotten (s.adopted c before entries) f) := by
  have hnodup := s.nodup_findings c
  rcases c with ⟨_ | _, reportId, view, phase⟩
  · rename_i except
    obtain ⟨hout, hin⟩ := turn_hydrate entries hnodup s.tab f
    refine ⟨?_, ?_, ?_⟩
    · rintro ⟨hf, hne⟩
      obtain ⟨hentry, hbaseline, hversion⟩ := (hin hf).2 hne
      exact ⟨hentry, hbaseline, hversion⟩
    · intro hf
      obtain ⟨htriage, hbaseline, hversion, hstamps⟩ := hout hf
      exact ⟨htriage, hbaseline, hversion, hstamps⟩
    · intro hnot
      by_cases hf : f ∈ s.findings ⟨.hydrate except, reportId, view, phase⟩
      · have hnil : entries f = [] := not_not.1 fun hne => hnot ⟨hf, hne⟩
        obtain ⟨htriage, hbaseline, hversion⟩ := (hin hf).1 hnil
        exact .inr ⟨hnil, ⟨except, rfl⟩, hf, htriage, hbaseline, hversion⟩
      · obtain ⟨htriage, hbaseline, hversion, hstamps⟩ := hout hf
        exact .inl ⟨htriage, hbaseline, hversion, hstamps⟩
  · obtain ⟨hout, hin⟩ :=
      turn_refresh entries before hnodup s.tab f
    exact ⟨fun h => hin h.1 h.2, fun hf => hout fun h => hf h.1, fun hnot => .inl (hout hnot)⟩

theorem turn_adopted (s : ReadTab) (c : ReadCall) (before : FMap String Baseline)
    (entries : String → List ServerWrite) (f : String) :
    TriageTab.Turn entries s.tab (s.adopted c before entries) f := by
  obtain ⟨htaken, -, hother⟩ := s.adopted_turn c before entries f
  by_cases hadopts : s.Adopts c before entries f
  · exact .taken (htaken hadopts)
  · rcases hother hadopts with hstill | ⟨hnil, -, -, hforgotten⟩
    · exact .still hstill
    · exact .forgotten hnil hforgotten

/-! ### The invariant -/

/-- What a hydrate or a refresh knows since it waits for its read. -/
structure Since (t : TriageTab) (own : Finset String) (before : FMap String Baseline)
    (known : String → List ServerWrite) : Prop where
  stamp : ∀ f b, before f = some b → b.stamp < t.stamps
  held : ∀ f, known f <:+ t.log f
  landed : ∀ f ∈ own, Has (t.log f) (t.version f) → t.baseline f = before f →
    Has (known f) (t.version f)

/-- A call waits for a read. -/
def Waits (s : ReadTab) (call : ℕ) (kind : CallKind) (read : ℕ) (before : FMap String Baseline)
    (known : String → List ServerWrite) : Prop :=
  ∃ reportId view, s.calls call = some ⟨kind, reportId, view, .reading read before known⟩

/-- What holds in a run whose steps are careful. -/
structure Inv (s : ReadTab) : Prop where
  sound : ∀ f, s.tab.Sound f
  reads : ∀ r l, s.reads r = some (.answered l) → ∀ f, l f <:+ s.tab.log f
  since : ∀ call kind r before known, s.Waits call kind r before known →
    Since s.tab s.own before known
  asked : ∀ call r before known l, s.Waits call .refresh r before known →
    s.reads r = some (.answered l) → ∀ f, known f <:+ l f

/-- A call that waits is not the one that is over. -/
theorem Waits.of_erase {call call' r : ℕ} {kind : CallKind} {before : FMap String Baseline}
    {known : String → List ServerWrite} (hcalls : s'.calls = s.calls.erase call)
    (h : s'.Waits call' kind r before known) : s.Waits call' kind r before known := by
  obtain ⟨reportId, view, hwaits⟩ := h
  rw [hcalls, erase_apply] at hwaits
  split at hwaits
  · cases hwaits
  · exact ⟨reportId, view, hwaits⟩

theorem Since.moved {t t' : TriageTab} {own : Finset String} {known : String → List ServerWrite}
    (h : Since t own before known) (hm : ∀ f, t.Moved t' f) : Since t' own before known := by
  refine ⟨fun f b hb => (h.stamp f b hb).trans_le (hm f).stamps,
    fun f => (h.held f).trans (hm f).log, ?_⟩
  intro f hf hhas hbefore
  rw [(hm f).version] at hhas ⊢
  rcases (hm f).baseline with ⟨hb, hlog⟩ | ⟨b, hb, hle, -⟩
  · exact h.landed f hf (hlog _ hhas) (hb ▸ hbefore)
  · rw [hb] at hbefore
    exact absurd (h.stamp f b hbefore.symm) (not_lt.2 hle)

/-- A step of the pushes, or one that does not touch the tab. -/
theorem Inv.of_moved (h : s.Inv) (hsound : ∀ f, s'.tab.Sound f)
    (hm : ∀ f, s.tab.Moved s'.tab f) (hown : s'.own = s.own)
    (hreads : ∀ r l, s'.reads r = some (.answered l) → s.reads r = some (.answered l))
    (hcalls : ∀ call kind r before known, s'.Waits call kind r before known →
      s.Waits call kind r before known) : s'.Inv := by
  refine ⟨hsound, fun r l hr f => (h.reads r l (hreads r l hr) f).trans (hm f).log, ?_, ?_⟩
  · intro call kind r before known hwaits
    rw [hown]
    exact (h.since call kind r before known (hcalls _ _ _ _ _ hwaits)).moved hm
  · intro call r before known l hwaits hr
    exact h.asked call r before known l (hcalls _ _ _ _ _ hwaits) (hreads r l hr)

/-- A step in which nothing lands. -/
theorem Inv.of_sameAt (h : s.Inv) (hsame : ∀ f, TriageTab.SameAt s.tab s'.tab f)
    (hstamps : s.tab.stamps ≤ s'.tab.stamps) (hown : s'.own = s.own)
    (hreads : ∀ r l, s'.reads r = some (.answered l) → s.reads r = some (.answered l))
    (hcalls : ∀ call kind r before known, s'.Waits call kind r before known →
      s.Waits call kind r before known) : s'.Inv :=
  h.of_moved (fun f => (h.sound f).same (hsame f) hstamps) (fun f => .of_sameAt (hsame f) hstamps)
    hown hreads hcalls

/-- The tab alone takes a step in which nothing lands. -/
theorem Inv.setTab (h : s.Inv) {t : TriageTab} (hsame : ∀ f, TriageTab.SameAt s.tab t f)
    (hstamps : s.tab.stamps ≤ t.stamps) : (s.setTab t).Inv :=
  h.of_sameAt hsame hstamps rfl (fun _ _ hr => hr) fun _ _ _ _ _ hw => hw

theorem sameAt_flush (t : TriageTab) (hydrated : Finset Scope) (f : String) :
    TriageTab.SameAt t ({ t with hydratedReports := hydrated } : TriageTab).flushPending f := by
  have hflush := sameAt_flushPending (s := { t with hydratedReports := hydrated }) (f := f)
  exact ⟨hflush.outstanding, hflush.log, hflush.version, hflush.wireOf, hflush.baseline,
    hflush.refused, hflush.edited⟩

theorem Inv.edit (h : s.Inv) {id : String} {entry : Option TriageEntry}
    (hcareful : ReadCareful s (.edit id entry)) : (s.edit id entry).Inv := by
  have hsound : ∀ f, (s.tab.edit id entry).Sound f := fun f => (h.sound f).edit id entry
  have hm := fun f => ((s.tab.edit id entry).moved_scheduleTriagePush f).1
  have hlog : (s.edit id entry).tab.log = s.tab.log :=
    ((s.tab.edit id entry).moved_scheduleTriagePush id).2
  refine ⟨TriageTab.Sound.scheduleTriagePush hsound hcareful, ?_, ?_, h.asked⟩
  · intro r l hr f
    rw [hlog]
    exact h.reads r l hr f
  · intro call kind r before known hwaits
    have hsince := h.since call kind r before known hwaits
    refine Since.moved (t := s.tab.edit id entry) ⟨hsince.stamp, hsince.held, ?_⟩ hm
    intro f hf hhas hbefore
    rcases eq_or_ne f id with rfl | hne
    · rw [version_edit_self] at hhas ⊢
      split at hhas
      · rename_i hsame
        rw [if_pos hsame]
        have hown : (s.edit f entry).own = s.own := if_pos hsame
        exact hsince.landed f (hown ▸ hf) hhas hbefore
      · -- the server cannot know an edit that was just made
        exact absurd ((h.sound f).le hhas) (by omega)
    · have hversion := (sameAt_edit (s := s.tab) hne entry).version
      rw [hversion] at hhas ⊢
      refine hsince.landed f ?_ hhas hbefore
      simp only [ReadTab.edit] at hf
      split at hf
      · exact hf
      · exact (mem_insert.1 hf).resolve_left hne

/-- A call waits for a read. -/
theorem Inv.await (h : s.Inv) {call read : ℕ} {shared : Bool}
    (hcareful : ReadCareful s (.await call read shared))
    (hst : s.await call read shared = some s') : s'.Inv := by
  unfold ReadTab.await at hst
  split at hst
  · rename_i kind reportId view target hcall
    obtain ⟨⟨-, -, hread⟩, hst⟩ := ite_none_right_eq_some.1 hst
    -- the read is there, or it is started
    obtain ⟨t, ht, hinv, hcalls, hnew⟩ : ∃ t : ReadTab,
        (if (s.reads read).isSome then s else if shared then s.startRead read
          else { s with reads := s.reads.insert read .requested }) = t ∧ t.Inv ∧
        t.calls = s.calls ∧ ∀ l, t.reads read = some (.answered l) →
          s.reads read = some (.answered l) := by
      refine ⟨_, rfl, ?_⟩
      split
      · exact ⟨h, rfl, fun l hl => hl⟩
      split
      · have hsame := fun f => sameAt_flushPending (s := s.tab) (f := f)
        have hreads : ∀ r l, (s.startRead read).reads r = some (.answered l) →
            s.reads r = some (.answered l) := by
          intro r l hr
          simp only [ReadTab.startRead, insert_apply] at hr
          split at hr
          · cases hr
          · exact hr
        exact ⟨h.of_moved (fun f => (h.sound f).same (hsame f) (le_refl _))
          (fun f => .of_sameAt (hsame f) (le_refl _)) rfl hreads fun _ _ _ _ _ hw => hw,
          rfl, hreads read⟩
      · have hreads : ∀ r l, (s.reads.insert read .requested) r = some (.answered l) →
            s.reads r = some (.answered l) := by
          intro r l hr
          rw [insert_apply] at hr
          split at hr
          · cases hr
          · exact hr
        exact ⟨h.of_moved h.sound (fun f => .refl s.tab f) rfl hreads fun _ _ _ _ _ hw => hw, rfl,
          hreads read⟩
    rw [ht] at hst
    cases hst
    refine ⟨hinv.sound, hinv.reads, ?_, ?_⟩
    · rintro call' kind' r before known ⟨reportId', view', hwaits⟩
      have hwaits : (t.calls.insert call ⟨kind, reportId, view,
          .reading read t.tab.baseline t.tab.log⟩) call' =
            some ⟨kind', reportId', view', .reading r before known⟩ := hcalls ▸ hwaits
      rw [insert_apply] at hwaits
      split at hwaits
      · cases hwaits
        exact ⟨fun f b hb => (hinv.sound f).stamp b hb, fun f => suffix_refl _,
          fun f _ hhas _ => hhas⟩
      · exact hinv.since call' kind' r before known ⟨reportId', view', hwaits⟩
    · rintro call' r before known l ⟨reportId', view', hwaits⟩ hr
      have hwaits : (t.calls.insert call ⟨kind, reportId, view,
          .reading read t.tab.baseline t.tab.log⟩) call' =
            some ⟨.refresh, reportId', view', .reading r before known⟩ := hcalls ▸ hwaits
      rw [insert_apply] at hwaits
      split at hwaits
      · cases hwaits
        have hanswered := hnew l hr
        rcases hcareful with hkind | hphase
        · rw [hcall] at hkind
          simp at hkind
        · rw [hanswered] at hphase
          cases hphase
      · exact hinv.asked call' r before known l ⟨reportId', view', hwaits⟩ hr
  · cases hst

/-- The server answers a read. -/
theorem Inv.answer (h : s.Inv) {read : ℕ} (hst : s.answer read = some s') : s'.Inv := by
  unfold ReadTab.answer at hst
  split at hst
  · cases hst
    refine ⟨h.sound, ?_, h.since, ?_⟩
    · intro r l hr f
      rw [insert_apply] at hr
      split at hr
      · cases hr
        exact suffix_refl _
      · exact h.reads r l hr f
    · intro call r before known l hwaits hr f
      rw [insert_apply] at hr
      split at hr
      · cases hr
        exact (h.since call .refresh r before known hwaits).held f
      · exact h.asked call r before known l hwaits hr f
  · cases hst

/-- What a call that ends waits for. -/
theorem waits_of_reading (hr : s.reading call = some (c, before, entries)) :
    ∃ r known, s.Waits call c.kind r before known ∧ s.reads r = some (.answered entries) := by
  unfold reading at hr
  split at hr
  · rename_i hcall
    split at hr
    · rename_i hread
      obtain ⟨-, hr⟩ := ite_none_right_eq_some.1 hr
      cases hr
      exact ⟨_, _, ⟨_, _, hcall⟩, hread⟩
    · cases hr
  · cases hr

/-- An edit that is adopted over was known to the server when the read was answered. -/
theorem Inv.known (h : s.Inv) (hr : s.reading call = some (c, before, entries))
    (hcareful : s.AdoptCareful c before entries) (hown : f ∈ s.own)
    (hadopts : s.Adopts c before entries f) :
    entries f <:+ s.tab.log f ∧ Has (entries f) (s.tab.version f) := by
  obtain ⟨r, known, hwaits, hread⟩ := waits_of_reading hr
  refine ⟨h.reads r entries hread f, ?_⟩
  have hf := hcareful.1 f hown hadopts.1
  obtain ⟨-, hkind⟩ := hadopts
  revert hf hkind
  cases hk : c.kind with
  | hydrate except => exact fun hf hne => hf (.inl hne)
  | refresh =>
    intro hf hunchanged
    rw [hk] at hwaits
    -- the baseline is the one from before, so the edit had landed by then
    have hknown := (h.since call .refresh r before known hwaits).landed f hown (hf hunchanged)
      hunchanged.1
    exact hknown.mono (h.asked call r before known entries hwaits hread f)

theorem Inv.adopted (h : s.Inv) (hr : s.reading call = some (c, before, entries))
    (hcareful : s.AdoptCareful c before entries) (hst : s.adopt call = some s') : s'.Inv := by
  rcases adopt_cases hst with ⟨hnone, -⟩ | ⟨c', before', entries', hr', rfl⟩
  · rw [hr] at hnone
    cases hnone
  rw [hr] at hr'
  cases hr'
  set t := s.adopted c before entries with ht
  have hqueues : s.tab.SameQueues t := s.sameQueues_adopted c before entries
  have hsound : ∀ f, t.Sound f := fun f =>
    (h.sound f).turn hqueues (s.turn_adopted c before entries f)
  -- the findings whose edits are still there
  set own := s.own.filter fun id => t.version id = s.tab.version id with hown
  have hsince : ∀ call kind r before known, s.Waits call kind r before known →
      Since t own before known := by
    intro call' kind r before' known hwaits
    have hold := h.since call' kind r before' known hwaits
    refine ⟨?_, fun f => hqueues.log ▸ hold.held f, ?_⟩
    · intro f b hb
      have hle : s.tab.stamps ≤ t.stamps := by
        rw [ht, ReadTab.adopted]
        split
        · exact (foldl_stamps (hydrateEntry · entries)
            (fun t id => t.stamps_hydrateEntry id) _ s.tab)
        · exact (foldl_stamps (refreshEntry · before entries)
            (fun t id => t.stamps_refreshEntry id) _ s.tab)
      exact (hold.stamp f b hb).trans_le hle
    · intro f hf hhas hbefore
      obtain ⟨hmem, hversion⟩ := mem_filter.1 hf
      rw [hqueues.log, hversion] at hhas
      rw [hversion]
      obtain ⟨htaken, -, hother⟩ := s.adopted_turn c before entries f
      by_cases hadopts : s.Adopts c before entries f
      · obtain ⟨b, hb, hle, -⟩ := (htaken hadopts).baseline
        rw [hb] at hbefore
        exact absurd (hold.stamp f b hbefore.symm) (not_lt.2 hle)
      · rcases hother hadopts with hstill | ⟨hnil, ⟨except, hkind⟩, hfound, -⟩
        · exact hold.landed f hmem hhas (hstill.baseline ▸ hbefore)
        · -- a hydrate that knows nothing of the finding did not miss a write
          have hf := hcareful.1 f hmem hfound
          rw [hkind] at hf
          obtain ⟨w, hw, -⟩ := hf (.inr hhas)
          rw [hnil] at hw
          cases hw
  have hbefore : ({ s with calls := s.calls.erase call, tab := t, own } : ReadTab).Inv :=
    ⟨hsound, fun r l hr f => hqueues.log ▸ h.reads r l hr f,
      fun call' kind r before known hw => hsince call' kind r before known (hw.of_erase rfl),
      fun call' r before known l hw => h.asked call' r before known l (hw.of_erase rfl)⟩
  split
  · refine hbefore.of_moved (TriageTab.Sound.scheduleTriagePush hsound ?_)
      (fun f => (t.moved_scheduleTriagePush f).1) rfl (fun _ _ hr => hr) fun _ _ _ _ _ hw => hw
    rw [hqueues.view]
    exact hcareful.2
  · exact hbefore

/-! ### Steps -/

theorem await_tab {read : ℕ} {shared : Bool} (hst : s.await call read shared = some s') :
    (s'.tab = s.tab ∨ s'.tab = s.tab.flushPending) ∧ s'.own = s.own := by
  unfold ReadTab.await at hst
  split at hst
  · obtain ⟨-, hst⟩ := ite_none_right_eq_some.1 hst
    cases hst
    simp only
    split
    · exact ⟨.inl rfl, rfl⟩
    split
    · exact ⟨.inr rfl, rfl⟩
    · exact ⟨.inl rfl, rfl⟩
  · cases hst

/-- What a step does that is neither an edit nor the end of a call: each finding keeps its entry. -/
structure Pushed (s s' : ReadTab) : Prop where
  moved : ∀ f, s.tab.Moved s'.tab f
  own : s'.own = s.own

theorem Pushed.of_same (hsame : ∀ f, TriageTab.SameAt s.tab s'.tab f)
    (hstamps : s.tab.stamps ≤ s'.tab.stamps) (hown : s'.own = s.own) : s.Pushed s' :=
  ⟨fun f => .of_sameAt (hsame f) hstamps, hown⟩

theorem sound_other (h : s.tab.Sound f) (id : String) (wire : Option WireEntry) :
    ({ s.tab with log := update s.tab.log id (⟨wire, none⟩ :: s.tab.log id) } :
        TriageTab).Sound f ∧
      s.tab.Moved { s.tab with
        log := update s.tab.log id (⟨wire, none⟩ :: s.tab.log id) } f := by
  set t : TriageTab := { s.tab with
    log := update s.tab.log id (⟨wire, none⟩ :: s.tab.log id) } with ht
  rcases eq_or_ne f id with rfl | hne
  · have hlog : t.log f = ⟨wire, none⟩ :: s.tab.log f := update_self _ _ _
    have hm : s.tab.Moved t f := by
      refine ⟨rfl, rfl, le_refl _, hlog ▸ suffix_cons _ _, .inl ⟨rfl, ?_⟩⟩
      rintro v ⟨w, hw, hmine⟩
      rw [hlog] at hw
      rcases mem_cons.1 hw with rfl | hw
      · cases hmine
      · exact ⟨w, hw, hmine⟩
    have hserver : t.serverVersion f = s.tab.serverVersion f := by
      rw [serverVersion, hlog]
      rfl
    refine ⟨h.moved (h.base.mono h.base.sorted (fun _ hc => hc) hserver rfl rfl) hm ?_ ?_, hm⟩
    · rw [hlog]
      exact h.sorted
    · rw [hlog]
      intro w hw
      rcases mem_cons.1 hw with rfl | hw
      · refine .inr fun v hv => ?_
        cases hv
      · exact .inl hw
  · have hlog : t.log f = s.tab.log f := update_of_ne hne _ _
    have hsame : TriageTab.SameAt s.tab t f := ⟨rfl, hlog, rfl, rfl, rfl, .rfl, .rfl⟩
    exact ⟨h.same hsame (le_refl _), .of_sameAt hsame (le_refl _)⟩

variable {entryBytes : String → Option WireEntry → ℕ}

/-- What a step is. -/
theorem Inv.step (h : s.Inv) {a : ReadLabel}
    (hcareful : ReadCareful s a) (hst : (triageReads entryBytes).step s a = some s') :
    s'.Inv ∧ ((∃ id entry, a = .edit id entry) ∨ (∃ call, a = .adopt call) ∨ s.Pushed s') := by
  have hflush := fun f => sameAt_flushPending (s := s.tab) (f := f)
  cases a with
  | edit id entry =>
    obtain ⟨-, hst⟩ := ite_none_right_eq_some.1 hst
    cases hst
    exact ⟨h.edit hcareful, .inl ⟨id, entry, rfl⟩⟩
  | view v =>
    cases hst
    have hsame : ∀ f, TriageTab.SameAt s.tab { s.tab with view := v } f := fun f =>
      ⟨rfl, rfl, rfl, rfl, rfl, .rfl, .rfl⟩
    exact ⟨h.of_sameAt hsame (le_refl _) rfl (fun _ _ hr => hr) fun _ _ _ _ _ hw => hw,
      .inr (.inr (.of_same hsame (le_refl _) rfl))⟩
  | expire =>
    obtain ⟨-, hst⟩ := ite_none_right_eq_some.1 hst
    cases hst
    exact ⟨h.setTab hflush (le_refl _), .inr (.inr (.of_same hflush (le_refl _) rfl))⟩
  | flush =>
    cases hst
    exact ⟨h.setTab hflush (le_refl _), .inr (.inr (.of_same hflush (le_refl _) rfl))⟩
  | send =>
    obtain ⟨t, ht, rfl⟩ := map_eq_some_iff.1 hst
    have hsame := fun f => sameAt_send (f := f) ht
    have hstamps := stamps_send ht
    exact ⟨h.of_sameAt hsame hstamps.ge rfl (fun _ _ hr => hr) fun _ _ _ _ _ hw => hw,
      .inr (.inr (.of_same hsame hstamps.ge rfl))⟩
  | settle posted =>
    obtain ⟨t, ht, rfl⟩ := map_eq_some_iff.1 hst
    obtain ⟨q, hq, -⟩ := map_eq_some_iff.1 ht
    have hmoved := fun f => moved_settle (h.sound f) hq ht fun hposted => by
      subst hposted
      exact hcareful
    exact ⟨h.of_moved (fun f => (hmoved f).2) (fun f => (hmoved f).1) rfl (fun _ _ hr => hr)
      fun _ _ _ _ _ hw => hw, .inr (.inr ⟨fun f => (hmoved f).1, rfl⟩)⟩
  | other id wire =>
    cases hst
    have hother := fun f => sound_other (h.sound f) id wire
    exact ⟨h.of_moved (fun f => (hother f).1) (fun f => (hother f).2) rfl (fun _ _ hr => hr)
      fun _ _ _ _ _ hw => hw, .inr (.inr ⟨fun f => (hother f).2, rfl⟩)⟩
  | begin call kind reportId =>
    obtain ⟨-, hst⟩ := ite_none_right_eq_some.1 hst
    cases hst
    have hsame : ∀ f, TriageTab.SameAt s.tab (match kind with
        | .hydrate _ =>
          { s.tab with hydratedReports := s.tab.hydratedReports.erase (s.scope reportId) }
        | .refresh => s.tab).flushPending f := by
      intro f
      cases kind with
      | hydrate except => exact sameAt_flush s.tab _ f
      | refresh => exact hflush f
    have hstamps : s.tab.stamps ≤ (match kind with
        | .hydrate _ =>
          { s.tab with hydratedReports := s.tab.hydratedReports.erase (s.scope reportId) }
        | .refresh => s.tab).flushPending.stamps := by
      cases kind <;> exact le_refl _
    refine ⟨h.of_sameAt hsame hstamps rfl (fun _ _ hr => hr) ?_,
      .inr (.inr (.of_same hsame hstamps rfl))⟩
    rintro call' kind' r before known ⟨reportId', view', hwaits⟩
    simp only [insert_apply] at hwaits
    split at hwaits
    · cases hwaits
    · exact ⟨reportId', view', hwaits⟩
  | startRead read =>
    obtain ⟨-, hst⟩ := ite_none_right_eq_some.1 hst
    cases hst
    refine ⟨h.of_sameAt hflush (le_refl _) rfl ?_ fun _ _ _ _ _ hw => hw,
      .inr (.inr (.of_same hflush (le_refl _) rfl))⟩
    intro r l hr
    simp only [ReadTab.startRead, insert_apply] at hr
    split at hr
    · cases hr
    · exact hr
  | await call read shared =>
    have hst : s.await call read shared = some s' := hst
    obtain ⟨htab, hown⟩ := await_tab hst
    refine ⟨h.await hcareful hst, .inr (.inr ⟨fun f => ?_, hown⟩)⟩
    rcases htab with htab | htab
    · exact htab ▸ .refl s.tab f
    · exact htab ▸ .of_sameAt (hflush f) (le_refl _)
  | request read =>
    have hst : s.request read = some s' := hst
    unfold ReadTab.request at hst
    split at hst
    · obtain ⟨-, hst⟩ := ite_none_right_eq_some.1 hst
      cases hst
      refine ⟨h.of_moved h.sound (fun f => .refl s.tab f) rfl ?_ fun _ _ _ _ _ hw => hw,
        .inr (.inr ⟨fun f => .refl s.tab f, rfl⟩)⟩
      intro r l hr
      simp only [insert_apply] at hr
      split at hr
      · cases hr
      · exact hr
    · cases hst
  | answer read =>
    have hst : s.answer read = some s' := hst
    refine ⟨h.answer hst, .inr (.inr ?_)⟩
    unfold ReadTab.answer at hst
    split at hst
    · cases hst
      exact ⟨fun f => .refl s.tab f, rfl⟩
    · cases hst
  | adopt call =>
    have hst : s.adopt call = some s' := hst
    refine ⟨?_, .inr (.inl ⟨call, rfl⟩)⟩
    simp only [ReadCareful] at hcareful
    split at hcareful
    · rename_i hnone
      rcases adopt_cases hst with ⟨-, rfl⟩ | ⟨c, before, entries, hr, -⟩
      · exact h.of_moved h.sound (fun f => .refl s.tab f) rfl (fun _ _ hr => hr)
          fun _ _ _ _ _ hw => hw.of_erase rfl
      · rw [hr] at hnone
        cases hnone
    · rename_i hr
      exact h.adopted hr hcareful hst
  | giveUp call =>
    cases hst
    exact ⟨h.of_moved h.sound (fun f => .refl s.tab f) rfl (fun _ _ hr => hr)
      fun _ _ _ _ _ hw => hw.of_erase rfl, .inr (.inr ⟨fun f => .refl s.tab f, rfl⟩)⟩

theorem captures_triage (t : TriageTab) : t.scheduleTriagePush.triage = t.triage := by
  have hone : ∀ (t : TriageTab) id, (t.capture id).triage = t.triage := by
    intro t id
    rw [capture]
    split
    · rfl
    split
    · rfl
    split <;> rfl
  have hall : ∀ (ids : List String) (t : TriageTab), (ids.foldl capture t).triage = t.triage := by
    intro ids
    induction ids with
    | nil => exact fun t => rfl
    | cons id ids ih => exact fun t => (ih (t.capture id)).trans (hone t id)
  rw [scheduleTriagePush]
  split
  · rfl
  · exact hall _ t

/-- What the end of a call leaves of the entries. -/
theorem adopt_triage (hst : s.adopt call = some s')
    (hr : s.reading call = some (c, before, entries)) :
    s'.tab.triage = (s.adopted c before entries).triage := by
  rcases adopt_cases hst with ⟨hnone, -⟩ | ⟨c', before', entries', hr', rfl⟩
  · rw [hr] at hnone
    cases hnone
  · rw [hr] at hr'
    cases hr'
    simp only
    split
    · exact captures_triage _
    · rfl

/-- An edit stays through a careful step, unless it is edited again or someone else's later write
is adopted. -/
theorem Inv.kept (h : s.Inv) {a : ReadLabel}
    (hcareful : ReadCareful s a) (hst : (triageReads entryBytes).step s a = some s')
    (hown : f ∈ s.own) :
    (f ∈ s'.own ∧ s'.tab.wireOf f = s.tab.wireOf f ∧ s'.tab.version f = s.tab.version f) ∨
    (∃ entry, a = .edit f entry) ∨ ∃ call, a = .adopt call ∧ Replaced s s' call f := by
  obtain ⟨-, hstep⟩ := h.step hcareful hst
  rcases hstep with ⟨id, entry, rfl⟩ | ⟨call, rfl⟩ | hpushed
  · rcases eq_or_ne f id with rfl | hne
    · exact .inr (.inl ⟨entry, rfl⟩)
    · obtain ⟨-, hst⟩ := ite_none_right_eq_some.1 hst
      cases hst
      have hm := ((s.tab.edit id entry).moved_scheduleTriagePush f).1
      have hsame := sameAt_edit (s := s.tab) hne entry
      refine .inl ⟨?_, hm.wireOf.trans hsame.wireOf, hm.version.trans hsame.version⟩
      simp only [ReadTab.edit]
      split
      · exact hown
      · exact mem_insert_of_mem hown
  · have hst : s.adopt call = some s' := hst
    rcases adopt_cases hst with ⟨-, rfl⟩ | ⟨c, before, entries, hr, hs'⟩
    · exact .inl ⟨hown, rfl, rfl⟩
    have hadopt : s.AdoptCareful c before entries := by
      simp only [ReadCareful, hr] at hcareful
      exact hcareful
    have htriage := adopt_triage hst hr
    have hversion : s'.tab.version f = (s.adopted c before entries).version f := by
      rw [hs']
      simp only
      split
      · exact ((s.adopted c before entries).moved_scheduleTriagePush f).1.version
      · rfl
    have hmem : (s.adopted c before entries).version f = s.tab.version f → f ∈ s'.own := by
      intro heq
      rw [hs']
      exact mem_filter.2 ⟨hown, heq⟩
    obtain ⟨htaken, -, hother⟩ := s.adopted_turn c before entries f
    by_cases hadopts : s.Adopts c before entries f
    · obtain ⟨hentry, -, hnew⟩ := htaken hadopts
      obtain ⟨hsub, hhas⟩ := h.known hr hadopt hown hadopts
      obtain ⟨w, ws, hentries, hw⟩ := (h.sound f).replaced hsub hhas
      have hwire : s'.tab.wireOf f = w.wire := by
        refine (congrArg wireEntryOf (congrArg (· f) htriage)).trans ?_
        rw [hentry.kept, hentries]
        rfl
      by_cases hsame : w.wire = s.tab.wireOf f
      · rw [hentries, if_pos (by exact hsame)] at hnew
        exact .inl ⟨hmem hnew, hwire.trans hsame, hversion.trans hnew⟩
      · rcases hw with hw | ⟨hmine, hbelow⟩
        · exact absurd hw hsame
        · exact .inr (.inr ⟨call, rfl, c, before, entries, w, ws, hr, hentries, hmine, hbelow,
            hwire⟩)
    · have hkeep : (s.adopted c before entries).triage f = s.tab.triage f ∧
          (s.adopted c before entries).version f = s.tab.version f := by
        rcases hother hadopts with hstill | ⟨-, -, -, hforgotten⟩
        · exact ⟨hstill.triage, hstill.version⟩
        · exact ⟨hforgotten.triage, hforgotten.version⟩
      refine .inl ⟨hmem hkeep.2, ?_, hversion.trans hkeep.2⟩
      exact congrArg wireEntryOf ((congrArg (· f) htriage).trans hkeep.1)
  · have hm := hpushed.moved f
    exact .inl ⟨hpushed.own ▸ hown, hm.wireOf, hm.version⟩

end ReadTab

open ReadTab

/-- A tab that was just opened, with whatever triage, and whatever others wrote to the server. -/
structure Opened (s : ReadTab) : Prop where
  quiet : s.tab.Quiet
  mine : ∀ f, ownVersions (s.tab.log f) = []
  stamp : ∀ f b, s.tab.baseline f = some b → b.stamp < s.tab.stamps
  reads : s.reads = ∅
  calls : s.calls = ∅

theorem Opened.inv {s : ReadTab} (h : Opened s) : s.Inv := by
  obtain ⟨-, hpending, hchain, hsending⟩ := h.quiet
  have hout : ∀ f, s.tab.outstanding f = [] := by
    intro f
    rw [outstanding, hpending, hchain, hsending]
    rfl
  have hserver : ∀ f, s.tab.serverVersion f = 0 := by
    intro f
    rw [serverVersion, findSome?_eq_head?, h.mine f]
    rfl
  refine ⟨fun f => ⟨⟨?_, ?_, ?_, ?_, ?_⟩, ?_, ?_, h.stamp f⟩, ?_, ?_, ?_⟩
  · rw [hout]
    exact List.Pairwise.nil
  · rw [hout]
    intro c hc
    cases hc
  · rw [hout]
    intro c hc
    cases hc
  · rw [hout]
    intro c hc
    cases hc
  · rw [hserver]
    exact zero_le _
  · rw [h.mine f]
    exact List.Pairwise.nil
  · intro w hw hmine
    have hin := mem_ownVersions.2 ⟨w, hw, hmine⟩
    rw [h.mine f] at hin
    cases hin
  · intro r l hr
    rw [h.reads] at hr
    cases hr
  · rintro call kind r before known ⟨reportId, view, hc⟩
    rw [h.calls] at hc
    cases hc
  · rintro call r before known l ⟨reportId, view, hc⟩
    rw [h.calls] at hc
    cases hc

/-- A step that does not edit a finding. -/
def ReadLabel.Spares (f : String) : ReadLabel → Prop
  | .edit id _ => id ≠ f
  | _ => True

/-- **Reads lose no edit.**  In every careful run an edit is still the local entry when it was not
edited again, or it gave way to a value that someone else wrote to the server after the edit had
landed there; an adopted entry has the server's color, bucket, fix and flag, and what reports ignore
is kept exactly when the bucket allows it; and the findings of other reports are left as they
are. -/
theorem reads_lose_no_edit {entryBytes : String → Option WireEntry → ℕ} {s₀ s : ReadTab}
    (h₀ : Opened s₀) (h : (triageReads entryBytes).ReachableUnder ReadCareful s₀ s) :
    (∀ f entry t u, wireEntryOf entry ≠ s.tab.wireOf f → ReadCareful s (.edit f entry) →
      (triageReads entryBytes).step s (.edit f entry) = some t →
      (triageReads entryBytes).ReachableUnder (fun s a => ReadCareful s a ∧ a.Spares f) t u →
      u.tab.wireOf f = wireEntryOf entry ∨
      ∃ x x' call, (triageReads entryBytes).Reachable t x ∧
        (triageReads entryBytes).step x (.adopt call) = some x' ∧
        (triageReads entryBytes).Reachable x' u ∧ x.tab.wireOf f = wireEntryOf entry ∧
        Replaced x x' call f) ∧
    ∀ call s' c before entries, (triageReads entryBytes).step s (.adopt call) = some s' →
      s.reading call = some (c, before, entries) →
      (∀ f, s.Adopts c before entries f →
        AdoptedAs ((entries f).head?.bind (·.wire)) (s.tab.triage f) (s'.tab.triage f)) ∧
      ∀ f ∉ s.findings c, s'.tab.triage f = s.tab.triage f := by
  have hinv : s.Inv := h.invariant (I := ReadTab.Inv) h₀.inv
    fun _ _ _ hI hcareful hst => (hI.step hcareful hst).1
  refine ⟨?_, ?_⟩
  · intro f entry t u hchanged hcareful hst hrun
    obtain ⟨htinv, -⟩ := hinv.step hcareful hst
    obtain ⟨-, hst⟩ := Option.ite_none_right_eq_some.1 hst
    cases hst
    have hm := ((s.tab.edit f entry).moved_scheduleTriagePush f).1
    have hwire : (s.edit f entry).tab.wireOf f = wireEntryOf entry :=
      hm.wireOf.trans (TriageTab.wireOf_edit_self entry)
    have hown : f ∈ (s.edit f entry).own := by
      simp only [ReadTab.edit, if_neg hchanged]
      exact Finset.mem_insert_self _ _
    -- the edit is there, or it was replaced
    have hkept : u.Inv ∧ (f ∈ u.own ∧ u.tab.wireOf f = wireEntryOf entry ∨
        ∃ x x' call, (triageReads entryBytes).Reachable (s.edit f entry) x ∧
          (triageReads entryBytes).step x (.adopt call) = some x' ∧
          (triageReads entryBytes).Reachable x' u ∧ x.tab.wireOf f = wireEntryOf entry ∧
          Replaced x x' call f) := by
      induction hrun with
      | refl => exact ⟨htinv, .inl ⟨hown, hwire⟩⟩
      | @tail v v' a hv hC hst ih =>
        obtain ⟨hvinv, hv'⟩ := ih
        refine ⟨(hvinv.step hC.1 hst).1, ?_⟩
        rcases hv' with ⟨hvown, hvwire⟩ | ⟨x, x', call, hx, hadopt, hx', hrest⟩
        · rcases hvinv.kept hC.1 hst hvown with hsame | ⟨entry', rfl⟩ | ⟨call, rfl, hreplaced⟩
          · exact .inl ⟨hsame.1, hsame.2.1.trans hvwire⟩
          · exact absurd rfl hC.2
          · exact .inr ⟨v, v', call, hv.reachable, hst, .refl v', hvwire, hreplaced⟩
        · exact .inr ⟨x, x', call, hx, hadopt, hx'.tail hst, hrest⟩
    rcases hkept.2 with ⟨-, hsame⟩ | hreplaced
    · exact .inl hsame
    · exact .inr hreplaced
  · intro call s' c before entries hst hr
    have hst : s.adopt call = some s' := hst
    have htriage := adopt_triage hst hr
    constructor
    · intro f hadopts
      rw [htriage]
      exact ((s.adopted_turn c before entries f).1 hadopts).entry
    · intro f hf
      rw [htriage]
      exact ((s.adopted_turn c before entries f).2.1 hf).triage

/-! ### One finding -/

instance (s : TriageTab) (f : String) : Decidable (s.CaptureCareful f) :=
  inferInstanceAs (Decidable (∀ key ∈ s.captureScope f, ∀ c ∈ queuedOf f (behind key s.pending),
    c.version = s.version f))

instance (s : TriageTab) : Decidable s.RequeueCareful :=
  inferInstanceAs (Decidable (∀ q ∈ s.sending, ∀ p ∈ q.batch ++ q.rest,
    changesOf p.1 (ownChanges q.key s.pending) = [] →
    ∀ c ∈ queuedOf p.1 s.flushChain ++ queuedOf p.1 (before q.key s.pending),
      c.version = p.2.version))

instance (s : ReadTab) (c : ReadCall) (before : FMap String Baseline)
    (entries : String → List ServerWrite) (f : String) : Decidable (match c.kind with
      | .hydrate _ => entries f ≠ [] ∨ Has (s.tab.log f) (s.tab.version f) →
          Has (entries f) (s.tab.version f)
      | .refresh => s.tab.Unchanged before f → Has (s.tab.log f) (s.tab.version f)) :=
  match c.kind with
  | .hydrate _ => inferInstanceAs (Decidable (_ → _))
  | .refresh => inferInstanceAs (Decidable (_ → _))

instance (s : ReadTab) (c : ReadCall) (before : FMap String Baseline)
    (entries : String → List ServerWrite) : Decidable (s.AdoptCareful c before entries) :=
  inferInstanceAs (Decidable (_ ∧ _))

instance (s : ReadTab) : ∀ a, Decidable (ReadCareful s a)
  | .edit id entry => inferInstanceAs (Decidable (∀ g ∈ s.tab.view.loadedFindingIds,
      (s.tab.edit id entry).CaptureCareful g))
  | .settle .transient => inferInstanceAs (Decidable s.tab.RequeueCareful)
  | .await _ _ _ => inferInstanceAs (Decidable (_ ∨ _))
  | .adopt call =>
    show Decidable (match s.reading call with
      | none => True
      | some (c, before, entries) => s.AdoptCareful c before entries) from
    match s.reading call with
    | none => instDecidableTrue
    | some (c, before, entries) => inferInstanceAs (Decidable (s.AdoptCareful c before entries))
  | .view _ | .expire | .flush | .send | .settle .landed | .settle .refusedAsSent | .other _ _
  | .begin _ _ _ | .startRead _ | .request _ | .answer _ | .giveUp _ => instDecidableTrue

instance (f : String) : ∀ a, Decidable (ReadLabel.Spares f a)
  | .edit id _ => inferInstanceAs (Decidable (id ≠ f))
  | .view _ | .expire | .flush | .send | .settle _ | .other _ _ | .begin _ _ _ | .startRead _
  | .await _ _ _ | .request _ | .answer _ | .adopt _ | .giveUp _ => instDecidableTrue

/-- A tab that shows one hydrated report, of one finding that nobody triaged. -/
def readingTab : ReadTab := ⟨oneFinding, 0, 0, ∅, ∅, ∅⟩

theorem readingTab_opened : Opened readingTab :=
  ⟨⟨rfl, rfl, rfl, rfl⟩, fun _ => rfl, fun _ _ h => (nomatch h), rfl, rfl⟩

/-- The finding is marked blue. -/
def markedBlue : TriageEntry := { TriageEntry.empty with color := some "blue" }

/-- What is done after the finding was marked red: the edit lands, someone else marks the finding
blue, and a refresh reads it. -/
def markedOver : List ReadLabel :=
  [.expire, .send, .settle .landed, .other "f" (wireEntryOf (some markedBlue)),
    .begin 0 .refresh "r", .await 0 0 false, .answer 0, .adopt 0]

/-- An edit gives way to what someone else wrote after it had landed. -/
theorem reads_lose_no_edit_blue : ∃ t u : ReadTab,
    (triageReads fun _ _ => 1).step readingTab (.edit "f" (some markedRed)) = some t ∧
    (triageReads fun _ _ => 1).run t markedOver = some u ∧
    u.tab.wireOf "f" = wireEntryOf (some markedBlue) ∧
    ∃ x x' call, Replaced x x' call "f" := by
  have hst : ∃ t, (triageReads fun _ _ => 1).step readingTab (.edit "f" (some markedRed)) =
      some t := Option.isSome_iff_exists.1 (by decide +kernel)
  obtain ⟨t, ht⟩ := hst
  have hend : ((triageReads fun _ _ => 1).step readingTab (.edit "f" (some markedRed))).map
      (fun t => (((triageReads fun _ _ => 1).run t markedOver).map fun u =>
          decide (u.tab.wireOf "f" = wireEntryOf (some markedBlue)),
        decide ((triageReads fun _ _ => 1).RunMeets (fun s a => ReadCareful s a ∧ a.Spares "f") t
          markedOver))) = some (some true, true) := by decide +kernel
  rw [ht, Option.map_some, Option.some.injEq, Prod.mk.injEq, decide_eq_true_eq] at hend
  obtain ⟨hend, hmeets⟩ := hend
  obtain ⟨u, hrun, hblue⟩ := Option.map_eq_some_iff.1 hend
  rw [decide_eq_true_eq] at hblue
  refine ⟨t, u, ht, hrun, hblue, ?_⟩
  have hstart : (triageReads fun _ _ => 1).ReachableUnder ReadCareful readingTab readingTab := .refl
  obtain ⟨hkept, -⟩ := reads_lose_no_edit readingTab_opened hstart
  rcases hkept "f" (some markedRed) t u (by decide +kernel) (by decide +kernel) ht
    (Machine.reachableUnder_of_run hrun hmeets) with hred | ⟨x, x', call, -, -, -, -, hreplaced⟩
  · rw [hblue] at hred
    exact absurd hred (by decide +kernel)
  · exact ⟨x, x', call, hreplaced⟩

/-- An edit made while a hydrate waits for its read is reverted, though nobody else wrote. -/
theorem edit_reverted_by_hydrate : ∃ s₀ s t u : ReadTab, Opened s₀ ∧
    (triageReads fun _ _ => 1).Reachable s₀ s ∧
    (triageReads fun _ _ => 1).step s (.edit "f" (some markedBlue)) = some t ∧
    (triageReads fun _ _ => 1).ReachableUnder (fun _ a => a.Spares "f") t u ∧
    u.tab.wireOf "f" ≠ wireEntryOf (some markedBlue) ∧
    ∀ w ∈ u.tab.log "f", w.mine ≠ none := by
  have hend : ((triageReads fun _ _ => 1).run readingTab [.edit "f" (some markedRed), .expire,
      .send, .settle .landed, .begin 0 (.hydrate ∅) "r", .await 0 0 false, .answer 0]).map (fun s =>
        ((triageReads fun _ _ => 1).step s (.edit "f" (some markedBlue))).map fun t =>
          ((triageReads fun _ _ => 1).step t (.adopt 0)).map fun u =>
            (decide (u.tab.wireOf "f" = wireEntryOf (some markedBlue)),
              decide (∀ w ∈ u.tab.log "f", w.mine ≠ none))) =
      some (some (some (false, true))) := by decide +kernel
  obtain ⟨s, hrun, hend⟩ := Option.map_eq_some_iff.1 hend
  obtain ⟨t, ht, hend⟩ := Option.map_eq_some_iff.1 hend
  obtain ⟨u, hu, hend⟩ := Option.map_eq_some_iff.1 hend
  simp only [Prod.mk.injEq, decide_eq_true_eq, decide_eq_false_iff_not] at hend
  have hspares : (ReadLabel.adopt 0).Spares "f" := trivial
  exact ⟨readingTab, s, t, u, readingTab_opened, Machine.reachable_of_run hrun, ht,
    .tail .refl hspares hu, hend.1, hend.2⟩

end Triage.Ui
