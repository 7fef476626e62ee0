import Triage.Client.TriageGc
import Triage.Machine.Basic

/-!
# Runs of the triage collection

The collection lists the reports and reads them one after the other, and only then prunes what no
report it read has. At every await the user may edit, another tab or a peer may change the triage,
and reports may be stored or deleted, here or in another tab. A read is answered from what the tab
still has of the report, by another read under way, or from what is stored.

## Main results

* `prune_keeps` : what a collection never prunes, and what it prunes when left alone.
* `not_keepsReachable` : a report stored while the collection reads may lose its triage.
-/

namespace Triage.Client.TriageGc

open List Option FMap

/-! ### The tab -/

/-- A read under way (`inFlight`): the text it got, and whether this tab wrote the report since. -/
structure UnderWay where
  text : String
  superseded : Bool

structure Tab where
  /-- `state.triage` -/
  map : TriageStateMap
  /-- The reports that are stored, by their names. -/
  files : FMap String String
  /-- `cache`, the texts the tab still has. -/
  kept : FMap String String
  underWay : FMap String UnderWay

/-- What happens at an await. -/
inductive Event
  /-- The triage is edited, or taken from another tab or a peer. -/
  | edit (map : TriageStateMap)
  /-- A report is stored, by this tab or another one. -/
  | save (name text : String) (own : Bool)
  | delete (name : String) (own : Bool)
  /-- Another read of this tab gets the text of a report. -/
  | fetch (name : String)
  /-- It ends, and its text is kept or not. -/
  | settle (name : String) (keep : Bool)
  /-- A text that the tab has is given up for others. -/
  | forget (name : String)

/-- `bumpWriteGen` : the reads of the report that are under way got an older text. -/
def supersede (underWay : FMap String UnderWay) (name : String) : FMap String UnderWay :=
  .ofKeys underWay.keys fun name' =>
    (underWay name').map fun u => ⟨u.text, u.superseded || name' = name⟩

def Tab.after (t : Tab) : Event → Tab
  | .edit map => { t with map }
  | .save name text own =>
    if own then
      { t with
        files := t.files.insert name text
        kept := t.kept.insert name text
        underWay := supersede t.underWay name }
    else { t with files := t.files.insert name text }
  | .delete name own =>
    if own then
      { t with
        files := t.files.erase name
        kept := t.kept.erase name
        underWay := t.underWay.erase name }
    else { t with files := t.files.erase name }
  | .fetch name =>
    match t.files name with
    | none => t
    | some text => { t with underWay := t.underWay.insert name ⟨text, false⟩ }
  | .settle name keep =>
    match t.underWay name with
    | none => t
    | some u =>
      -- `currentWriteGen(name) === startedAtGen`
      if keep && !u.superseded then
        { t with kept := t.kept.insert name u.text, underWay := t.underWay.erase name }
      else { t with underWay := t.underWay.erase name }
  | .forget name => { t with kept := t.kept.erase name }

/-- What `readFile` may answer: a text, or that the report is not found. -/
def Tab.Answers (t : Tab) (name : String) : Option String → Prop
  | some text =>
    t.kept name = some text ∨ (t.underWay name).map UnderWay.text = some text ∨
      t.files name = some text
  | none => t.files name = none

instance (t : Tab) (name : String) : ∀ answer, Decidable (t.Answers name answer)
  | some _ => instDecidableOr
  | none => inferInstanceAs (Decidable (t.files name = none))

/-! ### The collection -/

inductive Phase
  /-- `listFiles` goes through the reports: `throughout` are those stored since it began, and `ever`
  those stored at some time since. -/
  | listing (throughout ever : Finset String)
  /-- The reports that were listed, those still to be read, and the findings read. -/
  | reading (names todo : List String) (reachable : Finset String)
  /-- The triage is pruned, and saved if something changed. -/
  | done (saved : Bool)
  | failed

def Phase.after : Phase → Event → Phase
  | .listing throughout ever, .save name _ _ => .listing throughout (insert name ever)
  | .listing throughout ever, .delete name _ => .listing (throughout.erase name) ever
  | phase, _ => phase

structure Gc where
  tab : Tab
  snap : Snapshot
  phase : Phase

/-- `pruneOrphanTriage` up to its first await. -/
def start (t : Tab) : Gc where
  tab := t
  snap := snapshot t.map
  phase := .listing t.files.keys t.files.keys

inductive Act
  | event (e : Event)
  /-- `listFiles` has found these; the order in which they are read makes no difference. -/
  | listed (names : List String)
  | read (answer : Option String)
  /-- A listing or a read fails, and the collection throws. -/
  | fail
  | prune

section Step

variable (loadFindings : String → Option (List Occurrence))

/-- The ids of the findings of a report; one that cannot be read has none. -/
def reportIds (text : String) : Finset String :=
  (((loadFindings text).getD []).filterMap fun finding => nonempty finding.id).toFinset

def step (s : Gc) : Act → Option Gc
  | .event e => some { s with tab := s.tab.after e, phase := s.phase.after e }
  | .listed names =>
    match s.phase with
    | .listing throughout ever =>
      if throughout ⊆ names.toFinset ∧ names.toFinset ⊆ ever then
        some { s with phase := .reading names names ∅ }
      else none
    | _ => none
  | .read answer =>
    match s.phase with
    | .reading names (name :: todo) reachable =>
      if s.tab.Answers name answer then
        some { s with
          phase := .reading names todo (reachable ∪ (answer.map (reportIds loadFindings)).getD ∅) }
      else none
    | _ => none
  | .fail =>
    match s.phase with
    | .listing _ _ | .reading _ (_ :: _) _ => some { s with phase := .failed }
    | _ => none
  | .prune =>
    match s.phase with
    | .reading names [] reachable =>
      some { s with
        tab := { s.tab with map := pruneMap s.snap names reachable s.tab.map }
        phase := .done (pruneChanges s.snap names reachable s.tab.map) }
    | _ => none

/-- Collections in a tab. -/
def gc : Machine Gc Act := ⟨step loadFindings⟩

end Step

variable {loadFindings : String → Option (List Occurrence)} {s s' : Gc} {a : Act} {t : Tab}
  {name report id : String}

/-- What a step can be. -/
theorem step_cases (h : step loadFindings s a = some s') :
    (∃ e, a = .event e ∧ s' = { s with tab := s.tab.after e, phase := s.phase.after e }) ∨
    (∃ names throughout ever, a = .listed names ∧ s.phase = .listing throughout ever ∧
      throughout ⊆ names.toFinset ∧ names.toFinset ⊆ ever ∧
      s' = { s with phase := .reading names names ∅ }) ∨
    (∃ answer names name todo reachable, a = .read answer ∧
      s.phase = .reading names (name :: todo) reachable ∧ s.tab.Answers name answer ∧
      s' = { s with
        phase := .reading names todo
          (reachable ∪ (answer.map (reportIds loadFindings)).getD ∅) }) ∨
    (a = .fail ∧ s' = { s with phase := .failed }) ∨
    (∃ names reachable, a = .prune ∧ s.phase = .reading names [] reachable ∧
      s' = { s with
        tab := { s.tab with map := pruneMap s.snap names reachable s.tab.map }
        phase := .done (pruneChanges s.snap names reachable s.tab.map) }) := by
  cases a with
  | event e => exact .inl ⟨e, rfl, (some.inj h).symm⟩
  | listed names =>
    rw [step] at h
    split at h
    · rename_i throughout ever hphase
      obtain ⟨⟨hall, hever⟩, hs'⟩ := Option.ite_none_right_eq_some.1 h
      exact .inr (.inl ⟨names, throughout, ever, rfl, hphase, hall, hever, (some.inj hs').symm⟩)
    · cases h
  | read answer =>
    rw [step] at h
    split at h
    · rename_i names name todo reachable hphase
      obtain ⟨hanswers, hs'⟩ := Option.ite_none_right_eq_some.1 h
      exact .inr (.inr (.inl ⟨answer, names, name, todo, reachable, rfl, hphase, hanswers,
        (some.inj hs').symm⟩))
    · cases h
  | fail =>
    rw [step] at h
    split at h
    · exact .inr (.inr (.inr (.inl ⟨rfl, (some.inj h).symm⟩)))
    · exact .inr (.inr (.inr (.inl ⟨rfl, (some.inj h).symm⟩)))
    · cases h
  | prune =>
    rw [step] at h
    split at h
    · rename_i names reachable hphase
      exact .inr (.inr (.inr (.inr ⟨names, reachable, rfl, hphase, (some.inj h).symm⟩)))
    · cases h

/-! ### The texts of a report -/

theorem text_supersede (underWay : FMap String UnderWay) (name' : String) :
    (supersede underWay name' name).map UnderWay.text = (underWay name).map UnderWay.text := by
  rw [supersede, ofKeys_apply]
  split
  · rw [Option.map_map]
    rfl
  · rename_i hkey
    rw [eq_none_iff.2 hkey]

/-- A text that the tab has of a report after an event it had before, or it was stored. -/
theorem answers_after {e : Event} {text : String} (h : (t.after e).Answers name (some text)) :
    t.Answers name (some text) ∨ ∃ own, e = .save name text own := by
  cases e with
  | edit map => exact .inl h
  | save name' text' own =>
    have hinsert : ∀ m : FMap String String, m.insert name' text' name = some text →
        m name = some text ∨ ∃ own', Event.save name' text' own = .save name text own' := by
      intro m hm
      rw [insert_apply] at hm
      split at hm
      · rename_i hname
        exact .inr ⟨own, by rw [hname, some.inj hm]⟩
      · exact .inl hm
    cases own with
    | true =>
      rcases h with h | h | h
      · exact (hinsert _ h).imp_left .inl
      · rw [Tab.after, if_pos rfl, text_supersede] at h
        exact .inl (.inr (.inl h))
      · exact (hinsert _ h).imp_left fun h => .inr (.inr h)
    | false =>
      rcases h with h | h | h
      · exact .inl (.inl h)
      · exact .inl (.inr (.inl h))
      · exact (hinsert _ h).imp_left fun h => .inr (.inr h)
  | delete name' own =>
    refine .inl ?_
    have herase : ∀ m : FMap String String, m.erase name' name = some text →
        m name = some text := by
      intro m hm
      rw [erase_apply] at hm
      split at hm
      · cases hm
      · exact hm
    cases own with
    | true =>
      rcases h with h | h | h
      · exact .inl (herase _ h)
      · rw [Tab.after, if_pos rfl, erase_apply] at h
        split at h
        · cases h
        · exact .inr (.inl h)
      · exact .inr (.inr (herase _ h))
    | false =>
      rcases h with h | h | h
      · exact .inl h
      · exact .inr (.inl h)
      · exact .inr (.inr (herase _ h))
  | fetch name' =>
    refine .inl ?_
    rw [Tab.after] at h
    split at h
    · exact h
    · rename_i text' hstored
      rcases h with h | h | h
      · exact .inl h
      · rw [insert_apply] at h
        split at h
        · rename_i hname
          cases h
          rw [hname]
          exact .inr (.inr hstored)
        · exact .inr (.inl h)
      · exact .inr (.inr h)
  | settle name' keep =>
    refine .inl ?_
    have herase : ((t.underWay.erase name') name).map UnderWay.text = some text →
        t.Answers name (some text) := by
      intro hm
      rw [erase_apply] at hm
      split at hm
      · cases hm
      · exact .inr (.inl hm)
    rw [Tab.after] at h
    split at h
    · exact h
    · rename_i u hu
      split at h
      · rcases h with h | h | h
        · rw [insert_apply] at h
          split at h
          · rename_i hname
            rw [hname]
            exact .inr (.inl (by rw [hu, Option.map_some, some.inj h]))
          · exact .inl h
        · exact herase h
        · exact .inr (.inr h)
      · rcases h with h | h | h
        · exact .inl h
        · exact herase h
        · exact .inr (.inr h)
  | forget name' =>
    refine .inl ?_
    rcases h with h | h | h
    · rw [Tab.after, erase_apply] at h
      split at h
      · cases h
      · exact .inl h
    · exact .inr (.inl h)
    · exact .inr (.inr h)

/-- A report is stored after an event that does not delete it. -/
theorem files_after {e : Event} (he : ∀ own, e ≠ .delete name own) (h : name ∈ t.files.keys) :
    name ∈ (t.after e).files.keys := by
  cases e with
  | save name' text own =>
    have hinsert : name ∈ (t.files.insert name' text).keys := Finset.mem_insert_of_mem h
    cases own <;> exact hinsert
  | delete name' own =>
    have hname : name ≠ name' := by
      rintro rfl
      exact he own rfl
    have herase : name ∈ (t.files.erase name').keys := Finset.mem_erase.2 ⟨hname, h⟩
    cases own <;> exact herase
  | fetch name' =>
    rw [Tab.after]
    split <;> exact h
  | settle name' keep =>
    rw [Tab.after]
    split
    · exact h
    · split <;> exact h
  | _ => exact h

/-! ### A report that has a finding all along -/

variable (loadFindings name id) in
/-- A report is stored, and each text of it, also one that the tab still has, has the finding. -/
structure Has (t : Tab) : Prop where
  stored : name ∈ t.files.keys
  texts : ∀ text, t.Answers name (some text) → id ∈ reportIds loadFindings text

variable (report) in
/-- The report is not deleted. -/
def KeepsReport (a : Act) : Prop := ∀ own, a ≠ .event (.delete report own)

variable (loadFindings name id) in
/-- The report is not deleted, and what is stored under its name has the finding. -/
structure KeepsFinding (a : Act) : Prop where
  keepsReport : KeepsReport name a
  saves : ∀ text own, a = .event (.save name text own) → id ∈ reportIds loadFindings text

theorem has_step (h : Has loadFindings name id s.tab) (ha : KeepsFinding loadFindings name id a)
    (hst : step loadFindings s a = some s') : Has loadFindings name id s'.tab := by
  rcases step_cases hst with ⟨e, rfl, rfl⟩ | ⟨_, _, _, -, -, -, -, rfl⟩ |
    ⟨_, _, _, _, _, -, -, -, rfl⟩ | ⟨-, rfl⟩ | ⟨_, _, -, -, rfl⟩
  · refine ⟨files_after (fun own he => ha.keepsReport own (congrArg Act.event he)) h.stored, ?_⟩
    intro text htext
    rcases answers_after htext with htext | ⟨own, rfl⟩
    · exact h.texts text htext
    · exact ha.saves text own rfl
  · exact h
  · exact h
  · exact h
  · exact ⟨h.stored, h.texts⟩

/-- The listing has the report, or will have it. -/
def Phase.Lists (report : String) : Phase → Prop
  | .listing throughout _ => report ∈ throughout
  | .reading names _ _ => report ∈ names
  | _ => True

theorem lists_step (h : s.phase.Lists report) (ha : KeepsReport report a)
    (hst : step loadFindings s a = some s') : s'.phase.Lists report := by
  rcases step_cases hst with ⟨e, rfl, rfl⟩ | ⟨names, throughout, ever, -, hphase, hall, -, rfl⟩ |
    ⟨answer, names, name, todo, reachable, -, hphase, -, rfl⟩ | ⟨-, rfl⟩ | ⟨_, _, -, -, rfl⟩
  · rcases hphase : s.phase with ⟨throughout, ever⟩ | ⟨names, todo, reachable⟩ | saved | -
    · rw [hphase] at h
      cases e with
      | delete name' own =>
        refine Finset.mem_erase.2 ⟨?_, h⟩
        rintro rfl
        exact ha own rfl
      | _ => exact h
    · rw [hphase] at h
      cases e <;> exact h
    · cases e <;> trivial
    · cases e <;> trivial
  · rw [hphase] at h
    exact List.mem_toFinset.1 (hall h)
  · rw [hphase] at h
    exact h
  · trivial
  · trivial

/-- The report is still to be read, or the finding has been. -/
def Phase.Finds (name id : String) : Phase → Prop
  | .reading _ todo reachable => name ∈ todo ∨ id ∈ reachable
  | _ => True

theorem finds_step (h : s.phase.Finds name id) (hlists : s.phase.Lists name)
    (hhas : Has loadFindings name id s.tab) (hst : step loadFindings s a = some s') :
    s'.phase.Finds name id := by
  rcases step_cases hst with ⟨e, rfl, rfl⟩ | ⟨names, throughout, ever, -, hphase, hall, -, rfl⟩ |
    ⟨answer, names, name', todo, reachable, -, hphase, hanswers, rfl⟩ | ⟨-, rfl⟩ | ⟨_, _, -, -, rfl⟩
  · rcases hphase : s.phase with ⟨throughout, ever⟩ | ⟨names, todo, reachable⟩ | saved | -
    · cases e <;> trivial
    · rw [hphase] at h
      cases e <;> exact h
    · cases e <;> trivial
    · cases e <;> trivial
  · rw [hphase] at hlists
    exact .inl (List.mem_toFinset.1 (hall hlists))
  · rw [hphase] at h
    rcases h with h | h
    · rcases mem_cons.1 h with rfl | h
      · -- what is read of the report has the finding
        cases answer with
        | none => exact absurd hhas.stored (eq_none_iff.1 hanswers)
        | some text => exact .inr (Finset.mem_union_right _ (hhas.texts text hanswers))
      · exact .inl h
    · exact .inr (Finset.mem_union_left _ h)
  · trivial
  · trivial

theorem snap_step (hst : step loadFindings s a = some s') : s'.snap = s.snap := by
  rcases step_cases hst with ⟨e, rfl, rfl⟩ | ⟨_, _, _, -, -, -, -, rfl⟩ |
    ⟨_, _, _, _, _, -, -, -, rfl⟩ | ⟨-, rfl⟩ | ⟨_, _, -, -, rfl⟩ <;> rfl

section Runs

variable {C : Gc → Act → Prop}

/-- A collection looks at what was there when it began. -/
theorem snap_run (h : (gc loadFindings).ReachableUnder C (start t) s) : s.snap = snapshot t.map :=
  h.invariant (I := fun s => s.snap = snapshot t.map) rfl
    fun _ _ _ hI _ hst => (snap_step hst).trans hI

theorem lists_run (hC : ∀ s a, C s a → KeepsReport report a) (hreport : report ∈ t.files.keys)
    (h : (gc loadFindings).ReachableUnder C (start t) s) : s.phase.Lists report :=
  h.invariant (I := fun s => s.phase.Lists report) hreport
    fun _ _ _ hI ha hst => lists_step hI (hC _ _ ha) hst

theorem finds_run (hC : ∀ s a, C s a → KeepsFinding loadFindings name id a)
    (hhas : Has loadFindings name id t) (h : (gc loadFindings).ReachableUnder C (start t) s) :
    s.phase.Finds name id := by
  have hall : Has loadFindings name id s.tab ∧ s.phase.Lists name ∧ s.phase.Finds name id := by
    refine h.invariant (I := fun s =>
      Has loadFindings name id s.tab ∧ s.phase.Lists name ∧ s.phase.Finds name id)
      ⟨hhas, hhas.stored, trivial⟩ ?_
    rintro s a s' ⟨hs, hlists, hfinds⟩ ha hst
    exact ⟨has_step hs (hC s a ha) hst, lists_step hlists (hC s a ha).keepsReport hst,
      finds_step hfinds hlists hs hst⟩
  exact hall.2.2

end Runs

/-! ### Pruning -/

/-- A step that prunes. -/
theorem prune_cases (h : step loadFindings s .prune = some s') :
    ∃ names reachable, s.phase = .reading names [] reachable ∧
      s' = { s with
        tab := { s.tab with map := pruneMap s.snap names reachable s.tab.map }
        phase := .done (pruneChanges s.snap names reachable s.tab.map) } := by
  rcases step_cases h with ⟨_, he, -⟩ | ⟨_, _, _, he, -⟩ | ⟨_, _, _, _, _, he, -⟩ | ⟨he, -⟩ |
    ⟨names, reachable, -, hphase, hs'⟩
  · cases he
  · cases he
  · cases he
  · cases he
  · exact ⟨names, reachable, hphase, hs'⟩

section Keeps

variable {C : Gc → Act → Prop}

theorem norm_prune (hC : ∀ s a, C s a → KeepsFinding loadFindings name id a)
    (hhas : Has loadFindings name id t) (h : (gc loadFindings).ReachableUnder C (start t) s)
    (hst : step loadFindings s .prune = some s') (p : ConflictProperty) :
    p.norm (orEmpty (s'.tab.map id)) = p.norm (orEmpty (s.tab.map id)) := by
  have hfinds := finds_run hC hhas h
  obtain ⟨names, reachable, hphase, rfl⟩ := prune_cases hst
  rw [hphase] at hfinds
  rw [pruneMap_apply]
  exact norm_pruneEntry (hfinds.resolve_left not_mem_nil) p

theorem ignores_prune
    (hC : ∀ s a, C s a → KeepsFinding loadFindings name id a ∧ KeepsReport report a)
    (hhas : Has loadFindings name id t) (hreport : report ∈ t.files.keys)
    (h : (gc loadFindings).ReachableUnder C (start t) s)
    (hst : step loadFindings s .prune = some s') (hs : Ignores (orEmpty (s.tab.map id)) report) :
    Ignores (orEmpty (s'.tab.map id)) report := by
  have hfinds := finds_run (fun s a ha => (hC s a ha).1) hhas h
  have hlists := lists_run (fun s a ha => (hC s a ha).2) hreport h
  obtain ⟨names, reachable, hphase, rfl⟩ := prune_cases hst
  rw [hphase] at hfinds hlists
  rw [pruneMap_apply]
  exact ignores_pruneEntry (.inr ⟨hfinds.resolve_left not_mem_nil, hlists⟩) hs

section

variable (h : (gc loadFindings).ReachableUnder C (start t) s)
include h

theorem fresh_prune (hst : step loadFindings s .prune = some s') (hid : id ∉ t.map.keys) :
    s'.tab.map id = s.tab.map id := by
  have hsnap := snap_run h
  obtain ⟨names, reachable, -, rfl⟩ := prune_cases hst
  have hreports : s.snap.ignored id = [] := by
    rw [hsnap]
    exact congrArg (fun o => (orEmpty o).ignoredReports) (eq_none_iff.2 hid)
  have hids : id ∉ s.snap.ids := hsnap ▸ hid
  rw [pruneMap_apply, pruneEntry_skip (.inr ⟨hids, hreports⟩)]

theorem freshIgnores_prune (hst : step loadFindings s .prune = some s')
    (hreport : report ∉ (orEmpty (t.map id)).ignoredReports)
    (hs : Ignores (orEmpty (s.tab.map id)) report) : Ignores (orEmpty (s'.tab.map id)) report := by
  have hsnap := snap_run h
  obtain ⟨names, reachable, -, rfl⟩ := prune_cases hst
  have hignored : report ∉ s.snap.ignored id := hsnap ▸ hreport
  rw [pruneMap_apply]
  exact ignores_pruneEntry (.inl hignored) hs

end

end Keeps

/-! ### A collection left alone -/

/-- Nothing is edited, stored or deleted. -/
def Quiet : Act → Prop
  | .event (.edit _) | .event (.save _ _ _) | .event (.delete _ _) => False
  | _ => True

/-- The tab has no text of a report but the stored one. -/
def UpToDate (t : Tab) : Prop :=
  ∀ name text, t.Answers name (some text) → t.files name = some text

variable (loadFindings t id) in
/-- Some stored report has the finding. -/
def Stored : Prop := ∃ name text, t.files name = some text ∧ id ∈ reportIds loadFindings text

theorem quiet_after {e : Event} (he : Quiet (.event e)) (phase : Phase) :
    (t.after e).map = t.map ∧ (t.after e).files = t.files ∧ phase.after e = phase := by
  cases e with
  | edit map => exact absurd he id
  | save name text own => exact absurd he id
  | delete name own => exact absurd he id
  | fetch name =>
    refine ⟨?_, ?_, by cases phase <;> rfl⟩ <;> (rw [Tab.after]; split <;> rfl)
  | settle name keep =>
    refine ⟨?_, ?_, by cases phase <;> rfl⟩ <;>
      (rw [Tab.after]; split; · rfl
       · split <;> rfl)
  | forget name => exact ⟨rfl, rfl, by cases phase <;> rfl⟩

/-- A collection that has not ended. -/
def Phase.Running : Phase → Prop
  | .listing _ _ | .reading _ _ _ => True
  | _ => False

variable (loadFindings t) in
/-- What was listed and read is what is stored. -/
def Phase.Exact : Phase → Prop
  | .listing throughout ever => throughout = t.files.keys ∧ ever = t.files.keys
  | .reading names todo reachable =>
    names.toFinset = t.files.keys ∧ ∀ id, (id ∈ reachable ∨ ∃ name ∈ todo, ∃ text,
      t.files name = some text ∧ id ∈ reportIds loadFindings text) ↔ Stored loadFindings t id
  | _ => True

variable (loadFindings t) in
/-- A collection that nothing has come in between of. -/
structure Alone (s : Gc) : Prop where
  map : s.tab.map = t.map
  files : s.tab.files = t.files
  upToDate : UpToDate s.tab
  phase : s.phase.Exact loadFindings t

theorem alone_step (h : s.phase.Running → Alone loadFindings t s) (ha : Quiet a)
    (hst : step loadFindings s a = some s') (hrun : s'.phase.Running) :
    Alone loadFindings t s' := by
  rcases step_cases hst with ⟨e, rfl, rfl⟩ |
    ⟨names, throughout, ever, -, hphase, hall, hever, rfl⟩ |
    ⟨answer, names, name, todo, reachable, -, hphase, hanswers, rfl⟩ | ⟨-, rfl⟩ | ⟨_, _, -, -, rfl⟩
  · obtain ⟨hmap, hfiles, hphase⟩ := quiet_after (t := s.tab) ha s.phase
    rw [hphase] at hrun
    have hs := h hrun
    refine ⟨hmap.trans hs.map, hfiles.trans hs.files, ?_, hphase.symm ▸ hs.phase⟩
    intro name text htext
    rw [hfiles]
    rcases answers_after htext with htext | ⟨own, rfl⟩
    · exact hs.upToDate name text htext
    · exact absurd ha id
  · rw [hphase] at h
    have hs := h trivial
    have hexact := hs.phase
    rw [hphase] at hexact
    refine ⟨hs.map, hs.files, hs.upToDate, ?_, fun id => ?_⟩
    · exact subset_antisymm (hexact.2 ▸ hever) (hexact.1 ▸ hall)
    · have hnames : names.toFinset = t.files.keys :=
        subset_antisymm (hexact.2 ▸ hever) (hexact.1 ▸ hall)
      constructor
      · rintro (hid | ⟨name, -, text, htext, hid⟩)
        · exact absurd hid (Finset.notMem_empty _)
        · exact ⟨name, text, htext, hid⟩
      · rintro ⟨name, text, htext, hid⟩
        have hname : name ∈ names := by
          rw [← List.mem_toFinset, hnames]
          exact isSome_of_eq htext
        exact .inr ⟨name, hname, text, htext, hid⟩
  · rw [hphase] at h
    have hs := h trivial
    have hexact := hs.phase
    rw [hphase] at hexact
    refine ⟨hs.map, hs.files, hs.upToDate, hexact.1, fun id => ?_⟩
    have hread : id ∈ (answer.map (reportIds loadFindings)).getD ∅ ↔
        ∃ text, t.files name = some text ∧ id ∈ reportIds loadFindings text := by
      cases answer with
      | none =>
        have hnone : t.files name = none := hs.files ▸ hanswers
        rw [hnone]
        refine ⟨fun hid => absurd hid (Finset.notMem_empty _), ?_⟩
        rintro ⟨text, htext, -⟩
        cases htext
      | some text =>
        have hsome : t.files name = some text := hs.files ▸ hs.upToDate name text hanswers
        rw [hsome]
        refine ⟨fun hid => ⟨text, rfl, hid⟩, ?_⟩
        rintro ⟨text', htext, hid⟩
        cases htext
        exact hid
    rw [← hexact.2 id, Finset.mem_union, hread]
    simp only [mem_cons, exists_eq_or_imp]
    exact or_assoc
  · exact absurd hrun id
  · exact absurd hrun id

theorem alone_start (h : UpToDate t) : Alone loadFindings t (start t) :=
  ⟨rfl, rfl, h, rfl, rfl⟩

theorem alone_run (h : UpToDate t)
    (hrun : (gc loadFindings).ReachableUnder (fun _ a => Quiet a) (start t) s) :
    s.phase.Running → Alone loadFindings t s :=
  hrun.invariant (I := fun s => s.phase.Running → Alone loadFindings t s)
    (fun _ => alone_start h) fun _ _ _ hI ha hst => alone_step hI ha hst

/-- What a collection left alone does. -/
theorem prune_alone (h : UpToDate t)
    (hrun : (gc loadFindings).ReachableUnder (fun _ a => Quiet a) (start t) s)
    (hst : step loadFindings s .prune = some s') :
    ∃ names reachable, names.toFinset = t.files.keys ∧
      (∀ id, id ∈ reachable ↔ Stored loadFindings t id) ∧ UpToDate s'.tab ∧
      s'.tab.files = t.files ∧
      s'.tab.map = pruneMap (snapshot t.map) names reachable t.map ∧
      s'.phase = .done (pruneChanges (snapshot t.map) names reachable t.map) := by
  have halone := alone_run h hrun
  have hsnap := snap_run hrun
  obtain ⟨names, reachable, hphase, rfl⟩ := prune_cases hst
  rw [hphase] at halone
  have hs := halone trivial
  have hexact := hs.phase
  rw [hphase] at hexact
  refine ⟨names, reachable, hexact.1, fun id => ?_, hs.upToDate, hs.files, ?_, ?_⟩
  · rw [← hexact.2 id]
    refine ⟨.inl, fun hid => hid.resolve_right ?_⟩
    rintro ⟨name, hname, -⟩
    exact absurd hname not_mem_nil
  · rw [hsnap, hs.map]
  · rw [hsnap, hs.map]

/-- Left alone, a collection comes to prune if it can read the reports. -/
theorem exists_prune (t : Tab) :
    ∃ s s', (gc loadFindings).ReachableUnder (fun _ a => Quiet a) (start t) s ∧
      step loadFindings s .prune = some s' := by
  have hreads : ∀ (todo names : List String) (reachable : Finset String) (s : Gc),
      s.phase = .reading names todo reachable →
      ∃ s₁ s', (gc loadFindings).ReachableUnder (fun _ a => Quiet a) s s₁ ∧
        step loadFindings s₁ .prune = some s' := by
    intro todo
    induction todo with
    | nil =>
      intro names reachable s hphase
      have hst : step loadFindings s .prune = some { s with
          tab := { s.tab with map := pruneMap s.snap names reachable s.tab.map }
          phase := .done (pruneChanges s.snap names reachable s.tab.map) } := by
        rw [step, hphase]
      exact ⟨s, _, .refl, hst⟩
    | cons name todo ih =>
      intro names reachable s hphase
      have hanswers : s.tab.Answers name (s.tab.files name) := by
        cases hfile : s.tab.files name with
        | none => exact hfile
        | some text => exact .inr (.inr hfile)
      have hread : step loadFindings s (.read (s.tab.files name)) = some { s with
          phase := .reading names todo
            (reachable ∪ ((s.tab.files name).map (reportIds loadFindings)).getD ∅) } := by
        rw [step, hphase]
        exact if_pos hanswers
      obtain ⟨s₁, s', hrun, hst⟩ := ih names _
        { s with
          phase := .reading names todo
            (reachable ∪ ((s.tab.files name).map (reportIds loadFindings)).getD ∅) } rfl
      have hquiet : Quiet (.read (s.tab.files name)) := trivial
      exact ⟨s₁, s', .head hquiet hread hrun, hst⟩
  have hkeys : t.files.keys.toList.toFinset = t.files.keys := Finset.toList_toFinset _
  have hlisted : step loadFindings (start t) (.listed t.files.keys.toList) = some { start t with
      phase := .reading t.files.keys.toList t.files.keys.toList ∅ } :=
    if_pos ⟨hkeys.symm.subset, hkeys.subset⟩
  obtain ⟨s₁, s', hrun, hst⟩ := hreads _ _ _
    { start t with phase := .reading t.files.keys.toList t.files.keys.toList ∅ } rfl
  have hquiet : Quiet (.listed t.files.keys.toList) := trivial
  exact ⟨s₁, s', .head hquiet hlisted hrun, hst⟩

/-- What is clean is clean for any listing and findings of the same members. -/
theorem Clean.congr {names names' : List String} {reachable reachable' : Finset String}
    {o : Option TriageEntry} (h : Clean names reachable id o)
    (hnames : names.toFinset = names'.toFinset)
    (hreachable : ∀ id, id ∈ reachable ↔ id ∈ reachable') : Clean names' reachable' id o where
  fields := h.fields.imp_left (hreachable id).1
  reports r hr := by
    obtain ⟨hid, hname⟩ := h.reports r hr
    exact ⟨(hreachable id).1 hid, List.mem_toFinset.1 (hnames ▸ List.mem_toFinset.2 hname)⟩

theorem clean_snapshot {names : List String} {reachable : Finset String} {map : TriageStateMap}
    (hsession : isSessionId id = false) :
    Clean names reachable id (pruneEntry (snapshot map) names reachable id (map id)).1 := by
  refine clean_pruneEntry hsession ?_ rfl
  rcases hid : map id with _ | e
  · exact .inr rfl
  · exact .inl (isSome_of_eq hid)

/-- Left alone, a collection leaves nothing of the findings that no stored report has. -/
theorem prune_unreachable (h : UpToDate t)
    (hrun : (gc loadFindings).ReachableUnder (fun _ a => Quiet a) (start t) s)
    (hst : step loadFindings s .prune = some s') (hsession : isSessionId id = false)
    (hid : ¬Stored loadFindings t id) :
    (∀ p : ConflictProperty, p.norm (orEmpty (s'.tab.map id)) = "") ∧
      ∀ report, ¬Ignores (orEmpty (s'.tab.map id)) report := by
  obtain ⟨names, reachable, -, hreachable, -, -, hmap, -⟩ := prune_alone h hrun hst
  have hclean : Clean names reachable id (s'.tab.map id) := by
    rw [hmap, pruneMap_apply]
    exact clean_snapshot hsession
  have hnot : id ∉ reachable := fun h => hid ((hreachable id).1 h)
  refine ⟨fun p => ?_, fun report hreport => hnot (hclean.reports report hreport.2).1⟩
  have hfields := hclean.fields.resolve_left hnot
  by_contra hp
  refine absurd (hasFields_iff.2 ⟨p, ?_⟩) (Bool.eq_false_iff.1 hfields)
  exact decide_eq_true hp

/-- A second collection left alone changes nothing, and saves nothing. -/
theorem prune_again (h : UpToDate t)
    (hrun : (gc loadFindings).ReachableUnder (fun _ a => Quiet a) (start t) s)
    (hst : step loadFindings s .prune = some s') {r r' : Gc}
    (hrun' : (gc loadFindings).ReachableUnder (fun _ a => Quiet a) (start s'.tab) r)
    (hst' : step loadFindings r .prune = some r') :
    r'.tab.map = s'.tab.map ∧ r'.phase = .done false := by
  obtain ⟨names, reachable, hnames, hreachable, hupToDate, hfiles, hmap, -⟩ :=
    prune_alone h hrun hst
  obtain ⟨names', reachable', hnames', hreachable', -, -, hmap', hphase'⟩ :=
    prune_alone hupToDate hrun' hst'
  have hsame : ∀ id, id ∈ reachable ↔ id ∈ reachable' := by
    intro id
    rw [hreachable, hreachable', Stored, Stored, hfiles]
  have hskip : ∀ id, pruneEntry (snapshot s'.tab.map) names' reachable' id (s'.tab.map id) =
      (s'.tab.map id, false) := by
    intro id
    cases hsession : isSessionId id with
    | true => exact pruneEntry_skip (.inl hsession)
    | false =>
      have hclean : Clean names reachable id (s'.tab.map id) := by
        rw [hmap, pruneMap_apply]
        exact clean_snapshot hsession
      exact (hclean.congr (by rw [hnames, hnames', hfiles]) hsame).pruneEntry_eq
  refine ⟨?_, ?_⟩
  · rw [hmap']
    ext1 id
    rw [pruneMap_apply, hskip]
  · rw [hphase', pruneChanges]
    refine congrArg Phase.done (decide_eq_false ?_)
    rintro ⟨id, -, hchanges⟩
    rw [hskip] at hchanges
    cases hchanges

/-! ### What a collection promises -/

theorem Quiet.keepsReport (h : Quiet a) : KeepsReport report a := by
  rintro own rfl
  exact h

theorem Quiet.keepsFinding (h : Quiet a) : KeepsFinding loadFindings name id a := by
  refine ⟨h.keepsReport, ?_⟩
  rintro text own rfl
  exact absurd h not_false

/-- The text of a report with one finding. -/
def oneFinding (id : String) : String := "\x7b\"findings\":[\x7b\"id\":\"" ++ id ++ "\"\x7d]\x7d"

/-- The library, on two such texts. -/
def readTexts (text : String) : Option (List Occurrence) :=
  if text = oneFinding "f" then some [⟨some "f", "0", false⟩]
  else if text = oneFinding "g" then some [⟨some "g", "0", false⟩]
  else none

/-- A tab with one report, whose finding is ignored in it, and another finding that is marked. -/
def oneReport : Tab where
  map := ((∅ : TriageStateMap).insert "f" { TriageEntry.empty with color := some "red" }).insert "g"
    { TriageEntry.empty with ignoredReports := ["b.json"] }
  files := (∅ : FMap String String).insert "b.json" (oneFinding "g")
  kept := ∅
  underWay := ∅

theorem oneReport_upToDate : UpToDate oneReport := by
  rintro name text (h | h | h)
  · cases h
  · cases h
  · exact h

variable (loadFindings s s') in
/-- Pruning drops nothing of the findings that the stored reports have. -/
def KeepsReachable : Prop :=
  ∀ name text id, s.tab.files name = some text → id ∈ reportIds loadFindings text →
    (∀ p : ConflictProperty, p.norm (orEmpty (s'.tab.map id)) = p.norm (orEmpty (s.tab.map id))) ∧
    ∀ report ∈ s.tab.files.keys, Ignores (orEmpty (s.tab.map id)) report →
      Ignores (orEmpty (s'.tab.map id)) report

end Triage.Client.TriageGc
