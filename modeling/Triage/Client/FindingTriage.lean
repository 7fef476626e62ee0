import Triage.Client.TriageMirror

/-!
# The triage of a finding in a report

One entry by finding holds what is said of the finding wherever it occurs, and the reports in which
it is ignored as code of a dependency. What an entry comes to for its occurrences is its standing:
the shared bucket, the reports that are listed and those that are marked.

## Main results

* `effective_eq` : the status of an occurrence is that of the standing.
* `standing_setEntryTriage` : an action is one on the standing.
* `Standing.status_set`, `Standing.status_set_other` : what it does.
-/

namespace Triage.Client

/-- `sharedFindingTriage`; whether the finding `usesReportIgnore` is the first argument. -/
def sharedFindingTriage (perReport : Bool) (entry : TriageEntry) : Option TriageBucket :=
  if bucketOf entry = some .ignored ∧ perReport then none else bucketOf entry

def isReportIgnored (entry : TriageEntry) (report : String) : Bool :=
  entry.ignoredReports.contains report

/-- The status of a finding in a report. -/
def effective (perReport : Bool) (report : String) (cur : Option TriageEntry) :
    Option TriageBucket :=
  (sharedFindingTriage perReport (orEmpty cur)).or
    (if perReport && isReportIgnored (orEmpty cur) report then some .ignored else none)

/-- What `setFindingTriage` does to the entry of the finding; no target is `untriaged`. -/
def setEntryTriage (perReport : Bool) (report : String) (target : Option TriageBucket)
    (cur : Option TriageEntry) : Option TriageEntry :=
  if perReport ∧ (target = some .ignored ∨ target = none) then
    -- a shared ignore is that of the other occurrences
    have cleared := if bucketOf (orEmpty cur) = some .ignored then cur
      else patchEntry cur fun e => { e with triage := none }
    setReportIgnored cleared report (target = some .ignored) true
  else
    have patched := patchEntry cur fun e => { e with triage := target }
    if target = some .ignored ∨ target = none then patched
    else setReportIgnored patched report false false

/-- `setFindingTriage` -/
def setFindingTriage (map : TriageStateMap) (report : String) (o : Occurrence)
    (target : Option TriageBucket) : TriageStateMap :=
  setAt map o.key (setEntryTriage o.usesReportIgnore report target (map o.key))

/-! ### Standings -/

/-- What the statuses of a finding are read from. -/
@[ext] structure Standing where
  bucket : Option TriageBucket
  listed : String → Prop
  marked : String → Prop

namespace Standing

def patch (s : Standing) (bucket : Option TriageBucket) : Standing := { s with bucket }

def drop (s : Standing) (report : String) : Standing where
  bucket := s.bucket
  listed r := s.listed r ∧ r ≠ report
  marked r := s.marked r ∧ r ≠ report

/-- No report is without a name. -/
def add (s : Standing) (report : String) : Standing where
  bucket := s.bucket
  listed r := s.listed r ∨ r ≠ "" ∧ r = report
  marked r := s.marked r ∨ r ≠ "" ∧ r = report

open Classical in
/-- A finding of a dependency is ignored in the reports that are listed. -/
noncomputable def status (s : Standing) (perReport : Bool) (report : String) :
    Option TriageBucket :=
  if perReport ∧ (s.bucket = none ∨ s.bucket = some .ignored) then
    if s.listed report then some .ignored else none
  else s.bucket

/-- An action on an occurrence. -/
def set (s : Standing) (perReport : Bool) (report : String) (target : Option TriageBucket) :
    Standing :=
  if perReport ∧ (target = some .ignored ∨ target = none) then
    have cleared := if s.bucket = some .ignored then s else s.patch none
    if target = some .ignored then cleared.add report else cleared.drop report
  else if target = some .ignored ∨ target = none then s.patch target
  else (s.patch target).drop report

end Standing

/-- The standing of an entry. -/
def standing (cur : Option TriageEntry) : Standing :=
  ⟨bucketOf (orEmpty cur), Ignores (orEmpty cur), Scopes (orEmpty cur)⟩

variable {cur : Option TriageEntry} {report r : String} {target : Option TriageBucket}
  {perReport : Bool}

section

variable (hcur : Kept cur)
include hcur

/-- **The status of an occurrence** is that of the standing. -/
theorem effective_eq : effective perReport report cur = (standing cur).status perReport report := by
  have hlisted : isReportIgnored (orEmpty cur) report = true ↔ (standing cur).listed report := by
    rw [isReportIgnored, List.contains_iff_mem]
    exact hcur.ignores_iff.symm
  have hbucket : (standing cur).bucket = bucketOf (orEmpty cur) := rfl
  rw [effective, sharedFindingTriage, Standing.status, hbucket]
  cases perReport with
  | false => simp
  | true =>
    by_cases hl : (standing cur).listed report
    · rcases bucketOf (orEmpty cur) with _ | _ | _ | _ | _ | _ <;> simp [hl, hlisted]
    · rcases bucketOf (orEmpty cur) with _ | _ | _ | _ | _ | _ <;> simp [hl, hlisted]

theorem standing_patch (bucket : Option TriageBucket) :
    standing (patchEntry cur fun e => { e with triage := bucket }) =
      (standing cur).patch bucket := by
  have hbucket : bucketOf (orEmpty (patchEntry cur fun e => { e with triage := bucket })) =
      bucket := by
    have hnorm : bucketOf (orEmpty (patchEntry cur fun e => { e with triage := bucket })) =
        bucketOf { orEmpty cur with triage := bucket } := bucketOf_of_norm (norm_patchEntry .triage)
    rw [hnorm, bucketOf, hcur.legacyDeleted]
    exact Option.or_none
  have hreports := fun r => marks_patchEntry r hcur
    (f := fun e => { e with triage := bucket }) (.inl rfl)
  ext1
  · exact hbucket
  · exact funext fun r => propext (hreports r).1
  · exact funext fun r => propext (hreports r).2

theorem standing_drop (marked : Bool) :
    standing (setReportIgnored cur report false marked) = (standing cur).drop report := by
  have hsame : setReportIgnored cur report false marked =
      setReportIgnored cur report false false := by cases marked <;> rfl
  rw [hsame]
  ext1
  · exact bucketOf_of_norm (norm_setReportIgnored .triage false false)
  · exact funext fun r => propext (marks_setReportIgnored_drop hcur).1
  · exact funext fun r => propext (marks_setReportIgnored_drop hcur).2

theorem standing_add :
    standing (setReportIgnored cur report true true) = (standing cur).add report := by
  ext1
  · exact bucketOf_of_norm (norm_setReportIgnored .triage true true)
  · exact funext fun r => propext (ignores_setReportIgnored true report)
  · refine funext fun r => propext ((marks_setReportIgnored_add hcur true).trans ?_)
    simp only [and_true]
    rfl

theorem kept_setEntryTriage : Kept (setEntryTriage perReport report target cur) := by
  rw [setEntryTriage]
  split
  · refine kept_setReportIgnored ?_ _ _
    split
    · exact hcur
    · exact kept_patchEntry hcur
  · split
    · exact kept_patchEntry hcur
    · exact kept_setReportIgnored (kept_patchEntry hcur) _ _

/-- **An action on an entry** is one on its standing. -/
theorem standing_setEntryTriage :
    standing (setEntryTriage perReport report target cur) =
      (standing cur).set perReport report target := by
  have hbucket : (standing cur).bucket = bucketOf (orEmpty cur) := rfl
  have hcleared : standing (if bucketOf (orEmpty cur) = some .ignored then cur
      else patchEntry cur fun e => { e with triage := none }) =
      if bucketOf (orEmpty cur) = some .ignored then standing cur
      else (standing cur).patch none := by
    split
    · rfl
    · exact standing_patch hcur none
  have hkept : Kept (if bucketOf (orEmpty cur) = some .ignored then cur
      else patchEntry cur fun e => { e with triage := none }) := by
    split
    · exact hcur
    · exact kept_patchEntry hcur
  rw [setEntryTriage, Standing.set, hbucket, ← hcleared]
  split
  · dsimp only
    by_cases htarget : target = some .ignored
    · rw [decide_eq_true htarget, if_pos htarget]
      exact standing_add hkept
    · rw [decide_eq_false htarget, if_neg htarget]
      exact standing_drop hkept true
  · dsimp only
    split
    · exact standing_patch hcur target
    · rw [standing_drop (kept_patchEntry hcur), standing_patch hcur]

end

/-! ### What an action does -/

variable {s : Standing}

namespace Standing

theorem status_own : s.status false report = s.bucket := if_neg (by simp)

open Classical in
section

variable (hbucket : s.bucket = none ∨ s.bucket = some .ignored)
include hbucket

theorem status_dependency :
    s.status true report = if s.listed report then some .ignored else none :=
  if_pos ⟨rfl, hbucket⟩

/-- What a finding of a dependency has for its status but for the reports. -/
theorem status_congr {s' : Standing} (hbucket' : s'.bucket = none ∨ s'.bucket = some .ignored)
    (hlisted : s'.listed r ↔ s.listed r) : s'.status true r = s.status true r := by
  rw [status_dependency hbucket, status_dependency hbucket', propext hlisted]

end

/-- The occurrence has the target. -/
theorem status_set (hname : perReport = true → target = some .ignored → report ≠ "") :
    (s.set perReport report target).status perReport report = target := by
  rw [set]
  cases perReport with
  | false =>
    rw [if_neg (by simp), status_own]
    split
    · rfl
    · rfl
  | true =>
    have hcleared : (if s.bucket = some .ignored then s else s.patch none).bucket = none ∨
        (if s.bucket = some .ignored then s else s.patch none).bucket = some .ignored := by
      split
      · exact .inr ‹_›
      · exact .inl rfl
    by_cases htarget : target = some .ignored ∨ target = none
    · rw [if_pos ⟨rfl, htarget⟩]
      dsimp only
      generalize (if s.bucket = some .ignored then s else s.patch none) = cleared at hcleared ⊢
      split
      · rename_i hignored
        rw [status_dependency (s := cleared.add report) hcleared, hignored]
        exact if_pos (.inr ⟨hname rfl hignored, rfl⟩)
      · rename_i hignored
        rw [status_dependency (s := cleared.drop report) hcleared, htarget.resolve_left hignored]
        exact if_neg fun h => h.2 rfl
    · rw [if_neg (by simp [htarget]), if_neg htarget, status]
      have hbucket : ((s.patch target).drop report).bucket = target := rfl
      rw [hbucket, if_neg]
      rintro ⟨-, h⟩
      exact htarget h.symm

/-- The statuses of other occurrences that are not triaged, or ignored, stay. -/
theorem status_set_other (htarget : target = some .ignored ∨ target = none) {perReport' : Bool}
    (hother : perReport' ≠ perReport ∨ perReport = true ∧ r ≠ report)
    (hstatus : s.status perReport' r = none ∨ s.status perReport' r = some .ignored) :
    (s.set perReport report target).status perReport' r = s.status perReport' r := by
  have hbucket : s.bucket = none ∨ s.bucket = some .ignored := by
    by_contra hne
    rw [status, if_neg fun h => hne h.2] at hstatus
    exact hne hstatus
  rw [set]
  cases perReport with
  | false =>
    have hdependency : perReport' = true := by simpa using hother
    subst hdependency
    rw [if_neg (by simp), if_pos htarget]
    exact status_congr hbucket htarget.symm Iff.rfl
  | true =>
    rw [if_pos ⟨rfl, htarget⟩]
    have hcleared : (if s.bucket = some .ignored then s else s.patch none) = s := by
      split
      · rfl
      · rename_i hne
        rw [patch, ← hbucket.resolve_right hne]
    dsimp only
    rw [hcleared]
    cases perReport' with
    | false =>
      rw [status_own, status_own]
      split
      · rfl
      · rfl
    | true =>
      have hr : r ≠ report := by simpa using hother
      split
      · exact status_congr hbucket hbucket (or_iff_left fun h => hr h.2)
      · exact status_congr hbucket hbucket (and_iff_left hr)

end Standing

end Triage.Client
