import Triage.Client.IgnoreFiling

/-!
# The scopes of triage

A finding may occur as code of its own and as code of a dependency, in several reports. An action on
one occurrence leaves the other scope alone; filing older ignores under their reports leaves the
occurrences in dependencies alone, and what it has filed it does not file again.

## Main results

* `migrateIgnoredReports_again` : filing again changes nothing.
* `scopes_apart` : **the scopes stay apart.**
-/

namespace Triage.Client

open List Standing

variable {map m : TriageStateMap} {name name' id r : String} {cur : Option TriageEntry}
  {findings : List Occurrence} {reports : List (String × List Occurrence)}

/-! ### Filing again -/

/-- A report of which nothing is left to file. -/
def Done (name : String) (findings : List Occurrence) (m : TriageStateMap) : Prop :=
  ∀ o ∈ findings, name ∈ (orEmpty (m o.key)).ignoredReports →
    name ∈ (orEmpty (m o.key)).scopedIgnoredReports ∧
      (o.usesReportIgnore = true → (orEmpty (m o.key)).ignoredReports.Nodup)

theorem setAt_self (m : TriageStateMap) (id : String) : setAt m id (m id) = m := by
  ext1 id'
  rw [setAt_apply]
  split
  · rename_i h
    rw [h]
  · rfl

theorem fileReport_done (hm : ∀ id, Kept (m id)) (h : Done name findings m) :
    findings.foldl (markFinding name) (findings.foldl (promoteFinding name findings) m) = m := by
  have hfirst : ∀ o ∈ findings, promoteFinding name findings m o = m := by
    intro o ho
    rw [promoteFinding]
    split
    · rfl
    · rename_i hstep
      rw [not_or, not_or, not_not] at hstep
      exact absurd (h o ho hstep.1).1 hstep.2.1
  have hsecond : ∀ o ∈ findings, markFinding name m o = m := by
    intro o ho
    rw [markFinding]
    split
    · rename_i hstep
      obtain ⟨hmarked, hnodup⟩ := h o ho hstep.2
      rw [setReportIgnored_self (hm _) (hnodup hstep.1) fun _ => ⟨hstep.2, fun _ => hmarked⟩]
      exact setAt_self m o.key
    · rfl
  have hfold : ∀ {step : TriageStateMap → Occurrence → TriageStateMap} (os : List Occurrence),
      (∀ o ∈ os, step m o = m) → os.foldl step m = m := by
    intro step os hos
    induction os with
    | nil => rfl
    | cons o os ih =>
      rw [foldl_cons, hos o mem_cons_self]
      exact ih fun o' ho' => hos o' (mem_cons_of_mem o ho')
  rw [hfold findings hfirst, hfold findings hsecond]

/-- No step of filing lists a report twice. -/
theorem nodup_promoteFinding (o : Occurrence) (h : (orEmpty (m id)).ignoredReports.Nodup) :
    (orEmpty (promoteFinding name findings m o id)).ignoredReports.Nodup := by
  rw [promoteFinding]
  split
  · exact h
  · rw [setAt_apply]
    split
    · rename_i hid
      subst hid
      have hshared : (orEmpty (if bucketOf (orEmpty (m o.key)) = none then
          patchEntry (m o.key) fun e => { e with triage := some .ignored }
          else m o.key)).ignoredReports.Nodup := by
        split
        · exact nodup_patchEntry h h
        · exact h
      rw [promote]
      split
      · exact hshared
      · exact nodup_patchEntry hshared ((nodup_eraseDups _).filter _)
    · exact h

theorem nodup_markFinding (o : Occurrence) (h : (orEmpty (m id)).ignoredReports.Nodup) :
    (orEmpty (markFinding name m o id)).ignoredReports.Nodup := by
  rw [markFinding]
  split
  · rw [setAt_apply]
    split
    · exact nodup_setReportIgnored true
    · exact h
  · exact h

theorem nodup_fileReport (h : (orEmpty (m id)).ignoredReports.Nodup) :
    (orEmpty (findings.foldl (markFinding name)
      (findings.foldl (promoteFinding name findings) m) id)).ignoredReports.Nodup := by
  refine foldlRecOn findings (markFinding name)
    (motive := fun m => (orEmpty (m id)).ignoredReports.Nodup) ?_ fun m hm o _ =>
      nodup_markFinding o hm
  exact foldlRecOn findings (promoteFinding name findings)
    (motive := fun m => (orEmpty (m id)).ignoredReports.Nodup) h fun m hm o _ =>
      nodup_promoteFinding o hm

section

variable (hm : ∀ id, Kept (m id))
include hm

/-- After the second pass no dependency that is listed has a report twice. -/
theorem nodup_marked (os : List Occurrence) :
    ∀ o ∈ os, o.usesReportIgnore = true →
      name ∈ (orEmpty (os.foldl (markFinding name) m o.key)).ignoredReports →
        (orEmpty (os.foldl (markFinding name) m o.key)).ignoredReports.Nodup := by
  induction os generalizing m with
  | nil => exact fun o ho => by cases ho
  | cons o os ih =>
    intro o' ho' hdependency hlisted
    rw [foldl_cons] at hlisted ⊢
    rcases mem_cons.1 ho' with rfl | ho'
    · have hstep : (orEmpty (markFinding name m o' o'.key)).ignoredReports.Nodup ∨
          name ∉ (orEmpty (markFinding name m o' o'.key)).ignoredReports := by
        rw [markFinding]
        split
        · rw [setAt_apply, if_pos rfl]
          exact .inl (nodup_setReportIgnored true)
        · rename_i hskip
          exact .inr fun h => hskip ⟨hdependency, h⟩
      rcases hstep with hstep | hstep
      · exact foldlRecOn os (markFinding name)
          (motive := fun m => (orEmpty (m o'.key)).ignoredReports.Nodup) hstep fun m hm o _ =>
            nodup_markFinding o hm
      · -- what is not listed is not listed by marking
        have hnot : ∀ m' : TriageStateMap, (∀ id, Kept (m' id)) →
            name ∉ (orEmpty (m' o'.key)).ignoredReports →
            name ∉ (orEmpty (os.foldl (markFinding name) m' o'.key)).ignoredReports := by
          intro m' hm' hn
          obtain ⟨hkept, hfold⟩ := standing_foldl o'.key true (fun _ => mark_mark)
            (fun _ o h => kept_markFinding name h o) (fun _ o h => standing_markFinding h o) os hm'
          intro hn'
          have hl : (standing (os.foldl (markFinding name) m' o'.key)).listed name :=
            (hkept _).ignores_iff.2 hn'
          rw [hfold] at hl
          split at hl
          · exact hn hl.2
          · exact hn hl.2
        exact absurd hlisted (hnot _ (kept_markFinding name hm o') hstep)
    · exact ih (kept_markFinding name hm o) o' ho' hdependency hlisted

theorem Done.filed (h : Done name findings m) (name' : String) (findings' : List Occurrence) :
    Done name findings (findings'.foldl (markFinding name')
      (findings'.foldl (promoteFinding name' findings') m)) := by
  intro o ho hlisted
  have hkept := kept_fileReport name' findings' hm
  have hstanding := standing_fileReport name' findings' o.key hm
  have hl : ((standing (m o.key)).file findings' name' o.key).listed name := by
    rw [← hstanding]
    exact (hkept o.key).ignores_iff.2 hlisted
  obtain ⟨hmarked, hnodup⟩ := h o ho ((hm o.key).ignores_iff.1 hl.1)
  have hmarked' : ((standing (m o.key)).file findings' name' o.key).marked name :=
    .inl ((hm o.key).marks_iff.2 hmarked)
  rw [← hstanding] at hmarked'
  exact ⟨(hkept o.key).marks_iff.1 hmarked', fun hd => nodup_fileReport (hnodup hd)⟩

theorem done_fileReport : Done name findings
    (findings.foldl (markFinding name) (findings.foldl (promoteFinding name findings) m)) := by
  intro o ho hlisted
  have hkept := kept_fileReport name findings hm
  have hstanding := standing_fileReport name findings o.key hm
  have hl : ((standing (m o.key)).file findings name o.key).listed name := by
    rw [← hstanding]
    exact (hkept o.key).ignores_iff.2 hlisted
  have hmarked : ((standing (m o.key)).file findings name o.key).marked name := by
    cases hd : o.usesReportIgnore with
    | false => exact filed_file_self ⟨o, ho, rfl, hd⟩ hl
    | true => exact .inr ⟨rfl, hl.1, o, ho, rfl, hd⟩
  rw [← hstanding] at hmarked
  refine ⟨(hkept o.key).marks_iff.1 hmarked, fun hd => ?_⟩
  refine nodup_marked (fun id => ?_) findings o ho hd hlisted
  exact foldlRecOn findings (promoteFinding name findings)
    (motive := fun m => ∀ id, Kept (m id)) hm
    (fun m hm o _ => kept_promoteFinding name findings hm o) id

end

theorem done_of_settled (h : ¬Unsettled m name) (findings : List Occurrence) :
    Done name findings m := by
  intro o ho hlisted
  have hkey : o.key ∈ m.keys := by
    by_contra hkey
    rw [FMap.eq_none_iff.2 hkey] at hlisted
    cases hlisted
  have hsettled : ¬(¬(orEmpty (m o.key)).ignoredReports.Nodup ∨
      name ∉ (orEmpty (m o.key)).scopedIgnoredReports) := fun hn => h ⟨o.key, hkey, hlisted, hn⟩
  rw [not_or, not_not, not_not] at hsettled
  exact ⟨hsettled.2, fun _ => hsettled.1⟩

variable {R : String × List Occurrence} {s : Standing}

theorem Done.turn (hm : ∀ id, Kept (m id))
    (h : Done name findings m) : Done name findings (fileReport map m R) := by
  rw [fileReport]
  split
  · exact h
  · exact h.filed hm R.1 R.2

theorem kept_turn (hm : ∀ id, Kept (m id)) : ∀ id, Kept (fileReport map m R id) := by
  rw [fileReport]
  split
  · exact hm
  · exact kept_fileReport R.1 R.2 hm

/-- Of each report that had its turn nothing is left to file. -/
theorem done_reports (reports : List (String × List Occurrence)) (hm : ∀ id, Kept (m id))
    (hsettled : ∀ name, ¬Unsettled map name → ∀ findings, Done name findings m) :
    ∀ R ∈ reports, Done R.1 R.2 (reports.foldl (fileReport map) m) := by
  induction reports generalizing m with
  | nil => exact fun R hR => by cases hR
  | cons R reports ih =>
    have hself : Done R.1 R.2 (fileReport map m R) := by
      rw [fileReport]
      split
      · rename_i hskip
        rcases hskip with hskip | hskip
        · rw [hskip]
          exact fun o ho => by cases ho
        · exact hsettled R.1 hskip R.2
      · exact done_fileReport hm
    have hstays : (∀ id, Kept (reports.foldl (fileReport map) (fileReport map m R) id)) ∧
        Done R.1 R.2 (reports.foldl (fileReport map) (fileReport map m R)) :=
      foldlRecOn reports (fileReport map)
        (motive := fun m => (∀ id, Kept (m id)) ∧ Done R.1 R.2 m) ⟨kept_turn hm, hself⟩
        fun m hm' R' _ => ⟨kept_turn hm'.1, hm'.2.turn hm'.1⟩
    intro R' hR'
    rw [foldl_cons]
    rcases mem_cons.1 hR' with rfl | hR'
    · exact hstays.2
    · exact ih (kept_turn hm) (fun name h findings => (hsettled name h findings).turn hm)
        R' hR'

/-- **Filing again** changes nothing. -/
theorem migrateIgnoredReports_again (hm : ∀ id, Kept (map id))
    (reports : List (String × List Occurrence)) :
    migrateIgnoredReports (migrateIgnoredReports map reports) reports =
      migrateIgnoredReports map reports := by
  have hfirst : ∀ R ∈ reports, Done R.1 R.2 (migrateIgnoredReports map reports) :=
    done_reports reports hm fun name h findings => done_of_settled h findings
  have hall : ∀ id, Kept (migrateIgnoredReports map reports id) :=
    fun id => (standing_migrateIgnoredReports hm reports id).1
  generalize migrateIgnoredReports map reports = m at hfirst hall
  rw [migrateIgnoredReports_eq]
  refine foldlRecOn reports (fileReport m) (motive := fun m' => m' = m) rfl
    fun m' hm' R hR => ?_
  rw [hm', fileReport]
  split
  · rfl
  · exact fileReport_done hall (hfirst R hR)

/-! ### Statuses -/

/-- The status of an occurrence in a report. -/
def statusIn (m : TriageStateMap) (report : String) (o : Occurrence) : Option TriageBucket :=
  effective o.usesReportIgnore report (m o.key)

theorem statusIn_eq (hm : ∀ id, Kept (m id)) (report : String) (o : Occurrence) :
    statusIn m report o = (standing (m o.key)).status o.usesReportIgnore report :=
  effective_eq (hm _)

variable {o o' : Occurrence} {report report' : String} {target : Option TriageBucket}

theorem kept_setFindingTriage (hm : ∀ id, Kept (m id)) :
    ∀ id, Kept (setFindingTriage m report o target id) :=
  kept_setAt hm (kept_setEntryTriage (hm _))

theorem standing_setFindingTriage (hm : ∀ id, Kept (m id)) (id : String) :
    standing (setFindingTriage m report o target id) =
      if id = o.key then (standing (m id)).set o.usesReportIgnore report target
      else standing (m id) := by
  rw [setFindingTriage, setAt_apply]
  split
  · rename_i hid
    rw [hid]
    exact standing_setEntryTriage (hm _)
  · rfl

/-- A report that was filed stays so. -/
theorem Standing.filed_foldl (reports : List (String × List Occurrence))
    (h : s.Filed findings name id) :
    (reports.foldl (fun s R => s.file R.2 R.1 id) s).Filed findings name id :=
  foldlRecOn reports _ (motive := Standing.Filed findings name id) h
    fun _ hs _ _ => filed_file hs

theorem Standing.filed_reports (reports : List (String × List Occurrence)) (s : Standing) :
    ∀ R ∈ reports, (reports.foldl (fun s R => s.file R.2 R.1 id) s).Filed R.2 R.1 id := by
  induction reports generalizing s with
  | nil => exact fun R hR => by cases hR
  | cons R reports ih =>
    intro R' hR'
    rw [foldl_cons]
    rcases mem_cons.1 hR' with rfl | hR'
    · exact filed_foldl reports filed_file_self
    · exact ih _ R' hR'

/-- Code of its own that was listed and not marked is ignored, unless there is another bucket. -/
theorem Standing.bucket_reports {reports : List (String × List Occurrence)}
    (hnames : (reports.map Prod.fst).Nodup) (hR : R ∈ reports)
    (hown : Occurs R.2 false id) (hlisted : s.listed R.1) (hmarked : ¬s.marked R.1) :
    (reports.foldl (fun s R => s.file R.2 R.1 id) s).bucket = s.bucket.or (some .ignored) := by
  have hstep : ∀ (s : Standing) (R : String × List Occurrence),
      s.bucket = (s.bucket.or (some .ignored)) → (s.file R.2 R.1 id).bucket = s.bucket := by
    intro s R hs
    by_cases hfiled : s.listed R.1 ∧ ¬s.marked R.1 ∧ Occurs R.2 false id
    · exact (if_pos hfiled).trans hs.symm
    · exact if_neg hfiled
  have hstays : ∀ (rs : List (String × List Occurrence)) (s : Standing),
      s.bucket = (s.bucket.or (some .ignored)) →
        (rs.foldl (fun s R => s.file R.2 R.1 id) s).bucket = s.bucket := by
    intro rs
    induction rs with
    | nil => exact fun _ _ => rfl
    | cons R rs ih =>
      intro s hs
      have hfile := hstep s R hs
      rw [foldl_cons, ih _ (by rw [hfile]; exact hs), hfile]
  induction reports generalizing s with
  | nil => cases hR
  | cons R' reports ih =>
    rw [map_cons, nodup_cons] at hnames
    rw [foldl_cons]
    rcases mem_cons.1 hR with rfl | hR
    · have hfile : (s.file R.2 R.1 id).bucket = s.bucket.or (some .ignored) :=
        if_pos ⟨hlisted, hmarked, hown⟩
      rw [hstays reports _ (by rw [hfile, or_or]), hfile]
    · have hne : R.1 ≠ R'.1 := fun h => hnames.1 (h ▸ mem_map_of_mem hR)
      have hl : (s.file R'.2 R'.1 id).listed R.1 := ⟨hlisted, fun h => hne h.1⟩
      have hm : ¬(s.file R'.2 R'.1 id).marked R.1 := fun h => h.elim hmarked fun h => hne h.1
      rw [ih hnames.2 hR hl hm]
      by_cases hfiled : s.listed R'.1 ∧ ¬s.marked R'.1 ∧ Occurs R'.2 false id
      · have hfile : (s.file R'.2 R'.1 id).bucket = s.bucket.or (some .ignored) := if_pos hfiled
        rw [hfile, or_or]
      · have hfile : (s.file R'.2 R'.1 id).bucket = s.bucket := if_neg hfiled
        rw [hfile]

/-! ### The scopes -/

/-- What holds of the actions on occurrences and of filing. -/
structure ScopesApart (map : TriageStateMap) (reports : List (String × List Occurrence)) :
    Prop where
  /-- An action gives its occurrence the target. -/
  sets : ∀ report o target,
    (o.usesReportIgnore = true → target = some .ignored → report ≠ "") →
      statusIn (setFindingTriage map report o target) report o = target
  /-- What is neither triaged nor ignored aside, an ignore or its end is for one scope, and in
  dependencies for one report. -/
  keeps : ∀ report o target, (target = some .ignored ∨ target = none) → ∀ report' o',
    (o'.key = o.key → o'.usesReportIgnore ≠ o.usesReportIgnore ∨
      o.usesReportIgnore = true ∧ report' ≠ report) →
      (statusIn map report' o' = none ∨ statusIn map report' o' = some .ignored) →
        statusIn (setFindingTriage map report o target) report' o' = statusIn map report' o'
  /-- The order of the reports is of no matter to what the entries say. -/
  order : ∀ reports', reports'.Perm reports → ∀ id,
    SaysSame (orEmpty (migrateIgnoredReports map reports' id))
      (orEmpty (migrateIgnoredReports map reports id))
  again : migrateIgnoredReports (migrateIgnoredReports map reports) reports =
    migrateIgnoredReports map reports
  /-- An occurrence in a dependency, of one of the reports or of another one. -/
  dependency : ∀ report o, o.usesReportIgnore = true →
    (∀ R ∈ reports, report = R.1 → o ∈ R.2) →
      statusIn (migrateIgnoredReports map reports) report o = statusIn map report o
  own : ∀ R ∈ reports, ∀ o ∈ R.2, o.usesReportIgnore = false →
    R.1 ∈ (orEmpty (map o.key)).ignoredReports →
      R.1 ∉ (orEmpty (map o.key)).scopedIgnoredReports →
        statusIn (migrateIgnoredReports map reports) R.1 o =
          (bucketOf (orEmpty (map o.key))).or (some .ignored)
  /-- What was filed is not filed again after any actions. -/
  settled : ∀ (actions : List (String × Occurrence × Option TriageBucket)) report o,
    statusIn (migrateIgnoredReports (actions.foldl (fun m a => setFindingTriage m a.1 a.2.1 a.2.2)
      (migrateIgnoredReports map reports)) reports) report o =
    statusIn (actions.foldl (fun m a => setFindingTriage m a.1 a.2.1 a.2.2)
      (migrateIgnoredReports map reports)) report o

theorem says_order (hkept : ∀ id, Kept (map id)) (hnames : (reports.map Prod.fst).Nodup)
    {reports' : List (String × List Occurrence)} (hperm : reports'.Perm reports) (id : String) :
    SaysSame (orEmpty (migrateIgnoredReports map reports' id))
      (orEmpty (migrateIgnoredReports map reports id)) := by
  have hstanding : standing (migrateIgnoredReports map reports' id) =
      standing (migrateIgnoredReports map reports id) := by
    rw [(standing_migrateIgnoredReports hkept reports' id).2,
      (standing_migrateIgnoredReports hkept reports id).2]
    refine hperm.foldl_eq' (fun R hR R' hR' s => ?_) _
    by_cases hsame : R = R'
    · rw [hsame]
    · refine file_comm fun hname => hsame ?_
      exact inj_on_of_nodup_map hnames (hperm.mem_iff.1 hR) (hperm.mem_iff.1 hR') hname
  have hmigrated := fun rs => (migrated_migrateIgnoredReports map rs id).norm
  refine ⟨fun p => ?_, fun r => ?_, fun r => ?_⟩
  · by_cases hp : p = .triage
    · rw [hp]
      exact norm_triage_inj.2 (congrArg bucket hstanding)
    · rw [hmigrated reports' p hp, hmigrated reports p hp]
  · exact iff_of_eq (congrFun (congrArg listed hstanding) r)
  · exact iff_of_eq (congrFun (congrArg marked hstanding) r)

/-- **The scopes of triage stay apart.** -/
theorem scopes_apart (hkept : ∀ id, Kept (map id)) (hnames : (reports.map Prod.fst).Nodup) :
    ScopesApart map reports := by
  have hfiled : ∀ id, Kept (migrateIgnoredReports map reports id) :=
    fun id => (standing_migrateIgnoredReports hkept reports id).1
  refine ⟨fun report o target hname => ?_,
    fun report o target htarget report' o' hother hstatus => ?_,
    fun reports' hperm => says_order hkept hnames hperm, migrateIgnoredReports_again hkept reports,
    fun report o hdependency hreports => ?_, fun R hR o ho hown hlisted hmarked => ?_,
    fun actions report o => ?_⟩
  · rw [statusIn_eq (kept_setFindingTriage hkept), standing_setFindingTriage hkept, if_pos rfl]
    exact Standing.status_set hname
  · rw [statusIn_eq (kept_setFindingTriage hkept), standing_setFindingTriage hkept,
      statusIn_eq hkept]
    rw [statusIn_eq hkept] at hstatus
    split
    · rename_i hkey
      exact Standing.status_set_other htarget (hother hkey) hstatus
    · rfl
  · rw [statusIn_eq hfiled, statusIn_eq hkept, (standing_migrateIgnoredReports hkept reports _).2,
      hdependency]
    refine foldlRecOn reports _
      (motive := fun s : Standing => s.status true report =
        (standing (map o.key)).status true report) rfl
      fun s hs R hR => ?_
    rw [← hs]
    exact Standing.status_file_dependency fun h => ⟨o, hreports R hR h, rfl, hdependency⟩
  · rw [statusIn_eq hfiled, (standing_migrateIgnoredReports hkept reports _).2, hown,
      Standing.status_own]
    exact Standing.bucket_reports hnames hR ⟨o, ho, rfl, hown⟩ ((hkept _).ignores_iff.2 hlisted)
      fun h => hmarked ((hkept _).marks_iff.1 h)
  · -- what is filed stays so, whatever the actions
    have hacted := foldlRecOn actions
      (fun m (a : String × Occurrence × Option TriageBucket) => setFindingTriage m a.1 a.2.1 a.2.2)
      (motive := fun m => (∀ id, Kept (m id)) ∧
        ∀ R ∈ reports, ∀ id, (standing (m id)).Filed R.2 R.1 id)
      (b := migrateIgnoredReports map reports) ⟨hfiled, fun R hR id => by
        rw [(standing_migrateIgnoredReports hkept reports id).2]
        exact Standing.filed_reports reports _ R hR⟩
      fun m hm a _ => ⟨kept_setFindingTriage hm.1, fun R hR id => by
        rw [standing_setFindingTriage hm.1]
        split
        · exact Standing.filed_set (hm.2 R hR id)
        · exact hm.2 R hR id⟩
    generalize actions.foldl (fun m a => setFindingTriage m a.1 a.2.1 a.2.2)
      (migrateIgnoredReports map reports) = m at hacted ⊢
    obtain ⟨hm, hdone⟩ := hacted
    rw [statusIn_eq fun id => (standing_migrateIgnoredReports hm reports id).1, statusIn_eq hm,
      (standing_migrateIgnoredReports hm reports _).2]
    have hall := foldlRecOn reports
      (fun (s : Standing) (R : String × List Occurrence) => s.file R.2 R.1 o.key)
      (motive := fun s => (∀ R ∈ reports, s.Filed R.2 R.1 o.key) ∧
        s.status o.usesReportIgnore report =
          (standing (m o.key)).status o.usesReportIgnore report)
      (b := standing (m o.key)) ⟨fun R hR => hdone R hR o.key, rfl⟩
      fun s hs R hR => ⟨fun R' hR' => Standing.filed_file (hs.1 R' hR'),
        (Standing.status_file_of_filed (hs.1 R hR)).trans hs.2⟩
    exact hall.2

/-- The entry of a finding that is ignored in reports, some of them marked. -/
def ignoredIn (reports marked : List String) : TriageStateMap :=
  FMap.ofKeys {"x"} fun _ =>
    some { TriageEntry.empty with ignoredReports := reports, scopedIgnoredReports := marked }

theorem scopes_apart_two : ScopesApart (ignoredIn ["a", "b"] [])
    [("a", [⟨some "x", "1", true⟩]), ("b", [⟨some "x", "1", false⟩])] := by
  refine scopes_apart (fun id => ?_) (by decide)
  rw [ignoredIn, FMap.ofKeys_apply]
  split
  · decide +kernel
  · rfl

/-- An ignore of code of its own is one in all reports; a report that is marked is not filed; the
order of the reports is that of the marks; and no report without a name is listed. -/
theorem scopes_shared :
    (statusIn ∅ "b" ⟨some "x", "1", false⟩ = none ∧
      statusIn (setFindingTriage ∅ "a" ⟨some "x", "1", false⟩ (some .ignored)) "b"
        ⟨some "x", "1", false⟩ = some .ignored) ∧
    statusIn (migrateIgnoredReports (ignoredIn ["a"] ["a"]) [("a", [⟨some "x", "1", false⟩])]) "a"
      ⟨some "x", "1", false⟩ = none ∧
    migrateIgnoredReports (ignoredIn ["a", "b"] [])
        [("a", [⟨some "x", "1", true⟩]), ("b", [⟨some "x", "1", true⟩])] "x" ≠
      migrateIgnoredReports (ignoredIn ["a", "b"] [])
        [("b", [⟨some "x", "1", true⟩]), ("a", [⟨some "x", "1", true⟩])] "x" ∧
    statusIn (setFindingTriage ∅ "" ⟨some "x", "1", true⟩ (some .ignored)) ""
      ⟨some "x", "1", true⟩ = none := by
  decide +kernel

end Triage.Client
