import Triage.Client.FindingTriage

/-!
# Filing the ignores of reports

Filing goes through the occurrences of a report one by one, twice. On the standing of a finding it
is one step a report, which reads and writes nothing but what is said of that report, and the bucket
where there is none.

## Main results

* `standing_migrateIgnoredReports` : filing is that, report by report.
* `Standing.file_comm`, `Standing.filed_file` : the order is of no matter; what is filed stays so.
-/

namespace Triage.Client

open List Standing

/-- A report has a finding, as code of a dependency or not. -/
def Occurs (findings : List Occurrence) (perReport : Bool) (id : String) : Prop :=
  ∃ o ∈ findings, o.key = id ∧ o.usesReportIgnore = perReport

variable {findings findings' : List Occurrence} {name name' id report r : String}
  {s : Standing} {perReport : Bool} {target : Option TriageBucket}

/-! ### On standings -/

namespace Standing

open Classical in
/-- Code of its own is ignored from now on wherever it occurs. -/
noncomputable def promote (name : String) (dependency : Prop) (s : Standing) : Standing where
  bucket := if s.listed name ∧ ¬s.marked name then s.bucket.or (some .ignored) else s.bucket
  listed r := s.listed r ∧ ¬(r = name ∧ ¬s.marked name ∧ ¬dependency)
  marked := s.marked

/-- What is listed is marked. -/
def mark (name : String) (s : Standing) : Standing :=
  { s with marked := fun r => s.marked r ∨ r = name ∧ s.listed name }

open Classical in
/-- A report is filed. -/
noncomputable def file (findings : List Occurrence) (name id : String) (s : Standing) :
    Standing where
  bucket := if s.listed name ∧ ¬s.marked name ∧ Occurs findings false id then
    s.bucket.or (some .ignored) else s.bucket
  listed r := s.listed r ∧
    ¬(r = name ∧ ¬s.marked name ∧ Occurs findings false id ∧ ¬Occurs findings true id)
  marked r := s.marked r ∨ r = name ∧ s.listed name ∧ Occurs findings true id

theorem promote_of_marked (dependency : Prop) (h : s.listed name → s.marked name) :
    s.promote name dependency = s := by
  ext1
  · exact if_neg fun hn => hn.2 (h hn.1)
  · refine funext fun r => propext (and_iff_left_of_imp fun hr hn => ?_)
    obtain ⟨rfl, hmarked, -⟩ := hn
    exact hmarked (h hr)
  · rfl

theorem or_or (b : Option TriageBucket) :
    (b.or (some .ignored)).or (some .ignored) = b.or (some .ignored) := by
  cases b <;> rfl

theorem promote_promote (dependency : Prop) :
    (s.promote name dependency).promote name dependency = s.promote name dependency := by
  ext1
  · by_cases h : s.listed name ∧ ¬s.marked name
    · simp only [promote, if_pos h, or_or]
      exact ite_self _
    · have h' : ¬((s.promote name dependency).listed name ∧ ¬s.marked name) :=
        fun hn => h ⟨hn.1.1, hn.2⟩
      exact if_neg h'
  · refine funext fun r => propext ?_
    simp only [promote]
    tauto
  · rfl

theorem mark_mark : (s.mark name).mark name = s.mark name := by
  ext1
  · rfl
  · rfl
  · refine funext fun r => propext ?_
    simp only [mark]
    tauto

open Classical in
/-- Both passes over a report. -/
theorem file_eq : s.file findings name id =
    (if Occurs findings true id then
      mark name (if Occurs findings false id then s.promote name (Occurs findings true id) else s)
    else if Occurs findings false id then s.promote name (Occurs findings true id) else s) := by
  by_cases hown : Occurs findings false id
  · by_cases hdependency : Occurs findings true id
    · rw [if_pos hdependency, if_pos hown]
      ext1
      · simp only [file, mark, promote, hown, and_true]
      · refine funext fun r => propext ?_
        simp only [file, mark, promote, hown, hdependency, true_and]
      · refine funext fun r => propext ?_
        simp only [file, mark, promote, hdependency]
        tauto
    · rw [if_neg hdependency, if_pos hown]
      ext1
      · simp only [file, promote, hown, and_true]
      · refine funext fun r => propext ?_
        simp only [file, promote, hown, true_and]
      · refine funext fun r => propext ?_
        simp only [file, promote, hdependency, and_false, or_false]
  · by_cases hdependency : Occurs findings true id
    · rw [if_pos hdependency, if_neg hown]
      ext1
      · simp only [file, mark, hown, and_false, if_false]
      · refine funext fun r => propext ?_
        simp only [file, mark, hown, false_and, and_false, not_false_eq_true, and_true]
      · refine funext fun r => propext ?_
        simp only [file, mark, hdependency, and_true]
    · rw [if_neg hdependency, if_neg hown]
      ext1
      · simp only [file, hown, and_false, if_false]
      · refine funext fun r => propext ?_
        simp only [file, hown, false_and, and_false, not_false_eq_true, and_true]
      · refine funext fun r => propext ?_
        simp only [file, hdependency, and_false, or_false]

open Classical in
/-- Reports of different names are filed in either order. -/
theorem file_comm (hne : name ≠ name') :
    (s.file findings name id).file findings' name' id =
      (s.file findings' name' id).file findings name id := by
  have hl : ∀ {n n' : String} {fs : List Occurrence}, n ≠ n' →
      ((s.file fs n id).listed n' ↔ s.listed n') := fun hn =>
    and_iff_left fun h => hn h.1.symm
  have hm : ∀ {n n' : String} {fs : List Occurrence}, n ≠ n' →
      ((s.file fs n id).marked n' ↔ s.marked n') := fun hn =>
    or_iff_left fun h => hn h.1.symm
  ext1
  · have hbucket : ∀ {n n' : String} {fs fs' : List Occurrence}, n ≠ n' →
        ((s.file fs n id).file fs' n' id).bucket =
          if s.listed n' ∧ ¬s.marked n' ∧ Occurs fs' false id then
            (s.file fs n id).bucket.or (some .ignored) else (s.file fs n id).bucket := by
      intro n n' fs fs' hn
      rw [file]
      simp only [hl hn, hm hn]
    rw [hbucket hne, hbucket hne.symm]
    simp only [file]
    split_ifs
    · rfl
    · rfl
    · rfl
    · rfl
  · refine funext fun r => propext ?_
    have hlisted : ∀ {n n' : String} {fs fs' : List Occurrence}, n ≠ n' →
        (((s.file fs n id).file fs' n' id).listed r ↔ (s.file fs n id).listed r ∧
          ¬(r = n' ∧ ¬s.marked n' ∧ Occurs fs' false id ∧ ¬Occurs fs' true id)) := by
      intro n n' fs fs' hn
      rw [← hm hn]
      rfl
    rw [hlisted hne, hlisted hne.symm]
    simp only [file]
    tauto
  · refine funext fun r => propext ?_
    have hmarked : ∀ {n n' : String} {fs fs' : List Occurrence}, n ≠ n' →
        (((s.file fs n id).file fs' n' id).marked r ↔ (s.file fs n id).marked r ∨
          r = n' ∧ s.listed n' ∧ Occurs fs' true id) := by
      intro n n' fs fs' hn
      rw [← hl hn]
      rfl
    rw [hmarked hne, hmarked hne.symm]
    simp only [file]
    tauto

/-- Nothing is left to file of a report. -/
def DoneAt (findings : List Occurrence) (name id : String) (s : Standing) : Prop :=
  s.listed name → Occurs findings false id ∨ Occurs findings true id → s.marked name

theorem file_of_doneAt (h : DoneAt findings name id s) : s.file findings name id = s := by
  ext1
  · exact if_neg fun hn => hn.2.1 (h hn.1 (.inl hn.2.2))
  · refine funext fun r => propext (and_iff_left_of_imp fun hr => ?_)
    rintro ⟨rfl, hmarked, hown, -⟩
    exact hmarked (h hr (.inl hown))
  · refine funext fun r => propext (or_iff_left_of_imp ?_)
    rintro ⟨rfl, hlisted, hdependency⟩
    exact h hlisted (.inr hdependency)

/-- A report that was filed: code of its own has no ignore that is not marked. -/
def Filed (findings : List Occurrence) (name id : String) (s : Standing) : Prop :=
  Occurs findings false id → s.listed name → s.marked name

theorem filed_file_self : Filed findings name id (s.file findings name id) := by
  rintro hown ⟨hlisted, hstays⟩
  by_cases hmarked : s.marked name
  · exact .inl hmarked
  · exact .inr ⟨rfl, hlisted, by_contra fun hd => hstays ⟨rfl, hmarked, hown, hd⟩⟩

section

variable (h : Filed findings name id s)
include h

/-- What is filed stays so. -/
theorem filed_file : Filed findings name id (s.file findings' name' id) :=
  fun hown hlisted => .inl (h hown hlisted.1)

theorem filed_set : Filed findings name id (s.set perReport report target) := by
  intro hown
  have hpatch : ∀ b, (s.patch b).listed name → (s.patch b).marked name := fun _ => h hown
  have hdrop : ∀ s' : Standing, (s'.listed name → s'.marked name) →
      (s'.drop report).listed name → (s'.drop report).marked name :=
    fun s' hs' hl => ⟨hs' hl.1, hl.2⟩
  have hadd : ∀ s' : Standing, (s'.listed name → s'.marked name) →
      (s'.add report).listed name → (s'.add report).marked name :=
    fun s' hs' hl => hl.imp_left hs'
  have hcleared : (if s.bucket = some .ignored then s else s.patch none).listed name →
      (if s.bucket = some .ignored then s else s.patch none).marked name := by
    split
    · exact h hown
    · exact hpatch none
  rw [set]
  split
  · dsimp only
    split
    · exact hadd _ hcleared
    · exact hdrop _ hcleared
  · split
    · exact hpatch target
    · exact hdrop _ (hpatch target)

/-- Filing what is filed changes no status. -/
theorem status_file_of_filed :
    (s.file findings name id).status perReport r = s.status perReport r := by
  have hbucket : (s.file findings name id).bucket = s.bucket :=
    if_neg fun hn => hn.2.1 (h hn.2.2 hn.1)
  have hlisted : (s.file findings name id).listed r ↔ s.listed r := by
    refine and_iff_left_of_imp fun hr => ?_
    rintro ⟨rfl, hmarked, hown, -⟩
    exact hmarked (h hown hr)
  rw [status, status, hbucket, propext hlisted]

end

/-- The status of code of a dependency stays. -/
theorem status_file_dependency (h : r = name → Occurs findings true id) :
    (s.file findings name id).status true r = s.status true r := by
  have hlisted : (s.file findings name id).listed r ↔ s.listed r :=
    and_iff_left fun hn => hn.2.2.2 (h hn.1)
  by_cases hfiled : s.listed name ∧ ¬s.marked name ∧ Occurs findings false id
  · have hbucket : (s.file findings name id).bucket = s.bucket.or (some .ignored) := if_pos hfiled
    rw [status, status, hbucket, propext hlisted]
    rcases s.bucket with _ | _ | _ | _ | _ | _ <;> simp
  · have hbucket : (s.file findings name id).bucket = s.bucket := if_neg hfiled
    rw [status, status, hbucket, propext hlisted]

end Standing

/-! ### On the map -/

variable {cur : Option TriageEntry} {map : TriageStateMap}
  {reports : List (String × List Occurrence)}

theorem standing_promote (hcur : Kept cur) (hlisted : (standing cur).listed name)
    (hmarked : ¬(standing cur).marked name) (dependency : Bool) :
    standing (promote name dependency cur) = (standing cur).promote name (dependency = true) := by
  have hshared : standing (if bucketOf (orEmpty cur) = none then
      patchEntry cur fun e => { e with triage := some .ignored } else cur) =
      (standing cur).patch ((standing cur).bucket.or (some .ignored)) := by
    have hbucket : (standing cur).bucket = bucketOf (orEmpty cur) := rfl
    rw [hbucket]
    split
    · rename_i hnone
      rw [standing_patch hcur, hnone]
      rfl
    · rename_i hsome
      obtain ⟨b, hb⟩ := Option.ne_none_iff_exists'.1 hsome
      have hor : (some b).or (some .ignored) = some b := rfl
      rw [hb, hor, ← hb]
      rfl
  have hkept : Kept (if bucketOf (orEmpty cur) = none then
      patchEntry cur fun e => { e with triage := some .ignored } else cur) := by
    split
    · exact kept_patchEntry hcur
    · exact hcur
  have hbucket : ((standing cur).promote name (dependency = true)).bucket =
      (standing cur).bucket.or (some .ignored) := if_pos ⟨hlisted, hmarked⟩
  rw [promote]
  cases dependency with
  | true =>
    rw [if_pos rfl, hshared]
    ext1
    · exact hbucket.symm
    · exact funext fun r => propext (and_iff_left fun h => h.2.2 rfl).symm
    · rfl
  | false =>
    rw [if_neg Bool.false_ne_true, standing_drop hkept, hshared]
    ext1
    · exact hbucket.symm
    · refine funext fun r => propext (and_congr_right fun _ => not_congr ?_)
      exact (and_iff_left ⟨hmarked, Bool.false_ne_true⟩).symm
    · refine funext fun r => propext (and_iff_left_of_imp fun hr => ?_)
      rintro rfl
      exact hmarked hr

theorem occurs_any : (findings.any fun o => o.usesReportIgnore && o.key = id) = true ↔
    Occurs findings true id := by
  simp only [any_eq_true, Bool.and_eq_true, decide_eq_true_eq, Occurs, and_comm]

open Classical in
section

variable (hm : ∀ id, Kept (map id))
include hm

/-- The first pass over an occurrence. -/
theorem standing_promoteFinding (o : Occurrence) :
    standing (promoteFinding name findings map o id) =
      if o.key = id ∧ o.usesReportIgnore = false then
        (standing (map id)).promote name (Occurs findings true id) else standing (map id) := by
  rw [promoteFinding]
  split
  · rename_i hskip
    split
    · rename_i ho
      obtain ⟨rfl, hown⟩ := ho
      refine (promote_of_marked _ fun hlisted => ?_).symm
      rw [hown] at hskip
      rcases hskip with hskip | hskip | hskip
      · exact absurd hlisted.2 hskip
      · exact (hm _).marks_iff.2 hskip
      · cases hskip
    · rfl
  · rename_i hstep
    rw [not_or, not_or, not_not, Bool.not_eq_true] at hstep
    obtain ⟨hlisted, hmarked, hown⟩ := hstep
    rw [setAt_apply]
    by_cases hid : id = o.key
    · subst hid
      rw [if_pos rfl, if_pos ⟨rfl, hown⟩, ← occurs_any]
      exact standing_promote (hm _) ((hm _).ignores_iff.2 hlisted)
        (fun h => hmarked ((hm _).marks_iff.1 h)) _
    · rw [if_neg hid, if_neg fun h => hid h.1.symm]

open Classical in
/-- The second pass. -/
theorem standing_markFinding (o : Occurrence) :
    standing (markFinding name map o id) =
      if o.key = id ∧ o.usesReportIgnore = true then (standing (map id)).mark name
      else standing (map id) := by
  rw [markFinding]
  split
  · rename_i hstep
    obtain ⟨hdependency, hlisted⟩ := hstep
    rw [setAt_apply]
    by_cases hid : id = o.key
    · subst hid
      have hname := (hm o.key).ignores_iff.2 hlisted
      rw [if_pos rfl, if_pos ⟨rfl, hdependency⟩, standing_add (hm _)]
      ext1
      · rfl
      · refine funext fun r => propext (or_iff_left_of_imp fun h => ?_)
        rw [h.2]
        exact hname
      · refine funext fun r => propext (or_congr_right ⟨fun h => ⟨h.2, hname⟩, fun h => ?_⟩)
        exact ⟨h.1 ▸ hname.1, h.1⟩
    · rw [if_neg hid, if_neg fun h => hid h.1.symm]
  · rename_i hskip
    split
    · rename_i ho
      obtain ⟨rfl, hdependency⟩ := ho
      have hlisted : ¬(standing (map o.key)).listed name := fun h => hskip ⟨hdependency, h.2⟩
      ext1
      · rfl
      · rfl
      · exact funext fun r => propext (or_iff_left fun h => hlisted h.2).symm
    · rfl

theorem kept_setAt {id' : String} {o : Option TriageEntry}
    (ho : Kept o) : ∀ id, Kept (setAt map id' o id) := by
  intro id
  rw [setAt_apply]
  split
  · exact ho
  · exact hm id

end

theorem kept_promote (hcur : Kept cur) (dependency : Bool) :
    Kept (promote name dependency cur) := by
  have hshared : Kept (if bucketOf (orEmpty cur) = none then
      patchEntry cur fun e => { e with triage := some .ignored } else cur) := by
    split
    · exact kept_patchEntry hcur
    · exact hcur
  rw [promote]
  split
  · exact hshared
  · exact kept_setReportIgnored hshared _ _

theorem kept_promoteFinding (name : String) (findings : List Occurrence)
    (hm : ∀ id, Kept (map id)) (o : Occurrence) :
    ∀ id, Kept (promoteFinding name findings map o id) := by
  rw [promoteFinding]
  split
  · exact hm
  · exact kept_setAt hm (kept_promote (hm _) _)

theorem kept_markFinding (name : String) (hm : ∀ id, Kept (map id)) (o : Occurrence) :
    ∀ id, Kept (markFinding name map o id) := by
  rw [markFinding]
  split
  · exact kept_setAt hm (kept_setReportIgnored (hm _) _ _)
  · exact hm

open Classical in
/-- A pass whose step is the same for all occurrences that it is for. -/
theorem standing_foldl (id : String) (perReport : Bool)
    {step : TriageStateMap → Occurrence → TriageStateMap} {f : Standing → Standing}
    (hf : ∀ s, f (f s) = f s) (hkept : ∀ m o, (∀ id, Kept (m id)) → ∀ id, Kept (step m o id))
    (hstep : ∀ m o, (∀ id, Kept (m id)) → standing (step m o id) =
      if o.key = id ∧ o.usesReportIgnore = perReport then f (standing (m id))
      else standing (m id)) (os : List Occurrence) (hm : ∀ id, Kept (map id)) :
    (∀ id, Kept (os.foldl step map id)) ∧ standing (os.foldl step map id) =
      if Occurs os perReport id then f (standing (map id)) else standing (map id) := by
  induction os generalizing map with
  | nil => exact ⟨hm, (if_neg (by rintro ⟨o, ho, -⟩; cases ho)).symm⟩
  | cons o os ih =>
    obtain ⟨hkept', hfold⟩ := ih (hkept map o hm)
    have hcons : Occurs (o :: os) perReport id ↔
        (o.key = id ∧ o.usesReportIgnore = perReport) ∨ Occurs os perReport id := by
      simp only [Occurs, exists_mem_cons_iff]
    refine ⟨hkept', ?_⟩
    rw [foldl_cons, hfold, hstep map o hm]
    by_cases ho : o.key = id ∧ o.usesReportIgnore = perReport
    · rw [if_pos ho, if_pos (hcons.2 (.inl ho)), hf, ite_self]
    · rw [if_neg ho, propext (hcons.trans (or_iff_right ho))]

theorem kept_fileReport (name : String) (findings : List Occurrence) (hm : ∀ id, Kept (map id)) :
    ∀ id, Kept (findings.foldl (markFinding name)
      (findings.foldl (promoteFinding name findings) map) id) := by
  refine foldlRecOn findings (markFinding name) (motive := fun m => ∀ id, Kept (m id)) ?_
    fun m h o _ => kept_markFinding name h o
  exact foldlRecOn findings (promoteFinding name findings)
    (motive := fun m => ∀ id, Kept (m id)) hm fun m h o _ => kept_promoteFinding name findings h o

/-- A report is filed. -/
theorem standing_fileReport (name : String) (findings : List Occurrence) (id : String)
    (hm : ∀ id, Kept (map id)) :
    standing (findings.foldl (markFinding name)
      (findings.foldl (promoteFinding name findings) map) id) =
        (standing (map id)).file findings name id := by
  classical
  obtain ⟨hpromoted, hfirst⟩ := standing_foldl id false
    (fun _ => promote_promote (Occurs findings true id))
    (fun _ o h => kept_promoteFinding name findings h o)
    (fun _ o h => standing_promoteFinding h o) findings hm
  obtain ⟨-, hsecond⟩ := standing_foldl id true
    (fun _ => mark_mark) (fun _ o h => kept_markFinding name h o)
    (fun _ o h => standing_markFinding h o) findings hpromoted
  rw [hsecond, hfirst, file_eq]

theorem marked_of_settled (hm : ∀ id, Kept (map id)) (h : ¬Unsettled map name) (id : String) :
    (standing (map id)).listed name → (standing (map id)).marked name := by
  intro hlisted
  by_contra hmarked
  refine h ⟨id, ?_, hlisted.2, .inr fun hn => hmarked ((hm id).marks_iff.2 hn)⟩
  by_contra hkey
  rw [FMap.eq_none_iff.2 hkey] at hlisted
  cases hlisted.2

/-- The turn of a report, which is passed by where the map had nothing of it to settle. -/
def fileReport (map m : TriageStateMap) (R : String × List Occurrence) : TriageStateMap :=
  if R.2 = [] ∨ ¬Unsettled map R.1 then m
  else R.2.foldl (markFinding R.1) (R.2.foldl (promoteFinding R.1 R.2) m)

theorem migrateIgnoredReports_eq : migrateIgnoredReports map reports =
    reports.foldl (fileReport map) map := rfl

/-- **Filing** goes through the reports one by one. -/
theorem standing_migrateIgnoredReports (hm : ∀ id, Kept (map id))
    (reports : List (String × List Occurrence)) (id : String) :
    Kept (migrateIgnoredReports map reports id) ∧
      standing (migrateIgnoredReports map reports id) =
        reports.foldl (fun s R => s.file R.2 R.1 id) (standing (map id)) := by
  -- what was settled at first stays so
  have hall : ∀ m : TriageStateMap, (∀ id, Kept (m id)) →
      (∀ name, ¬Unsettled map name → ∀ id, (standing (m id)).listed name →
        (standing (m id)).marked name) → ∀ id,
      Kept (reports.foldl (fileReport map) m id) ∧
      standing (reports.foldl (fileReport map) m id) =
        reports.foldl (fun s R => s.file R.2 R.1 id) (standing (m id)) := by
    induction reports with
    | nil => exact fun m hm _ id => ⟨hm id, rfl⟩
    | cons R reports ih =>
      intro m hm hsettled id
      rw [foldl_cons, foldl_cons, fileReport]
      by_cases hskip : R.2 = [] ∨ ¬Unsettled map R.1
      · have hsame : (standing (m id)).file R.2 R.1 id = standing (m id) := by
          rcases hskip with hskip | hskip
          · rw [hskip]
            exact file_of_doneAt fun _ h => by simp [Occurs] at h
          · exact file_of_doneAt fun h _ => hsettled R.1 hskip id h
        rw [if_pos hskip, hsame]
        exact ih m hm hsettled id
      · rw [if_neg hskip]
        have hfile := fun id => standing_fileReport R.1 R.2 id hm
        obtain ⟨hkept, hrest⟩ := ih _ (kept_fileReport R.1 R.2 hm) (fun name hname id => by
          rw [hfile id]
          exact fun h => .inl (hsettled name hname id h.1)) id
        refine ⟨hkept, ?_⟩
        rw [hrest, hfile id]
  exact hall map hm (fun name h => marked_of_settled hm h) id

end Triage.Client
