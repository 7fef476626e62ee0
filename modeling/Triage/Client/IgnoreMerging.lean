import Triage.Client.IgnoreFiling

/-!
# Merging ignores and filing them

An import joins its ignores to those of a finding, where the bucket allows it, and what it leaves is
filed. What filing drops of them comes back with the next import, and is dropped again.

## Main results

* `standing_mergeIgnores` : merging the ignores of an entry is joining them.
* `Standing.fileAll_join` : joining once more what was joined and filed, and filing it, changes
  nothing.
-/

namespace Triage.Client

open List

variable {findings : List Occurrence} {name id report r : String} {s s' : Standing}
  {x : TriageEntry} {cur : Option TriageEntry} {reports : List (String × List Occurrence)}

namespace Standing

/-- The bucket is none that excludes ignores of reports. -/
def Allows (s : Standing) : Prop := s.bucket = none ∨ s.bucket = some .ignored

/-- No report is ignored beside a bucket that excludes it. -/
def Exclusive (s : Standing) : Prop := ∀ r, s.listed r → s.Allows

/-- The ignores of an entry are joined, where the bucket allows it. -/
def join (x : TriageEntry) (s : Standing) : Standing where
  bucket := s.bucket
  listed r := s.listed r ∨ s.Allows ∧ Ignores x r
  marked r := s.marked r ∨ s.Allows ∧ Scopes x r

/-- The reports are filed one by one. -/
noncomputable def fileAll (reports : List (String × List Occurrence)) (id : String)
    (s : Standing) : Standing :=
  reports.foldl (fun s R => s.file R.2 R.1 id) s

theorem fileAll_cons (R : String × List Occurrence) :
    s.fileAll (R :: reports) id = (s.file R.2 R.1 id).fileAll reports id := rfl

/-- Two standings say the same of a report. -/
def Same (s s' : Standing) (r : String) : Prop :=
  (s.listed r ↔ s'.listed r) ∧ (s.marked r ↔ s'.marked r)

theorem Exclusive.join (h : s.Exclusive) : (s.join x).Exclusive := by
  rintro r (hr | hr)
  · exact h r hr
  · exact hr.1

theorem Exclusive.file (h : s.Exclusive) : (s.file findings name id).Exclusive := by
  intro r hr
  rcases h r hr.1 with hb | hb
  · simp only [Allows, Standing.file, hb]
    split
    · exact .inr rfl
    · exact .inl rfl
  · simp [Allows, Standing.file, hb]

theorem Exclusive.fileAll (h : s.Exclusive) : (s.fileAll reports id).Exclusive :=
  foldlRecOn reports _ (motive := Exclusive) h fun _ h _ _ => h.file

/-! ### What a report's filing reads -/

theorem Same.file (h : Same s s' r) :
    Same (s.file findings name id) (s'.file findings name id) r := by
  by_cases hr : r = name
  · subst hr
    simp only [Same, Standing.file, h.1, h.2, iff_self, and_self]
  · simp only [Same, Standing.file, hr, false_and, not_false_eq_true, and_true, or_false]
    exact h

theorem Same.fileAll (h : Same s s' r) : Same (s.fileAll reports id) (s'.fileAll reports id) r := by
  induction reports generalizing s s' with
  | nil => exact h
  | cons R reports ih => exact ih h.file

theorem bucket_file {b : TriageBucket} (h : s.bucket = some b) :
    (s.file findings name id).bucket = some b := by
  simp [file, h]

theorem bucket_fileAll {b : TriageBucket} (h : s.bucket = some b) :
    (s.fileAll reports id).bucket = some b :=
  foldlRecOn reports _ (motive := fun s : Standing => s.bucket = some b) h
    fun _ h _ _ => bucket_file h

theorem allows_fileAll : (s.fileAll reports id).Allows ↔ s.Allows := by
  induction reports generalizing s with
  | nil => exact Iff.rfl
  | cons R reports ih =>
    rw [fileAll_cons, ih]
    rcases hb : s.bucket with _ | b
    · simp only [Allows, file, hb]
      split <;> simp
    · rw [Allows, Allows, bucket_file hb, hb]

theorem marked_fileAll (h : s.marked r) : (s.fileAll reports id).marked r :=
  foldlRecOn reports _ (motive := fun s : Standing => s.marked r) h fun _ h _ _ => .inl h

/-! ### What is filed stays so -/

theorem doneAt_file : DoneAt findings name id (s.file findings name id) := by
  rintro ⟨hlisted, hstays⟩ hoccurs
  by_cases hdependency : Occurs findings true id
  · exact .inr ⟨rfl, hlisted, hdependency⟩
  · have hown := hoccurs.resolve_right hdependency
    exact .inl (by_contra fun hmarked => hstays ⟨rfl, hmarked, hown, hdependency⟩)

theorem doneAt_fileAll (h : DoneAt findings name id s) :
    DoneAt findings name id (s.fileAll reports id) :=
  foldlRecOn reports _ (motive := DoneAt findings name id) h
    fun _ h _ _ hlisted hoccurs => .inl (h hlisted.1 hoccurs)

/-- **Filing** is done at once. -/
theorem fileAll_fileAll : (s.fileAll reports id).fileAll reports id = s.fileAll reports id := by
  have hdone : ∀ R ∈ reports, DoneAt R.2 R.1 id (s.fileAll reports id) := by
    induction reports generalizing s with
    | nil => exact fun R hR => absurd hR not_mem_nil
    | cons R reports ih =>
      refine forall_mem_cons.2 ⟨?_, fun R' hR' => ih R' hR'⟩
      exact doneAt_fileAll (s := s.file R.2 R.1 id) doneAt_file
  generalize s.fileAll reports id = t at hdone
  induction reports with
  | nil => rfl
  | cons R reports ih =>
    rw [fileAll_cons, file_of_doneAt (hdone R mem_cons_self)]
    exact ih fun R' hR' => hdone R' (mem_cons_of_mem R hR')

/-- A standing that says of each report what one of two others does gets a bucket by filing only
where one of them does. -/
theorem bucket_between {s₁ s₂ : Standing} (hsame : ∀ r, Same s s₁ r ∨ Same s s₂ r)
    (h₁ : (s₁.fileAll reports id).bucket = none) (h₂ : (s₂.fileAll reports id).bucket = none)
    (hb : s.bucket = none) : (s.fileAll reports id).bucket = none := by
  induction reports generalizing s s₁ s₂ with
  | nil => exact hb
  | cons R reports ih =>
    -- where the report files something of one, its bucket is there from then on:
    have hquiet : ∀ t : Standing, (t.fileAll (R :: reports) id).bucket = none →
        ¬(t.listed R.1 ∧ ¬t.marked R.1 ∧ Occurs R.2 false id) := by
      intro t ht hfiled
      obtain ⟨b, hb⟩ : ∃ b, (t.file R.2 R.1 id).bucket = some b := by
        have hset : (t.file R.2 R.1 id).bucket = t.bucket.or (some .ignored) := if_pos hfiled
        rw [hset]
        cases t.bucket with
        | none => exact ⟨_, rfl⟩
        | some b => exact ⟨_, rfl⟩
      rw [fileAll_cons, bucket_fileAll hb] at ht
      cases ht
    refine ih (fun r => (hsame r).imp Same.file Same.file) h₁ h₂ ?_
    refine (if_neg ?_).trans hb
    rcases hsame R.1 with h | h
    · rw [h.1, h.2]
      exact hquiet s₁ h₁
    · rw [h.1, h.2]
      exact hquiet s₂ h₂

/-- **Joining** once more what was joined and filed, and filing it, changes nothing. -/
theorem fileAll_join (ht : ∀ r, ((s.join x).fileAll reports id).marked r →
      ((s.join x).fileAll reports id).listed r) :
    (((s.join x).fileAll reports id).join x).fileAll reports id =
      (s.join x).fileAll reports id := by
  have hagain : ((s.join x).fileAll reports id).fileAll reports id =
      (s.join x).fileAll reports id := fileAll_fileAll
  have hallows : ((s.join x).fileAll reports id).Allows ↔ (s.join x).Allows := allows_fileAll
  have hkept : ∀ r, (s.join x).marked r → ((s.join x).fileAll reports id).marked r :=
    fun r h => marked_fileAll h
  generalize ht' : (s.join x).fileAll reports id = t at ht hagain hallows hkept ⊢
  -- of each report, what was filed, or what was joined at first
  have hsame : ∀ r, Same (t.join x) (s.join x) r ∨ Same (t.join x) t r := by
    intro r
    have hlisted : t.Allows ∧ Ignores x r → (s.join x).listed r :=
      fun h => .inr ⟨hallows.1 h.1, h.2⟩
    have hmarked : t.Allows ∧ Scopes x r → (s.join x).marked r := fun h => .inr ⟨hallows.1 h.1, h.2⟩
    by_cases hl : t.listed r
    · refine .inr ⟨⟨fun _ => hl, .inl⟩, or_iff_left_of_imp fun h => ?_⟩
      exact hkept r (hmarked h)
    · by_cases hx : t.Allows ∧ Ignores x r
      · refine .inl ⟨⟨fun _ => hlisted hx, fun _ => .inr hx⟩, fun h => ?_, fun h => ?_⟩
        · exact h.elim (fun h => absurd (ht r h) hl) hmarked
        · exact absurd (ht r (hkept r h)) hl
      · exact .inr ⟨or_iff_left hx, or_iff_left fun h => hx ⟨h.1, h.2.1⟩⟩
  have hfiled : ∀ r, Same ((t.join x).fileAll reports id) t r := by
    intro r
    rcases hsame r with h | h
    · have hfirst : Same ((t.join x).fileAll reports id) ((s.join x).fileAll reports id) r :=
        h.fileAll
      rwa [ht'] at hfirst
    · have hsecond : Same ((t.join x).fileAll reports id) (t.fileAll reports id) r := h.fileAll
      rwa [hagain] at hsecond
  ext1
  · rcases hb : t.bucket with _ | b
    · refine bucket_between hsame ?_ ?_ hb
      · rw [ht', hb]
      · rw [hagain, hb]
    · exact bucket_fileAll hb
  · exact funext fun r => propext (hfiled r).1
  · exact funext fun r => propext (hfiled r).2

end Standing

/-! ### On entries -/

theorem allows_iff : allowsReportIgnores (orEmpty cur) = true ↔ (standing cur).Allows := by
  rw [allowsReportIgnores, Bool.or_eq_true, decide_eq_true_eq, decide_eq_true_eq]
  rfl

theorem standing_setReportIgnored (hcur : Kept cur) (marked : Bool) :
    standing (setReportIgnored cur report true marked) = {
      bucket := (standing cur).bucket
      listed := fun r => (standing cur).listed r ∨ r ≠ "" ∧ r = report
      marked := fun r => (standing cur).marked r ∨ r ≠ "" ∧ r = report ∧ marked = true } := by
  ext1
  · exact bucketOf_of_norm (norm_setReportIgnored .triage true marked)
  · exact funext fun r => propext (ignores_setReportIgnored marked report)
  · exact funext fun r => propext (marks_setReportIgnored_add hcur marked)

/-- **Merging the ignores** of an entry is joining them. -/
theorem standing_mergeIgnores (hcur : Kept cur) : Kept (mergeIgnores x cur) ∧
    standing (mergeIgnores x cur) = (standing cur).join x := by
  have hfold : ∀ (l : List String) (cur : Option TriageEntry), Kept cur →
      Kept (l.foldl (fun cur r => setReportIgnored cur r true (r ∈ x.scopedIgnoredReports)) cur) ∧
      standing (l.foldl
        (fun cur r => setReportIgnored cur r true (r ∈ x.scopedIgnoredReports)) cur) = {
        bucket := (standing cur).bucket
        listed := fun r => (standing cur).listed r ∨ r ≠ "" ∧ r ∈ l
        marked := fun r => (standing cur).marked r ∨
          (r ≠ "" ∧ r ∈ l) ∧ r ∈ x.scopedIgnoredReports } := by
    intro l
    induction l with
    | nil =>
      refine fun cur hcur => ⟨hcur, ?_⟩
      simp only [foldl_nil, not_mem_nil, and_false, false_and, or_false]
    | cons r' l ih =>
      intro cur hcur
      obtain ⟨hkept, hrest⟩ := ih _ (kept_setReportIgnored hcur true _)
      refine ⟨hkept, ?_⟩
      rw [foldl_cons, hrest, standing_setReportIgnored hcur]
      ext1
      · rfl
      · refine funext fun r => propext ?_
        simp only [mem_cons]
        tauto
      · refine funext fun r => propext ?_
        simp only [mem_cons, decide_eq_true_eq]
        by_cases hr : r = r'
        · subst hr
          tauto
        · tauto
  rw [mergeIgnores]
  split
  · rename_i hallows
    obtain ⟨hkept, hfolded⟩ := hfold x.ignoredReports cur hcur
    refine ⟨hkept, ?_⟩
    have h := allows_iff.1 hallows
    rw [hfolded]
    ext1
    · rfl
    · exact funext fun r => propext (or_congr_right (and_iff_right h).symm)
    · exact funext fun r => propext (or_congr_right (and_iff_right h).symm)
  · rename_i hallows
    have h : ¬(standing cur).Allows := fun h => hallows (allows_iff.2 h)
    refine ⟨hcur, ?_⟩
    ext1
    · rfl
    · exact funext fun r => propext (or_iff_left fun h' => h h'.1).symm
    · exact funext fun r => propext (or_iff_left fun h' => h h'.1).symm

/-! ### Adopting a bucket -/

/-- A bucket is adopted, and ignores that it excludes are dropped. -/
def Standing.take (b : Option TriageBucket) (s : Standing) : Standing :=
  ⟨b, fun r => s.listed r ∧ b = some .ignored, fun r => s.marked r ∧ b = some .ignored⟩

theorem Standing.exclusive_take {b : Option TriageBucket} : (s.take b).Exclusive :=
  fun _ h => .inr h.2

theorem Standing.take_take {b : Option TriageBucket} : (s.take b).take b = s.take b := by
  simp only [take, and_assoc, and_self]

theorem norm_triage_empty {e : TriageEntry} :
    ConflictProperty.triage.norm e = "" ↔ bucketOf e = none := norm_triage_inj (l := .empty)

theorem standing_take (hcur : Kept cur) {p : ConflictProperty} (hp : p.norm x ≠ "") :
    standing (patchEntry cur (p.take x)) =
      if p = .triage then (standing cur).take (bucketOf x) else standing cur := by
  have hbucket : bucketOf (orEmpty (patchEntry cur (p.take x))) =
      if p = .triage then bucketOf x else bucketOf (orEmpty cur) := by
    have hnorm := norm_take (e := orEmpty cur) hp .triage
    rw [← norm_patchEntry] at hnorm
    by_cases htriage : p = .triage
    · rw [if_pos htriage.symm] at hnorm
      rw [if_pos htriage, bucketOf_of_norm hnorm]
    · rw [if_neg (Ne.symm htriage)] at hnorm
      rw [if_neg htriage, bucketOf_of_norm hnorm]
  have hreports : (p.take x (orEmpty cur)).ignoredReports = (orEmpty cur).ignoredReports ∨
      (p.take x (orEmpty cur)).ignoredReports.Nodup := by
    cases p with
    | triage =>
      by_cases hb : bucketOf x = some .ignored
      · exact .inl (if_pos hb)
      · refine .inr ?_
        rw [ConflictProperty.take, if_neg hb]
        exact nodup_nil
    | _ => exact .inl rfl
  have hmarks := fun r => marks_patchEntry r hcur hreports
  cases p with
  | triage =>
    ext1
    · exact hbucket
    · refine funext fun r => propext ((hmarks r).1.trans ?_)
      by_cases hb : bucketOf x = some .ignored <;>
        simp [Standing.take, standing, ConflictProperty.take, Ignores, hb]
    · refine funext fun r => propext ((hmarks r).2.trans ?_)
      by_cases hb : bucketOf x = some .ignored <;>
        simp [Standing.take, standing, ConflictProperty.take, Scopes, Ignores, hb]
  | _ =>
    ext1
    · exact hbucket
    · exact funext fun r => propext (hmarks r).1
    · exact funext fun r => propext (hmarks r).2

open Classical in
/-- **The merge**: the bucket, where there is none, and then the ignores. -/
theorem standing_mergeEntry (hcur : Kept cur) : Kept (mergeEntry x cur).1 ∧
    standing (mergeEntry x cur).1 = Standing.join x
      (if (standing cur).bucket = none ∧ bucketOf x ≠ none then (standing cur).take (bucketOf x)
      else standing cur) := by
  have hall : ∀ (ps : List ConflictProperty) (m : Option TriageEntry × List ConflictProperty),
      Kept m.1 → Kept (adoptAll x ps m).1 ∧ standing (adoptAll x ps m).1 =
        if ConflictProperty.triage ∈ ps ∧ (standing m.1).bucket = none ∧ bucketOf x ≠ none then
          (standing m.1).take (bucketOf x) else standing m.1 := by
    intro ps
    induction ps with
    | nil => exact fun m hm => ⟨hm, (if_neg fun h => absurd h.1 not_mem_nil).symm⟩
    | cons p ps ih =>
      intro m hm
      have hstep : Kept (adopt x m.1 p) ∧ standing (adopt x m.1 p) =
          if p = .triage ∧ (standing m.1).bucket = none ∧ bucketOf x ≠ none then
            (standing m.1).take (bucketOf x) else standing m.1 := by
        rw [adopt]
        split
        · rename_i h
          refine ⟨kept_patchEntry hm, (standing_take hm h.1).trans (if_congr ?_ rfl rfl)⟩
          refine (and_iff_left_of_imp ?_).symm
          rintro rfl
          exact ⟨norm_triage_empty.1 h.2, mt norm_triage_empty.2 h.1⟩
        · rename_i h
          refine ⟨hm, (if_neg ?_).symm⟩
          rintro ⟨rfl, hb, hx⟩
          exact h ⟨mt norm_triage_empty.1 hx, norm_triage_empty.2 hb⟩
      obtain ⟨hkept, hrest⟩ := ih (adopt x m.1 p, _) hstep.1
      refine ⟨hkept, hrest.trans ?_⟩
      rw [hstep.2]
      by_cases h : p = .triage ∧ (standing m.1).bucket = none ∧ bucketOf x ≠ none
      · rw [if_pos h]
        refine (if_neg fun h' => h.2.2 h'.2.1).trans (if_pos ⟨?_, h.2⟩).symm
        exact mem_cons.2 (.inl h.1.symm)
      · rw [if_neg h]
        refine if_congr ⟨fun h' => ⟨mem_cons_of_mem p h'.1, h'.2⟩, fun h' => ?_⟩ rfl rfl
        exact ⟨(mem_cons.1 h'.1).resolve_left fun heq => h ⟨heq.symm, h'.2⟩, h'.2⟩
  obtain ⟨hkept, hbucket⟩ := hall mergeOrder (cur, []) hcur
  obtain ⟨hkept, hjoin⟩ := standing_mergeIgnores (x := x) hkept
  refine ⟨hkept, hjoin.trans ?_⟩
  rw [hbucket]
  simp only [mem_mergeOrder, true_and]

/-- What is merged into nothing ignores what the import does, unless a bucket excludes it. -/
theorem ignores_mergeEntry_none : Ignores (orEmpty (mergeEntry x none).1) r ↔
    allowsReportIgnores x = true ∧ Ignores x r := by
  have hempty : Kept none := rfl
  have hlisted : ¬(standing none).listed r := fun h => absurd h.2 not_mem_nil
  have hmerged : (standing (mergeEntry x none).1).listed r ↔ _ :=
    iff_of_eq (congrArg (fun s : Standing => s.listed r) (standing_mergeEntry hempty).2)
  refine hmerged.trans ?_
  by_cases hb : bucketOf x = none
  · rw [if_neg fun h => h.2 hb]
    have hall : allowsReportIgnores x = true := by rw [allowsReportIgnores, hb]; rfl
    exact (or_iff_right hlisted).trans (and_congr_left fun _ => iff_of_true (.inl rfl) hall)
  · rw [if_pos ⟨rfl, hb⟩]
    refine (or_iff_right fun h => hlisted h.1).trans (and_congr_left fun _ => ?_)
    simp [Standing.Allows, Standing.take, allowsReportIgnores, hb]

end Triage.Client
