import Triage.Client.TriageMerge

/-!
# Reloading what another tab stored

A tab that hears that another one stored the triage reads the stored entries and replaces its own by
them, but for findings that only exist in its session. Fields that the stored entry lacks are
cleared, reports that it does not list are dropped, and then it is adopted.

## Main results

* `says_cleared`, `says_adoptStored` : what an entry says after its two halves.
* `says_reloadEntry` : what the entry of a finding says after a reload.
-/

namespace Triage.Client

open List Option ConflictProperty TriageEntry

/-! ### The reload of one finding -/

/-- `SESSION_ID_RE` -/
def isSessionId (id : String) : Bool := id ≠ "" && id.toList.all Char.isDigit

namespace ConflictProperty

/-- An entry has a value of the property. -/
def present (p : ConflictProperty) (e : TriageEntry) : Bool := p.norm e ≠ ""

/-- The patch that clears the property. -/
def clear : ConflictProperty → TriageEntry → TriageEntry
  | .color, e => { e with color := none }
  | .triage, e => { e with triage := none }
  | .comment, e => { e with comment := none }
  | .fix, e => { e with fix := none }
  | .flagged, e => { e with flagged := none }

end ConflictProperty

section Entry

variable (pending stored : Option TriageEntry)

/-- A field that neither the stored entry nor the one that waits to be stored has is cleared. -/
def clearField (cur : Option TriageEntry) (p : ConflictProperty) : Option TriageEntry :=
  if !p.present (orEmpty pending) ∧ !p.present (orEmpty stored) then patchEntry cur p.clear else cur

def clearFields (cur : Option TriageEntry) : Option TriageEntry :=
  ConflictProperty.all.foldl (clearField pending stored) cur

/-- A report that the stored entry does not list, or excludes by its bucket, is dropped, unless an
entry that waits to be stored lists it. -/
def dropReport (cur : Option TriageEntry) (report : String) : Option TriageEntry :=
  if report ∈ (orEmpty pending).ignoredReports then cur
  else if !allowsReportIgnores (orEmpty stored) then setReportIgnored cur report false false
  else if report ∉ (orEmpty stored).ignoredReports then setReportIgnored cur report false false
  else cur

def dropReports (cur : Option TriageEntry) : Option TriageEntry :=
  (orEmpty cur).ignoredReports.foldl (dropReport pending stored) cur

end Entry

/-- The patch of what a stored entry has. -/
def storedPatch (stored e : TriageEntry) : TriageEntry :=
  { e with
    color := (nonempty stored.color).or e.color
    triage := (bucketOf stored).or e.triage
    comment := (nonempty stored.comment).or e.comment
    fix := (nonempty stored.fix).or e.fix
    flagged := stored.flagged.or e.flagged }

def adoptFields (stored : TriageEntry) (cur : Option TriageEntry) : Option TriageEntry :=
  if ConflictProperty.all.any (·.present stored) then patchEntry cur (storedPatch stored) else cur

def adoptReports (stored : TriageEntry) (cur : Option TriageEntry) : Option TriageEntry :=
  if allowsReportIgnores stored then
    stored.ignoredReports.foldl
      (fun cur r => setReportIgnored cur r true (r ∈ stored.scopedIgnoredReports)) cur
  else cur

def adoptStored (stored cur : Option TriageEntry) : Option TriageEntry :=
  match stored with
  | none => cur
  | some stored => adoptReports stored (adoptFields stored cur)

/-- What a reload makes of the entry of one finding. -/
def reloadEntry (replace : Bool) (pending stored : Option TriageEntry) (id : String)
    (cur : Option TriageEntry) : Option TriageEntry :=
  adoptStored stored
    (if replace && !isSessionId id then dropReports pending stored (clearFields pending stored cur)
     else cur)

/-- `applyTriageEntries`; `entries` is what was stored, and `pending` what waits to be stored, if
anything.  Each finding is gone through by itself. -/
def applyTriageEntries (replace : Bool) (pending entries : Option TriageStateMap)
    (map : TriageStateMap) : TriageStateMap :=
  have stored := entries.getD ∅
  .ofKeys (map.keys ∪ stored.keys) fun id =>
    reloadEntry replace (pending.bind (· id)) (stored id) id (map id)

/-- The entry that a stored one stands for: normalized, with no ignores beside a bucket that
excludes them. -/
def storedEntry (stored : Option TriageEntry) : Option TriageEntry :=
  normalizeEntry (stored.map fun e =>
    if allowsReportIgnores e then e
    else { e with ignoredReports := [], scopedIgnoredReports := [] })

/-! ### What an entry says -/

/-- A report that an entry ignores, marked as of its own. -/
def Scopes (e : TriageEntry) (report : String) : Prop :=
  Ignores e report ∧ report ∈ e.scopedIgnoredReports

variable {cur : Option TriageEntry} {f : TriageEntry → TriageEntry} {report r : String}

theorem marks_cleanEntry (e : TriageEntry) : Scopes (cleanEntry e) report ↔ Scopes e report := by
  have hmem : report ∈ (cleanEntry e).scopedIgnoredReports ↔
      report ∈ e.scopedIgnoredReports ∧ report ∈ e.ignoredReports ∧ report ≠ "" := by
    rw [cleanEntry, mem_eraseDups, mem_filter, decide_eq_true_eq, mem_filter, decide_eq_true_eq]
  rw [Scopes, Scopes, ignores_cleanEntry, hmem, Ignores]
  tauto

theorem Kept.ignores_iff (h : Kept cur) :
    Ignores (orEmpty cur) report ↔ report ∈ (orEmpty cur).ignoredReports := by
  cases cur with
  | none => simp [Ignores, orEmpty, empty]
  | some e => exact ⟨fun h' => h'.2, fun h' => ⟨h.normal.mem_ignoredReports h', h'⟩⟩

theorem Kept.marks_iff (h : Kept cur) :
    Scopes (orEmpty cur) report ↔ report ∈ (orEmpty cur).scopedIgnoredReports := by
  refine ⟨fun h' => h'.2, fun h' => ⟨?_, h'⟩⟩
  cases cur with
  | none => cases h'
  | some e => exact h.ignores_iff.2 (h.normal.mem_scoped h')

/-- A patch of entries that are kept means what it makes of them, where it leaves the reports or
lists none twice. -/
theorem sameMeaning_patchEntry
    (hf : (f (orEmpty cur)).ignoredReports = (orEmpty cur).ignoredReports ∨
      (f (orEmpty cur)).ignoredReports.Nodup) (hcur : Kept cur) :
    SameMeaning (orEmpty (patchEntry cur f)) (cleanEntry (f (orEmpty cur))) := by
  rcases orEmpty_patchEntry cur f with hclean | ⟨hsame, hequal⟩
  · rw [hclean]
    exact .refl _
  · rw [hsame]
    refine (sameMeaning_iff hequal).2 ?_
    rintro ⟨-, hrepeats | hrepeats⟩
    · rcases hf with hf | hf
      · -- the reports are those of the entry that was there
        have hreports : (cleanEntry (f (orEmpty cur))).ignoredReports =
            (orEmpty cur).ignoredReports := by
          rw [cleanEntry, hf]
          cases cur with
          | none => rfl
          | some e => exact hcur.normal.ignoredReports
        rw [hreports] at hrepeats
        exact hrepeats.2.2 fun _ h => h
      · exact hrepeats.not_nodup (nodup_cleanEntry hf)
    · exact hrepeats.not_nodup (nodup_eraseDups _)

variable (report) in
theorem marks_patchEntry (hcur : Kept cur)
    (hf : (f (orEmpty cur)).ignoredReports = (orEmpty cur).ignoredReports ∨
      (f (orEmpty cur)).ignoredReports.Nodup) :
    (Ignores (orEmpty (patchEntry cur f)) report ↔ Ignores (f (orEmpty cur)) report) ∧
      (Scopes (orEmpty (patchEntry cur f)) report ↔ Scopes (f (orEmpty cur)) report) := by
  have h := sameMeaning_patchEntry hf hcur
  have hignores : Ignores (orEmpty (patchEntry cur f)) report ↔
      Ignores (f (orEmpty cur)) report := by
    rw [← ignores_cleanEntry (f (orEmpty cur)), Ignores, Ignores, h.ignoredReports]
  refine ⟨hignores, ?_⟩
  rw [← marks_cleanEntry (f (orEmpty cur)), Scopes, Scopes, h.scopedIgnoredReports, Ignores,
    Ignores, h.ignoredReports]

/-- The patch of `setReportIgnored`. -/
def reportPatch (r : String) (ignored marked : Bool) (e : TriageEntry) : TriageEntry :=
  { e with
    ignoredReports := if ignored then addLast e.ignoredReports.eraseDups r
      else e.ignoredReports.eraseDups.filter (· ≠ r)
    scopedIgnoredReports := if ignored && marked then addLast e.scopedIgnoredReports.eraseDups r
      else e.scopedIgnoredReports.eraseDups }

theorem setReportIgnored_eq (ignored marked : Bool) :
    setReportIgnored cur r ignored marked = patchEntry cur (reportPatch r ignored marked) := rfl

theorem marks_setReportIgnored_drop (hcur : Kept cur) :
    (Ignores (orEmpty (setReportIgnored cur r false false)) report ↔
        Ignores (orEmpty cur) report ∧ report ≠ r) ∧
      (Scopes (orEmpty (setReportIgnored cur r false false)) report ↔
        Scopes (orEmpty cur) report ∧ report ≠ r) := by
  have hnodup : ((orEmpty cur).ignoredReports.eraseDups.filter (· ≠ r)).Nodup :=
    (nodup_eraseDups _).filter _
  obtain ⟨hignores, hmarks⟩ := marks_patchEntry report hcur
    (f := reportPatch r false false) (.inr hnodup)
  rw [setReportIgnored_eq, hignores, hmarks]
  simp only [reportPatch, Scopes, Ignores, Bool.false_eq_true, if_false, Bool.and_self,
    mem_filter, mem_eraseDups, decide_eq_true_eq]
  tauto

theorem marks_setReportIgnored_add (hcur : Kept cur) (marked : Bool) :
    Scopes (orEmpty (setReportIgnored cur r true marked)) report ↔
      Scopes (orEmpty cur) report ∨ (report ≠ "" ∧ report = r ∧ marked = true) := by
  have hnodup : (addLast (orEmpty cur).ignoredReports.eraseDups r).Nodup :=
    nodup_addLast (nodup_eraseDups _) r
  obtain ⟨-, hmarks⟩ := marks_patchEntry report hcur
    (f := reportPatch r true marked) (.inr hnodup)
  have hscoped : report ∈ (orEmpty cur).scopedIgnoredReports → Ignores (orEmpty cur) report :=
    fun h => (hcur.marks_iff.2 h).1
  rw [setReportIgnored_eq, hmarks]
  simp only [reportPatch, Scopes, Ignores, Bool.true_and, if_true] at hscoped ⊢
  cases marked with
  | false =>
    simp only [Bool.false_eq_true, if_false, and_false, or_false, mem_addLast, mem_eraseDups]
    tauto
  | true =>
    simp only [if_true, and_true, mem_addLast, mem_eraseDups]
    tauto

theorem kept_setReportIgnored (hcur : Kept cur) (ignored marked : Bool) :
    Kept (setReportIgnored cur r ignored marked) := kept_patchEntry hcur

/-! ### Clearing and dropping -/

theorem norm_clear (p q : ConflictProperty) {e : TriageEntry} (he : e.legacyDeleted = false) :
    q.norm (p.clear e) = if q = p then "" else q.norm e := by
  cases p <;> cases q <;> simp [clear, ConflictProperty.norm, bucketOf, he]

theorem Kept.legacyDeleted (h : Kept cur) : (orEmpty cur).legacyDeleted = false := by
  cases cur with
  | none => rfl
  | some e => exact h.normal.legacyDeleted

theorem clear_reports (p : ConflictProperty) (e : TriageEntry) :
    (p.clear e).ignoredReports = e.ignoredReports ∧
      (p.clear e).scopedIgnoredReports = e.scopedIgnoredReports := by
  cases p <;> exact ⟨rfl, rfl⟩

/-- What an entry says: its values, its reports and their marks. -/
structure SaysSame (a b : TriageEntry) : Prop where
  norm : ∀ p : ConflictProperty, p.norm a = p.norm b
  ignores : ∀ report, Ignores a report ↔ Ignores b report
  marks : ∀ report, Scopes a report ↔ Scopes b report

variable {stored : Option TriageEntry}

theorem kept_clearField (hcur : Kept cur) (p : ConflictProperty) :
    Kept (clearField none stored cur p) := by
  rw [clearField]
  split
  · exact kept_patchEntry hcur
  · exact hcur

variable (stored)

theorem says_clearField (hcur : Kept cur) (p : ConflictProperty) :
    (∀ q : ConflictProperty, q.norm (orEmpty (clearField none stored cur p)) =
        if q = p ∧ q.norm (orEmpty stored) = "" then "" else q.norm (orEmpty cur)) ∧
      ∀ report, (Ignores (orEmpty (clearField none stored cur p)) report ↔
          Ignores (orEmpty cur) report) ∧
        (Scopes (orEmpty (clearField none stored cur p)) report ↔ Scopes (orEmpty cur) report) := by
  have hnone : present p (orEmpty none) = false := by cases p <;> rfl
  rw [clearField, hnone]
  by_cases hp : p.norm (orEmpty stored) = ""
  · have hpresent : present p (orEmpty stored) = false := by
      simp [present, hp]
    rw [hpresent, if_pos (by simp)]
    refine ⟨fun q => ?_, fun report => ?_⟩
    · rw [norm_patchEntry, norm_clear p q hcur.legacyDeleted]
      by_cases hq : q = p
      · subst hq
        rw [if_pos rfl, if_pos ⟨rfl, hp⟩]
      · rw [if_neg hq, if_neg fun h => hq h.1]
    · obtain ⟨hi, hs⟩ := clear_reports p (orEmpty cur)
      have h := marks_patchEntry report hcur (.inl hi)
      rw [h.1, h.2]
      simp only [Scopes, Ignores, hi, hs, and_self]
  · have hpresent : present p (orEmpty stored) = true := by
      simp [present, hp]
    rw [hpresent, if_neg (by simp)]
    refine ⟨fun q => ?_, fun report => ⟨Iff.rfl, Iff.rfl⟩⟩
    rw [if_neg]
    rintro ⟨rfl, h⟩
    exact hp h

theorem says_foldl_clearField (hcur : Kept cur) (ps : List ConflictProperty) :
    Kept (ps.foldl (clearField none stored) cur) ∧
      (∀ q : ConflictProperty, q.norm (orEmpty (ps.foldl (clearField none stored) cur)) =
        if q ∈ ps ∧ q.norm (orEmpty stored) = "" then "" else q.norm (orEmpty cur)) ∧
      ∀ report, (Ignores (orEmpty (ps.foldl (clearField none stored) cur)) report ↔
          Ignores (orEmpty cur) report) ∧
        (Scopes (orEmpty (ps.foldl (clearField none stored) cur)) report ↔
          Scopes (orEmpty cur) report) := by
  induction ps generalizing cur with
  | nil => exact ⟨hcur, by simp, fun _ => ⟨Iff.rfl, Iff.rfl⟩⟩
  | cons p ps ih =>
    obtain ⟨hnorm, hmarks⟩ := says_clearField stored hcur p
    obtain ⟨hkept, hnorms, hmarkss⟩ := ih (kept_clearField hcur p)
    refine ⟨hkept, fun q => ?_, fun report => ?_⟩
    · rw [foldl_cons, hnorms, hnorm]
      by_cases hq : q = p
      · subst hq
        by_cases he : q.norm (orEmpty stored) = "" <;> simp [he]
      · simp [hq]
    · rw [foldl_cons, (hmarkss report).1, (hmarkss report).2]
      exact hmarks report

theorem says_clearFields (hcur : Kept cur) :
    Kept (clearFields none stored cur) ∧
      (∀ p : ConflictProperty, p.norm (orEmpty (clearFields none stored cur)) =
        if p.norm (orEmpty stored) = "" then "" else p.norm (orEmpty cur)) ∧
      ∀ report, (Ignores (orEmpty (clearFields none stored cur)) report ↔
          Ignores (orEmpty cur) report) ∧
        (Scopes (orEmpty (clearFields none stored cur)) report ↔ Scopes (orEmpty cur) report) := by
  obtain ⟨hkept, hnorm, hmarks⟩ := says_foldl_clearField stored hcur all
  refine ⟨hkept, fun p => (hnorm p).trans ?_, hmarks⟩
  simp only [mem_all, true_and]

/-- A report that the stored entry does not have. -/
def Drops (stored : Option TriageEntry) (report : String) : Prop :=
  ¬(allowsReportIgnores (orEmpty stored) = true ∧ report ∈ (orEmpty stored).ignoredReports)

theorem says_dropReport (hcur : Kept cur) (r : String) :
    Kept (dropReport none stored cur r) ∧
      (∀ p : ConflictProperty,
        p.norm (orEmpty (dropReport none stored cur r)) = p.norm (orEmpty cur)) ∧
      ∀ report, (Ignores (orEmpty (dropReport none stored cur r)) report ↔
          Ignores (orEmpty cur) report ∧ ¬(report = r ∧ Drops stored r)) ∧
        (Scopes (orEmpty (dropReport none stored cur r)) report ↔
          Scopes (orEmpty cur) report ∧ ¬(report = r ∧ Drops stored r)) := by
  have hdrop : dropReport none stored cur r =
      if allowsReportIgnores (orEmpty stored) = true ∧ r ∈ (orEmpty stored).ignoredReports then cur
      else setReportIgnored cur r false false := by
    have hnone : r ∉ (orEmpty none).ignoredReports := not_mem_nil
    rw [dropReport, if_neg hnone]
    by_cases ha : allowsReportIgnores (orEmpty stored) = true <;>
      by_cases hr : r ∈ (orEmpty stored).ignoredReports <;> simp [ha, hr]
  rw [hdrop]
  split
  · rename_i h
    have hnot : ∀ report, ¬(report = r ∧ Drops stored r) := fun _ hd => hd.2 h
    refine ⟨hcur, fun _ => rfl, fun report => ?_⟩
    simp only [hnot, not_false_eq_true, and_true, and_self]
  · rename_i h
    refine ⟨kept_setReportIgnored hcur _ _, fun p => norm_setReportIgnored p _ _, fun report => ?_⟩
    obtain ⟨hignores, hmarks⟩ := @marks_setReportIgnored_drop cur report r hcur
    rw [hignores, hmarks]
    have hd : Drops stored r := h
    tauto

theorem says_foldl_dropReport (hcur : Kept cur) (rs : List String) :
    Kept (rs.foldl (dropReport none stored) cur) ∧
      (∀ p : ConflictProperty,
        p.norm (orEmpty (rs.foldl (dropReport none stored) cur)) = p.norm (orEmpty cur)) ∧
      ∀ report, (Ignores (orEmpty (rs.foldl (dropReport none stored) cur)) report ↔
          Ignores (orEmpty cur) report ∧ ¬(report ∈ rs ∧ Drops stored report)) ∧
        (Scopes (orEmpty (rs.foldl (dropReport none stored) cur)) report ↔
          Scopes (orEmpty cur) report ∧ ¬(report ∈ rs ∧ Drops stored report)) := by
  induction rs generalizing cur with
  | nil => simp [hcur]
  | cons r rs ih =>
    obtain ⟨hkept, hnorm, hmarks⟩ := says_dropReport stored hcur r
    obtain ⟨hkept', hnorm', hmarks'⟩ := ih hkept
    refine ⟨hkept', fun p => (hnorm' p).trans (hnorm p), fun report => ?_⟩
    rw [foldl_cons, (hmarks' report).1, (hmarks' report).2, (hmarks report).1,
      (hmarks report).2, mem_cons]
    by_cases heq : report = r
    · subst heq
      tauto
    · tauto

/-- What clearing and dropping leave: the values that the stored entry has as well, and the reports
that it has, with their marks. -/
theorem says_cleared (hcur : Kept cur) :
    Kept (dropReports none stored (clearFields none stored cur)) ∧
      (∀ p : ConflictProperty,
        p.norm (orEmpty (dropReports none stored (clearFields none stored cur))) =
          if p.norm (orEmpty stored) = "" then "" else p.norm (orEmpty cur)) ∧
      ∀ report, (Ignores (orEmpty (dropReports none stored (clearFields none stored cur))) report ↔
          Ignores (orEmpty cur) report ∧ ¬Drops stored report) ∧
        (Scopes (orEmpty (dropReports none stored (clearFields none stored cur))) report ↔
          Scopes (orEmpty cur) report ∧ ¬Drops stored report) := by
  obtain ⟨hkept, hnorm, hmarks⟩ := says_clearFields stored hcur
  obtain ⟨hkept', hnorm', hmarks'⟩ := says_foldl_dropReport stored hkept
    (orEmpty (clearFields none stored cur)).ignoredReports
  refine ⟨hkept', fun p => (hnorm' p).trans (hnorm p), fun report => ?_⟩
  -- the reports gone through are those that the entry ignores
  have hmem := hkept.ignores_iff.symm.trans (hmarks report).1
  have himp : Scopes (orEmpty cur) report → Ignores (orEmpty cur) report := fun h => h.1
  rw [dropReports, (hmarks' report).1, (hmarks' report).2, hmem, (hmarks report).1,
    (hmarks report).2]
  tauto

/-! ### Adopting -/

theorem norm_storedPatch {v e : TriageEntry} (p : ConflictProperty) :
    p.norm (storedPatch v e) = if p.norm v = "" then p.norm e else p.norm v := by
  have hstring : ∀ s u : Option String, ((nonempty s).or u).getD "" =
      if s.getD "" = "" then u.getD "" else s.getD "" := by
    intro s u
    cases s with
    | none => rfl
    | some s =>
      by_cases hs : s = ""
      · subst hs
        rfl
      · have hkeep : nonempty (some s) = some s :=
          filter_eq_some_iff.2 ⟨rfl, by simpa using hs⟩
        rw [hkeep, some_or, getD_some, if_neg hs]
  cases p with
  | color => exact hstring _ _
  | comment => exact hstring _ _
  | fix => exact hstring _ _
  | triage =>
    have hbucket : bucketOf (storedPatch v e) = (bucketOf v).or (bucketOf e) := by
      rw [bucketOf, storedPatch, Option.or_assoc]
      rfl
    have hempty : ConflictProperty.triage.norm v = "" ↔ bucketOf v = none :=
      norm_triage_inj (l := .empty)
    rw [ConflictProperty.norm, hbucket]
    by_cases hv : bucketOf v = none
    · rw [if_pos (hempty.2 hv), hv, none_or]
      rfl
    · rw [if_neg fun h => hv (hempty.1 h)]
      obtain ⟨b, hb⟩ := ne_none_iff_exists'.1 hv
      rw [hb, some_or, ConflictProperty.norm, hb]
  | flagged =>
    rw [ConflictProperty.norm, ConflictProperty.norm, ConflictProperty.norm, storedPatch]
    rcases hv : v.flagged with _ | b
    · rfl
    · cases b <;> rfl

section

variable (hcur : Kept cur)
include hcur

theorem says_adoptFields (v : TriageEntry) :
    Kept (adoptFields v cur) ∧
      (∀ p : ConflictProperty, p.norm (orEmpty (adoptFields v cur)) =
        if p.norm v = "" then p.norm (orEmpty cur) else p.norm v) ∧
      ∀ report, (Ignores (orEmpty (adoptFields v cur)) report ↔ Ignores (orEmpty cur) report) ∧
        (Scopes (orEmpty (adoptFields v cur)) report ↔ Scopes (orEmpty cur) report) := by
  rw [adoptFields]
  split
  · refine ⟨kept_patchEntry hcur, fun p => ?_, fun report => ?_⟩
    · rw [norm_patchEntry, norm_storedPatch]
    · exact marks_patchEntry (f := storedPatch v) _ hcur (.inl rfl)
  · rename_i hnone
    refine ⟨hcur, fun p => ?_, fun report => ⟨Iff.rfl, Iff.rfl⟩⟩
    rw [if_pos]
    by_contra hp
    exact hnone (List.any_eq_true.2 ⟨p, mem_all p, by simpa [present] using hp⟩)

/-- The loop over the reports of a stored entry. -/
theorem says_foldl_add (marks rs : List String) :
    Kept (rs.foldl (fun cur r => setReportIgnored cur r true (r ∈ marks)) cur) ∧
      (∀ p : ConflictProperty, p.norm (orEmpty (rs.foldl
          (fun cur r => setReportIgnored cur r true (r ∈ marks)) cur)) = p.norm (orEmpty cur)) ∧
      ∀ report, Scopes (orEmpty (rs.foldl
          (fun cur r => setReportIgnored cur r true (r ∈ marks)) cur)) report ↔
        Scopes (orEmpty cur) report ∨ (report ≠ "" ∧ report ∈ rs ∧ report ∈ marks) := by
  induction rs generalizing cur with
  | nil => exact ⟨hcur, fun _ => rfl, by simp⟩
  | cons r rs ih =>
    obtain ⟨hkept, hnorm, hmarks⟩ := ih (kept_setReportIgnored (r := r) hcur true (r ∈ marks))
    refine ⟨hkept, fun p => (hnorm p).trans (norm_setReportIgnored p _ _), fun report => ?_⟩
    rw [foldl_cons, hmarks, marks_setReportIgnored_add hcur, mem_cons, decide_eq_true_eq]
    by_cases heq : report = r
    · subst heq
      tauto
    · tauto

theorem says_adoptReports (v : TriageEntry) :
    Kept (adoptReports v cur) ∧
      (∀ p : ConflictProperty, p.norm (orEmpty (adoptReports v cur)) = p.norm (orEmpty cur)) ∧
      ∀ report, (Ignores (orEmpty (adoptReports v cur)) report ↔ Ignores (orEmpty cur) report ∨
          (allowsReportIgnores v = true ∧ Ignores v report)) ∧
        (Scopes (orEmpty (adoptReports v cur)) report ↔ Scopes (orEmpty cur) report ∨
          (allowsReportIgnores v = true ∧ Scopes v report)) := by
  rw [adoptReports]
  split
  · rename_i ha
    obtain ⟨hkept, hnorm, hmarks⟩ := says_foldl_add hcur v.scopedIgnoredReports v.ignoredReports
    refine ⟨hkept, hnorm, fun report => ⟨?_, ?_⟩⟩
    · rw [ignores_foldl, Ignores, Ignores, and_iff_right ha]
    · rw [hmarks, and_iff_right ha, Scopes, Scopes, Ignores, Ignores]
      tauto
  · rename_i ha
    exact ⟨hcur, fun _ => rfl, fun report => by simp [ha]⟩

/-- What adopting a stored entry leaves: its values where it has one, and its reports besides those
that are there. -/
theorem says_adoptStored (v : TriageEntry) :
    Kept (adoptStored (some v) cur) ∧
      (∀ p : ConflictProperty, p.norm (orEmpty (adoptStored (some v) cur)) =
        if p.norm v = "" then p.norm (orEmpty cur) else p.norm v) ∧
      ∀ report, (Ignores (orEmpty (adoptStored (some v) cur)) report ↔
          Ignores (orEmpty cur) report ∨ (allowsReportIgnores v = true ∧ Ignores v report)) ∧
        (Scopes (orEmpty (adoptStored (some v) cur)) report ↔
          Scopes (orEmpty cur) report ∨ (allowsReportIgnores v = true ∧ Scopes v report)) := by
  obtain ⟨hkept, hnorm, hmarks⟩ := says_adoptFields hcur v
  obtain ⟨hkept', hnorm', hmarks'⟩ := says_adoptReports hkept v
  refine ⟨hkept', fun p => (hnorm' p).trans (hnorm p), fun report => ?_⟩
  obtain ⟨hi, hm⟩ := hmarks report
  rw [← hi, ← hm]
  exact hmarks' report

end

/-! ### The reload of a finding -/

variable {id : String}

/-- **What the entry of a finding says after a reload**: the values of the stored entry and the
reports it lists, each marked where either of the two marks it. -/
theorem says_reloadEntry (hid : isSessionId id = false) (hcur : Kept cur) :
    Kept (reloadEntry true none stored id cur) ∧
      (∀ p : ConflictProperty,
        p.norm (orEmpty (reloadEntry true none stored id cur)) = p.norm (orEmpty stored)) ∧
      ∀ report, (Ignores (orEmpty (reloadEntry true none stored id cur)) report ↔
          allowsReportIgnores (orEmpty stored) = true ∧ Ignores (orEmpty stored) report) ∧
        (Scopes (orEmpty (reloadEntry true none stored id cur)) report ↔
          allowsReportIgnores (orEmpty stored) = true ∧ Ignores (orEmpty stored) report ∧
            (Scopes (orEmpty cur) report ∨ report ∈ (orEmpty stored).scopedIgnoredReports)) := by
  obtain ⟨hkept, hnorm, hmarks⟩ := says_cleared stored hcur
  have hentry : reloadEntry true none stored id cur =
      adoptStored stored (dropReports none stored (clearFields none stored cur)) := by
    rw [reloadEntry, hid]
    rfl
  have hdrops : ∀ report, ¬Drops stored report ↔
      allowsReportIgnores (orEmpty stored) = true ∧ report ∈ (orEmpty stored).ignoredReports :=
    fun report => not_not
  rw [hentry]
  cases stored with
  | none =>
    refine ⟨hkept, fun p => ?_, fun report => ?_⟩
    · refine (hnorm p).trans (if_pos ?_ |>.trans ?_)
      · cases p <;> rfl
      · cases p <;> rfl
    · have hnot : report ∉ (orEmpty none).ignoredReports := not_mem_nil
      obtain ⟨hi, hm⟩ := hmarks report
      rw [hdrops] at hi hm
      refine ⟨hi.trans ?_, hm.trans ?_⟩
      · rw [Ignores, Ignores]
        tauto
      · rw [Ignores]
        tauto
  | some v =>
    obtain ⟨hkept', hnorm', hmarks'⟩ := says_adoptStored hkept v
    have hv : orEmpty (some v) = v := rfl
    rw [hv] at hnorm ⊢
    refine ⟨hkept', fun p => ?_, fun report => ?_⟩
    · rw [hnorm' p, hnorm p]
      split
      · rename_i hempty
        exact hempty.symm
      · rfl
    · obtain ⟨hi, hm⟩ := hmarks report
      rw [hdrops] at hi hm
      have hempty : Ignores (orEmpty cur) report → report ≠ "" := fun h => h.1
      have himp : Scopes (orEmpty cur) report → Ignores (orEmpty cur) report := fun h => h.1
      rw [hv] at hi hm
      obtain ⟨hi', hm'⟩ := hmarks' report
      rw [hi', hm', hi, hm]
      constructor
      · constructor
        · rintro (⟨hc, ha, hr⟩ | h)
          · exact ⟨ha, hempty hc, hr⟩
          · exact h
        · exact .inr
      · constructor
        · rintro (⟨hc, ha, hr⟩ | ⟨ha, hr⟩)
          · exact ⟨ha, ⟨hempty (himp hc), hr⟩, .inl hc⟩
          · exact ⟨ha, hr.1, .inr hr.2⟩
        · rintro ⟨ha, hr, hc | hs⟩
          · exact .inl ⟨hc, ha, hr.2⟩
          · exact .inr ⟨ha, hr, hs⟩

theorem says_storedEntry : Kept (storedEntry stored) ∧
      (∀ p : ConflictProperty, p.norm (orEmpty (storedEntry stored)) = p.norm (orEmpty stored)) ∧
      ∀ report, (Ignores (orEmpty (storedEntry stored)) report ↔
          allowsReportIgnores (orEmpty stored) = true ∧ Ignores (orEmpty stored) report) ∧
        (Scopes (orEmpty (storedEntry stored)) report ↔
          allowsReportIgnores (orEmpty stored) = true ∧ Scopes (orEmpty stored) report) := by
  cases stored with
  | none =>
    have hnone : ∀ report, ¬Ignores (orEmpty none) report := fun report h => absurd h.2 not_mem_nil
    refine ⟨rfl, fun _ => rfl, fun report => ⟨?_, ?_⟩⟩
    · exact iff_of_false (hnone report) fun h => hnone report h.2
    · exact iff_of_false (fun h => hnone report h.1) fun h => hnone report h.2.1
  | some v =>
    have hkept : Kept (storedEntry (some v)) := by
      rcases h : storedEntry (some v) with _ | e
      · rfl
      · exact kept_normalizeEntry h
    refine ⟨hkept, ?_⟩
    have hv : orEmpty (some v) = v := rfl
    rw [storedEntry, map_some, orEmpty_normalizeEntry, hv]
    by_cases ha : allowsReportIgnores v = true
    · have hself : orEmpty (some (if allowsReportIgnores v = true then v else
          { v with ignoredReports := [], scopedIgnoredReports := [] })) = v := by
        rw [if_pos ha]
        rfl
      rw [hself]
      refine ⟨norm_cleanEntry v, fun report => ?_⟩
      rw [ignores_cleanEntry, marks_cleanEntry, and_iff_right ha, and_iff_right ha]
      exact ⟨Iff.rfl, Iff.rfl⟩
    · have hself : orEmpty (some (if allowsReportIgnores v = true then v else
          { v with ignoredReports := [], scopedIgnoredReports := [] })) =
          { v with ignoredReports := [], scopedIgnoredReports := [] } := by
        rw [if_neg ha]
        rfl
      rw [hself]
      refine ⟨fun p => ?_, fun report => ?_⟩
      · rw [norm_cleanEntry]
        cases p <;> rfl
      · rw [ignores_cleanEntry, marks_cleanEntry]
        constructor
        · exact iff_of_false (fun h => absurd h.2 not_mem_nil) fun h => ha h.1
        · exact iff_of_false (fun h => absurd h.2 not_mem_nil) fun h => ha h.1

theorem eq_none_of_getD {s : Option String} (hs : nonempty s = s) (h : s.getD "" = "") : s = none :=
  eq_of_getD_eq (hs ▸ nonempty_ne_empty _) (by simp) h

/-- An entry that is kept says something. -/
theorem Kept.eq_none_iff (h : Kept cur) : cur = none ↔
    (∀ p : ConflictProperty, p.norm (orEmpty cur) = "") ∧
      ∀ report, ¬Ignores (orEmpty cur) report := by
  constructor
  · rintro rfl
    exact ⟨fun p => by cases p <;> rfl, fun report h => absurd h.2 not_mem_nil⟩
  · rintro ⟨hnorm, hignores⟩
    cases cur with
    | none => rfl
    | some e =>
      exfalso
      have hreports : e.ignoredReports = [] := by
        rw [eq_nil_iff_forall_not_mem]
        exact fun report hr => hignores report (h.ignores_iff.2 hr)
      have hscoped : e.scopedIgnoredReports = [] := by
        rw [eq_nil_iff_forall_not_mem]
        intro report hr
        have hmem := h.normal.mem_scoped hr
        rw [hreports] at hmem
        cases hmem
      have hbucket : e.triage = none := by
        rw [← h.normal.bucketOf_eq]
        exact norm_triage_inj (l := .empty) |>.1 (hnorm .triage)
      have hempty : e = .empty := by
        obtain ⟨color, triage, comment, fix, flagged, reports, marks, legacy⟩ := e
        rw [empty, mk.injEq]
        exact ⟨eq_none_of_getD h.normal.color (hnorm .color), hbucket,
          eq_none_of_getD h.normal.comment (hnorm .comment),
          eq_none_of_getD h.normal.fix (hnorm .fix),
          flagged_inj (b := .empty) (hnorm .flagged), hreports, hscoped, h.normal.legacyDeleted⟩
      rw [hempty] at h
      exact absurd h (by decide)

end Triage.Client
