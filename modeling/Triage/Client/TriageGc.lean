import Triage.Client.TriageReload

/-!
# Pruning orphaned triage

What the garbage collection of the triage does to the entries, once it has gone through the reports:
findings that no report has lose their fields, and the ignores of reports that are gone are dropped.
Only what was there when the collection began is looked at.

## Main results

* `norm_pruneEntry`, `ignores_pruneEntry` : what stays of an entry.
* `clean_pruneEntry`, `pruneEntry_of_clean` : nothing that can be pruned is left.
-/

namespace Triage.Client.TriageGc

open List ConflictProperty

/-! ### The passes -/

/-- What a collection looks at: the findings and the ignored reports that the triage has of each. -/
structure Snapshot where
  /-- `snapIds` -/
  ids : Finset String
  /-- `snapIgnored`, by the finding -/
  ignored : String → List String

def snapshot (map : TriageStateMap) : Snapshot where
  ids := map.keys
  ignored id := (orEmpty (map id)).ignoredReports

/-- The fields an orphan is pruned for. -/
def hasFields (e : TriageEntry) : Bool :=
  nonempty e.color ≠ none || bucketOf e ≠ none || nonempty e.comment ≠ none ||
    nonempty e.fix ≠ none || e.flagged ≠ none

/-- The patch that clears them. -/
def clearAll (e : TriageEntry) : TriageEntry :=
  { e with
    color := none
    triage := none
    comment := none
    fix := none
    flagged := none
    legacyDeleted := false }

/-- What `patchEntry` returns: the map has changed. -/
def patchChanges (cur : Option TriageEntry) (patch : TriageEntry → TriageEntry) : Bool :=
  match normalizeEntry (some (patch (orEmpty cur))) with
  | none => cur.isSome
  | some merged => !entriesEqual (orEmpty cur) merged

section Passes

variable (snap : Snapshot) (names : List String) (reachable : Finset String) (id : String)

/-- The first pass over the entry of a finding: the entry, and `changed`. -/
def pruneFields (cur : Option TriageEntry) : Option TriageEntry × Bool :=
  if id ∉ snap.ids ∨ isSessionId id ∨ id ∈ reachable ∨ !hasFields (orEmpty cur) then (cur, false)
  else (patchEntry cur clearAll, patchChanges cur clearAll)

/-- The second pass, at an ignored report. -/
def pruneIgnore (cur : Option TriageEntry × Bool) (report : String) : Option TriageEntry × Bool :=
  if isSessionId id ∨ (id ∈ reachable ∧ report ∈ names) ∨
      report ∉ (orEmpty cur.1).ignoredReports then cur
  else (setReportIgnored cur.1 report false false,
    cur.2 || patchChanges cur.1 (reportPatch report false false))

/-- Both passes; each finding is gone through by itself. -/
def pruneEntry (cur : Option TriageEntry) : Option TriageEntry × Bool :=
  (snap.ignored id).foldl (pruneIgnore names reachable id) (pruneFields snap reachable id cur)

end Passes

/-- The triage that `pruneOrphanTriage` leaves. -/
def pruneMap (snap : Snapshot) (names : List String) (reachable : Finset String)
    (map : TriageStateMap) : TriageStateMap :=
  .ofKeys map.keys fun id => (pruneEntry snap names reachable id (map id)).1

/-- `changed` : there is something to save. -/
def pruneChanges (snap : Snapshot) (names : List String) (reachable : Finset String)
    (map : TriageStateMap) : Bool :=
  decide (∃ id ∈ map.keys, (pruneEntry snap names reachable id (map id)).2 = true)

variable {snap : Snapshot} {names : List String} {reachable : Finset String} {id : String}
  {cur : Option TriageEntry} {report r : String}

/-! ### Fields -/

theorem hasFields_iff {e : TriageEntry} :
    hasFields e = true ↔ ∃ p : ConflictProperty, p.present e = true := by
  have hstring : ∀ s : Option String, nonempty s ≠ none ↔ s.getD "" ≠ "" := by
    intro s
    cases s with
    | none => simp [nonempty]
    | some s => simp [nonempty, Option.filter]
  have hbucket : bucketOf e ≠ none ↔ ConflictProperty.triage.norm e ≠ "" := by
    rw [ConflictProperty.norm]
    cases bucketOf e with
    | none => simp
    | some b => cases b <;> simp [TriageBucket.toString]
  have hflagged : e.flagged ≠ none ↔ ConflictProperty.flagged.norm e ≠ "" := by
    rw [ConflictProperty.norm]
    rcases e.flagged with _ | _ | _ <;> simp
  simp only [hasFields, present, Bool.or_eq_true, decide_eq_true_eq, hstring, hbucket, hflagged]
  constructor
  · rintro ((((h | h) | h) | h) | h)
    · exact ⟨.color, h⟩
    · exact ⟨.triage, h⟩
    · exact ⟨.comment, h⟩
    · exact ⟨.fix, h⟩
    · exact ⟨.flagged, h⟩
  · rintro ⟨p, hp⟩
    cases p with
    | color => exact .inl (.inl (.inl (.inl hp)))
    | triage => exact .inl (.inl (.inl (.inr hp)))
    | comment => exact .inl (.inl (.inr hp))
    | fix => exact .inl (.inr hp)
    | flagged => exact .inr hp

/-- An entry whose properties are those of another one has fields where that one has. -/
theorem hasFields_congr {a b : TriageEntry} (h : ∀ p : ConflictProperty, p.norm a = p.norm b) :
    hasFields a = hasFields b := by
  rw [Bool.eq_iff_iff, hasFields_iff, hasFields_iff]
  simp only [present, h]

theorem norm_clearAll (p : ConflictProperty) (e : TriageEntry) : p.norm (clearAll e) = "" := by
  cases p <;> rfl

theorem hasFields_patch_clearAll : hasFields (orEmpty (patchEntry cur clearAll)) = false := by
  rw [Bool.eq_false_iff, ne_eq, hasFields_iff]
  rintro ⟨p, hp⟩
  rw [present, norm_patchEntry, norm_clearAll] at hp
  exact absurd hp (by decide)

/-! ### Reports -/

/-- The reports after a patch are those of the entry, or those the patch leaves. -/
theorem reports_patchEntry (cur : Option TriageEntry) (f : TriageEntry → TriageEntry) :
    patchEntry cur f = cur ∧ ignoredReportsEqual (orEmpty cur).ignoredReports
        ((f (orEmpty cur)).ignoredReports.filter (· ≠ "")) = true ∨
      (orEmpty (patchEntry cur f)).ignoredReports =
        (f (orEmpty cur)).ignoredReports.filter (· ≠ "") := by
  have hclean := orEmpty_normalizeEntry (some (f (orEmpty cur)))
  rw [patchEntry]
  rcases hmerged : normalizeEntry (some (f (orEmpty cur))) with _ | merged
  · rw [hmerged] at hclean
    exact .inr (congrArg TriageEntry.ignoredReports hclean)
  · rw [hmerged] at hclean
    have hreports : merged.ignoredReports = (f (orEmpty cur)).ignoredReports.filter (· ≠ "") :=
      congrArg TriageEntry.ignoredReports hclean
    dsimp only
    split
    · rename_i hequal
      exact .inl ⟨rfl, hreports ▸ (entriesEqual_iff.1 hequal).ignoredReports⟩
    · exact .inr hreports

/-- A patch that leaves the reports. -/
theorem ignores_patch_clearAll :
    Ignores (orEmpty (patchEntry cur clearAll)) report ↔ Ignores (orEmpty cur) report := by
  rcases reports_patchEntry cur clearAll with ⟨h, -⟩ | h
  · rw [h]
  · rw [Ignores, Ignores, h, mem_filter, decide_eq_true_eq]
    exact ⟨fun h' => ⟨h'.1, h'.2.1⟩, fun h' => ⟨h'.1, h'.2, h'.1⟩⟩

theorem mem_patch_clearAll (h : r ∈ (orEmpty (patchEntry cur clearAll)).ignoredReports) :
    r ∈ (orEmpty cur).ignoredReports := by
  rcases reports_patchEntry cur clearAll with ⟨h', -⟩ | h'
  · exact h' ▸ h
  · rw [h'] at h
    exact (mem_filter.1 h).1

theorem ignores_drop (hr : r ≠ report) (h : Ignores (orEmpty cur) r) :
    Ignores (orEmpty (setReportIgnored cur report false false)) r := by
  have hnodup : (reportPatch report false false (orEmpty cur)).ignoredReports.Nodup :=
    (nodup_eraseDups _).filter _
  rw [setReportIgnored_eq, ignores_patchEntry hnodup]
  refine ⟨h.1, mem_filter.2 ⟨mem_eraseDups.2 h.2, ?_⟩⟩
  rwa [decide_eq_true_eq]

/-- Dropping a report that is there leaves the others at most. -/
theorem mem_drop (hreport : report ∈ (orEmpty cur).ignoredReports)
    (h : r ∈ (orEmpty (setReportIgnored cur report false false)).ignoredReports) :
    r ∈ (orEmpty cur).ignoredReports ∧ r ≠ report := by
  have hdropped : (reportPatch report false false (orEmpty cur)).ignoredReports =
      (orEmpty cur).ignoredReports.eraseDups.filter (· ≠ report) := rfl
  rw [setReportIgnored_eq] at h
  rcases reports_patchEntry cur (reportPatch report false false) with ⟨-, hequal⟩ | h'
  · -- the list is shorter, so the entry cannot have been left as it was
    exfalso
    have hlength := (ignoredReportsEqual_iff.1 hequal).1
    rw [hdropped] at hlength
    have hfilter := length_filter_le (· ≠ "")
      ((orEmpty cur).ignoredReports.eraseDups.filter (· ≠ report))
    have hfewer : ((orEmpty cur).ignoredReports.eraseDups.filter (· ≠ report)).length <
        (orEmpty cur).ignoredReports.eraseDups.length := by
      refine length_filter_lt_length_iff_exists.2 ⟨report, mem_eraseDups.2 hreport, ?_⟩
      simp
    have hdups : (orEmpty cur).ignoredReports.eraseDups.length ≤
        (orEmpty cur).ignoredReports.length :=
      ((nodup_eraseDups _).subperm fun _ hr => mem_eraseDups.1 hr).length_le
    omega
  · rw [h', hdropped] at h
    have hmem := mem_filter.1 (mem_filter.1 h).1
    exact ⟨mem_eraseDups.1 hmem.1, of_decide_eq_true hmem.2⟩

/-! ### The passes over an entry -/

theorem norm_pruneIgnores (p : ConflictProperty) (reports : List String)
    (acc : Option TriageEntry × Bool) :
    p.norm (orEmpty (reports.foldl (pruneIgnore names reachable id) acc).1) =
      p.norm (orEmpty acc.1) := by
  induction reports generalizing acc with
  | nil => rfl
  | cons report reports ih =>
    rw [foldl_cons, ih, pruneIgnore]
    split
    · rfl
    · exact norm_setReportIgnored p false false

/-- The properties of a finding that some report has stay. -/
theorem norm_pruneEntry (hid : id ∈ reachable) (p : ConflictProperty) :
    p.norm (orEmpty (pruneEntry snap names reachable id cur).1) = p.norm (orEmpty cur) := by
  rw [pruneEntry, norm_pruneIgnores, pruneFields, if_pos (.inr (.inr (.inl hid)))]

variable {acc : Option TriageEntry × Bool} {reports : List String}

theorem ignores_pruneIgnores (hr : r ∉ reports ∨ id ∈ reachable ∧ r ∈ names)
    (h : Ignores (orEmpty acc.1) r) :
    Ignores (orEmpty (reports.foldl (pruneIgnore names reachable id) acc).1) r := by
  induction reports generalizing acc with
  | nil => exact h
  | cons report reports ih =>
    rw [foldl_cons]
    refine ih (hr.imp_left fun hmem hmem' => hmem (mem_cons_of_mem _ hmem')) ?_
    rw [pruneIgnore]
    split
    · exact h
    · rename_i hdrop
      refine ignores_drop ?_ h
      rintro rfl
      rcases hr with hr | hr
      · exact hr (mem_cons_self ..)
      · exact hdrop (.inr (.inl hr))

/-- An ignore stays that the collection did not see, and one of a report that is stored, of a
finding that some report has. -/
theorem ignores_pruneEntry (hr : r ∉ snap.ignored id ∨ id ∈ reachable ∧ r ∈ names)
    (h : Ignores (orEmpty cur) r) :
    Ignores (orEmpty (pruneEntry snap names reachable id cur).1) r := by
  refine ignores_pruneIgnores hr ?_
  rw [pruneFields]
  split
  · exact h
  · exact ignores_patch_clearAll.2 h

theorem pruneIgnores_skip
    (h : ∀ report ∈ reports, isSessionId id = true ∨ (id ∈ reachable ∧ report ∈ names) ∨
      report ∉ (orEmpty acc.1).ignoredReports) :
    reports.foldl (pruneIgnore names reachable id) acc = acc := by
  induction reports with
  | nil => rfl
  | cons report reports ih =>
    have hhead : pruneIgnore names reachable id acc report = acc :=
      if_pos (h report (mem_cons_self ..))
    rw [foldl_cons, hhead]
    exact ih fun report' h' => h report' (mem_cons_of_mem _ h')

/-- An entry that the collection did not see is left alone, and so is one of a session. -/
theorem pruneEntry_skip (h : isSessionId id = true ∨ id ∉ snap.ids ∧ snap.ignored id = []) :
    pruneEntry snap names reachable id cur = (cur, false) := by
  rw [pruneEntry]
  rcases h with h | ⟨hid, hreports⟩
  · rw [pruneFields, if_pos (.inr (.inl h))]
    exact pruneIgnores_skip fun _ _ => .inl h
  · rw [pruneFields, if_pos (.inl hid), hreports]
    rfl

/-! ### Nothing left to prune -/

/-- There is nothing to prune in the entry of a finding. -/
structure Clean (names : List String) (reachable : Finset String) (id : String)
    (o : Option TriageEntry) : Prop where
  fields : id ∈ reachable ∨ hasFields (orEmpty o) = false
  reports : ∀ r ∈ (orEmpty o).ignoredReports, id ∈ reachable ∧ r ∈ names

theorem Clean.pruneEntry_eq (h : Clean names reachable id cur) :
    pruneEntry snap names reachable id cur = (cur, false) := by
  have hfields : pruneFields snap reachable id cur = (cur, false) := by
    refine if_pos ?_
    rcases h.fields with h | h
    · exact .inr (.inr (.inl h))
    · refine .inr (.inr (.inr ?_))
      rw [h]
      rfl
  rw [pruneEntry, hfields]
  refine pruneIgnores_skip fun report _ => .inr ?_
  by_cases hmem : report ∈ (orEmpty cur).ignoredReports
  · exact .inl (h.reports report hmem)
  · exact .inr hmem

/-- The reports left by the second pass were there before, and are kept on purpose if it came to
them. -/
theorem mem_pruneIgnores (hsession : isSessionId id = false)
    (h : r ∈ (orEmpty (reports.foldl (pruneIgnore names reachable id) acc).1).ignoredReports) :
    r ∈ (orEmpty acc.1).ignoredReports ∧ (r ∈ reports → id ∈ reachable ∧ r ∈ names) := by
  induction reports generalizing acc with
  | nil => exact ⟨h, fun h' => absurd h' (not_mem_nil)⟩
  | cons report reports ih =>
    rw [foldl_cons] at h
    obtain ⟨hstep, hlater⟩ := ih h
    rw [pruneIgnore] at hstep
    split at hstep
    · rename_i hskip
      refine ⟨hstep, fun hr => ?_⟩
      rcases mem_cons.1 hr with rfl | hr
      · rcases hskip with hskip | hskip | hskip
        · rw [hsession] at hskip
          cases hskip
        · exact hskip
        · exact absurd hstep hskip
      · exact hlater hr
    · rename_i hdrop
      have hthere : report ∈ (orEmpty acc.1).ignoredReports := by
        by_contra hnot
        exact hdrop (.inr (.inr hnot))
      obtain ⟨hmem, hne⟩ := mem_drop hthere hstep
      refine ⟨hmem, fun hr => ?_⟩
      rcases mem_cons.1 hr with rfl | hr
      · exact absurd rfl hne
      · exact hlater hr

/-- A collection that sees what is there leaves nothing to prune. -/
theorem clean_pruneEntry (hsession : isSessionId id = false)
    (hid : id ∈ snap.ids ∨ cur = none) (hreports : snap.ignored id = (orEmpty cur).ignoredReports) :
    Clean names reachable id (pruneEntry snap names reachable id cur).1 where
  fields := by
    rw [pruneEntry, hasFields_congr fun p => norm_pruneIgnores p _ _, pruneFields]
    split
    · rename_i hskip
      rcases hskip with hskip | hskip | hskip | hskip
      · rw [hid.resolve_left hskip]
        exact .inr rfl
      · rw [hsession] at hskip
        cases hskip
      · exact .inl hskip
      · exact .inr (by simpa using hskip)
    · exact .inr hasFields_patch_clearAll
  reports r hr := by
    obtain ⟨hmem, hkept⟩ := mem_pruneIgnores hsession hr
    refine hkept ?_
    rw [hreports]
    rw [pruneFields] at hmem
    split at hmem
    · exact hmem
    · exact mem_patch_clearAll hmem

/-! ### The whole triage -/

theorem pruneEntry_none (snap : Snapshot) (names : List String) (reachable : Finset String)
    (id : String) : pruneEntry snap names reachable id none = (none, false) :=
  Clean.pruneEntry_eq ⟨.inr rfl, fun _ hr => absurd hr not_mem_nil⟩

theorem pruneMap_apply (snap : Snapshot) (names : List String) (reachable : Finset String)
    (map : TriageStateMap) (id : String) :
    pruneMap snap names reachable map id = (pruneEntry snap names reachable id (map id)).1 := by
  rw [pruneMap, FMap.ofKeys_apply]
  split
  · rfl
  · rename_i hid
    rw [FMap.eq_none_iff.2 hid, pruneEntry_none]

end Triage.Client.TriageGc
