import Triage.Client.TriageReload

/-!
# When a reload leaves what was stored

A reload of what another tab stored is to leave every finding with the stored entry. Marks of
ignored reports are only ever added, so that one of this tab's stays with a report that the other
tab ignores without it.

## Main results

* `reloadEntry_reloadEntry` : reloading the same again changes nothing.
* `reload_mirrors_iff` : **when a reload leaves what was stored.**
-/

namespace Triage.Client

open List Option ConflictProperty

variable {cur stored : Option TriageEntry} {f : TriageEntry → TriageEntry} {r id : String}

/-! ### Reloading again -/

theorem Kept.normal_orEmpty (h : Kept cur) : Normal (orEmpty cur) := by
  cases cur with
  | none => rfl
  | some e => exact h.normal

/-- A patch that normalizing undoes changes nothing. -/
theorem patchEntry_clean_self (hcur : Kept cur) (hf : cleanEntry (f (orEmpty cur)) = orEmpty cur) :
    patchEntry cur f = cur := by
  have hnormalize : normalizeEntry (some (f (orEmpty cur))) = cur := by
    rw [normalizeEntry, bind_some, hf]
    cases cur with
    | none => rfl
    | some e =>
      have he : normalizeEntry (some e) = some e := hcur
      rw [normalizeEntry, bind_some, hcur.normal] at he
      exact he
  rw [patchEntry, hnormalize]
  cases cur with
  | none => rfl
  | some e => exact if_pos (entriesEqual_refl e)

theorem clearField_self (hcur : Kept cur) (p : ConflictProperty)
    (hp : p.norm (orEmpty stored) = "" → p.norm (orEmpty cur) = "") :
    clearField none stored cur p = cur := by
  rw [clearField]
  split
  · rename_i h
    have hempty : p.norm (orEmpty cur) = "" := hp (by simpa [ConflictProperty.present] using h.2)
    have hnormal := hcur.normal_orEmpty
    refine patchEntry_self hcur ?_
    generalize orEmpty cur = e at hempty hnormal
    cases p with
    | color => rw [clear, ← eq_none_of_getD hnormal.color hempty]
    | comment => rw [clear, ← eq_none_of_getD hnormal.comment hempty]
    | fix => rw [clear, ← eq_none_of_getD hnormal.fix hempty]
    | flagged =>
      have hnone : e.flagged = none := flagged_inj (b := .empty) hempty
      rw [clear, ← hnone]
    | triage =>
      have hbucket : e.triage = none := by
        rw [← hnormal.bucketOf_eq]
        exact norm_triage_inj (l := .empty) |>.1 hempty
      rw [clear, ← hbucket]
  · rfl

theorem clearFields_self (hcur : Kept cur)
    (h : ∀ p : ConflictProperty, p.norm (orEmpty stored) = "" → p.norm (orEmpty cur) = "") :
    clearFields none stored cur = cur := by
  rw [clearFields]
  generalize ConflictProperty.all = ps
  induction ps with
  | nil => rfl
  | cons p ps ih => rw [foldl_cons, clearField_self hcur p (h p), ih]

theorem dropReports_self (h : ∀ r ∈ (orEmpty cur).ignoredReports, ¬Drops stored r) :
    dropReports none stored cur = cur := by
  rw [dropReports]
  generalize (orEmpty cur).ignoredReports = rs at h
  induction rs with
  | nil => rfl
  | cons r rs ih =>
    obtain ⟨hr, hrs⟩ := forall_mem_cons.1 h
    have hstep : dropReport none stored cur r = cur := by
      have hkeep := not_not.1 hr
      have hnone : r ∉ (orEmpty none).ignoredReports := not_mem_nil
      rw [dropReport, if_neg hnone, hkeep.1]
      simp [hkeep.2]
    rw [foldl_cons, hstep, ih hrs]

/-- What a stored entry says is there already. -/
def AlreadySays (v : TriageEntry) (cur : Option TriageEntry) : Prop :=
  (∀ p : ConflictProperty, p.norm v ≠ "" → p.norm (orEmpty cur) = p.norm v) ∧
    (allowsReportIgnores v = true → ∀ report,
      (Ignores v report → Ignores (orEmpty cur) report) ∧
        (Scopes v report → Scopes (orEmpty cur) report))

variable {v : TriageEntry}

theorem adoptFields_self (hcur : Kept cur)
    (h : ∀ p : ConflictProperty, p.norm v ≠ "" → p.norm (orEmpty cur) = p.norm v) :
    adoptFields v cur = cur := by
  rw [adoptFields]
  split
  · refine patchEntry_self hcur ?_
    have hnormal := hcur.normal_orEmpty
    generalize orEmpty cur = e at h hnormal
    have hstring : ∀ s u : Option String, nonempty u = u →
        (s.getD "" ≠ "" → u.getD "" = s.getD "") → (nonempty s).or u = u := by
      intro s u hu hsu
      by_cases hs : s.getD "" = ""
      · have hnone : nonempty s = none :=
          eq_none_of_getD (nonempty_nonempty s) ((getD_nonempty s).trans hs)
        rw [hnone, none_or]
      · have heq : u = nonempty s := by
          rw [← hu]
          exact (nonempty_eq_iff u s).2 (hsu hs)
        rw [heq, Option.or_self]
    have hbucket : (bucketOf v).or e.triage = e.triage := by
      rw [← hnormal.bucketOf_eq]
      by_cases hv : bucketOf v = none
      · rw [hv, none_or]
      · have heq : bucketOf e = bucketOf v :=
          norm_triage_inj.1 (h .triage fun hempty => hv (norm_triage_inj (l := .empty) |>.1 hempty))
        rw [heq, Option.or_self]
    have hflagged : v.flagged.or e.flagged = e.flagged := by
      by_cases hv : v.flagged = none
      · rw [hv, none_or]
      · have heq : e.flagged = v.flagged := flagged_inj
          (h .flagged fun hempty => hv (flagged_inj (b := .empty) hempty))
        rw [heq, Option.or_self]
    rw [storedPatch, hstring v.color e.color hnormal.color (h .color),
      hstring v.comment e.comment hnormal.comment (h .comment),
      hstring v.fix e.fix hnormal.fix (h .fix), hbucket, hflagged]
  · rfl

/-- A report that is there, with its mark if it is to have one, is set again. -/
theorem setReportIgnored_self (hcur : Kept cur) (hnodup : (orEmpty cur).ignoredReports.Nodup)
    {marked : Bool} (h : r ≠ "" → r ∈ (orEmpty cur).ignoredReports ∧
      (marked = true → r ∈ (orEmpty cur).scopedIgnoredReports)) :
    setReportIgnored cur r true marked = cur := by
  have hscoped := hcur.nodup_scoped
  rw [setReportIgnored_eq]
  refine patchEntry_clean_self hcur ?_
  have hnormal := hcur.normal_orEmpty
  generalize orEmpty cur = e at hnodup h hscoped hnormal
  have hreports : (addLast e.ignoredReports r).filter (· ≠ "") = e.ignoredReports := by
    rw [addLast]
    split
    · exact hnormal.ignoredReports
    · rename_i hr
      have hempty : r = "" := by
        by_contra hne
        exact hr (h hne).1
      rw [filter_append, hnormal.ignoredReports, hempty]
      simp
  have hmarks : ∀ l : List String, (l = e.scopedIgnoredReports ∨
      l = e.scopedIgnoredReports ++ [r] ∧ r ∉ e.ignoredReports) →
      (l.filter (· ∈ e.ignoredReports)).eraseDups = e.scopedIgnoredReports := by
    have hself : (e.scopedIgnoredReports.filter (· ∈ e.ignoredReports)).eraseDups =
        e.scopedIgnoredReports := by
      have hm := congrArg TriageEntry.scopedIgnoredReports hnormal
      simp only [cleanEntry, hnormal.ignoredReports] at hm
      exact hm
    rintro l (rfl | ⟨rfl, hr⟩)
    · exact hself
    · rw [filter_append]
      simp [hr, hself]
  have hlist : (if (true && marked) = true then addLast e.scopedIgnoredReports.eraseDups r
      else e.scopedIgnoredReports.eraseDups) = e.scopedIgnoredReports ∨
      (if (true && marked) = true then addLast e.scopedIgnoredReports.eraseDups r
      else e.scopedIgnoredReports.eraseDups) = e.scopedIgnoredReports ++ [r] ∧
        r ∉ e.ignoredReports := by
    rw [eraseDups_of_nodup hscoped, addLast]
    cases marked with
    | false => exact .inl rfl
    | true =>
      by_cases hmem : r ∈ e.scopedIgnoredReports
      · exact .inl (by simp [hmem])
      · refine .inr ⟨by simp [hmem], ?_⟩
        have hempty : r = "" := by
          by_contra hne
          exact hmem ((h hne).2 rfl)
        rw [hempty]
        exact fun hr => hnormal.mem_ignoredReports hr rfl
  rw [cleanEntry, reportPatch]
  simp only [if_true]
  rw [eraseDups_of_nodup hnodup, hreports, hmarks _ hlist, hnormal.color, hnormal.comment,
    hnormal.fix]
  have hbucket := hnormal.bucketOf_eq
  have hlegacy := hnormal.legacyDeleted
  obtain ⟨color, triage, comment, fix, flagged, reports, marks, legacy⟩ := e
  simp only at hbucket hlegacy
  subst hlegacy
  simp only [bucketOf, Bool.false_eq_true, if_false, or_none]

/-- Setting a report leaves none of them twice. -/
theorem nodup_setReportIgnored (marked : Bool) :
    (orEmpty (setReportIgnored cur r true marked)).ignoredReports.Nodup := by
  have hnodup : (addLast (orEmpty cur).ignoredReports.eraseDups r).Nodup :=
    nodup_addLast (nodup_eraseDups _) r
  have hclean := orEmpty_normalizeEntry (some (reportPatch r true marked (orEmpty cur)))
  rw [setReportIgnored_eq, patchEntry]
  rcases hmerged : normalizeEntry (some (reportPatch r true marked (orEmpty cur))) with _ | merged
  · exact nodup_nil
  · rw [hmerged] at hclean
    have hsome : merged = cleanEntry (reportPatch r true marked (orEmpty cur)) := hclean
    have hmergedNodup : merged.ignoredReports.Nodup := by
      rw [hsome]
      exact nodup_cleanEntry hnodup
    dsimp only
    split
    · -- as many reports, all of them from the new list
      rename_i hequal
      obtain ⟨hlength, hsubset⟩ :=
        ignoredReportsEqual_iff.1 (entriesEqual_iff.1 hequal).ignoredReports
      have hperm := (hmergedNodup.subperm hsubset).perm_of_length_le hlength.le
      exact hperm.nodup_iff.1 hmergedNodup
    · exact hmergedNodup

theorem nodup_adoptReports (ha : allowsReportIgnores v = true) (hne : v.ignoredReports ≠ []) :
    (orEmpty (adoptReports v cur)).ignoredReports.Nodup := by
  rw [adoptReports, if_pos ha]
  obtain ⟨rs, r, hrs⟩ := eq_nil_or_concat v.ignoredReports |>.resolve_left hne
  rw [hrs, concat_eq_append, foldl_append]
  exact nodup_setReportIgnored _

theorem adoptReports_self (hcur : Kept cur) (h : allowsReportIgnores v = true → ∀ report,
      (Ignores v report → Ignores (orEmpty cur) report) ∧
        (Scopes v report → Scopes (orEmpty cur) report))
    (hnodup : allowsReportIgnores v = true → v.ignoredReports ≠ [] →
      (orEmpty cur).ignoredReports.Nodup) : adoptReports v cur = cur := by
  rw [adoptReports]
  split
  · rename_i ha
    have hset : ∀ r ∈ v.ignoredReports,
        setReportIgnored cur r true (r ∈ v.scopedIgnoredReports) = cur := by
      intro r hr
      refine setReportIgnored_self hcur (hnodup ha (ne_nil_of_mem hr)) fun hne => ⟨?_, ?_⟩
      · exact ((h ha r).1 ⟨hne, hr⟩).2
      · exact fun hm => ((h ha r).2 ⟨⟨hne, hr⟩, of_decide_eq_true hm⟩).2
    generalize v.ignoredReports = rs at hset
    induction rs with
    | nil => rfl
    | cons r rs ih =>
      obtain ⟨hr, hrs⟩ := forall_mem_cons.1 hset
      rw [foldl_cons, hr, ih hrs]
  · rfl

/-- A stored entry is adopted once. -/
theorem adoptStored_adoptStored (hcur : Kept cur) :
    adoptStored stored (adoptStored stored cur) = adoptStored stored cur := by
  cases stored with
  | none => rfl
  | some v =>
    obtain ⟨hkept, hnorm, hmarks⟩ := says_adoptStored hcur v
    have hfields : adoptFields v (adoptStored (some v) cur) = adoptStored (some v) cur :=
      adoptFields_self hkept fun p hp => by rw [hnorm p, if_neg hp]
    have hself : adoptReports v (adoptStored (some v) cur) = adoptStored (some v) cur := by
      refine adoptReports_self hkept (fun ha report => ?_) fun ha hne => nodup_adoptReports ha hne
      rw [(hmarks report).1, (hmarks report).2]
      exact ⟨fun hi => .inr ⟨ha, hi⟩, fun hm => .inr ⟨ha, hm⟩⟩
    calc adoptStored (some v) (adoptStored (some v) cur)
        = adoptReports v (adoptFields v (adoptStored (some v) cur)) := rfl
      _ = adoptStored (some v) cur := by rw [hfields, hself]

/-- **Reloading the same again changes nothing.** -/
theorem reloadEntry_reloadEntry (hcur : Kept cur) :
    reloadEntry true none stored id (reloadEntry true none stored id cur) =
      reloadEntry true none stored id cur := by
  by_cases hid : isSessionId id = true
  · have hentry : ∀ o, reloadEntry true none stored id o = adoptStored stored o := by
      intro o
      rw [reloadEntry, hid]
      rfl
    rw [hentry, hentry, adoptStored_adoptStored hcur]
  · rw [Bool.not_eq_true] at hid
    have hentry : ∀ o, reloadEntry true none stored id o =
        adoptStored stored (dropReports none stored (clearFields none stored o)) := by
      intro o
      rw [reloadEntry, hid]
      rfl
    obtain ⟨hkept, hnorm, hmarks⟩ := says_reloadEntry stored hid hcur
    have hclear : clearFields none stored (reloadEntry true none stored id cur) =
        reloadEntry true none stored id cur :=
      clearFields_self hkept fun p hp => (hnorm p).trans hp
    have hdrop : dropReports none stored (reloadEntry true none stored id cur) =
        reloadEntry true none stored id cur := by
      refine dropReports_self fun r hr hd => ?_
      obtain ⟨ha, hi⟩ := (hmarks r).1.1 (hkept.ignores_iff.2 hr)
      exact hd ⟨ha, hi.2⟩
    rw [hentry (reloadEntry true none stored id cur), hclear, hdrop, hentry cur]
    exact adoptStored_adoptStored (says_cleared _ hcur).1

/-! ### The reload of the state -/

/-- The triage of a client: every entry as the operations on it leave it. -/
structure LocalTriage where
  map : TriageStateMap
  kept : ∀ id, Kept (map id)

variable (s : LocalTriage) (entries : Option TriageStateMap)

theorem applyTriageEntries_apply (id : String) :
    applyTriageEntries true none entries s.map id =
      reloadEntry true none (entries.getD ∅ id) id (s.map id) := by
  rw [applyTriageEntries, FMap.ofKeys_apply]
  split
  · rfl
  · rename_i hnot
    rw [Finset.mem_union, not_or, ← FMap.eq_none_iff, ← FMap.eq_none_iff] at hnot
    rw [hnot.1, hnot.2]
    by_cases hid : isSessionId id = true
    · rw [reloadEntry, hid]
      rfl
    · rw [Bool.not_eq_true] at hid
      have hnone : Kept none := rfl
      obtain ⟨hkept, hnorm, hmarks⟩ := says_reloadEntry none hid hnone
      refine (hkept.eq_none_iff.2 ⟨fun p => ?_, fun report h => ?_⟩).symm
      · rw [hnorm p]
        cases p <;> rfl
      · exact absurd ((hmarks report).1.1 h).2.2 not_mem_nil

/-- The triage after a reload. -/
def LocalTriage.reload (s : LocalTriage) (entries : Option TriageStateMap) : LocalTriage where
  map := applyTriageEntries true none entries s.map
  kept id := by
    rw [applyTriageEntries_apply]
    by_cases hid : isSessionId id = true
    · have hentry : reloadEntry true none (entries.getD ∅ id) id (s.map id) =
          adoptStored (entries.getD ∅ id) (s.map id) := by
        rw [reloadEntry, hid]
        rfl
      rw [hentry]
      cases entries.getD ∅ id with
      | none => exact s.kept id
      | some v => exact (says_adoptStored (s.kept id) v).1
    · rw [Bool.not_eq_true] at hid
      exact (says_reloadEntry _ hid (s.kept id)).1

/-- Two entries mean the same, or neither is there. -/
def SameEntry (a b : Option TriageEntry) : Prop :=
  (a = none ↔ b = none) ∧ SameMeaning (orEmpty a) (orEmpty b)

/-- What a reload is to leave: what was stored, of findings with an id of their own, and the others
as they are; and so again. -/
structure Mirrors (s : LocalTriage) (entries : Option TriageStateMap) : Prop where
  stored : ∀ id, isSessionId id = false →
    SameEntry ((s.reload entries).map id) (storedEntry (entries.getD ∅ id))
  removed : ∀ id, isSessionId id = false → entries.getD ∅ id = none →
    (s.reload entries).map id = none
  session : ∀ id, isSessionId id = true → SameEntry ((s.reload entries).map id) (s.map id)
  again : ((s.reload entries).reload entries).map = (s.reload entries).map

/-- A mark that is there stands for a report that the stored entry marks as well or does not list;
and of a finding of the session alone nothing else is stored. -/
structure Mirrorable (s : LocalTriage) (entries : Option TriageStateMap) : Prop where
  marked : ∀ id v, isSessionId id = false → entries.getD ∅ id = some v →
    allowsReportIgnores v = true → ∀ report ∈ v.ignoredReports,
      report ∈ (orEmpty (s.map id)).scopedIgnoredReports → report ∈ v.scopedIgnoredReports
  session : ∀ id v, isSessionId id = true → entries.getD ∅ id = some v → AlreadySays v (s.map id)

theorem sameEntry_iff {a b : Option TriageEntry} (ha : Kept a) (hb : Kept b) :
    SameEntry a b ↔ SaysSame (orEmpty a) (orEmpty b) := by
  constructor
  · rintro ⟨-, h⟩
    refine ⟨h.norm, fun report => ?_, fun report => ?_⟩
    · rw [ha.ignores_iff, hb.ignores_iff, h.ignoredReports]
    · rw [ha.marks_iff, hb.marks_iff, h.scopedIgnoredReports]
  · intro h
    refine ⟨?_, h.norm, fun report => ?_, fun report => ?_⟩
    · rw [ha.eq_none_iff, hb.eq_none_iff]
      exact and_congr (forall_congr' fun p => by rw [h.norm])
        (forall_congr' fun r => not_congr (h.ignores r))
    · rw [← ha.ignores_iff, ← hb.ignores_iff, h.ignores]
    · rw [← ha.marks_iff, ← hb.marks_iff, h.marks]

theorem reload_apply_of_session (hid : isSessionId id = true) :
    (s.reload entries).map id = adoptStored (entries.getD ∅ id) (s.map id) := by
  rw [LocalTriage.reload, applyTriageEntries_apply, reloadEntry, hid]
  rfl

/-- The entry of a finding of the session alone is as it was where nothing else is stored of it. -/
theorem session_iff (hid : isSessionId id = true) :
    SameEntry ((s.reload entries).map id) (s.map id) ↔
      ∀ v, entries.getD ∅ id = some v → AlreadySays v (s.map id) := by
  rw [sameEntry_iff ((s.reload entries).kept id) (s.kept id), reload_apply_of_session s entries hid]
  cases hstored : entries.getD ∅ id with
  | none =>
    refine iff_of_true ⟨fun _ => rfl, fun _ => Iff.rfl, fun _ => Iff.rfl⟩ ?_
    intro v hv
    cases hv
  | some v =>
    obtain ⟨-, hnorm, hmarks⟩ := says_adoptStored (s.kept id) v
    simp only [Option.some.injEq, forall_eq']
    constructor
    · intro h
      refine ⟨fun p hp => ?_, fun ha report => ⟨fun hi => ?_, fun hm => ?_⟩⟩
      · rw [← h.norm p, hnorm p, if_neg hp]
      · exact (h.ignores report).1 ((hmarks report).1.2 (.inr ⟨ha, hi⟩))
      · exact (h.marks report).1 ((hmarks report).2.2 (.inr ⟨ha, hm⟩))
    · rintro ⟨hvalues, hreports⟩
      refine ⟨fun p => ?_, fun report => ?_, fun report => ?_⟩
      · rw [hnorm p]
        split
        · rfl
        · rename_i hp
          exact (hvalues p hp).symm
      · rw [(hmarks report).1]
        exact ⟨fun h => h.elim (fun h => h) fun h => (hreports h.1 report).1 h.2, .inl⟩
      · rw [(hmarks report).2]
        exact ⟨fun h => h.elim (fun h => h) fun h => (hreports h.1 report).2 h.2, .inl⟩

/-- The entry of a finding with an id of its own is the stored one where no mark outlives it. -/
theorem stored_iff (hid : isSessionId id = false) :
    SameEntry ((s.reload entries).map id) (storedEntry (entries.getD ∅ id)) ↔
      ∀ v, entries.getD ∅ id = some v → allowsReportIgnores v = true → ∀ report ∈ v.ignoredReports,
        report ∈ (orEmpty (s.map id)).scopedIgnoredReports → report ∈ v.scopedIgnoredReports := by
  obtain ⟨hkept', hnorm', hmarks'⟩ := says_storedEntry (entries.getD ∅ id)
  rw [sameEntry_iff ((s.reload entries).kept id) hkept']
  have happly : (s.reload entries).map id =
      reloadEntry true none (entries.getD ∅ id) id (s.map id) :=
    applyTriageEntries_apply s entries id
  obtain ⟨-, hnorm, hmarks⟩ := says_reloadEntry (entries.getD ∅ id) hid (s.kept id)
  rw [happly]
  constructor
  · intro h v hv ha report hr hmark
    have hcur : Scopes (orEmpty (s.map id)) report := (s.kept id).marks_iff.2 hmark
    rw [hv] at h hmarks hmarks'
    have hi : Ignores v report := ⟨hcur.1.1, hr⟩
    have hm := (h.marks report).1 ((hmarks report).2.2 ⟨ha, hi, .inl hcur⟩)
    exact ((hmarks' report).2.1 hm).2.2
  · intro h
    refine ⟨fun p => (hnorm p).trans (hnorm' p).symm, fun report => ?_, fun report => ?_⟩
    · exact (hmarks report).1.trans (hmarks' report).1.symm
    · rw [(hmarks report).2, (hmarks' report).2]
      constructor
      · rintro ⟨ha, hi, hm⟩
        refine ⟨ha, hi, hm.elim (fun hcur => ?_) fun hs => hs⟩
        cases hstored : entries.getD ∅ id with
        | none =>
          rw [hstored] at hi
          exact absurd hi.2 not_mem_nil
        | some v =>
          rw [hstored] at ha hi
          exact h v hstored ha report hi.2 hcur.2
      · rintro ⟨ha, hm⟩
        exact ⟨ha, hm.1, .inr hm.2⟩

theorem removed_of_none (hid : isSessionId id = false) (hnone : entries.getD ∅ id = none) :
    (s.reload entries).map id = none := by
  obtain ⟨hkept, hnorm, hmarks⟩ := says_reloadEntry (entries.getD ∅ id) hid (s.kept id)
  refine (applyTriageEntries_apply s entries id).trans (hkept.eq_none_iff.2 ⟨fun p => ?_, ?_⟩)
  · rw [hnorm p, hnone]
    cases p <;> rfl
  · intro report h
    have hi := ((hmarks report).1.1 h).2
    rw [hnone] at hi
    exact absurd hi.2 not_mem_nil

theorem reload_reload : ((s.reload entries).reload entries).map = (s.reload entries).map := by
  ext1 id
  have hagain : ((s.reload entries).reload entries).map id =
      reloadEntry true none (entries.getD ∅ id) id ((s.reload entries).map id) :=
    applyTriageEntries_apply (s.reload entries) entries id
  have hfirst : (s.reload entries).map id =
      reloadEntry true none (entries.getD ∅ id) id (s.map id) :=
    applyTriageEntries_apply s entries id
  rw [hagain, hfirst]
  exact reloadEntry_reloadEntry (s.kept id)

/-- **A reload leaves what was stored, exactly where no mark of a report outlives the stored entry**
and nothing new is stored of a finding of the session alone. -/
theorem reload_mirrors_iff (s : LocalTriage) (entries : Option TriageStateMap) :
    Mirrors s entries ↔ Mirrorable s entries := by
  constructor
  · intro h
    exact ⟨fun id v hid => (stored_iff s entries hid).1 (h.stored id hid) v,
      fun id v hid => (session_iff s entries hid).1 (h.session id hid) v⟩
  · intro h
    refine ⟨fun id hid => (stored_iff s entries hid).2 fun v => h.marked id v hid, ?_, ?_, ?_⟩
    · exact fun id hid hnone => removed_of_none s entries hid hnone
    · exact fun id hid => (session_iff s entries hid).2 fun v => h.session id v hid
    · exact reload_reload s entries

/-- Another tab ignores a report again without its mark, and the mark stays. -/
theorem reload_keeps_mark :
    let mine : TriageEntry := { TriageEntry.empty with
      ignoredReports := ["report"], scopedIgnoredReports := ["report"] }
    let theirs : TriageEntry := { TriageEntry.empty with ignoredReports := ["report"] }
    ∃ s : LocalTriage, s.map = (∅ : TriageStateMap).insert "finding" mine ∧
      (s.reload (some ((∅ : TriageStateMap).insert "finding" theirs))).map "finding" = some mine ∧
      ¬Mirrors s (some ((∅ : TriageStateMap).insert "finding" theirs)) := by
  intro mine theirs
  have hkept : ∀ id, Kept ((∅ : TriageStateMap).insert "finding" mine id) := by
    intro id
    rw [FMap.insert_apply]
    split
    · decide +kernel
    · rfl
  refine ⟨⟨_, hkept⟩, rfl, ?_, ?_⟩
  · refine (applyTriageEntries_apply _ _ _).trans ?_
    simp only [getD_some, FMap.insert_self]
    decide +kernel
  · rw [reload_mirrors_iff]
    intro h
    have := h.marked "finding" theirs (by decide +kernel) (FMap.insert_self _ _ _) (by decide)
      "report" (by decide) (by simp [orEmpty, mine])
    cases this

end Triage.Client
