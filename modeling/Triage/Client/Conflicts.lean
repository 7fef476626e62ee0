import Triage.Client.Rebase

/-!
# Conflicts

`collectChainConflicts` looks for the properties that were changed on both sides, property by
property; the rebase replays the bucket and the ignored reports together. Where a local change of
the one takes the place of a remote change of the other, nothing is reported.

## Main results

* `conflicts_complete` : every remote change that is dropped is reported, but for these.
* `merge_symmetric` : with neither, the merge is the same from either side.
-/

namespace Triage.Client

open List Option ConflictProperty Finset

variable {b l r m : TriageEntry} {base loc remote : TriageStateMap} {id report : String}

/-! ### Properties -/

/-- A report that an entry ignores. -/
def Ignores (e : TriageEntry) (report : String) : Prop := report ≠ "" ∧ report ∈ e.ignoredReports

/-- A remote change of a property, of which ignored reports are a part of the bucket's, that the
merge does not have. -/
def Dropped (b r m : TriageEntry) (p : ConflictProperty) : Prop :=
  (p.norm r ≠ p.norm b ∧ p.norm m ≠ p.norm r) ∨
    p = .triage ∧ ∃ report, ¬(Ignores r report ↔ Ignores b report) ∧
      ¬(Ignores m report ↔ Ignores r report)

/-- Three values that are pairwise different. -/
def Disagree (b l r : TriageEntry) (p : ConflictProperty) : Prop :=
  p.norm l ≠ p.norm b ∧ p.norm r ≠ p.norm b ∧ p.norm l ≠ p.norm r

variable (e : TriageEntry) (s : Option String) (p : ConflictProperty)

theorem getD_nonempty : (nonempty s).getD "" = s.getD "" := by
  cases s with
  | none => rfl
  | some s =>
    rw [nonempty, filter_some]
    split
    · rfl
    · rename_i h
      exact (not_not.1 fun hs => h (decide_eq_true hs)).symm

theorem bucketOf_cleanEntry : bucketOf (cleanEntry e) = bucketOf e :=
  or_none

/-- Normalizing leaves what is compared as it is. -/
theorem norm_cleanEntry : p.norm (cleanEntry e) = p.norm e := by
  cases p with
  | color => exact getD_nonempty e.color
  | triage => simp only [ConflictProperty.norm, bucketOf_cleanEntry]
  | comment => exact getD_nonempty e.comment
  | fix => exact getD_nonempty e.fix
  | flagged => rfl

theorem ignores_cleanEntry : Ignores (cleanEntry e) report ↔ Ignores e report := by
  have hmem : report ∈ (cleanEntry e).ignoredReports ↔ report ∈ e.ignoredReports ∧ report ≠ "" := by
    rw [cleanEntry, mem_filter, decide_eq_true_eq]
  rw [Ignores, Ignores, hmem]
  tauto

theorem norm_triage_inj : triage.norm b = triage.norm l ↔ bucketOf b = bucketOf l :=
  ⟨bucketString_inj, fun h => by simp only [ConflictProperty.norm, h]⟩

/-! ### Reporting -/

/-- A conflict of a finding and a property is reported. -/
def Reported (base loc remote : TriageStateMap) (id : String) (p : ConflictProperty) : Prop :=
  ∃ c ∈ collectChainConflicts (computeChangeset base loc) base remote ∅,
    c.id = id ∧ c.property = p

theorem mem_all : p ∈ ConflictProperty.all := by
  cases p <;> decide

theorem mem_conflictsOf {overlay old chain : Option TriageEntry} {c : Conflict} :
    c ∈ conflictsOf false id overlay old chain ↔
      Disagree (orEmpty old) (orEmpty overlay) (orEmpty chain) c.property ∧
        c = ⟨id, c.property, c.property.norm (orEmpty overlay),
          c.property.norm (orEmpty chain)⟩ := by
  rw [conflictsOf, List.mem_filterMap]
  constructor
  · rintro ⟨p, -, hp⟩
    obtain ⟨hd, heq⟩ := ite_none_right_eq_some.1 hp
    cases heq
    exact ⟨⟨hd.1.resolve_right Bool.false_ne_true, hd.2⟩, rfl⟩
  · rintro ⟨hp, hc⟩
    refine ⟨c.property, mem_all _, ?_⟩
    rw [if_pos ⟨.inl hp.1, hp.2⟩, ← hc]

/-- What is reported are the properties of a finding that the three states disagree on. -/
theorem reported_iff {p : ConflictProperty} : Reported base loc remote id p ↔
    Disagree (orEmpty (base id)) (orEmpty (loc id)) (orEmpty (remote id)) p := by
  have hkey : ∀ id', id' ∈ (computeChangeset base loc).keys →
      (computeChangeset base loc id').getD none = loc id' := by
    intro id' hid'
    rw [computeChangeset_apply]
    split
    · rename_i h
      rw [← FMap.eq_none_iff.not_left, computeChangeset_apply, if_pos h] at hid'
      exact absurd rfl hid'
    · rfl
  constructor
  · rintro ⟨c, hc, rfl, rfl⟩
    rw [collectChainConflicts, mem_biUnion] at hc
    obtain ⟨id', hid', hc⟩ := hc
    rw [List.mem_toFinset, hkey id' hid', decide_eq_false (notMem_empty _)] at hc
    obtain ⟨hd, heq⟩ := mem_conflictsOf.1 hc
    have hid : c.id = id' := congrArg Conflict.id heq
    rwa [hid]
  · intro hd
    refine ⟨⟨id, p, p.norm (orEmpty (loc id)), p.norm (orEmpty (remote id))⟩, ?_, rfl, rfl⟩
    have hne : ¬entriesEqual (orEmpty (base id)) (orEmpty (loc id)) = true :=
      fun h => hd.1 ((entriesEqual_iff.1 h).norm p).symm
    have hid : id ∈ (computeChangeset base loc).keys := by
      by_contra hnot
      have hnone := FMap.eq_none_iff.mpr hnot
      rw [computeChangeset_apply, if_neg hne] at hnone
      cases hnone
    rw [collectChainConflicts, mem_biUnion]
    refine ⟨id, hid, ?_⟩
    rw [List.mem_toFinset, hkey id hid, decide_eq_false (notMem_empty _)]
    exact mem_conflictsOf.2 ⟨hd, rfl⟩

/-! ### The merge -/

/-- The bucket and the reports are replayed: one of them was changed locally. -/
def Replays (b l : TriageEntry) : Prop :=
  bucketOf b ≠ bucketOf l ∨
    ignoredReportsEqual (cleanEntry b).ignoredReports (cleanEntry l).ignoredReports = false

instance (b l : TriageEntry) : Decidable (Replays b l) := inferInstanceAs (Decidable (_ ∨ _))

/-- A local change of the bucket or of the ignored reports, which do not allow the other side's and
take their place, where the bucket is no conflict and there is a remote change they have not. -/
def Overrides (b l r : TriageEntry) : Prop :=
  Replays b l ∧ ¬(allowsReportIgnores l = true ∧ allowsReportIgnores r = true) ∧
  ¬Disagree b l r .triage ∧
  ((bucketOf l = bucketOf b ∧ bucketOf r ≠ bucketOf b) ∨
    ∃ report, ¬(Ignores r report ↔ Ignores b report) ∧ ¬(Ignores l report ↔ Ignores r report))

theorem nonempty_ne_empty : nonempty s ≠ some "" := by
  intro h
  have hmem := mem_filter_iff.1 (mem_def.2 h)
  exact of_decide_eq_true hmem.2 rfl

theorem nonempty_eq_iff (u : Option String) : nonempty s = nonempty u ↔ s.getD "" = u.getD "" := by
  rw [← getD_nonempty s, ← getD_nonempty u]
  exact ⟨fun h => congrArg (·.getD "") h, eq_of_getD_eq (nonempty_ne_empty s) (nonempty_ne_empty u)⟩

/-- The entry that the replay makes of three entries. -/
def replayed (b l r : TriageEntry) : TriageEntry :=
  cleanEntry (mergedEntry false (cleanEntry b) (cleanEntry l) (cleanEntry r))

theorem norm_ite {c : Prop} [Decidable c] {s u : Option String} :
    (nonempty (if c then nonempty s else nonempty u)).getD "" =
      if c then s.getD "" else u.getD "" := by
  rw [getD_nonempty]
  split
  · exact getD_nonempty s
  · exact getD_nonempty u

/-- A field is the local one where it was changed locally. -/
theorem norm_replayed {p : ConflictProperty} (hp : p ≠ .triage) :
    p.norm (replayed b l r) = if p.norm l ≠ p.norm b then p.norm l else p.norm r := by
  cases p with
  | color =>
    refine norm_ite.trans (if_congr ?_ rfl rfl)
    rw [or_iff_left Bool.false_ne_true, ne_comm]
    exact (nonempty_eq_iff _ _).not
  | triage => exact absurd rfl hp
  | comment =>
    refine norm_ite.trans (if_congr ?_ rfl rfl)
    rw [or_iff_left Bool.false_ne_true, ne_comm]
    exact (nonempty_eq_iff _ _).not
  | fix =>
    refine norm_ite.trans (if_congr ?_ rfl rfl)
    rw [or_iff_left Bool.false_ne_true, ne_comm]
    exact (nonempty_eq_iff _ _).not
  | flagged =>
    by_cases h : b.flagged = l.flagged
    · have hnorm : flagged.norm l = flagged.norm b := by
        simp only [ConflictProperty.norm, h]
      rw [if_neg (not_not.2 hnorm)]
      have hflagged : (replayed b l r).flagged = r.flagged := if_neg (by
        rw [or_iff_left Bool.false_ne_true, not_not]
        exact h)
      simp only [ConflictProperty.norm, hflagged]
    · have hnorm : flagged.norm l ≠ flagged.norm b :=
        fun hn => h (flagged_inj hn).symm
      rw [if_pos hnorm]
      have hflagged : (replayed b l r).flagged = l.flagged := if_pos (.inl h)
      simp only [ConflictProperty.norm, hflagged]

theorem allows_cleanEntry : allowsReportIgnores (cleanEntry e) = allowsReportIgnores e := by
  rw [allowsReportIgnores, allowsReportIgnores, bucketOf_cleanEntry]

theorem replays_iff : (false || decide ((cleanEntry b).triage ≠ (cleanEntry l).triage) ||
    !ignoredReportsEqual (cleanEntry b).ignoredReports (cleanEntry l).ignoredReports) = true ↔
    Replays b l := by
  rw [Bool.false_or, Bool.or_eq_true, decide_eq_true_eq, Bool.not_eq_true']
  rfl

theorem independent_clean_iff : (!false && allowsReportIgnores (cleanEntry l) &&
    allowsReportIgnores (cleanEntry r)) = true ↔
    allowsReportIgnores l = true ∧ allowsReportIgnores r = true := by
  rw [allows_cleanEntry, allows_cleanEntry, independent_iff]

theorem bucketOf_replayed : bucketOf (replayed b l r) =
    if Replays b l ∧ (¬(allowsReportIgnores l = true ∧ allowsReportIgnores r = true) ∨
      bucketOf b ≠ bucketOf l) then bucketOf l else bucketOf r := by
  have hlegacy : (mergedEntry false (cleanEntry b) (cleanEntry l) (cleanEntry r)).legacyDeleted =
      false := rfl
  rw [replayed, bucketOf_cleanEntry, bucketOf, hlegacy]
  refine or_none.trans (if_congr ?_ rfl rfl)
  rw [Bool.and_eq_true, replays_iff, Bool.or_eq_true, decide_eq_true_eq, Bool.not_eq_true',
    ← Bool.not_eq_true, independent_clean_iff]
  rfl

theorem mem_clean_iff (h : report ≠ "") (e : TriageEntry) :
    report ∈ (cleanEntry e).ignoredReports ↔ Ignores e report := by
  rw [← ignores_cleanEntry, Ignores, and_iff_right h]

theorem ignores_replayed : Ignores (replayed b l r) report ↔
    if Replays b l then
      if allowsReportIgnores l = true ∧ allowsReportIgnores r = true then
        (Ignores r report ∧ ¬(Ignores b report ∧ ¬Ignores l report)) ∨
          (Ignores l report ∧ ¬Ignores b report)
      else Ignores l report
    else Ignores r report := by
  rw [replayed, ignores_cleanEntry]
  by_cases hempty : report = ""
  · have hnot : ∀ e, ¬Ignores e report := fun e h => h.1 hempty
    have := hnot b
    have := hnot l
    have := hnot r
    refine iff_of_false (hnot _) ?_
    split
    · split
      · tauto
      · assumption
    · assumption
  rw [Ignores, and_iff_right hempty]
  simp only [mergedEntry]
  by_cases ht : Replays b l
  · rw [if_pos ht, replays_iff.2 ht]
    by_cases hi : allowsReportIgnores l = true ∧ allowsReportIgnores r = true
    · rw [if_pos hi, independent_clean_iff.2 hi, ← mem_clean_iff hempty b, ← mem_clean_iff hempty l,
        ← mem_clean_iff hempty r]
      exact mem_rebaseIgnoredReports
    · rw [if_neg hi, Bool.eq_false_iff.2 fun h => hi (independent_clean_iff.1 h)]
      exact mem_clean_iff hempty l
  · rw [if_neg ht, Bool.eq_false_iff.2 fun h => ht (replays_iff.1 h)]
    exact mem_clean_iff hempty r

theorem disagree_triage_iff : Disagree b l r .triage ↔
    bucketOf l ≠ bucketOf b ∧ bucketOf r ≠ bucketOf b ∧ bucketOf l ≠ bucketOf r := by
  rw [Disagree, ne_eq, ne_eq, ne_eq, norm_triage_inj, norm_triage_inj, norm_triage_inj]

/-- The merge of one finding drops no unreported change, but by overriding. -/
theorem dropped_replayed_iff :
    (∀ p, Dropped b r (replayed b l r) p → Disagree b l r p) ↔ ¬Overrides b l r := by
  constructor
  · rintro h ⟨hreplays, hi, hd, hchange⟩
    refine hd (h .triage ?_)
    rcases hchange with ⟨hl, hr⟩ | ⟨report, hr, hl⟩
    · refine .inl ⟨norm_triage_inj.not.2 hr, norm_triage_inj.not.2 ?_⟩
      rw [bucketOf_replayed, if_pos ⟨hreplays, .inl hi⟩, hl]
      exact hr.symm
    · refine .inr ⟨rfl, report, hr, ?_⟩
      rwa [ignores_replayed, if_pos hreplays, if_neg hi]
  · intro hO p hdrop
    rcases hdrop with ⟨hr, hm⟩ | ⟨rfl, report, hr, hm⟩
    · by_cases hp : p = .triage
      · subst hp
        rw [ne_eq, norm_triage_inj] at hr hm
        rw [bucketOf_replayed] at hm
        split at hm
        · rename_i hc
          refine disagree_triage_iff.2 ⟨fun hl => hO ⟨hc.1, ?_, ?_, .inl ⟨hl, hr⟩⟩, hr, hm⟩
          · exact hc.2.resolve_right fun hne => hne hl.symm
          · exact fun hd => (disagree_triage_iff.1 hd).1 hl
        · exact absurd rfl hm
      · rw [norm_replayed hp] at hm
        split at hm
        · rename_i hl
          exact ⟨hl, hr, hm⟩
        · exact absurd rfl hm
    · rw [ignores_replayed] at hm
      split at hm
      · rename_i hreplays
        split at hm
        · tauto
        · rename_i hi
          by_contra hd
          exact hO ⟨hreplays, hi, hd, .inr ⟨report, hr, hm⟩⟩
      · exact absurd Iff.rfl hm

/-! ### States -/

theorem not_dropped_self : ¬Dropped b r r p := by
  rintro (⟨-, h⟩ | ⟨-, report, -, h⟩)
  · exact h rfl
  · exact h Iff.rfl

theorem overrides_self : ¬Overrides b b r := by
  rintro ⟨hreplays | hreplays, -⟩
  · exact hreplays rfl
  · rw [ignoredReportsEqual_iff.2 ⟨rfl, List.Subset.refl _⟩] at hreplays
    cases hreplays

/-- **Every remote change that a merge drops is reported**, exactly where no finding's local bucket
or reports override a remote change. -/
theorem conflicts_complete (base loc remote : TriageStateMap) :
    (∀ id p, Dropped (orEmpty (base id)) (orEmpty (remote id))
        (orEmpty (rebaseLocalState base loc remote ∅ id)) p →
      ∃ c ∈ collectChainConflicts (computeChangeset base loc) base remote ∅,
        c.id = id ∧ c.property = p) ↔
    ∀ id, ¬Overrides (orEmpty (base id)) (orEmpty (loc id)) (orEmpty (remote id)) := by
  refine forall_congr' fun id => ?_
  have hreported : (∀ p, Dropped (orEmpty (base id)) (orEmpty (remote id))
        (orEmpty (rebaseLocalState base loc remote ∅ id)) p →
        ∃ c ∈ collectChainConflicts (computeChangeset base loc) base remote ∅,
          c.id = id ∧ c.property = p) ↔
      ∀ p, Dropped (orEmpty (base id)) (orEmpty (remote id))
        (orEmpty (rebaseLocalState base loc remote ∅ id)) p →
        Disagree (orEmpty (base id)) (orEmpty (loc id)) (orEmpty (remote id)) p :=
    forall_congr' fun p => imp_congr_right fun _ => reported_iff
  rw [hreported, rebaseLocalState_apply]
  split
  · rw [rebaseEntry_eq, decide_eq_false (Finset.notMem_empty _)]
    exact dropped_replayed_iff
  · rename_i hid
    simp only [Finset.mem_union, not_or] at hid
    rw [FMap.eq_none_iff.mpr hid.1.1, FMap.eq_none_iff.mpr hid.1.2]
    exact iff_of_true (fun p h => absurd h (not_dropped_self p)) overrides_self

/-- A verdict of the other side is dropped for a report that is ignored here, and nobody is
asked. -/
theorem verdict_dropped_silently : ∃ base loc remote : TriageStateMap,
    Dropped (orEmpty (base "f")) (orEmpty (remote "f"))
      (orEmpty (rebaseLocalState base loc remote ∅ "f")) .triage ∧
    collectChainConflicts (computeChangeset base loc) base remote ∅ = ∅ :=
  ⟨oneEntry .empty, oneEntry { TriageEntry.empty with ignoredReports := ["a"] },
    oneEntry { TriageEntry.empty with triage := some .fixed }, .inl (by decide), by decide⟩

/-! ### Merging the other way -/

/-- Two entries have the same properties and ignore the same reports. -/
structure Agree (e e' : TriageEntry) : Prop where
  norm : ∀ p : ConflictProperty, p.norm e = p.norm e'
  ignores : ∀ report, Ignores e report ↔ Ignores e' report

/-- What is not replayed was not changed. -/
theorem eq_of_not_replays (hl : l.ignoredReports.Nodup) (h : ¬Replays b l) :
    bucketOf b = bucketOf l ∧ ∀ report, Ignores b report ↔ Ignores l report := by
  rw [Replays, not_or, not_not, Bool.not_eq_false] at h
  refine ⟨h.1, fun report => ?_⟩
  rw [← ignores_cleanEntry b, ← ignores_cleanEntry l]
  exact and_congr_right fun _ => mem_iff_of_equal h.2 (fun hr => hr.not_nodup (hl.filter _)) report

/-- A local change that overrides nothing, where the other side does not allow it. -/
theorem overrides_nothing (h : ¬Overrides b l r) (hd : ¬Disagree b l r .triage)
    (hreplays : Replays b l) (hi : ¬(allowsReportIgnores l = true ∧ allowsReportIgnores r = true)) :
    (bucketOf l = bucketOf b → bucketOf r = bucketOf b) ∧
      ∀ report, (Ignores r report ↔ Ignores b report) ∨ (Ignores l report ↔ Ignores r report) := by
  refine ⟨fun hl => ?_, fun report => ?_⟩
  · by_contra hr
    exact h ⟨hreplays, hi, hd, .inl ⟨hl, hr⟩⟩
  · by_contra hr
    exact h ⟨hreplays, hi, hd, .inr ⟨report, not_or.1 hr⟩⟩

theorem agree_replayed (hl : l.ignoredReports.Nodup) (hr : r.ignoredReports.Nodup)
    (hnone : ∀ p, ¬Disagree b l r p) (hover : ¬Overrides b l r) (hover' : ¬Overrides b r l) :
    Agree (replayed b l r) (replayed b r l) := by
  have hsame := eq_of_not_replays (b := b) hl
  have hsame' := eq_of_not_replays (b := b) hr
  have hnone' : ¬Disagree b r l .triage := fun h => hnone .triage ⟨h.2.1, h.1, h.2.2.symm⟩
  have hloc := overrides_nothing hover (hnone .triage)
  have hremote := overrides_nothing hover' hnone'
  have htriage := disagree_triage_iff.not.1 (hnone .triage)
  constructor
  · intro p
    by_cases hp : p = .triage
    · subst hp
      rw [norm_triage_inj, bucketOf_replayed, bucketOf_replayed]
      grind
    · have := hnone p
      rw [norm_replayed hp, norm_replayed hp]
      grind [Disagree]
  · intro report
    rw [ignores_replayed, ignores_replayed]
    grind

theorem agree_rebase (base loc remote : TriageStateMap) (id : String) :
    Agree (orEmpty (rebaseLocalState base loc remote ∅ id))
      (replayed (orEmpty (base id)) (orEmpty (loc id)) (orEmpty (remote id))) := by
  rw [rebaseLocalState_apply]
  split
  · rw [rebaseEntry_eq, decide_eq_false (Finset.notMem_empty _)]
    exact ⟨fun _ => rfl, fun _ => Iff.rfl⟩
  · rename_i hid
    simp only [Finset.mem_union, not_or] at hid
    rw [FMap.eq_none_iff.mpr hid.1.1, FMap.eq_none_iff.mpr hid.1.2]
    refine ⟨fun p => ?_, fun report => ?_⟩
    · by_cases hp : p = .triage
      · subst hp
        rw [norm_triage_inj, bucketOf_replayed]
        exact (if_neg fun h => absurd h.1 (by decide)).symm
      · rw [norm_replayed hp, if_neg fun h => h rfl]
    · rw [ignores_replayed, if_neg (by decide)]

/-- **Merging is symmetric**: two clients that each merge the other's changes into their own end up
with the same triage, where no conflict is reported and neither overrides a change. -/
theorem merge_symmetric (hloc : ∀ id, (orEmpty (loc id)).ignoredReports.Nodup)
    (hremote : ∀ id, (orEmpty (remote id)).ignoredReports.Nodup)
    (hnone : collectChainConflicts (computeChangeset base loc) base remote ∅ = ∅)
    (hover : ∀ id, ¬Overrides (orEmpty (base id)) (orEmpty (loc id)) (orEmpty (remote id)) ∧
      ¬Overrides (orEmpty (base id)) (orEmpty (remote id)) (orEmpty (loc id))) (id : String) :
    Agree (orEmpty (rebaseLocalState base loc remote ∅ id))
      (orEmpty (rebaseLocalState base remote loc ∅ id)) := by
  have hdisagree : ∀ p, ¬Disagree (orEmpty (base id)) (orEmpty (loc id)) (orEmpty (remote id)) p :=
    fun p hp => by
      obtain ⟨c, hc, -⟩ := reported_iff.2 hp
      rw [hnone] at hc
      exact Finset.notMem_empty c hc
  have hmerge := agree_rebase base loc remote id
  have hmerge' := agree_rebase base remote loc id
  have hsame := agree_replayed (hloc id) (hremote id) hdisagree (hover id).1 (hover id).2
  exact ⟨fun p => (hmerge.norm p).trans ((hsame.norm p).trans (hmerge'.norm p).symm),
    fun report => (hmerge.ignores report).trans
      ((hsame.ignores report).trans (hmerge'.ignores report).symm)⟩

/-- A color on one side, and an ignored report on the other. -/
theorem merge_symmetric_colored : have base := oneEntry .empty
    have loc := oneEntry { TriageEntry.empty with color := some "red" }
    have remote := oneEntry { TriageEntry.empty with ignoredReports := ["a"] }
    Agree (orEmpty (rebaseLocalState base loc remote ∅ "f"))
      (orEmpty (rebaseLocalState base remote loc ∅ "f")) :=
  merge_symmetric (nodup_oneEntry (by decide)) (nodup_oneEntry (by decide)) (by decide)
    (fun id => by
      simp only [oneEntry_apply]
      split
      · exact ⟨fun h => absurd h.1 (by decide), fun h => absurd h.2.1 (by decide)⟩
      · exact ⟨overrides_self, overrides_self⟩) "f"

end Triage.Client
