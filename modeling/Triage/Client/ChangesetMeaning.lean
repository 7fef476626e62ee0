import Triage.Client.Changeset

/-!
# What a changeset means

A changeset leaves out the findings whose entries `entriesEqual` takes for the same. Its comparison
of two lists of reports looks at their lengths and at one inclusion: a list that repeats a report
in place of another one passes for the same list.

## Main results

* `changeset_round_trip` : a changeset brings the target's meaning, unless such a list is there; of
  lists without repetitions, `entriesEqual` is the sameness of meaning.
-/

namespace Triage.Client

open ConflictProperty

variable {a b t : TriageEntry} {base target : TriageStateMap} {id : String}

/-! ### Meaning -/

/-- Two entries say the same: the values that are compared for conflicts, and the reports. -/
structure SameMeaning (a b : TriageEntry) : Prop where
  norm : ∀ p : ConflictProperty, p.norm a = p.norm b
  ignoredReports : ∀ report, report ∈ a.ignoredReports ↔ report ∈ b.ignoredReports
  scopedIgnoredReports : ∀ report,
    report ∈ a.scopedIgnoredReports ↔ report ∈ b.scopedIgnoredReports

theorem SameMeaning.refl (a : TriageEntry) : SameMeaning a a :=
  ⟨fun _ => rfl, fun _ => Iff.rfl, fun _ => Iff.rfl⟩

theorem ignoredReportsEqual_iff {a b : List String} :
    ignoredReportsEqual a b = true ↔ a.length = b.length ∧ b ⊆ a := by
  rw [ignoredReportsEqual, Bool.and_eq_true, decide_eq_true_eq, List.all_eq_true]
  simp only [decide_eq_true_eq]
  rfl

/-- `t` has as many reports as `b`, all of them from it, and lacks one. -/
def Repeats (b t : List String) : Prop := b.length = t.length ∧ t ⊆ b ∧ ¬b ⊆ t

theorem subset_of_nodup {b t : List String} (ht : t.Nodup) (hlength : b.length = t.length)
    (h : t ⊆ b) : b ⊆ t := by
  have hperm : t.Perm b := (ht.subperm h).perm_of_length_le hlength.le
  exact hperm.symm.subset

/-- A list that repeats reports of another one has repetitions. -/
theorem Repeats.not_nodup {b t : List String} (h : Repeats b t) : ¬t.Nodup :=
  fun ht => h.2.2 (subset_of_nodup ht h.1 h.2.1)

theorem mem_iff_of_equal {b t : List String} (h : ignoredReportsEqual b t = true)
    (hr : ¬Repeats b t) (report : String) : report ∈ b ↔ report ∈ t := by
  obtain ⟨hlength, hsubset⟩ := ignoredReportsEqual_iff.1 h
  have hsubset' : b ⊆ t := by
    by_contra hnot
    exact hr ⟨hlength, hsubset, hnot⟩
  exact ⟨fun hb => hsubset' hb, fun ht => hsubset ht⟩

/-- What the comparison of two entries looks at. -/
structure Alike (a b : TriageEntry) : Prop where
  color : a.color = b.color
  bucket : bucketOf a = bucketOf b
  comment : a.comment.getD "" = b.comment.getD ""
  fix : a.fix.getD "" = b.fix.getD ""
  flagged : a.flagged = b.flagged
  ignoredReports : ignoredReportsEqual a.ignoredReports b.ignoredReports = true
  scopedIgnoredReports :
    ignoredReportsEqual a.scopedIgnoredReports b.scopedIgnoredReports = true

theorem entriesEqual_iff : entriesEqual a b = true ↔ Alike a b := by
  simp only [entriesEqual, Bool.and_eq_true, decide_eq_true_eq]
  constructor
  · rintro ⟨⟨⟨⟨⟨⟨h₁, h₂⟩, h₃⟩, h₄⟩, h₅⟩, h₆⟩, h₇⟩
    exact ⟨h₁, h₂, h₃, h₄, h₅, h₆, h₇⟩
  · intro h
    exact ⟨⟨⟨⟨⟨⟨h.1, h.2⟩, h.3⟩, h.4⟩, h.5⟩, h.6⟩, h.7⟩

theorem Alike.norm (h : Alike a b) (p : ConflictProperty) : p.norm a = p.norm b := by
  cases p with
  | color => rw [ConflictProperty.norm, ConflictProperty.norm, h.color]
  | triage => rw [ConflictProperty.norm, ConflictProperty.norm, h.bucket]
  | comment => exact h.comment
  | fix => exact h.fix
  | flagged => rw [ConflictProperty.norm, ConflictProperty.norm, h.flagged]

/-- An entry that is taken for another one, although it repeats reports of it. -/
def Hides (b t : TriageEntry) : Prop :=
  entriesEqual b t = true ∧ (Repeats b.ignoredReports t.ignoredReports ∨
    Repeats b.scopedIgnoredReports t.scopedIgnoredReports)

/-- Entries taken for the same mean the same, unless one hides in the other. -/
theorem sameMeaning_iff (h : entriesEqual b t = true) : SameMeaning b t ↔ ¬Hides b t := by
  have hA := entriesEqual_iff.1 h
  constructor
  · rintro hS ⟨-, hr | hr⟩
    · exact hr.2.2 fun report hb => (hS.ignoredReports report).1 hb
    · exact hr.2.2 fun report hb => (hS.scopedIgnoredReports report).1 hb
  · intro hH
    refine ⟨hA.norm, mem_iff_of_equal hA.ignoredReports fun hr => hH ⟨h, .inl hr⟩, ?_⟩
    exact mem_iff_of_equal hA.scopedIgnoredReports fun hr => hH ⟨h, .inr hr⟩

/-! ### Coincidence -/

/-- An entry without an empty color, and without repetitions. -/
structure Plain (e : TriageEntry) : Prop where
  color : e.color ≠ some ""
  ignoredReports : e.ignoredReports.Nodup
  scopedIgnoredReports : e.scopedIgnoredReports.Nodup

theorem ignoredReportsEqual_of_mem_iff {a b : List String} (ha : a.Nodup) (hb : b.Nodup)
    (h : ∀ report, report ∈ a ↔ report ∈ b) : ignoredReportsEqual a b = true := by
  have hperm : a.Perm b := (List.perm_ext_iff_of_nodup ha hb).2 h
  exact ignoredReportsEqual_iff.2 ⟨hperm.length_eq, hperm.symm.subset⟩

theorem eq_of_getD_eq {s u : Option String} (hs : s ≠ some "") (hu : u ≠ some "")
    (h : s.getD "" = u.getD "") : s = u := by
  cases s with
  | none =>
    cases u with
    | none => rfl
    | some u => exact absurd (congrArg some h.symm) hu
  | some s =>
    cases u with
    | none => exact absurd (congrArg some h) hs
    | some u => exact congrArg some h

/-- A bucket has its own string. -/
theorem bucketString_inj {a b : Option TriageBucket}
    (h : (a.map TriageBucket.toString).getD "" = (b.map TriageBucket.toString).getD "") :
    a = b := by
  revert h
  cases a with
  | none =>
    cases b with
    | none => exact fun _ => rfl
    | some b => cases b <;> decide
  | some a =>
    cases b with
    | none => cases a <;> decide
    | some b => cases a <;> cases b <;> decide

theorem flagged_inj {a b : TriageEntry} (h : flagged.norm a = flagged.norm b) :
    a.flagged = b.flagged := by
  revert h
  simp only [ConflictProperty.norm]
  cases a.flagged with
  | none =>
    cases b.flagged with
    | none => exact fun _ => rfl
    | some y => cases y <;> exact fun h => absurd h (by decide)
  | some x =>
    cases b.flagged with
    | none => cases x <;> exact fun h => absurd h (by decide)
    | some y => cases x <;> cases y <;>
        first | exact fun _ => rfl | exact fun h => absurd h (by decide)

/-- Of plain entries, `entriesEqual` is the sameness of meaning. -/
theorem entriesEqual_iff_sameMeaning (ha : Plain a) (hb : Plain b) :
    entriesEqual a b = true ↔ SameMeaning a b := by
  constructor
  · intro h
    refine (sameMeaning_iff h).2 ?_
    rintro ⟨-, hr | hr⟩
    · exact hr.not_nodup hb.ignoredReports
    · exact hr.not_nodup hb.scopedIgnoredReports
  · intro h
    refine entriesEqual_iff.2
      { color := eq_of_getD_eq ha.color hb.color (h.norm .color)
        bucket := bucketString_inj (h.norm .triage)
        comment := h.norm .comment
        fix := h.norm .fix
        flagged := flagged_inj (h.norm .flagged)
        ignoredReports := ?_
        scopedIgnoredReports := ?_ }
    · exact ignoredReportsEqual_of_mem_iff ha.ignoredReports hb.ignoredReports h.ignoredReports
    · exact ignoredReportsEqual_of_mem_iff ha.scopedIgnoredReports hb.scopedIgnoredReports
        h.scopedIgnoredReports

/-! ### Round trip -/

theorem entriesEqual_refl (a : TriageEntry) : entriesEqual a a = true :=
  entriesEqual_iff.2 ⟨rfl, rfl, rfl, rfl, rfl, ignoredReportsEqual_iff.2 ⟨rfl, List.Subset.refl _⟩,
    ignoredReportsEqual_iff.2 ⟨rfl, List.Subset.refl _⟩⟩

/-- A finding of the changeset is one whose entries are not taken for the same. -/
theorem computeChangeset_apply (base target : TriageStateMap) (id : String) :
    computeChangeset base target id =
      if entriesEqual (orEmpty (base id)) (orEmpty (target id)) then none
      else some (target id) := by
  rw [computeChangeset, FMap.ofKeys_apply]
  split
  · rfl
  · rename_i h
    rw [Finset.mem_union, not_or] at h
    rw [FMap.eq_none_iff.mpr h.1, FMap.eq_none_iff.mpr h.2, if_pos (entriesEqual_refl _)]

theorem apply_computeChangeset (base target : TriageStateMap) (id : String) :
    applyChangeset base (computeChangeset base target) id =
      if entriesEqual (orEmpty (base id)) (orEmpty (target id)) then base id else target id := by
  rw [applyChangeset_apply, computeChangeset_apply]
  split
  · rfl
  · rfl

/-- **The round trip of a changeset**: applied to its base, it means what its target does, exactly
where no entry of the target passes for the base's by repeating its reports; and without repetitions
two entries are taken for the same exactly when they mean the same. -/
theorem changeset_round_trip (base target : TriageStateMap) :
    ((∀ id, SameMeaning (orEmpty (applyChangeset base (computeChangeset base target) id))
        (orEmpty (target id))) ↔
      ∀ id, ¬Hides (orEmpty (base id)) (orEmpty (target id))) ∧
    ∀ a b : TriageEntry, Plain a → Plain b → (entriesEqual a b = true ↔ SameMeaning a b) := by
  refine ⟨?_, fun a b => entriesEqual_iff_sameMeaning⟩
  refine forall_congr' fun id => ?_
  rw [apply_computeChangeset]
  by_cases h : entriesEqual (orEmpty (base id)) (orEmpty (target id)) = true
  · rw [if_pos h]
    exact sameMeaning_iff h
  · rw [if_neg h]
    exact iff_of_true (.refl _) fun hH => h hH.1

/-- A finding with two ignored reports in the base, and one of them twice in the target. -/
theorem repeated_report_hidden :
    ∃ base target : TriageStateMap, ¬∀ id,
      SameMeaning (orEmpty (applyChangeset base (computeChangeset base target) id))
        (orEmpty (target id)) := by
  refine ⟨.ofKeys {"f"} fun _ => some { TriageEntry.empty with ignoredReports := ["F", "G"] },
    .ofKeys {"f"} fun _ => some { TriageEntry.empty with ignoredReports := ["F", "F"] }, ?_⟩
  intro h
  have hG := (h "f").ignoredReports "G"
  rw [apply_computeChangeset] at hG
  exact absurd (hG.1 (by decide)) (by decide)

end Triage.Client
