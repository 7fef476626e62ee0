import Triage.Client.ChangesetMeaning

/-!
# Rebasing

`rebaseLocalState` replays what changed from the old base to the local state on top of a new base.
Fields are replayed one by one; the bucket and the ignored reports together, since a bucket other
than `ignored` excludes reports: where they cannot both stand, the local choice does.

## Main results

* `rebase_laws` : the laws of the three-way merge.
-/

namespace Triage.Client

open List Option TriageEntry Finset

variable {e b l r : TriageEntry}

/-! ### Normalized entries -/

theorem nonempty_nonempty (s : Option String) : nonempty (nonempty s) = nonempty s := by
  rw [nonempty, nonempty, Option.filter_filter]
  simp only [Bool.and_self]

/-- What is left of an entry that is empty. -/
theorem cleanEntry_of_entryIsEmpty (h : entryIsEmpty (cleanEntry e) = true) :
    cleanEntry e = .empty := by
  simp only [entryIsEmpty, Bool.and_eq_true, decide_eq_true_eq, List.isEmpty_iff] at h
  obtain ⟨⟨⟨⟨⟨hcolor, hbucket⟩, hcomment⟩, hfix⟩, hreports⟩, hflagged⟩ := h
  have hcolor : nonempty e.color = none := (nonempty_nonempty _).symm.trans hcolor
  have hcomment : nonempty e.comment = none := (nonempty_nonempty _).symm.trans hcomment
  have hfix : nonempty e.fix = none := (nonempty_nonempty _).symm.trans hfix
  have hbucket : bucketOf e = none := by
    have hclean : bucketOf (cleanEntry e) = bucketOf e := or_none
    rw [← hclean]
    exact hbucket
  have hreports : e.ignoredReports.filter (· ≠ "") = [] := hreports
  have hflagged : e.flagged = none := hflagged
  have hscoped : ((e.scopedIgnoredReports.filter (· ∈ ([] : List String))).eraseDups) = [] := by
    rw [filter_eq_nil_iff.2]
    · rfl
    · exact fun report _ => by simp
  rw [cleanEntry, hcolor, hbucket, hcomment, hfix, hreports, hflagged, hscoped]
  rfl

/-- What `normalizeEntry` leaves of an entry, the empty one where it leaves none. -/
theorem orEmpty_normalizeEntry (o : Option TriageEntry) :
    orEmpty (normalizeEntry o) = cleanEntry (orEmpty o) := by
  cases o with
  | none => rfl
  | some e =>
    rw [normalizeEntry, bind_some]
    split
    · rename_i h
      exact (cleanEntry_of_entryIsEmpty h).symm
    · rfl

/-- An entry as `normalizeEntry` leaves it. -/
def Normal (e : TriageEntry) : Prop := cleanEntry e = e

instance : Decidable (Normal e) := inferInstanceAs (Decidable (_ = _))

namespace Normal

variable (h : Normal e)

include h

theorem color : nonempty e.color = e.color := congrArg TriageEntry.color h

theorem comment : nonempty e.comment = e.comment := congrArg TriageEntry.comment h

theorem fix : nonempty e.fix = e.fix := congrArg TriageEntry.fix h

theorem bucketOf_eq : bucketOf e = e.triage := congrArg triage h

theorem legacyDeleted : e.legacyDeleted = false := (congrArg TriageEntry.legacyDeleted h).symm

theorem ignoredReports : e.ignoredReports.filter (· ≠ "") = e.ignoredReports :=
  congrArg TriageEntry.ignoredReports h

theorem mem_ignoredReports {report : String} (hr : report ∈ e.ignoredReports) : report ≠ "" := by
  rw [← h.ignoredReports, mem_filter] at hr
  exact of_decide_eq_true hr.2

theorem mem_scoped {report : String} (hr : report ∈ e.scopedIgnoredReports) :
    report ∈ e.ignoredReports := by
  have hs : ((e.scopedIgnoredReports.filter
      (· ∈ e.ignoredReports.filter (· ≠ ""))).eraseDups) = e.scopedIgnoredReports :=
    congrArg scopedIgnoredReports h
  rw [← hs, mem_eraseDups, mem_filter, h.ignoredReports] at hr
  exact of_decide_eq_true hr.2

end Normal

theorem normal_empty : Normal .empty := rfl

/-- A state whose entries are normalized. -/
def Normalized (s : TriageStateMap) : Prop := ∀ id, Normal (orEmpty (s id))

/-! ### The replay -/

/-- What the replay builds of an entry, before it is normalized. -/
def mergedEntry (preserveEntry : Bool) (before current theirs : TriageEntry) : TriageEntry :=
  have touched := preserveEntry || before.triage ≠ current.triage ||
    !ignoredReportsEqual before.ignoredReports current.ignoredReports
  have independentIgnores := !preserveEntry && allowsReportIgnores current &&
    allowsReportIgnores theirs
  { color := if before.color ≠ current.color ∨ preserveEntry then current.color else theirs.color
    comment := if before.comment ≠ current.comment ∨ preserveEntry then current.comment
      else theirs.comment
    fix := if before.fix ≠ current.fix ∨ preserveEntry then current.fix else theirs.fix
    flagged := if before.flagged ≠ current.flagged ∨ preserveEntry then current.flagged
      else theirs.flagged
    triage := if touched && (!independentIgnores || before.triage ≠ current.triage) then
      current.triage else theirs.triage
    ignoredReports := if !touched then theirs.ignoredReports
      else if independentIgnores then
        rebaseIgnoredReports before.ignoredReports current.ignoredReports theirs.ignoredReports
      else current.ignoredReports
    scopedIgnoredReports := (current.scopedIgnoredReports ++ theirs.scopedIgnoredReports).eraseDups
    legacyDeleted := theirs.legacyDeleted }

variable (preserve : Bool)

/-- The entry of a finding that either side of the replay has. -/
theorem rebaseEntry_eq (base loc remote : Option TriageEntry) :
    orEmpty (rebaseEntry preserve base loc remote) =
      cleanEntry (mergedEntry preserve (cleanEntry (orEmpty base)) (cleanEntry (orEmpty loc))
        (cleanEntry (orEmpty remote))) := by
  rw [← orEmpty_normalizeEntry base, ← orEmpty_normalizeEntry loc, ← orEmpty_normalizeEntry remote]
  exact orEmpty_normalizeEntry (some (mergedEntry preserve (orEmpty (normalizeEntry base))
    (orEmpty (normalizeEntry loc)) (orEmpty (normalizeEntry remote))))

theorem rebaseLocalState_apply (base loc remote : TriageStateMap) (preserve : Finset String)
    (id : String) : rebaseLocalState base loc remote preserve id =
      if id ∈ base.keys ∪ loc.keys ∪ preserve then
        rebaseEntry (id ∈ preserve) (base id) (loc id) (remote id)
      else remote id := by
  rw [rebaseLocalState, FMap.ofKeys_apply]
  by_cases hid : id ∈ base.keys ∪ loc.keys ∪ preserve
  · rw [if_pos (mem_union_right _ hid)]
  · by_cases hr : id ∈ remote.keys
    · rw [if_pos (mem_union_left _ hr)]
    · rw [if_neg hid, if_neg, FMap.eq_none_iff.mpr hr]
      rw [mem_union, not_or]
      exact ⟨hr, hid⟩

theorem mem_rebaseIgnoredReports {base loc remote : List String} {report : String} :
    report ∈ rebaseIgnoredReports base loc remote ↔
      (report ∈ remote ∧ ¬(report ∈ base ∧ report ∉ loc)) ∨ (report ∈ loc ∧ report ∉ base) := by
  simp only [rebaseIgnoredReports, mem_append, mem_filter, mem_eraseDups, decide_eq_true_eq]
  tauto

/-! ### The laws -/

/-- Two entries have the same reports. -/
def SameReports (a b : TriageEntry) : Prop :=
  ∀ report, report ∈ a.ignoredReports ↔ report ∈ b.ignoredReports

instance (a b : TriageEntry) : Decidable (SameReports a b) :=
  decidable_of_iff ((∀ report ∈ a.ignoredReports, report ∈ b.ignoredReports) ∧
      ∀ report ∈ b.ignoredReports, report ∈ a.ignoredReports)
    ⟨fun h report => ⟨h.1 report, h.2 report⟩,
      fun h => ⟨fun report => (h report).1, fun report => (h report).2⟩⟩

/-- What the merge of a local and a remote entry takes from each. -/
structure RebaseLaws (b l r m : TriageEntry) : Prop where
  color : m.color = if l.color ≠ b.color then l.color else r.color
  comment : m.comment = if l.comment ≠ b.comment then l.comment else r.comment
  fix : m.fix = if l.fix ≠ b.fix then l.fix else r.fix
  flagged : m.flagged = if l.flagged ≠ b.flagged then l.flagged else r.flagged
  /-- The local bucket goes with local reports that it and the remote bucket do not both allow. -/
  local_triage : (l.triage ≠ b.triage ∨ (¬SameReports b l ∧
    ¬(allowsReportIgnores l = true ∧ allowsReportIgnores r = true))) → m.triage = l.triage
  remote_triage : ¬(l.triage ≠ b.triage ∨ (¬SameReports b l ∧
    ¬(allowsReportIgnores l = true ∧ allowsReportIgnores r = true))) → m.triage = r.triage
  ignoredReports : allowsReportIgnores l = true → allowsReportIgnores r = true →
    ∀ report, report ∈ m.ignoredReports ↔
      (report ∈ r.ignoredReports ∧ ¬(report ∈ b.ignoredReports ∧ report ∉ l.ignoredReports)) ∨
        (report ∈ l.ignoredReports ∧ report ∉ b.ignoredReports)
  excluded : ¬(allowsReportIgnores l = true ∧ allowsReportIgnores r = true) → ∀ report,
    report ∈ m.ignoredReports ↔ if l.triage ≠ b.triage ∨ ¬SameReports b l then
      report ∈ l.ignoredReports else report ∈ r.ignoredReports
  scopedIgnoredReports : ∀ report, report ∈ m.scopedIgnoredReports ↔
    report ∈ m.ignoredReports ∧
      (report ∈ l.scopedIgnoredReports ∨ report ∈ r.scopedIgnoredReports)

theorem ite_congr_ne {α : Type*} [DecidableEq α] {x y u v : α} :
    (if x ≠ y ∨ false = true then u else v) = if y ≠ x then u else v := by
  by_cases h : x = y
  · rw [if_neg (by simp [h]), if_neg (by simp [h])]
  · rw [if_pos (.inl h), if_pos (Ne.symm h)]

theorem nonempty_ite {c : Prop} [Decidable c] {s u : Option String} (hs : nonempty s = s)
    (hu : nonempty u = u) : nonempty (if c then s else u) = if c then s else u := by
  split
  · exact hs
  · exact hu

/-- The reports of a merged entry, all of them strings that count. -/
theorem ignoredReports_mergedEntry (hl : Normal l) (hr : Normal r) :
    (mergedEntry preserve b l r).ignoredReports.filter (· ≠ "") =
      (mergedEntry preserve b l r).ignoredReports := by
  refine List.filter_eq_self.2 fun report hm => decide_eq_true ?_
  simp only [mergedEntry] at hm
  split at hm
  · exact hr.mem_ignoredReports hm
  · split at hm
    · rcases mem_rebaseIgnoredReports.1 hm with h | h
      · exact hr.mem_ignoredReports h.1
      · exact hl.mem_ignoredReports h.1
    · exact hl.mem_ignoredReports hm

theorem bucketOf_mergedEntry (hr : Normal r) :
    bucketOf (mergedEntry preserve b l r) = (mergedEntry preserve b l r).triage := by
  have hlegacy : (mergedEntry preserve b l r).legacyDeleted = false := hr.legacyDeleted
  rw [bucketOf, hlegacy]
  exact or_none

/-- Lists without repetitions are taken for the same where they are. -/
theorem ignoredReportsEqual_iff_sameReports (hb : b.ignoredReports.Nodup)
    (hl : l.ignoredReports.Nodup) :
    ignoredReportsEqual b.ignoredReports l.ignoredReports = true ↔ SameReports b l :=
  ⟨fun h => mem_iff_of_equal h fun hr => hr.not_nodup hl,
    fun h => ignoredReportsEqual_of_mem_iff hb hl h⟩

/-- Whether the bucket and the reports are replayed. -/
theorem touched_iff (hbd : b.ignoredReports.Nodup) (hld : l.ignoredReports.Nodup) :
    (false || decide (b.triage ≠ l.triage) ||
      !ignoredReportsEqual b.ignoredReports l.ignoredReports) = true ↔
    l.triage ≠ b.triage ∨ ¬SameReports b l := by
  rw [← ignoredReportsEqual_iff_sameReports hbd hld, Bool.false_or, Bool.or_eq_true,
    decide_eq_true_eq, Bool.not_eq_true', Bool.not_eq_true, ne_comm]

theorem independent_iff : (!false && allowsReportIgnores l && allowsReportIgnores r) = true ↔
    allowsReportIgnores l = true ∧ allowsReportIgnores r = true := by
  rw [Bool.not_false, Bool.true_and, Bool.and_eq_true]

theorem triage_mergedEntry (hbd : b.ignoredReports.Nodup) (hld : l.ignoredReports.Nodup) :
    (mergedEntry false b l r).triage =
      if (l.triage ≠ b.triage ∨ ¬SameReports b l) ∧
        (¬(allowsReportIgnores l = true ∧ allowsReportIgnores r = true) ∨ l.triage ≠ b.triage) then
        l.triage else r.triage := by
  rw [mergedEntry]
  refine if_congr ?_ rfl rfl
  rw [Bool.and_eq_true, touched_iff hbd hld, Bool.or_eq_true, decide_eq_true_eq,
    Bool.not_eq_true', ← Bool.not_eq_true, independent_iff, ne_comm]

theorem mem_ignoredReports_mergedEntry (hbd : b.ignoredReports.Nodup)
    (hld : l.ignoredReports.Nodup) (report : String) :
    report ∈ (mergedEntry false b l r).ignoredReports ↔
      if l.triage ≠ b.triage ∨ ¬SameReports b l then
        if allowsReportIgnores l = true ∧ allowsReportIgnores r = true then
          (report ∈ r.ignoredReports ∧ ¬(report ∈ b.ignoredReports ∧ report ∉ l.ignoredReports)) ∨
            (report ∈ l.ignoredReports ∧ report ∉ b.ignoredReports)
        else report ∈ l.ignoredReports
      else report ∈ r.ignoredReports := by
  simp only [mergedEntry]
  by_cases ht : l.triage ≠ b.triage ∨ ¬SameReports b l
  · rw [if_pos ht, (touched_iff hbd hld).2 ht]
    by_cases hi : allowsReportIgnores l = true ∧ allowsReportIgnores r = true
    · rw [if_pos hi, independent_iff.2 hi]
      exact mem_rebaseIgnoredReports
    · rw [if_neg hi, Bool.eq_false_iff.2 fun h => hi (independent_iff.1 h)]
      rfl
  · rw [if_neg ht, Bool.eq_false_iff.2 fun h => ht ((touched_iff hbd hld).1 h)]
    rfl

/-- The replay of one finding meets the laws. -/
theorem rebaseLaws_mergedEntry (hl : Normal l) (hr : Normal r)
    (hbd : b.ignoredReports.Nodup) (hld : l.ignoredReports.Nodup) :
    RebaseLaws b l r (cleanEntry (mergedEntry false b l r)) := by
  have hreports : (cleanEntry (mergedEntry false b l r)).ignoredReports =
      (mergedEntry false b l r).ignoredReports := ignoredReports_mergedEntry false hl hr
  have htriage : (cleanEntry (mergedEntry false b l r)).triage = _ :=
    (bucketOf_mergedEntry false hr).trans (triage_mergedEntry hbd hld)
  refine ⟨?_, ?_, ?_, ?_, fun h => ?_, fun h => ?_, fun hal har report => ?_, fun h report => ?_,
    fun report => ?_⟩
  · exact (nonempty_ite hl.color hr.color).trans ite_congr_ne
  · exact (nonempty_ite hl.comment hr.comment).trans ite_congr_ne
  · exact (nonempty_ite hl.fix hr.fix).trans ite_congr_ne
  · exact ite_congr_ne
  · rw [htriage]
    split
    · rfl
    · tauto
  · rw [htriage, if_neg]
    tauto
  · rw [hreports, mem_ignoredReports_mergedEntry hbd hld, if_pos (And.intro hal har)]
    split
    · rfl
    · rename_i h
      rw [not_or, not_not, not_not] at h
      have hsame := h.2 report
      tauto
  · rw [hreports, mem_ignoredReports_mergedEntry hbd hld, if_neg h]
  · simp only [cleanEntry, mergedEntry, mem_eraseDups, mem_filter, mem_append, decide_eq_true_eq]
    tauto

/-- Neither side has the finding. -/
theorem rebaseLaws_untouched (hr : Normal r) : RebaseLaws .empty .empty r r := by
  refine ⟨rfl, rfl, rfl, rfl, fun h => ?_, fun _ => rfl, fun _ _ report => ?_, fun _ report => ?_,
    fun report => ?_⟩
  · rcases h with h | h
    · exact absurd rfl h
    · exact absurd (fun _ => Iff.rfl) h.1
  · simp [empty]
  · rw [if_neg]
    rintro (h | h)
    · exact h rfl
    · exact h fun _ => Iff.rfl
  · refine ⟨fun h => ⟨hr.mem_scoped h, .inr h⟩, ?_⟩
    rintro ⟨-, h | h⟩
    · cases h
    · exact h

/-- An entry is another one, but for markers that retained reports may have more of. -/
structure SameUpToMarkers (e m : TriageEntry) : Prop where
  color : m.color = e.color
  triage : m.triage = e.triage
  comment : m.comment = e.comment
  fix : m.fix = e.fix
  flagged : m.flagged = e.flagged
  ignoredReports : ∀ report, report ∈ m.ignoredReports ↔ report ∈ e.ignoredReports
  scopedIgnoredReports : ∀ report ∈ e.scopedIgnoredReports, report ∈ m.scopedIgnoredReports

theorem SameReports.refl (e : TriageEntry) : SameReports e e := fun _ => Iff.rfl

variable {m : TriageEntry}

/-- Nothing changed locally. -/
theorem RebaseLaws.remote (h : RebaseLaws b b r m) (hr : Normal r) : SameUpToMarkers r m := by
  have hsame := SameReports.refl b
  have hreports : ∀ report, report ∈ m.ignoredReports ↔ report ∈ r.ignoredReports := by
    intro report
    by_cases hi : allowsReportIgnores b = true ∧ allowsReportIgnores r = true
    · rw [h.ignoredReports hi.1 hi.2]
      tauto
    · rw [h.excluded hi, if_neg]
      tauto
  refine ⟨?_, ?_, ?_, ?_, ?_, hreports, fun report hs => ?_⟩
  · rw [h.color, if_neg (not_not.2 rfl)]
  · refine h.remote_triage ?_
    tauto
  · rw [h.comment, if_neg (not_not.2 rfl)]
  · rw [h.fix, if_neg (not_not.2 rfl)]
  · rw [h.flagged, if_neg (not_not.2 rfl)]
  · rw [h.scopedIgnoredReports, hreports]
    exact ⟨hr.mem_scoped hs, .inr hs⟩

theorem ite_ne_self {α : Type*} [DecidableEq α] (x y : α) : (if x ≠ y then x else y) = x := by
  split
  · rfl
  · rename_i h
    exact (not_not.1 h).symm

/-- Nothing changed at the other side. -/
theorem RebaseLaws.loc (h : RebaseLaws b l b m) (hl : Normal l) : SameUpToMarkers l m := by
  have hreports : ∀ report, report ∈ m.ignoredReports ↔ report ∈ l.ignoredReports := by
    intro report
    by_cases hi : allowsReportIgnores l = true ∧ allowsReportIgnores b = true
    · rw [h.ignoredReports hi.1 hi.2]
      tauto
    · rw [h.excluded hi]
      split
      · rfl
      · rename_i ht
        rw [not_or, not_not, not_not] at ht
        exact ht.2 report
  refine ⟨?_, ?_, ?_, ?_, ?_, hreports, fun report hs => ?_⟩
  · rw [h.color, ite_ne_self]
  · by_cases ht : l.triage ≠ b.triage ∨ (¬SameReports b l ∧
        ¬(allowsReportIgnores l = true ∧ allowsReportIgnores b = true))
    · exact h.local_triage ht
    · rw [h.remote_triage ht]
      rw [not_or, not_not] at ht
      exact ht.1.symm
  · rw [h.comment, ite_ne_self]
  · rw [h.fix, ite_ne_self]
  · rw [h.flagged, ite_ne_self]
  · rw [h.scopedIgnoredReports, hreports]
    exact ⟨hl.mem_scoped hs, .inl hs⟩

/-- A bucket that excludes reports has none. -/
def Mutex (e : TriageEntry) : Prop := allowsReportIgnores e = false → e.ignoredReports = []

theorem eq_nil_of_mem_iff {s u : List String} (h : ∀ report, report ∈ s ↔ report ∈ u)
    (hu : u = []) : s = [] := by
  subst hu
  exact eq_nil_iff_forall_not_mem.2 fun report hr => by simpa using (h report).1 hr

/-- Both sides exclude, and so does the merge. -/
theorem RebaseLaws.mutex (h : RebaseLaws b l r m) (hbucket : bucketOf m = m.triage)
    (hl : Normal l) (hr : Normal r) (hlm : Mutex l) (hrm : Mutex r) : Mutex m := by
  have hcongr : ∀ e : TriageEntry, Normal e → m.triage = e.triage →
      allowsReportIgnores m = allowsReportIgnores e := by
    intro e he heq
    rw [allowsReportIgnores, allowsReportIgnores, hbucket, he.bucketOf_eq, heq]
  intro hm
  by_cases ht : l.triage ≠ b.triage ∨ (¬SameReports b l ∧
      ¬(allowsReportIgnores l = true ∧ allowsReportIgnores r = true))
  · have hal := (hcongr l hl (h.local_triage ht)).symm.trans hm
    have hi : ¬(allowsReportIgnores l = true ∧ allowsReportIgnores r = true) := by
      rw [hal]
      exact fun h => Bool.false_ne_true h.1
    refine eq_nil_of_mem_iff (fun report => ?_) (hlm hal)
    rw [h.excluded hi, if_pos (ht.imp_right And.left)]
  · have har := (hcongr r hr (h.remote_triage ht)).symm.trans hm
    have hi : ¬(allowsReportIgnores l = true ∧ allowsReportIgnores r = true) := by
      rw [har]
      exact fun h => Bool.false_ne_true h.2
    refine eq_nil_of_mem_iff (fun report => ?_) (hrm har)
    rw [h.excluded hi, if_neg]
    tauto

/-! ### States -/

variable {base loc remote : TriageStateMap} {id : String}

theorem rebaseLaws_state (hb : Normalized base) (hl : Normalized loc) (hr : Normalized remote)
    (hbd : ∀ id, (orEmpty (base id)).ignoredReports.Nodup)
    (hld : ∀ id, (orEmpty (loc id)).ignoredReports.Nodup) {preserve : Finset String}
    (hid : id ∉ preserve) :
    RebaseLaws (orEmpty (base id)) (orEmpty (loc id)) (orEmpty (remote id))
        (orEmpty (rebaseLocalState base loc remote preserve id)) ∧
      bucketOf (orEmpty (rebaseLocalState base loc remote preserve id)) =
        (orEmpty (rebaseLocalState base loc remote preserve id)).triage := by
  rw [rebaseLocalState_apply]
  split
  · rw [rebaseEntry_eq, hb id, hl id, hr id, decide_eq_false hid]
    exact ⟨rebaseLaws_mergedEntry (hl id) (hr id) (hbd id) (hld id), or_none⟩
  · rename_i h
    simp only [mem_union, not_or] at h
    rw [FMap.eq_none_iff.mpr h.1.1, FMap.eq_none_iff.mpr h.1.2]
    exact ⟨rebaseLaws_untouched (hr id), (hr id).bucketOf_eq⟩

/-- A preserved finding keeps the local bucket and reports. -/
theorem mutex_preserved (hl : Normal l) (hr : Normal r) (hlm : Mutex l) :
    Mutex (cleanEntry (mergedEntry true b l r)) := by
  have hbucket : bucketOf (cleanEntry (mergedEntry true b l r)) = l.triage :=
    or_none.trans (bucketOf_mergedEntry true hr)
  have hreports : (cleanEntry (mergedEntry true b l r)).ignoredReports = l.ignoredReports :=
    ignoredReports_mergedEntry true hl hr
  intro hm
  rw [hreports]
  refine hlm ?_
  rw [← hm, allowsReportIgnores, allowsReportIgnores, hbucket, hl.bucketOf_eq]

/-- **The laws of the three-way merge**: each field is the local one where it was changed locally,
and the remote one otherwise; nothing comes of no change on either side; the bucket and the ignored
reports exclude each other if they did; and the other findings are left alone. -/
theorem rebase_laws (hb : Normalized base) (hl : Normalized loc) (hr : Normalized remote)
    (hbd : ∀ id, (orEmpty (base id)).ignoredReports.Nodup)
    (hld : ∀ id, (orEmpty (loc id)).ignoredReports.Nodup) (preserve : Finset String) :
    (∀ id ∉ preserve, RebaseLaws (orEmpty (base id)) (orEmpty (loc id)) (orEmpty (remote id))
      (orEmpty (rebaseLocalState base loc remote preserve id))) ∧
    (∀ id ∉ preserve, SameUpToMarkers (orEmpty (remote id))
      (orEmpty (rebaseLocalState base base remote preserve id))) ∧
    (∀ id ∉ preserve, SameUpToMarkers (orEmpty (loc id))
      (orEmpty (rebaseLocalState base loc base preserve id))) ∧
    ((∀ id, Mutex (orEmpty (loc id)) ∧ Mutex (orEmpty (remote id))) →
      ∀ id, Mutex (orEmpty (rebaseLocalState base loc remote preserve id))) ∧
    ∀ id ∉ base.keys ∪ loc.keys ∪ preserve,
      rebaseLocalState base loc remote preserve id = remote id := by
  refine ⟨fun id hid => (rebaseLaws_state hb hl hr hbd hld hid).1, fun id hid => ?_,
    fun id hid => ?_, fun hm id => ?_, fun id hid => ?_⟩
  · exact (rebaseLaws_state hb hb hr hbd hbd hid).1.remote (hr id)
  · exact (rebaseLaws_state hb hl hb hbd hld hid).1.loc (hl id)
  · by_cases hid : id ∈ preserve
    · rw [rebaseLocalState_apply, if_pos (Finset.mem_union_right _ hid), rebaseEntry_eq, hb id,
        hl id, hr id, decide_eq_true hid]
      exact mutex_preserved (hl id) (hr id) (hm id).1
    · obtain ⟨hlaws, hbucket⟩ := rebaseLaws_state hb hl hr hbd hld hid
      exact hlaws.mutex hbucket (hl id) (hr id) (hm id).1 (hm id).2
  · rw [rebaseLocalState_apply, if_neg hid]

/-- The state of one finding. -/
def oneEntry (e : TriageEntry) : TriageStateMap := .ofKeys {"f"} fun _ => some e

theorem oneEntry_apply (e : TriageEntry) (id : String) :
    orEmpty (oneEntry e id) = if id = "f" then e else .empty := by
  rw [oneEntry, FMap.ofKeys_apply]
  simp only [Finset.mem_singleton]
  split
  · rfl
  · rfl

theorem normalized_oneEntry (h : Normal e) : Normalized (oneEntry e) := by
  intro id
  rw [oneEntry_apply]
  split
  · exact h
  · exact normal_empty

theorem nodup_oneEntry (h : e.ignoredReports.Nodup) (id : String) :
    (orEmpty (oneEntry e id)).ignoredReports.Nodup := by
  rw [oneEntry_apply]
  split
  · exact h
  · exact nodup_nil

/-- A report is ignored on one side, and the finding colored on the other. -/
theorem rebase_laws_colored :
    (orEmpty (rebaseLocalState (oneEntry .empty)
      (oneEntry { TriageEntry.empty with ignoredReports := ["a"] })
      (oneEntry { TriageEntry.empty with color := some "red" }) ∅ "f")).color = some "red" ∧
    SameUpToMarkers { TriageEntry.empty with ignoredReports := ["a"] }
      (orEmpty (rebaseLocalState (oneEntry .empty)
        (oneEntry { TriageEntry.empty with ignoredReports := ["a"] })
        (oneEntry .empty) ∅ "f")) := by
  have hlaws := rebase_laws (normalized_oneEntry normal_empty)
    (normalized_oneEntry (e := { TriageEntry.empty with ignoredReports := ["a"] }) (by decide))
    (normalized_oneEntry (e := { TriageEntry.empty with color := some "red" }) (by decide))
    (nodup_oneEntry nodup_nil) (nodup_oneEntry (by decide)) ∅
  refine ⟨?_, ?_⟩
  · exact (hlaws.1 "f" (Finset.notMem_empty _)).color.trans (by decide)
  · have hsame := hlaws.2.2.1 "f" (Finset.notMem_empty _)
    rwa [oneEntry_apply, if_pos rfl] at hsame

/-- A verdict of the other side gives way to a report that is ignored here, although the local
bucket was not changed. -/
theorem verdict_gives_way : ∃ base loc remote : TriageStateMap,
    Normalized base ∧ Normalized loc ∧ Normalized remote ∧
      (orEmpty (loc "f")).triage = (orEmpty (base "f")).triage ∧
      (orEmpty (rebaseLocalState base loc remote ∅ "f")).triage ≠ (orEmpty (remote "f")).triage :=
  ⟨oneEntry .empty, oneEntry { TriageEntry.empty with ignoredReports := ["a"] },
    oneEntry { TriageEntry.empty with triage := some .fixed }, normalized_oneEntry normal_empty,
    normalized_oneEntry (by decide), normalized_oneEntry (by decide), by decide, by decide⟩

end Triage.Client
