import Triage.Client.IgnoreMerging

/-!
# Importing the triage of a workspace

What the client has stays in a conflict, until a dialog is answered, which may be late: an answer
counts where the client still has what it had. The bucket of an import drops ignores that it
excludes, wherever it is adopted. The ignores are filed at last.

## Main results

* `workspace_merge_right` : every import does that.
-/

namespace Triage.Client

open List Standing

/-! ### The dialog -/

def ConflictProperty.name : ConflictProperty → String
  | .color => "color"
  | .triage => "triage"
  | .comment => "comment"
  | .fix => "fix"
  | .flagged => "flagged"

/-- The conflicts of a finding; the client's value is that of before, as no other property's patch
changes it. -/
def handed (map entries : TriageStateMap) (id : String) : List Conflict :=
  (mergeConflicts map entries id).map fun p =>
    ⟨id, p, p.norm (orEmpty (map id)), p.norm (orEmpty (entries id))⟩

/-- What is answered, by key; anything but `imported` leaves the client's value. -/
abbrev Decisions := String → Option String

/-- A conflict is decided for the import, and the client's value is what it was. -/
def Conflict.Taken (decisions : Decisions) (cur : Option TriageEntry) (c : Conflict) : Prop :=
  decisions (c.id ++ ":" ++ c.property.name) = some "imported" ∧
    c.property.norm (orEmpty cur) = c.localValue

instance (decisions : Decisions) (cur : Option TriageEntry) (c : Conflict) :
    Decidable (c.Taken decisions cur) := inferInstanceAs (Decidable (_ ∧ _))

def applyDecision (x : TriageEntry) (decisions : Decisions) (cur : Option TriageEntry)
    (c : Conflict) : Option TriageEntry :=
  if c.Taken decisions cur then patchEntry cur (c.property.take x) else cur

/-- `applyConflictDecisions`, where the triage is `now`. -/
def applyConflictDecisions (map entries now : TriageStateMap) (decisions : Decisions) :
    TriageStateMap :=
  .ofKeys (now.keys ∪ entries.keys) fun id =>
    (entries id).elim (now id) fun x =>
      (handed map entries id).foldl (applyDecision x decisions) (now id)

/-- What an import leaves when the dialog, if any, was answered while the triage was `now`;
`saveTriage` files the ignores of the reports that are loaded. -/
def importTriage (map entries now : TriageStateMap) (decisions : Decisions)
    (loaded : List (String × List Occurrence)) : TriageStateMap :=
  migrateIgnoredReports (applyConflictDecisions map entries now decisions) loaded

variable {map entries now : TriageStateMap} {decisions : Decisions} {x : TriageEntry}
  {cur : Option TriageEntry} {id r : String} {cs : List Conflict} {s : Standing}
  {loaded : List (String × List Occurrence)}

/-- Some conflict about a property is decided for the import. -/
def Decided (decisions : Decisions) (cs : List Conflict) (cur : Option TriageEntry)
    (p : ConflictProperty) : Prop :=
  ∃ c ∈ cs, c.property = p ∧ c.Taken decisions cur

instance (decisions : Decisions) (cs : List Conflict) (cur : Option TriageEntry)
    (p : ConflictProperty) : Decidable (Decided decisions cs cur p) :=
  inferInstanceAs (Decidable (∃ c ∈ cs, _))

/-! ### The answers -/

variable {p : ConflictProperty}

theorem decided_cons {c : Conflict} : Decided decisions (c :: cs) cur p ↔
    c.property = p ∧ c.Taken decisions cur ∨ Decided decisions cs cur p := by
  simp only [Decided, mem_cons, exists_eq_or_imp]

/-- Whether a property is decided depends on no other. -/
theorem decided_congr {cur' : Option TriageEntry}
    (h : p.norm (orEmpty cur') = p.norm (orEmpty cur)) :
    Decided decisions cs cur' p ↔ Decided decisions cs cur p := by
  refine exists_congr fun c => and_congr_right fun _ => and_congr_right ?_
  rintro rfl
  rw [Conflict.Taken, Conflict.Taken, h]

theorem norm_applyDecisions (hcs : ∀ c ∈ cs, c.property.norm x ≠ "") (p : ConflictProperty) :
    p.norm (orEmpty (cs.foldl (applyDecision x decisions) cur)) =
      if Decided decisions cs cur p then p.norm x else p.norm (orEmpty cur) := by
  induction cs generalizing cur with
  | nil => exact (if_neg fun h => absurd h.choose_spec.1 not_mem_nil).symm
  | cons c cs ih =>
    obtain ⟨hc, hcs⟩ := forall_mem_cons.1 hcs
    rw [foldl_cons, ih hcs, applyDecision]
    by_cases htaken : c.Taken decisions cur
    · rw [if_pos htaken]
      have hnorm : p.norm (orEmpty (patchEntry cur (c.property.take x))) =
          if p = c.property then p.norm x else p.norm (orEmpty cur) := by
        rw [norm_patchEntry, norm_take hc]
      by_cases hp : p = c.property
      · rw [hnorm, if_pos hp, ite_self, if_pos (decided_cons.2 (.inl ⟨hp.symm, htaken⟩))]
      · rw [if_neg hp] at hnorm
        rw [hnorm]
        refine if_congr ((decided_congr hnorm).trans ?_) rfl rfl
        exact (decided_cons.trans (or_iff_right fun h => hp h.1.symm)).symm
    · rw [if_neg htaken]
      exact if_congr (decided_cons.trans (or_iff_right fun h => htaken h.2)).symm rfl rfl

theorem standing_applyDecisions (hcs : ∀ c ∈ cs, c.property.norm x ≠ "") (hcur : Kept cur) :
    Kept (cs.foldl (applyDecision x decisions) cur) ∧
      standing (cs.foldl (applyDecision x decisions) cur) =
        if Decided decisions cs cur .triage then (standing cur).take (bucketOf x)
        else standing cur := by
  induction cs generalizing cur with
  | nil => exact ⟨hcur, (if_neg fun h => absurd h.choose_spec.1 not_mem_nil).symm⟩
  | cons c cs ih =>
    obtain ⟨hc, hcs⟩ := forall_mem_cons.1 hcs
    rw [foldl_cons, applyDecision]
    by_cases htaken : c.Taken decisions cur
    · have hpatched : Kept (patchEntry cur (c.property.take x)) := kept_patchEntry hcur
      obtain ⟨hkept, hrest⟩ := ih hcs hpatched
      rw [if_pos htaken]
      refine ⟨hkept, hrest.trans ?_⟩
      rw [standing_take hcur hc]
      by_cases hp : c.property = .triage
      · rw [if_pos hp, Standing.take_take, ite_self, if_pos (decided_cons.2 (.inl ⟨hp, htaken⟩))]
      · have hnorm : ConflictProperty.triage.norm
            (orEmpty (patchEntry cur (c.property.take x))) =
            ConflictProperty.triage.norm (orEmpty cur) := by
          rw [norm_patchEntry, norm_take hc, if_neg (Ne.symm hp)]
        rw [if_neg hp]
        refine if_congr ((decided_congr hnorm).trans ?_) rfl rfl
        exact (decided_cons.trans (or_iff_right fun h => hp h.1)).symm
    · rw [if_neg htaken]
      obtain ⟨hkept, hrest⟩ := ih hcs hcur
      refine ⟨hkept, hrest.trans ?_⟩
      exact if_congr (decided_cons.trans (or_iff_right fun h => htaken h.2)).symm rfl rfl

/-! ### Findings -/

theorem mem_handed {c : Conflict} : c ∈ handed map entries id ↔
    c.property ∈ mergeConflicts map entries id ∧ c = ⟨id, c.property,
      c.property.norm (orEmpty (map id)), c.property.norm (orEmpty (entries id))⟩ := by
  rw [handed, mem_map]
  constructor
  · rintro ⟨p, hp, rfl⟩
    exact ⟨hp, rfl⟩
  · rintro ⟨hp, hc⟩
    exact ⟨c.property, hp, hc.symm⟩

theorem norm_handed : ∀ c ∈ handed map entries id, c.property.norm (orEmpty (entries id)) ≠ "" :=
  fun _ hc => (mem_mergeConflicts.1 (mem_handed.1 hc).1).1

open Classical in
theorem standing_mergeTriage (hm : ∀ id, Kept (map id)) (id : String) :
    Kept (mergeTriage map entries id) ∧
      standing (mergeTriage map entries id) = join (orEmpty (entries id))
        (if (standing (map id)).bucket = none ∧ bucketOf (orEmpty (entries id)) ≠ none then
          (standing (map id)).take (bucketOf (orEmpty (entries id)))
        else standing (map id)) := by
  rw [mergeTriage_apply]
  rcases entries id with _ | x
  · refine ⟨hm id, ?_⟩
    have hnone : ∀ r, ¬Ignores (orEmpty none) r := fun r h => absurd h.2 not_mem_nil
    rw [if_neg fun h => h.2 rfl]
    ext1
    · rfl
    · exact funext fun r => propext (or_iff_left fun h => hnone r h.2).symm
    · exact funext fun r => propext (or_iff_left fun h => hnone r h.2.1).symm
  · exact standing_mergeEntry (hm id)

theorem applyConflictDecisions_apply (id : String) :
    applyConflictDecisions map entries now decisions id =
      (handed map entries id).foldl (applyDecision (orEmpty (entries id)) decisions) (now id) := by
  rw [applyConflictDecisions, FMap.ofKeys_apply]
  rcases hx : entries id with _ | x
  · have hnone : handed map entries id = [] := by rw [handed, mergeConflicts, hx]; rfl
    rw [hnone]
    split
    · rfl
    · rename_i hkey
      rw [Finset.mem_union, not_or] at hkey
      exact (FMap.eq_none_iff.2 hkey.1).symm
  · exact if_pos (Finset.mem_union_right _ (FMap.isSome_of_eq hx))

theorem kept_applyConflictDecisions (hnow : ∀ id, Kept (now id)) (id : String) :
    Kept (applyConflictDecisions map entries now decisions id) := by
  rw [applyConflictDecisions_apply]
  exact (standing_applyDecisions norm_handed (hnow id)).1

open Classical in
/-- What is left of a finding: the answer for the bucket, and the reports filed. -/
theorem standing_importTriage (hnow : ∀ id, Kept (now id)) (id : String) :
    Kept (importTriage map entries now decisions loaded id) ∧
      standing (importTriage map entries now decisions loaded id) = fileAll loaded id
        (if Decided decisions (handed map entries id) (now id) .triage then
          (standing (now id)).take (bucketOf (orEmpty (entries id))) else standing (now id)) := by
  obtain ⟨hkept, hfiled⟩ :=
    standing_migrateIgnoredReports (kept_applyConflictDecisions hnow) loaded id
  refine ⟨hkept, hfiled.trans ?_⟩
  rw [applyConflictDecisions_apply, (standing_applyDecisions norm_handed (hnow id)).2]
  rfl

theorem norm_importTriage (hp : p ≠ .triage) (id : String) :
    p.norm (orEmpty (importTriage map entries now decisions loaded id)) =
      if Decided decisions (handed map entries id) (now id) p then p.norm (orEmpty (entries id))
      else p.norm (orEmpty (now id)) := by
  rw [← norm_applyDecisions norm_handed, ← applyConflictDecisions_apply]
  exact (migrated_migrateIgnoredReports _ loaded id).norm p hp

/-- What an import with its answers does. -/
structure MergeRight (map entries now : TriageStateMap) (decisions : Decisions)
    (loaded : List (String × List Occurrence)) : Prop where
  /-- What the client lacks is the import's. -/
  merged : ∀ id (p : ConflictProperty), p.norm (orEmpty (mergeTriage map entries id)) =
    if p.norm (orEmpty (map id)) = "" then p.norm (orEmpty (entries id))
    else p.norm (orEmpty (map id))
  /-- The dialog is about what both have, and not the same. -/
  handed : ∀ id (c : Conflict), c ∈ handed map entries id ↔
    (c.property.norm (orEmpty (entries id)) ≠ "" ∧ c.property.norm (orEmpty (map id)) ≠ "" ∧
      c.property.norm (orEmpty (map id)) ≠ c.property.norm (orEmpty (entries id))) ∧
    c = ⟨id, c.property, c.property.norm (orEmpty (map id)),
      c.property.norm (orEmpty (entries id))⟩
  /-- What the client has then stays but for what is decided for the import. -/
  decided : ∀ id (p : ConflictProperty),
    p.norm (orEmpty (applyConflictDecisions map entries now decisions id)) =
    if Decided decisions (Client.handed map entries id) (now id) p then
      p.norm (orEmpty (entries id))
    else p.norm (orEmpty (now id))
  /-- The ignores are joined where the bucket is none that excludes them; one that is adopted drops
  those of the client. -/
  joined : ∀ id r, Ignores (orEmpty (mergeTriage map entries id)) r ↔
    Ignores (orEmpty (map id)) r ∧ (bucketOf (orEmpty (map id)) = none →
      bucketOf (orEmpty (entries id)) = none ∨
        bucketOf (orEmpty (entries id)) = some .ignored) ∨
    allowsReportIgnores (orEmpty (mergeTriage map entries id)) = true ∧
      Ignores (orEmpty (entries id)) r
  /-- So does one that is decided for. -/
  kept : ∀ id r, Ignores (orEmpty (applyConflictDecisions map entries now decisions id)) r ↔
    Ignores (orEmpty (now id)) r ∧
      (Decided decisions (Client.handed map entries id) (now id) .triage →
        bucketOf (orEmpty (entries id)) = some .ignored)
  exclusive : ((∀ id, (standing (map id)).Exclusive) →
      ∀ id, (standing (mergeTriage map entries id)).Exclusive) ∧
    ((∀ id, (standing (now id)).Exclusive) →
      ∀ id, (standing (importTriage map entries now decisions loaded id)).Exclusive)
  /-- Filing leaves the other fields, a bucket, and the ignores that are marked. -/
  filed : ∀ id, Migrated (applyConflictDecisions map entries now decisions id)
      (importTriage map entries now decisions loaded id) ∧
    ∀ r, Scopes (orEmpty (applyConflictDecisions map entries now decisions id)) r →
      Ignores (orEmpty (importTriage map entries now decisions loaded id)) r
  /-- Where nothing else was changed, and the shared ignore not decided for, the same import with no
  answer for it changes nothing. -/
  again : now = mergeTriage map entries →
    (∀ id, Decided decisions (Client.handed map entries id) (now id) .triage →
      bucketOf (orEmpty (entries id)) ≠ some .ignored) →
    ∀ decisions' : Decisions, (∀ key, decisions' key ≠ some "imported") → ∀ id,
      SaysSame (orEmpty (importTriage (importTriage map entries now decisions loaded) entries
          (mergeTriage (importTriage map entries now decisions loaded) entries) decisions' loaded
            id))
        (orEmpty (importTriage map entries now decisions loaded id))

theorem not_decided {decisions' : Decisions} (h : ∀ key, decisions' key ≠ some "imported")
    (p : ConflictProperty) : ¬Decided decisions' cs cur p := by
  rintro ⟨c, -, -, hc⟩
  exact h _ hc.1

variable (loaded) in
/-- What is left was joined with the import and filed, with a bucket where the import has one. -/
theorem joined_importTriage (hm : ∀ id, Kept (map id))
    (hignored : Decided decisions (handed map entries id) (mergeTriage map entries id) .triage →
      bucketOf (orEmpty (entries id)) ≠ some .ignored) :
    ∃ s : Standing, (bucketOf (orEmpty (entries id)) ≠ none → s.bucket ≠ none) ∧
      standing (importTriage map entries (mergeTriage map entries) decisions loaded id) =
        (s.join (orEmpty (entries id))).fileAll loaded id := by
  classical
  have hnow : ∀ id, Kept (mergeTriage map entries id) := fun id => (standing_mergeTriage hm id).1
  rw [(standing_importTriage hnow id).2]
  by_cases hdecided : Decided decisions (handed map entries id) (mergeTriage map entries id) .triage
  · have hsome : bucketOf (orEmpty (entries id)) ≠ none := by
      obtain ⟨c, hc, hp, -⟩ := hdecided
      exact fun h => norm_handed c hc (hp ▸ norm_triage_empty.2 h)
    rw [if_pos hdecided]
    refine ⟨(standing (mergeTriage map entries id)).take (bucketOf (orEmpty (entries id))),
      fun _ => hsome, congrArg (fileAll loaded id) ?_⟩
    have hexcludes : ¬((standing (mergeTriage map entries id)).take
        (bucketOf (orEmpty (entries id)))).Allows := fun h => h.elim hsome (hignored hdecided)
    ext1
    · rfl
    · exact funext fun r => propext (or_iff_left fun h => hexcludes h.1).symm
    · exact funext fun r => propext (or_iff_left fun h => hexcludes h.1).symm
  · rw [if_neg hdecided, (standing_mergeTriage hm id).2]
    refine ⟨_, ?_, rfl⟩
    intro hsome
    split
    · exact hsome
    · rename_i h
      exact fun hnone => h ⟨hnone, hsome⟩

/-- **The same import** once more. -/
theorem says_again (hm : ∀ id, Kept (map id))
    (hignored : ∀ id, Decided decisions (handed map entries id) (mergeTriage map entries id)
      .triage → bucketOf (orEmpty (entries id)) ≠ some .ignored)
    {decisions' : Decisions} (hdecisions : ∀ key, decisions' key ≠ some "imported")
    {t : TriageStateMap}
    (ht : t = importTriage map entries (mergeTriage map entries) decisions loaded) (id : String) :
    SaysSame (orEmpty (importTriage t entries (mergeTriage t entries) decisions' loaded id))
      (orEmpty (t id)) := by
  classical
  have hnow : ∀ id, Kept (mergeTriage map entries id) := fun id => (standing_mergeTriage hm id).1
  have hkept : ∀ id, Kept (t id) := fun id => ht ▸ (standing_importTriage hnow id).1
  have hstanding : standing (importTriage t entries (mergeTriage t entries) decisions' loaded id) =
      standing (t id) := by
    obtain ⟨s, hbucket, hs⟩ := joined_importTriage loaded hm (hignored id)
    rw [← ht] at hs
    have hfilled : ¬((standing (t id)).bucket = none ∧
        bucketOf (orEmpty (entries id)) ≠ none) := by
      rintro ⟨hnone, hsome⟩
      obtain ⟨b, hb⟩ := Option.ne_none_iff_exists'.1 (hbucket hsome)
      rw [hs, bucket_fileAll (s := s.join (orEmpty (entries id))) hb] at hnone
      cases hnone
    rw [(standing_importTriage (fun id => (standing_mergeTriage hkept id).1) id).2,
      if_neg (not_decided hdecisions _), (standing_mergeTriage hkept id).2, if_neg hfilled, hs]
    refine fileAll_join fun r hr => ?_
    rw [← hs] at hr ⊢
    exact hr.1
  refine ⟨fun p => ?_, fun r => ?_, fun r => ?_⟩
  · by_cases hp : p = .triage
    · subst hp
      exact norm_triage_inj.2 (congrArg bucket hstanding)
    · rw [norm_importTriage hp, if_neg (not_decided hdecisions _), norm_mergeTriage]
      split
      · rename_i hempty
        -- the client would have had what the import has
        have hfirst := hempty
        rw [ht, norm_importTriage hp, norm_mergeTriage] at hfirst
        rw [hempty]
        split at hfirst
        · exact hfirst
        · split at hfirst
          · exact hfirst
          · rename_i hlocal
            exact absurd hfirst hlocal
      · rfl
  · exact iff_of_eq (congrFun (congrArg listed hstanding) r)
  · exact iff_of_eq (congrFun (congrArg marked hstanding) r)

/-- A finding that is ignored in the report. -/
def ignoredInDep : TriageEntry :=
  { TriageEntry.empty with ignoredReports := ["dep"], scopedIgnoredReports := ["dep"] }

theorem kept_oneEntry {e : TriageEntry} (he : Kept (some e)) (id : String) :
    Kept (oneEntry e id) := by
  rw [oneEntry, FMap.ofKeys_apply]
  split
  · exact he
  · rfl

end Triage.Client
