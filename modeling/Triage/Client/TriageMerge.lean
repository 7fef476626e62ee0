import Triage.Client.Conflicts
import Triage.Data.EraseDups

/-!
# Merging imported triage

What an import does to the triage of the client: ignores of older exports are filed under their
reports, and what the import says of a finding is adopted where the client says nothing.

## Main results

* `norm_mergeEntry` : what the merge makes of each property.
* `migrated_migrateIgnoredReports` : what filing leaves of an entry.
-/

namespace Triage.Client

open List Option ConflictProperty FMap

/-! ### The entry of one finding -/

/-- `patchEntry`, on the entry that the map holds. -/
def patchEntry (cur : Option TriageEntry) (patch : TriageEntry → TriageEntry) :
    Option TriageEntry :=
  match normalizeEntry (some (patch (orEmpty cur))) with
  | none => none
  | some merged => if entriesEqual (orEmpty cur) merged then cur else some merged

/-- `Set.add`, on the elements in order. -/
def addLast (l : List String) (r : String) : List String := if r ∈ l then l else l ++ [r]

/-- `setReportIgnored` -/
def setReportIgnored (cur : Option TriageEntry) (report : String) (ignored marked : Bool) :
    Option TriageEntry :=
  patchEntry cur fun e => { e with
    ignoredReports := if ignored then addLast e.ignoredReports.eraseDups report
      else e.ignoredReports.eraseDups.filter (· ≠ report)
    scopedIgnoredReports := if ignored && marked then
      addLast e.scopedIgnoredReports.eraseDups report else e.scopedIgnoredReports.eraseDups }

variable {cur : Option TriageEntry} {f : TriageEntry → TriageEntry} {report : String}

variable (cur f) in
/-- What a patch leaves is the entry patched and normalized, or the one that was there and equals
it. -/
theorem orEmpty_patchEntry : orEmpty (patchEntry cur f) = cleanEntry (f (orEmpty cur)) ∨
    patchEntry cur f = cur ∧ entriesEqual (orEmpty cur) (cleanEntry (f (orEmpty cur))) = true := by
  have hclean := orEmpty_normalizeEntry (some (f (orEmpty cur)))
  rw [patchEntry]
  rcases hmerged : normalizeEntry (some (f (orEmpty cur))) with _ | merged
  · rw [hmerged] at hclean
    exact .inl hclean
  · rw [hmerged] at hclean
    have hsome : merged = cleanEntry (f (orEmpty cur)) := hclean
    dsimp only
    split
    · rename_i hequal
      exact .inr ⟨rfl, hsome ▸ hequal⟩
    · exact .inl hclean

variable (ps : List ConflictProperty) (p : ConflictProperty) (map : TriageStateMap)
  (q : ConflictProperty)

theorem norm_patchEntry : p.norm (orEmpty (patchEntry cur f)) = p.norm (f (orEmpty cur)) := by
  have hnorm := norm_cleanEntry (f (orEmpty cur)) p
  rcases orEmpty_patchEntry cur f with hclean | ⟨hcur, hequal⟩
  · rw [hclean, hnorm]
  · rw [hcur]
    exact ((entriesEqual_iff.1 hequal).norm p).trans hnorm

theorem nodup_cleanEntry (he : e.ignoredReports.Nodup) :
    (cleanEntry e).ignoredReports.Nodup := he.filter _

theorem normal_cleanEntry (e : TriageEntry) : Normal (cleanEntry e) := by
  have hreports : (cleanEntry e).ignoredReports.filter (· ≠ "") = (cleanEntry e).ignoredReports :=
    by rw [cleanEntry, List.filter_filter]; simp only [Bool.and_self]
  have hscoped : ((cleanEntry e).scopedIgnoredReports.filter
      (· ∈ (cleanEntry e).ignoredReports)).eraseDups = (cleanEntry e).scopedIgnoredReports := by
    have hself : (cleanEntry e).scopedIgnoredReports.filter (· ∈ (cleanEntry e).ignoredReports) =
        (cleanEntry e).scopedIgnoredReports := by
      refine List.filter_eq_self.mpr fun r hr => ?_
      have hmem : r ∈ e.scopedIgnoredReports.filter (· ∈ e.ignoredReports.filter (· ≠ "")) :=
        mem_eraseDups.mp hr
      exact (mem_filter.mp hmem).2
    rw [hself]
    exact eraseDups_of_nodup (nodup_eraseDups _)
  have hcolor : nonempty (cleanEntry e).color = (cleanEntry e).color := nonempty_nonempty _
  have hcomment : nonempty (cleanEntry e).comment = (cleanEntry e).comment := nonempty_nonempty _
  have hfix : nonempty (cleanEntry e).fix = (cleanEntry e).fix := nonempty_nonempty _
  have hbucket : bucketOf (cleanEntry e) = (cleanEntry e).triage := bucketOf_cleanEntry e
  rw [Normal, cleanEntry.eq_1 (cleanEntry e)]
  rw [hreports, hscoped, hcolor, hcomment, hfix, hbucket]
  rfl

/-- An entry as the map keeps it. -/
def Kept (o : Option TriageEntry) : Prop := normalizeEntry o = o

instance (o : Option TriageEntry) : Decidable (Kept o) :=
  inferInstanceAs (Decidable (normalizeEntry o = o))

theorem kept_normalizeEntry (h : normalizeEntry o = some e) : Kept (some e) := by
  rcases o with _ | x
  · cases h
  · rw [normalizeEntry, bind_some] at h
    split at h
    · cases h
    · rename_i hempty
      cases h
      rw [Kept, normalizeEntry, bind_some, normal_cleanEntry, if_neg hempty]

/-- The reports after a patch, which has none twice. -/
theorem ignores_patchEntry (hf : (f (orEmpty cur)).ignoredReports.Nodup) :
    Ignores (orEmpty (patchEntry cur f)) report ↔ Ignores (f (orEmpty cur)) report := by
  rw [← ignores_cleanEntry (f (orEmpty cur))]
  rcases orEmpty_patchEntry cur f with hclean | ⟨hcur, hequal⟩
  · rw [hclean]
  · have hmem := mem_iff_of_equal (entriesEqual_iff.1 hequal).ignoredReports
      (fun hr => hr.not_nodup (nodup_cleanEntry hf)) report
    rw [hcur, Ignores, Ignores, hmem]

theorem nodup_patchEntry (hcur : (orEmpty cur).ignoredReports.Nodup)
    (hf : (f (orEmpty cur)).ignoredReports.Nodup) :
    (orEmpty (patchEntry cur f)).ignoredReports.Nodup := by
  rcases orEmpty_patchEntry cur f with hclean | ⟨hsame, -⟩
  · rw [hclean]
    exact nodup_cleanEntry hf
  · rw [hsame]
    exact hcur

theorem Kept.normal (h : Kept (some e)) : Normal e := by
  have hclean := orEmpty_normalizeEntry (some e)
  rw [h] at hclean
  exact hclean.symm

theorem Kept.nodup_scoped (h : Kept cur) : (orEmpty cur).scopedIgnoredReports.Nodup := by
  rcases cur with _ | e
  · exact nodup_nil
  · have hmarks := congrArg TriageEntry.scopedIgnoredReports h.normal
    exact hmarks ▸ nodup_eraseDups _

theorem kept_patchEntry (hcur : Kept cur) : Kept (patchEntry cur f) := by
  rw [patchEntry]
  rcases hmerged : normalizeEntry (some (f (orEmpty cur))) with _ | merged
  · rfl
  · dsimp only
    split
    · exact hcur
    · exact kept_normalizeEntry hmerged

/-- A patch that changes nothing. -/
theorem patchEntry_self (hcur : Kept cur) (hf : f (orEmpty cur) = orEmpty cur) :
    patchEntry cur f = cur := by
  rw [patchEntry, hf]
  rcases cur with _ | e
  · rfl
  · have hequal : entriesEqual e e = true := by
      refine entriesEqual_iff.2 ⟨rfl, rfl, rfl, rfl, rfl, ?_, ?_⟩
      · exact ignoredReportsEqual_iff.2 ⟨rfl, fun _ h => h⟩
      · exact ignoredReportsEqual_iff.2 ⟨rfl, fun _ h => h⟩
    have hkept : normalizeEntry (some (orEmpty (some e))) = some e := hcur
    rw [hkept]
    exact if_pos hequal

/-! ### Filing the ignores -/

/-- A finding of a report: its id, or else its number in the report, and whether its ignores belong
to the report it is in (`usesReportIgnore`). -/
structure Occurrence where
  id : Option String
  number : String
  usesReportIgnore : Bool
  deriving DecidableEq, Repr

/-- `finding.id ?? String(finding._id)` -/
def Occurrence.key (o : Occurrence) : String := o.id.getD o.number

/-- The map has an ignore of the report that is not settled: not marked, or in a list that has a
report twice. -/
def Unsettled (map : TriageStateMap) (name : String) : Prop :=
  ∃ id ∈ map.keys, name ∈ (orEmpty (map id)).ignoredReports ∧
    (¬(orEmpty (map id)).ignoredReports.Nodup ∨ name ∉ (orEmpty (map id)).scopedIgnoredReports)

instance (map : TriageStateMap) (name : String) : Decidable (Unsettled map name) :=
  inferInstanceAs (Decidable (∃ id ∈ map.keys, _))

/-- `Map.set` or `Map.delete` -/
def setAt (map : TriageStateMap) (id : String) : Option TriageEntry → TriageStateMap
  | none => map.erase id
  | some e => map.insert id e

/-- The entry of a finding whose own ignore of the report becomes the shared one. -/
def promote (name : String) (dependency : Bool) (cur : Option TriageEntry) : Option TriageEntry :=
  have cur' := if bucketOf (orEmpty cur) = none then
    patchEntry cur fun e => { e with triage := some .ignored } else cur
  if dependency then cur' else setReportIgnored cur' name false false

/-- The first pass of `migrateIgnoredReports` over a finding. -/
def promoteFinding (name : String) (findings : List Occurrence) (map : TriageStateMap)
    (o : Occurrence) : TriageStateMap :=
  if name ∉ (orEmpty (map o.key)).ignoredReports ∨
      name ∈ (orEmpty (map o.key)).scopedIgnoredReports ∨ o.usesReportIgnore then map
  else
    setAt map o.key (promote name
      (findings.any fun o' => o'.usesReportIgnore && o'.key = o.key) (map o.key))

/-- The second pass. -/
def markFinding (name : String) (map : TriageStateMap) (o : Occurrence) : TriageStateMap :=
  if o.usesReportIgnore ∧ name ∈ (orEmpty (map o.key)).ignoredReports then
    setAt map o.key (setReportIgnored (map o.key) name true true)
  else map

/-- `migrateIgnoredReports` -/
def migrateIgnoredReports (map : TriageStateMap) (reports : List (String × List Occurrence)) :
    TriageStateMap :=
  reports.foldl (fun m r =>
    if r.2 = [] ∨ ¬Unsettled map r.1 then m
    else r.2.foldl (markFinding r.1) (r.2.foldl (promoteFinding r.1 r.2) m)) map

/-- `migrateStoredIgnores`; `names` are the reports that `readIgnoredReportContexts` reads, in their
order. -/
def migrateStoredIgnores (loadFindings : String → Option (List Occurrence))
    (entries : TriageStateMap) (names : List String) (readReport : String → Option String) :
    TriageStateMap :=
  migrateIgnoredReports entries
    (names.filterMap fun name => ((readReport name).bind loadFindings).map fun os => (name, os))

/-! ### What filing leaves -/

/-- An entry that filing has nothing to do about: each ignore is marked, and none is there twice. -/
structure Settled (o : Option TriageEntry) : Prop where
  kept : Kept o
  nodup : (orEmpty o).ignoredReports.Nodup
  marked : ∀ r ∈ (orEmpty o).ignoredReports, r ∈ (orEmpty o).scopedIgnoredReports

/-- What filing does to an entry: the other properties stay, the bucket stays where there is one,
and a settled entry is left alone. -/
structure Migrated (a b : Option TriageEntry) : Prop where
  norm : ∀ p ≠ ConflictProperty.triage, p.norm (orEmpty b) = p.norm (orEmpty a)
  bucket : bucketOf (orEmpty b) = bucketOf (orEmpty a) ∨ bucketOf (orEmpty a) = none
  settled : Settled a → b = a

theorem Migrated.refl (a : Option TriageEntry) : Migrated a a :=
  ⟨fun _ _ => rfl, .inl rfl, fun _ => rfl⟩

theorem Migrated.trans {a b c : Option TriageEntry} (h : Migrated a b) (h' : Migrated b c) :
    Migrated a c where
  norm p hp := (h'.norm p hp).trans (h.norm p hp)
  bucket := by
    rcases h.bucket with hab | ha
    · rw [← hab]
      exact h'.bucket
    · exact .inr ha
  settled ha := by
    have hb := h.settled ha
    rw [← hb] at ha ⊢
    rw [hb] at ha ⊢
    exact (h'.settled (hb ▸ ha)).trans hb

theorem norm_setReportIgnored (ignored marked : Bool) :
    p.norm (orEmpty (setReportIgnored cur report ignored marked)) = p.norm (orEmpty cur) := by
  rw [setReportIgnored, norm_patchEntry]
  cases p <;> rfl

theorem bucketOf_of_norm {a b : TriageEntry} (h : triage.norm a = triage.norm b) :
    bucketOf a = bucketOf b := norm_triage_inj.1 h

/-- An ignore that is there and marked is set again. -/
theorem setReportIgnored_settled (hcur : Settled cur) (hr : report ∈ (orEmpty cur).ignoredReports)
    (hmarked : report ∈ (orEmpty cur).scopedIgnoredReports) :
    setReportIgnored cur report true true = cur := by
  have hscoped := hcur.kept.nodup_scoped
  refine patchEntry_self hcur.kept ?_
  rw [eraseDups_of_nodup hcur.nodup, eraseDups_of_nodup hscoped, addLast, addLast, if_pos hr,
    if_pos hmarked]
  rfl

variable (name : String)

theorem migrated_promote (dependency : Bool) (hr : name ∈ (orEmpty cur).ignoredReports)
    (hmarked : name ∉ (orEmpty cur).scopedIgnoredReports) :
    Migrated cur (promote name dependency cur) := by
  -- an ignore without its mark is unsettled:
  have hunsettled : Settled cur → promote name dependency cur = cur :=
    fun h => absurd (h.marked name hr) hmarked
  have hfirst : ∀ p ≠ triage, p.norm (orEmpty (if bucketOf (orEmpty cur) = none then
        patchEntry cur fun e => { e with triage := some .ignored } else cur)) =
      p.norm (orEmpty cur) := by
    intro p hp
    split
    · rw [norm_patchEntry]
      cases p with
      | triage => exact absurd rfl hp
      | _ => rfl
    · rfl
  refine ⟨fun p hp => ?_, ?_, hunsettled⟩
  · rw [promote]
    cases dependency with
    | true => exact hfirst p hp
    | false => exact (norm_setReportIgnored p false false).trans (hfirst p hp)
  · by_cases hbucket : bucketOf (orEmpty cur) = none
    · exact .inr hbucket
    · refine .inl (bucketOf_of_norm ?_)
      rw [promote, if_neg hbucket]
      cases dependency with
      | true => rfl
      | false => exact norm_setReportIgnored _ false false

theorem setAt_apply (id id' : String) (o : Option TriageEntry) :
    setAt map id o id' = if id' = id then o else map id' := by
  cases o with
  | none => exact erase_apply ..
  | some e => exact insert_apply ..

/-- A change of one entry. -/
theorem migrated_setAt {map : TriageStateMap} {id : String}
    (h : Migrated (map id) o) (id' : String) : Migrated (map id') (setAt map id o id') := by
  rw [setAt_apply]
  split
  · rename_i hid
    rw [hid]
    exact h
  · exact .refl _

theorem migrated_promoteFinding (findings : List Occurrence)
    (map : TriageStateMap) (o : Occurrence) (id : String) :
    Migrated (map id) (promoteFinding name findings map o id) := by
  rw [promoteFinding]
  split
  · exact .refl _
  · rename_i h
    rw [not_or, not_not, not_or] at h
    exact migrated_setAt (migrated_promote name _ h.1 h.2.1) id

theorem migrated_markFinding (map : TriageStateMap) (o : Occurrence)
    (id : String) : Migrated (map id) (markFinding name map o id) := by
  rw [markFinding]
  split
  · rename_i h
    refine migrated_setAt ⟨fun p _ => norm_setReportIgnored p true true, ?_, fun hs => ?_⟩ id
    · exact .inl (bucketOf_of_norm (norm_setReportIgnored _ true true))
    · exact setReportIgnored_settled hs h.2 (hs.marked name h.2)
  · exact .refl _

/-- A fold of steps that are filing is filing. -/
theorem migrated_foldl {α : Type*} {step : TriageStateMap → α → TriageStateMap}
    (hstep : ∀ map x id, Migrated (map id) (step map x id)) (xs : List α) (map : TriageStateMap)
    (id : String) : Migrated (map id) (xs.foldl step map id) := by
  induction xs generalizing map with
  | nil => exact .refl _
  | cons x xs ih => exact (hstep map x id).trans (ih (step map x))

/-- **What filing the ignores leaves of an entry.** -/
theorem migrated_migrateIgnoredReports (reports : List (String × List Occurrence)) (id : String) :
    Migrated (map id) (migrateIgnoredReports map reports id) := by
  refine migrated_foldl (fun m r id => ?_) reports map id
  split
  · exact .refl _
  · exact (migrated_foldl (migrated_promoteFinding r.1 r.2) r.2 m id).trans
      (migrated_foldl (migrated_markFinding r.1) r.2 _ id)

/-! ### Merging -/

namespace ConflictProperty

/-- The patch that adopts a property. -/
def take (x : TriageEntry) : ConflictProperty → TriageEntry → TriageEntry
  | .color, e => { e with color := x.color }
  | .comment, e => { e with comment := x.comment }
  | .fix, e => { e with fix := x.fix }
  | .triage, e => { e with
      triage := bucketOf x
      ignoredReports := if bucketOf x = some .ignored then e.ignoredReports else [] }
  | .flagged, e => { e with flagged := x.flagged }

end ConflictProperty

/-- Both sides have a value, and not the same. -/
def clashes (x : TriageEntry) (cur : Option TriageEntry) (p : ConflictProperty) : Bool :=
  p.norm x ≠ "" && p.norm (orEmpty cur) ≠ "" && p.norm (orEmpty cur) ≠ p.norm x

/-- What the import says of a property is adopted where the client says nothing. -/
def adopt (x : TriageEntry) (cur : Option TriageEntry) (p : ConflictProperty) :
    Option TriageEntry :=
  if p.norm x ≠ "" ∧ p.norm (orEmpty cur) = "" then patchEntry cur (p.take x) else cur

/-- The properties in the order of `mergeTriage`. -/
def mergeOrder : List ConflictProperty := [.color, .comment, .fix, .triage, .flagged]

/-- The ignores of the import, where there is no bucket or the shared ignore. -/
def mergeIgnores (x : TriageEntry) (cur : Option TriageEntry) : Option TriageEntry :=
  if allowsReportIgnores (orEmpty cur) then
    x.ignoredReports.foldl
      (fun cur r => setReportIgnored cur r true (r ∈ x.scopedIgnoredReports)) cur
  else cur

/-- The loop body of `mergeTriage`, where the client's value stands in a conflict: the entry of the
finding, and the properties in conflict. -/
def mergeEntry (x : TriageEntry) (cur : Option TriageEntry) :
    Option TriageEntry × List ConflictProperty :=
  have merged := mergeOrder.foldl (fun (m : Option TriageEntry × List ConflictProperty) p =>
    (adopt x m.1 p, if clashes x m.1 p then m.2 ++ [p] else m.2)) (cur, [])
  (mergeIgnores x merged.1, merged.2)

/-- `mergeTriage` without a resolver of conflicts. -/
def mergeTriage (map entries : TriageStateMap) : TriageStateMap :=
  .ofKeys (map.keys ∪ entries.keys) fun id =>
    match entries id with
    | none => map id
    | some x => (mergeEntry x (map id)).1

/-- The conflicts that `mergeTriage` finds on a finding. -/
def mergeConflicts (map entries : TriageStateMap) (id : String) : List ConflictProperty :=
  match entries id with
  | none => []
  | some x => (mergeEntry x (map id)).2

variable {x : TriageEntry}

theorem norm_take {p : ConflictProperty} (hx : p.norm x ≠ "")
    (q : ConflictProperty) : q.norm (p.take x e) = if q = p then q.norm x else q.norm e := by
  cases p with
  | triage =>
    cases q with
    | triage =>
      have hbucket : bucketOf x ≠ none := fun h => hx (by rw [ConflictProperty.norm, h]; rfl)
      obtain ⟨b, hb⟩ := ne_none_iff_exists'.mp hbucket
      rw [if_pos rfl]
      refine norm_triage_inj.2 ?_
      rw [ConflictProperty.take, bucketOf, hb]
      rfl
    | _ => rfl
  | _ => cases q <;> rfl

theorem norm_adopt : q.norm (orEmpty (adopt x cur p)) =
    if q = p ∧ q.norm (orEmpty cur) = "" then q.norm x else q.norm (orEmpty cur) := by
  rw [adopt]
  split
  · rename_i h
    rw [norm_patchEntry, norm_take h.1]
    by_cases hq : q = p
    · subst hq
      rw [if_pos rfl, if_pos ⟨rfl, h.2⟩]
    · rw [if_neg hq, if_neg fun h => hq h.1]
  · rename_i h
    split
    · rename_i hq
      obtain ⟨rfl, hempty⟩ := hq
      rw [hempty]
      exact (not_not.mp fun hx => h ⟨Ne.symm hx, hempty⟩)
    · rfl

/-- The loop over the properties. -/
def adoptAll (x : TriageEntry) (ps : List ConflictProperty)
    (m : Option TriageEntry × List ConflictProperty) :
    Option TriageEntry × List ConflictProperty :=
  ps.foldl (fun (m : Option TriageEntry × List ConflictProperty) p =>
    (adopt x m.1 p, if clashes x m.1 p then m.2 ++ [p] else m.2)) m

theorem norm_adoptAll (m : Option TriageEntry × List ConflictProperty) (q : ConflictProperty) :
    q.norm (orEmpty (adoptAll x ps m).1) =
      if q ∈ ps ∧ q.norm (orEmpty m.1) = "" then q.norm x else q.norm (orEmpty m.1) := by
  induction ps generalizing m with
  | nil => exact (if_neg fun h => absurd h.1 not_mem_nil).symm
  | cons p ps ih =>
    rw [adoptAll, foldl_cons, ← adoptAll, ih, norm_adopt]
    by_cases hempty : q.norm (orEmpty m.1) = ""
    · by_cases hqp : q = p
      · subst hqp
        simp [hempty]
      · simp [hqp, hempty]
    · simp [hempty]

theorem clashes_adopt : clashes x (adopt x cur p) q = clashes x cur q := by
  rw [clashes, norm_adopt, clashes]
  split
  · rename_i h
    simp [h.2]
  · rfl

/-- What is in conflict is so from the start. -/
theorem mem_adoptAll {p : ConflictProperty} :
    p ∈ (adoptAll x ps m).2 ↔ p ∈ m.2 ∨ p ∈ ps ∧ clashes x m.1 p = true := by
  induction ps generalizing m with
  | nil => exact (or_iff_left fun h => absurd h.1 not_mem_nil).symm
  | cons q ps ih =>
    rw [adoptAll, foldl_cons, ← adoptAll, ih]
    dsimp only
    rw [clashes_adopt, mem_cons]
    split
    · rename_i hq
      rw [mem_append, mem_singleton]
      by_cases hp : p = q
      · subst hp
        simp [hq]
      · simp [hp]
    · rename_i hq
      by_cases hp : p = q
      · subst hp
        simp [hq]
      · simp [hp]

theorem adoptAll_self (h : ∀ p : ConflictProperty, p.norm x ≠ "" → p.norm (orEmpty m.1) ≠ "") :
    (adoptAll x ps m).1 = m.1 := by
  induction ps generalizing m with
  | nil => rfl
  | cons p ps ih =>
    have hadopt : adopt x m.1 p = m.1 := if_neg fun hp => h p hp.1 hp.2
    rw [adoptAll, foldl_cons, ← adoptAll, hadopt]
    exact ih h

/-! #### The ignores -/

theorem mem_addLast {r r' : String} : r' ∈ addLast l r ↔ r' ∈ l ∨ r' = r := by
  rw [addLast]
  split
  · rename_i h
    exact ⟨.inl, fun h' => h'.elim id fun he => he ▸ h⟩
  · rw [mem_append, mem_singleton]

theorem nodup_addLast (hl : l.Nodup) (r : String) : (addLast l r).Nodup := by
  rw [addLast]
  split
  · exact hl
  · rename_i h
    refine nodup_append.mpr ⟨hl, nodup_singleton r, ?_⟩
    rintro a ha b hb rfl
    rw [mem_singleton.mp hb] at ha
    exact h ha

theorem ignores_setReportIgnored (marked : Bool) (r : String) :
    Ignores (orEmpty (setReportIgnored cur r true marked)) report ↔
      Ignores (orEmpty cur) report ∨ (report ≠ "" ∧ report = r) := by
  have hnodup : (addLast (orEmpty cur).ignoredReports.eraseDups r).Nodup :=
    nodup_addLast (nodup_eraseDups _) r
  rw [setReportIgnored, ignores_patchEntry hnodup, Ignores, Ignores]
  dsimp only
  rw [if_pos rfl, mem_addLast, mem_eraseDups]
  tauto

theorem ignores_foldl (marks l : List String) (cur : Option TriageEntry) :
    Ignores (orEmpty (l.foldl (fun cur r => setReportIgnored cur r true (r ∈ marks)) cur)) report ↔
      Ignores (orEmpty cur) report ∨ (report ≠ "" ∧ report ∈ l) := by
  induction l generalizing cur with
  | nil => simp
  | cons r l ih =>
    rw [foldl_cons, ih, ignores_setReportIgnored, mem_cons]
    tauto

theorem norm_mergeIgnores : p.norm (orEmpty (mergeIgnores x cur)) = p.norm (orEmpty cur) := by
  have hfold : ∀ (l : List String) (cur : Option TriageEntry), p.norm (orEmpty (l.foldl
        (fun cur r => setReportIgnored cur r true (r ∈ x.scopedIgnoredReports)) cur)) =
      p.norm (orEmpty cur) := by
    intro l
    induction l with
    | nil => exact fun _ => rfl
    | cons r l ih => exact fun cur => (ih _).trans (norm_setReportIgnored p true _)
  rw [mergeIgnores]
  split
  · exact hfold _ _
  · rfl

/-! #### The merge -/

theorem mergeEntry_eq : mergeEntry x cur = (mergeIgnores x (adoptAll x mergeOrder (cur, [])).1,
    (adoptAll x mergeOrder (cur, [])).2) := rfl

theorem mem_mergeOrder : p ∈ mergeOrder := by
  cases p <;> decide

/-- **What the merge makes of a property**: the client's value, or the import's where there is
none. -/
theorem norm_mergeEntry : p.norm (orEmpty (mergeEntry x cur).1) =
    if p.norm (orEmpty cur) = "" then p.norm x else p.norm (orEmpty cur) := by
  rw [mergeEntry_eq, norm_mergeIgnores, norm_adoptAll]
  simp only [mem_mergeOrder, true_and]

/-- What the client says already changes nothing. -/
theorem mergeEntry_self (hkept : Kept cur) (hnodup : (orEmpty cur).ignoredReports.Nodup)
    (hnorm : ∀ p : ConflictProperty, p.norm x ≠ "" → p.norm (orEmpty cur) ≠ "")
    (hreports : x.ignoredReports ⊆ (orEmpty cur).ignoredReports)
    (hmarked : x.scopedIgnoredReports ⊆ (orEmpty cur).scopedIgnoredReports) :
    (mergeEntry x cur).1 = cur := by
  have hscoped := hkept.nodup_scoped
  have hset : ∀ r ∈ x.ignoredReports,
      setReportIgnored cur r true (r ∈ x.scopedIgnoredReports) = cur := by
    intro r hr
    refine patchEntry_self hkept ?_
    have hadd : addLast (orEmpty cur).ignoredReports r = (orEmpty cur).ignoredReports :=
      if_pos (hreports hr)
    rw [eraseDups_of_nodup hnodup, eraseDups_of_nodup hscoped, if_pos rfl, hadd]
    split
    · rename_i hm
      rw [Bool.true_and, decide_eq_true_eq] at hm
      have haddMark : addLast (orEmpty cur).scopedIgnoredReports r =
          (orEmpty cur).scopedIgnoredReports := if_pos (hmarked hm)
      rw [haddMark]
    · rfl
  have hfold : ∀ l ⊆ x.ignoredReports, l.foldl
      (fun cur r => setReportIgnored cur r true (r ∈ x.scopedIgnoredReports)) cur = cur := by
    intro l
    induction l with
    | nil => exact fun _ => rfl
    | cons r l ih =>
      intro hl
      rw [foldl_cons, hset r (hl mem_cons_self)]
      exact ih fun r' hr' => hl (mem_cons_of_mem r hr')
  have hall : (adoptAll x mergeOrder (cur, [])).1 = cur := adoptAll_self mergeOrder hnorm
  rw [mergeEntry_eq, hall]
  dsimp only
  rw [mergeIgnores]
  split
  · exact hfold _ fun r hr => hr
  · rfl

variable (entries : TriageStateMap)

theorem mergeTriage_apply (id : String) :
    mergeTriage map entries id = (entries id).elim (map id) fun x => (mergeEntry x (map id)).1 := by
  rw [mergeTriage, ofKeys_apply]
  split
  · cases entries id <;> rfl
  · rename_i hkey
    rw [Finset.mem_union, not_or] at hkey
    rw [eq_none_iff.mpr hkey.1, eq_none_iff.mpr hkey.2]
    rfl

theorem norm_empty : p.norm .empty = "" := by
  cases p <;> rfl

/-- What the merge makes of a property. -/
theorem norm_mergeTriage (id : String) (p : ConflictProperty) :
    p.norm (orEmpty (mergeTriage map entries id)) =
      if p.norm (orEmpty (map id)) = "" then p.norm (orEmpty (entries id))
      else p.norm (orEmpty (map id)) := by
  rw [mergeTriage_apply]
  rcases entries id with _ | x
  · rw [elim_none]
    split
    · rename_i hempty
      rw [hempty]
      exact (norm_empty p).symm
    · rfl
  · exact norm_mergeEntry p

/-- **The conflicts** are the properties that both sides have, and not the same. -/
theorem mem_mergeConflicts {map entries : TriageStateMap} {id : String} {p : ConflictProperty} :
    p ∈ mergeConflicts map entries id ↔ p.norm (orEmpty (entries id)) ≠ "" ∧
      p.norm (orEmpty (map id)) ≠ "" ∧
        p.norm (orEmpty (map id)) ≠ p.norm (orEmpty (entries id)) := by
  rw [mergeConflicts]
  rcases entries id with _ | x
  · exact ⟨fun h => absurd h not_mem_nil, fun h => absurd (norm_empty p) h.1⟩
  · dsimp only
    rw [mergeEntry_eq, mem_adoptAll]
    simp only [not_mem_nil, false_or, mem_mergeOrder, true_and, clashes, Bool.and_eq_true,
      decide_eq_true_eq, and_assoc]
    rfl

end Triage.Client
