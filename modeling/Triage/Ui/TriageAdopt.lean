import Triage.Ui.TriageReads
import Triage.Ui.TriageOrder

/-!
# Adoption

An adoption has a turn for each finding of its report. Here is what a turn does to its finding,
and that it does nothing to another.

## Main results

* `adoptedAs_setEntry` : the server's four fields are adopted, and what reports ignore is kept
  exactly when the bucket allows it.
* `TriageTab.turn_hydrate`, `TriageTab.turn_refresh` : the loops of a hydrate and of a refresh.
-/

namespace Triage.Ui

open Client List Option Nat FMap

/-! ### Entries -/

/-- The server has an entry whose bucket leaves room for what reports ignore, or none. -/
def AllowsIgnores (wire : Option WireEntry) : Prop :=
  wire.bind (·.triage) = none ∨ wire.bind (·.triage) = some .ignored

/-- The local entry `now` was made of the server's and of the entry `cur` that was there. -/
structure AdoptedAs (wire : Option WireEntry) (cur now : Option TriageEntry) : Prop where
  kept : wireEntryOf now = wire
  comment : nonempty (orEmpty now).comment = none
  ignored : ∀ r ≠ "", r ∈ (orEmpty now).ignoredReports ↔
    r ∈ (orEmpty cur).ignoredReports ∧ AllowsIgnores wire

theorem nonempty_eq_none {s : Option String} : nonempty s = none ↔ s.getD "" = "" := by
  cases s with
  | none => simp [nonempty]
  | some s => simp [nonempty, Option.filter]

theorem nonempty_congr {s t : Option String} (h : s.getD "" = t.getD "") :
    nonempty s = nonempty t := by
  cases s with
  | none =>
    rw [nonempty_eq_none.2 h.symm]
    rfl
  | some s =>
    cases t with
    | none =>
      rw [nonempty_eq_none.2 h]
      rfl
    | some t =>
      have hst : s = t := h
      rw [hst]

theorem nonempty_of_ne {s : Option String} (h : s ≠ some "") : nonempty s = s := by
  cases s with
  | none => rfl
  | some t =>
    have ht : t ≠ "" := fun heq => h (congrArg some heq)
    exact filter_some_pos (decide_eq_true ht)

theorem nonempty_nonempty (s : Option String) : nonempty (nonempty s) = nonempty s :=
  nonempty_of_ne (nonempty_ne s)

/-- What the server keeps of an entry are four fields of it. -/
theorem wireEntryOf_some {e : TriageEntry} {wire : Option WireEntry}
    (hcolor : nonempty e.color = wire.bind (·.color)) (htriage : bucketOf e = wire.bind (·.triage))
    (hfix : nonempty e.fix = wire.bind (·.fix)) (hflagged : e.flagged = wire.bind (·.flagged)) :
    wireEntryOf (some e) = wire := by
  rw [wireEntryOf, bind_some]
  cases wire with
  | none => exact dif_pos ⟨hcolor, htriage, hfix, hflagged⟩
  | some w =>
    have hne : ¬(nonempty e.color = none ∧ bucketOf e = none ∧ nonempty e.fix = none ∧
        e.flagged = none) := by
      rw [hcolor, htriage, hfix, hflagged]
      exact w.ne
    rw [dif_neg hne]
    exact congrArg some (WireEntry.ext hcolor htriage hfix hflagged)

/-- The four fields, the comment and the ignoring reports of the entry that is adopted. -/
structure CleanAdopted (wire : Option WireEntry) (cur : Option TriageEntry) (e : TriageEntry) :
    Prop where
  color : e.color = wire.bind (·.color)
  triage : bucketOf e = wire.bind (·.triage)
  comment : e.comment = none
  fix : e.fix = wire.bind (·.fix)
  flagged : e.flagged = wire.bind (·.flagged)
  ignored : ∀ r, r ∈ e.ignoredReports ↔
    r ≠ "" ∧ r ∈ (orEmpty cur).ignoredReports ∧ AllowsIgnores wire

theorem cleanAdopted (wire : Option WireEntry) (cur : Option TriageEntry) :
    CleanAdopted wire cur (cleanEntry (adoptedEntry wire cur)) := by
  have hcolor : wire.bind (·.color) ≠ some "" := by
    cases wire with
    | none => exact fun h => nomatch h
    | some w => exact w.color_ne
  have hfix : wire.bind (·.fix) ≠ some "" := by
    cases wire with
    | none => exact fun h => nomatch h
    | some w => exact w.fix_ne
  have hbucket : bucketOf (adoptedEntry wire cur) = wire.bind (·.triage) := by
    rw [bucketOf]
    exact or_none
  refine ⟨nonempty_of_ne hcolor, ?_, rfl, nonempty_of_ne hfix, rfl, ?_⟩
  · rw [bucketOf]
    exact or_none.trans hbucket
  · intro r
    have hmem : r ∈ (cleanEntry (adoptedEntry wire cur)).ignoredReports ↔
        r ∈ (adoptedEntry wire cur).ignoredReports ∧ r ≠ "" := by
      simp [cleanEntry]
    rw [hmem, AllowsIgnores, adoptedEntry]
    rcases wire.bind (·.triage) with _ | _ | _ | _ | _ | _ <;> simp [and_comm]

theorem mem_of_ignoredReportsEqual {a b : List String} (h : ignoredReportsEqual a b = true)
    (hnil : b = []) : a = [] := by
  subst hnil
  simpa [ignoredReportsEqual] using h

/-- The server's entry is adopted. -/
theorem adoptedAs_setEntry (map : TriageStateMap) (id : String) (wire : Option WireEntry) :
    AdoptedAs wire (map id) (setEntry map id (adoptedEntry wire (map id)) id) := by
  set e := cleanEntry (adoptedEntry wire (map id)) with he
  have hclean : CleanAdopted wire (map id) e := cleanAdopted wire (map id)
  have hcolor : nonempty e.color = wire.bind (·.color) := by
    rw [← hclean.color]
    exact nonempty_nonempty _
  have hfix : nonempty e.fix = wire.bind (·.fix) := by
    rw [← hclean.fix]
    exact nonempty_nonempty _
  have hcomment : nonempty e.comment = none := by
    rw [hclean.comment]
    rfl
  rw [setEntry, normalizeEntry, bind_some, ← he]
  by_cases hempty : entryIsEmpty e = true
  · -- nothing is left of it: the local entry is deleted
    rw [if_pos hempty]
    simp only [erase_self]
    simp only [entryIsEmpty, Bool.and_eq_true, decide_eq_true_eq, List.isEmpty_iff] at hempty
    obtain ⟨⟨⟨⟨⟨hc, ht⟩, -⟩, hf⟩, hi⟩, hg⟩ := hempty
    refine ⟨?_, rfl, ?_⟩
    · cases wire with
      | none => rfl
      | some w =>
        exact absurd ⟨hcolor.symm.trans hc, hclean.triage.symm.trans ht, hfix.symm.trans hf,
          hclean.flagged.symm.trans hg⟩ w.ne
    · intro r hr
      have hnone := (hclean.ignored r).not.1 (by simp [hi])
      simp only [orEmpty, getD_none, TriageEntry.empty, not_mem_nil, false_iff]
      exact fun hin => hnone ⟨hr, hin⟩
  · rw [if_neg hempty]
    by_cases hequal : entriesEqual (orEmpty (map id)) e = true
    · -- the local entry is the server's already
      simp only [if_pos hequal]
      simp only [entriesEqual, Bool.and_eq_true, decide_eq_true_eq] at hequal
      obtain ⟨⟨⟨⟨⟨⟨hc, ht⟩, hm⟩, hf⟩, hg⟩, hi⟩, -⟩ := hequal
      have hwire : wireEntryOf (some (orEmpty (map id))) = wire :=
        wireEntryOf_some ((nonempty_congr hc).trans hcolor) (ht.trans hclean.triage)
          ((nonempty_congr hf).trans hfix) (hg.trans hclean.flagged)
      refine ⟨?_, (nonempty_congr hm).trans hcomment, ?_⟩
      · rw [← hwire]
        cases map id <;> rfl
      · intro r hr
        constructor
        · intro hin
          refine ⟨hin, ?_⟩
          by_contra hnot
          -- with a bucket that allows none, both lists are empty
          have hnil : e.ignoredReports = [] := eq_nil_iff_forall_not_mem.2 fun x hx =>
            hnot ((hclean.ignored x).1 hx).2.2
          rw [mem_of_ignoredReportsEqual hi hnil] at hin
          cases hin
        · exact fun hin => hin.1
    · simp only [if_neg hequal, insert_self]
      exact ⟨wireEntryOf_some hcolor hclean.triage hfix hclean.flagged, hcomment,
        fun r hr => (hclean.ignored r).trans (and_iff_right hr)⟩

theorem setEntry_of_ne {map : TriageStateMap} {id f : String} (hne : f ≠ id) (e : TriageEntry) :
    setEntry map id e f = map f := by
  rw [setEntry]
  split
  · exact erase_of_ne map hne
  · split
    · rfl
    · exact insert_of_ne map hne _

/-! ### Turns -/

namespace TriageTab

variable {s s' : TriageTab} {f id : String} {entries : String → List ServerWrite}
  {before : FMap String Baseline}

/-- Nothing happened to a finding, while baselines may have been made for others. -/
structure Still (s s' : TriageTab) (f : String) : Prop where
  triage : s'.triage f = s.triage f
  baseline : s'.baseline f = s.baseline f
  version : s'.version f = s.version f
  stamps : s.stamps ≤ s'.stamps

theorem Still.refl (s : TriageTab) (f : String) : s.Still s f := ⟨rfl, rfl, rfl, le_refl _⟩

theorem Still.trans {s'' : TriageTab} (h : s.Still s' f) (h' : s'.Still s'' f) : s.Still s'' f :=
  ⟨h'.triage.trans h.triage, h'.baseline.trans h.baseline, h'.version.trans h.version,
    h.stamps.trans h'.stamps⟩

variable {ids : List String} (step : TriageTab → String → TriageTab)

/-- A loop that has a turn for each finding. -/
theorem foldl_turn (hother : ∀ s id f, f ≠ id → Still s (step s id) f) (hnodup : ids.Nodup)
    (s : TriageTab) (f : String) :
    (f ∉ ids → s.Still (ids.foldl step s) f) ∧
    (f ∈ ids → ∃ t, s.Still t f ∧ (step t f).Still (ids.foldl step s) f) := by
  induction ids generalizing s with
  | nil => exact ⟨fun _ => .refl s f, fun hf => (nomatch hf)⟩
  | cons id ids ih =>
    obtain ⟨hid, hnodup⟩ := nodup_cons.1 hnodup
    obtain ⟨hout, hin⟩ := ih hnodup (step s id)
    constructor
    · intro hf
      rw [mem_cons, not_or] at hf
      exact (hother s id f hf.1).trans (hout hf.2)
    · intro hf
      rcases eq_or_ne f id with rfl | hne
      · exact ⟨s, .refl s f, hout hid⟩
      · obtain ⟨t, hst, ht⟩ := hin ((mem_cons.1 hf).resolve_left hne)
        exact ⟨t, (hother s id f hne).trans hst, ht⟩

theorem still_adopt (hne : f ≠ id) (wire : Option WireEntry) : s.Still (s.adopt id wire) f := by
  refine ⟨setEntry_of_ne hne _, baseline_setBaseline_ne hne wire, ?_, le_succ _⟩
  simp only [adopt]
  split
  · rfl
  · exact Function.update_of_ne hne _ _

theorem still_hydrateEntry (hne : f ≠ id) : s.Still (s.hydrateEntry entries id) f := by
  rw [hydrateEntry]
  split
  · exact ⟨rfl, erase_of_ne s.baseline hne, rfl, le_refl _⟩
  · exact still_adopt hne _

theorem still_refreshEntry (hne : f ≠ id) : s.Still (s.refreshEntry before entries id) f := by
  rw [refreshEntry]
  split
  · exact still_adopt hne _
  · exact .refl s f

/-- The finding has the server's entry since. -/
structure Taken (s s' : TriageTab) (f : String) (wire : Option WireEntry) : Prop where
  entry : AdoptedAs wire (s.triage f) (s'.triage f)
  baseline : ∃ b, s'.baseline f = some b ∧ s.stamps ≤ b.stamp ∧ b.stamp < s'.stamps
  version : s'.version f = if wire = s.wireOf f then s.version f else s.version f + 1

theorem taken_adopt (s : TriageTab) (f : String) (wire : Option WireEntry) :
    s.Taken (s.adopt f wire) f wire := by
  have hentry := adoptedAs_setEntry s.triage f wire
  refine ⟨hentry, ⟨_, insert_self _ _ _, le_refl _, lt_succ_self _⟩, ?_⟩
  simp only [adopt, hentry.kept]
  split
  · rfl
  · exact Function.update_self _ _ _

theorem Taken.still {t t' : TriageTab} {wire : Option WireEntry} (hst : s.Still t f)
    (h : t.Taken t' f wire) (ht : t'.Still s' f) : s.Taken s' f wire := by
  obtain ⟨b, hb, hle, hlt⟩ := h.baseline
  have hwire : t.wireOf f = s.wireOf f := congrArg wireEntryOf hst.triage
  refine ⟨?_, ⟨b, ht.baseline.trans hb, hst.stamps.trans hle, hlt.trans_le ht.stamps⟩, ?_⟩
  · rw [ht.triage, ← hst.triage]
    exact h.entry
  · rw [ht.version, h.version, hwire, hst.version]

/-- The baseline of the finding is gone, and nothing else happened to it. -/
structure Forgotten (s s' : TriageTab) (f : String) : Prop where
  triage : s'.triage f = s.triage f
  baseline : s'.baseline f = none
  version : s'.version f = s.version f

/-- What an adoption does to a finding: nothing, or its baseline is forgotten, or it has the
server's entry since. -/
inductive Turn (entries : String → List ServerWrite) (s s' : TriageTab) (f : String) : Prop
  | still (h : s.Still s' f)
  | forgotten (hnil : entries f = []) (h : s.Forgotten s' f)
  | taken (h : s.Taken s' f ((entries f).head?.bind (·.wire)))

variable (entries) in
/-- A hydrate adopts what the server has of the report's findings. -/
theorem turn_hydrate (hnodup : ids.Nodup) (s : TriageTab) (f : String) :
    (f ∉ ids → s.Still (ids.foldl (hydrateEntry · entries) s) f) ∧
    (f ∈ ids → (entries f = [] → s.Forgotten (ids.foldl (hydrateEntry · entries) s) f) ∧
      (entries f ≠ [] → s.Taken (ids.foldl (hydrateEntry · entries) s) f
        ((entries f).head?.bind (·.wire)))) := by
  obtain ⟨hout, hin⟩ :=
    foldl_turn (hydrateEntry · entries) (fun _ _ _ hne => still_hydrateEntry hne) hnodup s f
  refine ⟨hout, fun hf => ?_⟩
  obtain ⟨t, hst, ht⟩ := hin hf
  constructor
  · intro hnil
    simp only [hydrateEntry, hnil] at ht
    exact ⟨ht.triage.trans hst.triage, ht.baseline.trans (erase_self _ _),
      ht.version.trans hst.version⟩
  · intro hne
    obtain ⟨w, ws, hw⟩ := exists_cons_of_ne_nil hne
    simp only [hydrateEntry, hw] at ht
    rw [hw]
    exact (taken_adopt t f w.wire).still hst ht

theorem Unchanged.still (hst : s.Still s' f) : s'.Unchanged before f ↔ s.Unchanged before f := by
  rw [Unchanged, Unchanged, hst.baseline, wireOf, hst.triage, wireOf]

variable (entries before) in
/-- A refresh adopts what the server has of the findings that did not change. -/
theorem turn_refresh (hnodup : ids.Nodup) (s : TriageTab) (f : String) :
    (¬(f ∈ ids ∧ s.Unchanged before f) → s.Still (ids.foldl (refreshEntry · before entries) s) f) ∧
    (f ∈ ids → s.Unchanged before f → s.Taken (ids.foldl (refreshEntry · before entries) s) f
      ((entries f).head?.bind (·.wire))) := by
  obtain ⟨hout, hin⟩ := foldl_turn (refreshEntry · before entries)
    (fun _ _ _ hne => still_refreshEntry hne) hnodup s f
  constructor
  · intro hnot
    by_cases hf : f ∈ ids
    · obtain ⟨t, hst, ht⟩ := hin hf
      have hchanged : ¬t.Unchanged before f := fun h => hnot ⟨hf, (Unchanged.still hst).1 h⟩
      rw [refreshEntry, if_neg hchanged] at ht
      exact hst.trans ht
    · exact hout hf
  · intro hf hunchanged
    obtain ⟨t, hst, ht⟩ := hin hf
    rw [refreshEntry, if_pos ((Unchanged.still hst).2 hunchanged)] at ht
    exact (taken_adopt t f _).still hst ht

/-- What an adoption leaves as it is of everything. -/
structure SameQueues (s s' : TriageTab) : Prop where
  log : s'.log = s.log
  pending : s'.pending = s.pending
  flushChain : s'.flushChain = s.flushChain
  sending : s'.sending = s.sending
  view : s'.view = s.view

theorem sameQueues_foldl (hstep : ∀ s id, SameQueues s (step s id)) (ids : List String)
    (s : TriageTab) : SameQueues s (ids.foldl step s) := by
  induction ids generalizing s with
  | nil => exact ⟨rfl, rfl, rfl, rfl, rfl⟩
  | cons id ids ih =>
    have hone := hstep s id
    have hrest := ih (step s id)
    exact ⟨hrest.log.trans hone.log, hrest.pending.trans hone.pending,
      hrest.flushChain.trans hone.flushChain, hrest.sending.trans hone.sending,
      hrest.view.trans hone.view⟩

theorem sameQueues_hydrateEntry (s : TriageTab) (id : String) :
    SameQueues s (s.hydrateEntry entries id) := by
  rw [hydrateEntry]
  split <;> exact ⟨rfl, rfl, rfl, rfl, rfl⟩

theorem sameQueues_refreshEntry (s : TriageTab) (id : String) :
    SameQueues s (s.refreshEntry before entries id) := by
  rw [refreshEntry]
  split <;> exact ⟨rfl, rfl, rfl, rfl, rfl⟩

theorem foldl_stamps (hstep : ∀ s id, s.stamps ≤ (step s id).stamps) (ids : List String)
    (s : TriageTab) : s.stamps ≤ (ids.foldl step s).stamps := by
  induction ids generalizing s with
  | nil => exact le_refl _
  | cons id ids ih => exact (hstep s id).trans (ih (step s id))

theorem stamps_hydrateEntry (s : TriageTab) (id : String) :
    s.stamps ≤ (s.hydrateEntry entries id).stamps := by
  rw [hydrateEntry]
  split
  · exact le_refl _
  · exact le_succ _

theorem stamps_refreshEntry (s : TriageTab) (id : String) :
    s.stamps ≤ (s.refreshEntry before entries id).stamps := by
  rw [refreshEntry]
  split
  · exact le_succ _
  · exact le_refl _

theorem SameQueues.outstanding (h : s.SameQueues s') (f : String) :
    s'.outstanding f = s.outstanding f := by
  rw [TriageTab.outstanding, h.pending, h.flushChain, h.sending, TriageTab.outstanding]

end TriageTab

end Triage.Ui
