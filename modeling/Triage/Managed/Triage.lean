import Triage.Data.Journal
import Triage.Machine.Basic
import Mathlib.Data.Int.Notation

/-!
# Triage of a managed server

One row for every finding that has been triaged, and a trail of events, one for every write that
changed a row. A single entry is compared with its row and skipped if it is equal; a batch of
different findings is compared as a whole and written in chunks. A server may bound the trail of
every finding.

## Main results

* `setTriageEntries_eq` : a batch is written as its entries would be, one after another.
* `setTriageEntries_again` : **a batch that is sent again changes nothing**.
-/

namespace Triage.Managed

open List Function

/-- The columns of an entry, as they are stored. -/
structure TriageStateDbRow where
  color : Option String
  triage : Option String
  comment : Option String
  fix : Option String
  flagged : Option ℤ
  deriving DecidableEq

/-- An entry as it is sent; an absent field is unset. -/
structure TriageEntryPatch where
  color : Option String := none
  triage : Option String := none
  comment : Option String := none
  fix : Option String := none
  flagged : Option Bool := none
  deriving DecidableEq

/-- The row an entry makes; no entry is the tombstone. -/
def TriageStateDbRow.next (entry : Option TriageEntryPatch) : TriageStateDbRow :=
  have e := entry.getD {}
  ⟨e.color, e.triage, e.comment, e.fix, e.flagged.map fun flagged => if flagged then 1 else 0⟩

/-- A row of `managed_finding_triage`. -/
structure TriageRow where
  state : TriageStateDbRow
  updatedBy : Option String
  updatedByLogin : Option String
  updatedAt : ℕ
  deriving DecidableEq

/-- A row of `managed_finding_triage_event`, apart from its number and its finding. -/
structure TriageEvent where
  batchId : String
  state : TriageStateDbRow
  actorId : Option String
  actorLogin : Option String
  at' : ℕ
  reportId : Option String
  report : Option String
  repo : Option String
  deriving DecidableEq

/-- The tables: `reports` has file names and repositories, `repos` has full names. -/
structure TriageDb where
  rows : String → Option TriageRow
  events : Journal String TriageEvent
  reports : String → Option (String × Option ℕ)
  repos : ℕ → Option String

/-- What a write is stamped with. -/
structure TriageWrite where
  batchId : String
  updatedBy : Option String
  updatedByLogin : Option String
  now : ℕ
  reportId : Option String

namespace TriageDb

/-- No rows. -/
def empty : TriageDb := ⟨fun _ => none, ⟨[], List.Pairwise.nil⟩, fun _ => none, fun _ => none⟩

/-- `upsertTriageStmt`. -/
def upsertTriage (w : TriageWrite) (db : TriageDb) (id : String) (state : TriageStateDbRow) :
    String → Option TriageRow :=
  update db.rows id (some ⟨state, w.updatedBy, w.updatedByLogin, w.now⟩)

/-- The event of a write: the names of its report and repository are looked up. -/
def triageEvent (w : TriageWrite) (db : TriageDb) (state : TriageStateDbRow) : TriageEvent where
  batchId := w.batchId
  state := state
  actorId := w.updatedBy
  actorLogin := w.updatedByLogin
  at' := w.now
  reportId := w.reportId
  report := (w.reportId.bind db.reports).map Prod.fst
  repo := ((w.reportId.bind db.reports).bind Prod.snd).bind db.repos

/-- The row of a finding holds a state. -/
def holds (db : TriageDb) (id : String) (state : TriageStateDbRow) : Bool :=
  (db.rows id).any fun row => row.state = state

variable (historyLimit : ℕ) (w : TriageWrite)

/-- Writes a row, inserts its event, and trims the trail of its finding. -/
def writeState (db : TriageDb) (x : String × TriageStateDbRow) : TriageDb :=
  have events := db.events.append x.1 (triageEvent w db x.2)
  ⟨upsertTriage w db x.1 x.2, if 0 < historyLimit then events.trim historyLimit x.1 else events,
    db.reports, db.repos⟩

/-- `writeEntry`: an entry equal to its row is skipped. -/
def writeEntry (db : TriageDb) (x : String × Option TriageEntryPatch) : TriageDb :=
  if db.holds x.1 (.next x.2) then db else db.writeState historyLimit w (x.1, .next x.2)

/-- The entries of a batch that differ from their rows. -/
def changed (db : TriageDb) (entries : List (String × Option TriageEntryPatch)) :
    List (String × TriageStateDbRow) :=
  entries.flatMap fun x => if db.holds x.1 (.next x.2) then [] else [(x.1, .next x.2)]

/-- The statements for one chunk: the rows, then the events in order, then the window over the
trails of its findings. -/
def writeChunk (db : TriageDb) (chunk : List (String × TriageStateDbRow)) : TriageDb :=
  have events := db.events.appendAll (chunk.map fun x => (x.1, triageEvent w db x.2))
  ⟨chunk.foldl (fun rows x =>
      update rows x.1 (some ⟨x.2, w.updatedBy, w.updatedByLogin, w.now⟩)) db.rows,
    if 0 < historyLimit then events.trimAll historyLimit (chunk.map Prod.fst) else events,
    db.reports, db.repos⟩

/-- The loop over the chunks. -/
def writeChunks (db : TriageDb) (changed : List (String × TriageStateDbRow)) : TriageDb :=
  if changed = [] then db
  else (db.writeChunk historyLimit w (changed.take 200)).writeChunks (changed.drop 200)
termination_by changed.length
decreasing_by
  rename_i h
  have := length_pos_iff.2 h
  rw [length_drop]
  omega

/-- `setTriageEntries`: entries of different findings are written in bulk. -/
def setTriageEntries (db : TriageDb) (entries : List (String × Option TriageEntryPatch)) :
    TriageDb :=
  if (entries.map Prod.fst).Nodup then db.writeChunks historyLimit w (db.changed entries)
  else entries.foldl (writeEntry historyLimit w) db

/-- `deleteTriage`: the rows and the trails of some findings. -/
def deleteTriage (db : TriageDb) (ids : List String) : TriageDb :=
  { db with rows := fun id => if id ∈ ids then none else db.rows id, events := db.events.purge ids }

/-- A reference to a user that is removed is set to null. -/
def setNull (user : String) (id : Option String) : Option String :=
  if id = some user then none else id

/-- A user is removed. -/
def removeUser (db : TriageDb) (user : String) : TriageDb :=
  { db with
    rows := fun id => (db.rows id).map fun row =>
      { row with updatedBy := setNull user row.updatedBy }
    events := db.events.mapValues fun e => { e with actorId := setNull user e.actorId } }

/-- The comments that are left on a row are moved to records of their own at startup. -/
def initComments (db : TriageDb) : TriageDb :=
  { db with rows := fun id => (db.rows id).map fun row =>
      { row with state := { row.state with comment := none } } }

/-! ### A batch, entry by entry -/

variable {historyLimit : ℕ} {w : TriageWrite} {db : TriageDb}

@[simp] theorem rows_writeState (x : String × TriageStateDbRow) :
    (db.writeState historyLimit w x).rows = upsertTriage w db x.1 x.2 := rfl

theorem holds_writeState {x : String × TriageStateDbRow} {id : String} (h : id ≠ x.1)
    (state : TriageStateDbRow) : (db.writeState historyLimit w x).holds id state =
      db.holds id state := by
  rw [holds, holds, rows_writeState, upsertTriage, update_of_ne h]

theorem changed_cons (x : String × Option TriageEntryPatch)
    (entries : List (String × Option TriageEntryPatch)) : db.changed (x :: entries) =
      (if db.holds x.1 (.next x.2) then [] else [(x.1, .next x.2)]) ++ db.changed entries := by
  rw [changed, flatMap_cons]
  rfl

variable {entries : List (String × Option TriageEntryPatch)}

/-- The comparison with the rows before the batch is the one with the rows before each entry. -/
theorem foldl_writeEntry (h : (entries.map Prod.fst).Nodup) :
    entries.foldl (writeEntry historyLimit w) db =
      (db.changed entries).foldl (writeState historyLimit w) db := by
  induction entries generalizing db with
  | nil => rfl
  | cons x entries ih =>
    obtain ⟨hfresh, hrest⟩ := nodup_cons.1 h
    rw [foldl_cons, ih hrest, changed_cons, writeEntry]
    split_ifs with hholds
    · rfl
    · have hchanged : (db.writeState historyLimit w (x.1, .next x.2)).changed entries =
          db.changed entries := by
        refine flatMap_congr fun y hy => ?_
        have hne : y.1 ≠ x.1 := fun heq => hfresh (heq ▸ mem_map_of_mem hy)
        rw [holds_writeState hne]
      rw [hchanged]
      rfl

/-- The rows of a chunk do not matter to its events. -/
theorem foldl_writeState (chunk : List (String × TriageStateDbRow)) :
    chunk.foldl (writeState historyLimit w) db =
      ⟨chunk.foldl (fun rows x =>
        update rows x.1 (some ⟨x.2, w.updatedBy, w.updatedByLogin, w.now⟩)) db.rows,
      (chunk.map fun x => (x.1, triageEvent w db x.2)).foldl (fun events x =>
        if 0 < historyLimit then (events.append x.1 x.2).trim historyLimit x.1
        else events.append x.1 x.2) db.events, db.reports, db.repos⟩ := by
  induction chunk generalizing db with
  | nil => rfl
  | cons x chunk ih =>
    rw [foldl_cons, ih]
    rfl

theorem writeChunk_eq {chunk : List (String × TriageStateDbRow)} (h : (chunk.map Prod.fst).Nodup) :
    db.writeChunk historyLimit w chunk = chunk.foldl (writeState historyLimit w) db := by
  have hkeys : (chunk.map fun x => (x.1, triageEvent w db x.2)).map Prod.fst =
      chunk.map Prod.fst := by
    rw [map_map]
    rfl
  rw [foldl_writeState, writeChunk]
  by_cases hlimit : 0 < historyLimit
  · simp only [hlimit, if_true]
    rw [Journal.foldl_appendTrim _ hlimit (by rwa [hkeys]), hkeys]
  · simp only [hlimit, if_false]
    rfl

theorem writeChunks_eq {changed : List (String × TriageStateDbRow)}
    (h : (changed.map Prod.fst).Nodup) :
    db.writeChunks historyLimit w changed = changed.foldl (writeState historyLimit w) db := by
  induction db, changed using writeChunks.induct historyLimit w with
  | case1 db => rw [writeChunks, if_pos rfl, foldl_nil]
  | case2 db changed hne ih =>
    have hsplit := h
    rw [← take_append_drop 200 changed, map_append, nodup_append] at hsplit
    rw [writeChunks, if_neg hne, ih hsplit.2.1, writeChunk_eq hsplit.1, ← foldl_append,
      take_append_drop]

theorem nodup_changed (h : (entries.map Prod.fst).Nodup) :
    ((db.changed entries).map Prod.fst).Nodup := by
  refine List.Nodup.sublist ?_ h
  induction entries with
  | nil => exact List.Sublist.refl _
  | cons x entries ih =>
    have hrest := ih (nodup_cons.1 h).2
    rw [changed_cons, map_append, map_cons]
    split_ifs
    · exact hrest.cons _
    · exact hrest.cons_cons _

/-- **A batch is written as its entries would be, one after another.** -/
theorem setTriageEntries_eq (historyLimit : ℕ) (w : TriageWrite) (db : TriageDb)
    (entries : List (String × Option TriageEntryPatch)) :
    db.setTriageEntries historyLimit w entries = entries.foldl (writeEntry historyLimit w) db := by
  unfold setTriageEntries
  split_ifs with h
  · rw [foldl_writeEntry h, writeChunks_eq (nodup_changed h)]
  · rfl

/-! ### A batch that is sent again -/

theorem holds_writeEntry {x : String × Option TriageEntryPatch} :
    (db.writeEntry historyLimit w x).holds x.1 (.next x.2) = true := by
  rw [writeEntry]
  split_ifs with hholds
  · exact hholds
  · rw [holds, rows_writeState, upsertTriage, update_self]
    exact decide_eq_true rfl

/-- The entry of a finding is not touched by those of others. -/
theorem holds_foldl {id : String} (h : id ∉ entries.map Prod.fst) (state : TriageStateDbRow) :
    (entries.foldl (writeEntry historyLimit w) db).holds id state = db.holds id state := by
  induction entries generalizing db with
  | nil => rfl
  | cons x entries ih =>
    obtain ⟨hne, hrest⟩ := not_or.1 (mem_cons.not.1 h)
    rw [foldl_cons, ih hrest, writeEntry]
    split_ifs
    · rfl
    · exact holds_writeState hne state

/-- What every entry's row holds already is not written. -/
theorem foldl_eq_self (h : ∀ x ∈ entries, db.holds x.1 (.next x.2) = true) :
    entries.foldl (writeEntry historyLimit w) db = db := by
  induction entries with
  | nil => rfl
  | cons x entries ih =>
    rw [foldl_cons, writeEntry, if_pos (h x mem_cons_self)]
    exact ih fun y hy => h y (mem_cons_of_mem x hy)

/-- **A batch that is sent again changes nothing**, neither a row nor a trail, whoever sends it and
whenever, where its findings are different ones. -/
theorem setTriageEntries_again (historyLimit : ℕ) (w w' : TriageWrite) (db : TriageDb)
    {entries : List (String × Option TriageEntryPatch)} (h : (entries.map Prod.fst).Nodup) :
    (db.setTriageEntries historyLimit w entries).setTriageEntries historyLimit w' entries =
      db.setTriageEntries historyLimit w entries := by
  rw [setTriageEntries_eq, setTriageEntries_eq]
  refine foldl_eq_self fun x hx => ?_
  obtain ⟨before, after, rfl⟩ := append_of_mem hx
  rw [map_append, map_cons] at h
  have hafter : x.1 ∉ after.map Prod.fst := (nodup_cons.1 (nodup_append.1 h).2.1).1
  rw [foldl_append, foldl_cons, holds_foldl hafter]
  exact holds_writeEntry

/-- A color and a tombstone, sent again later and in another batch. -/
theorem setTriageEntries_again_red :
    have batch := [("f", some { color := some "red" }), ("g", none)]
    have db := empty.setTriageEntries 1 ⟨"1", none, none, 0, none⟩ batch
    db.setTriageEntries 1 ⟨"2", none, none, 5, none⟩ batch = db :=
  setTriageEntries_again 1 _ _ empty (by decide)

end TriageDb

end Triage.Managed
