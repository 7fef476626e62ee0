import Triage.Machine.Basic
import Triage.Client.Changeset

/-!
# Triage of managed reports

A tab that shows reports of a team keeps their triage in one map by finding, captures what the user
changed against what it knows of the server, and posts it after a while, batch by batch.
-/

namespace Triage.Ui

open Client

/-! ### Entries -/

/-- The fields of an entry that the server keeps, of which there is one at least; there are no empty
texts. -/
@[ext] structure WireEntry where
  color : Option String
  triage : Option TriageBucket
  fix : Option String
  flagged : Option Bool
  color_ne : color ≠ some ""
  fix_ne : fix ≠ some ""
  ne : ¬(color = none ∧ triage = none ∧ fix = none ∧ flagged = none)
  deriving DecidableEq

theorem nonempty_ne (s : Option String) : nonempty s ≠ some "" := by
  intro h
  have := (Option.filter_eq_some_iff.1 h).2
  simp at this

/-- Nothing that the server keeps is left of an entry when all four fields are absent. -/
def wireEntryOf (entry : Option TriageEntry) : Option WireEntry :=
  entry.bind fun e =>
    if h : nonempty e.color = none ∧ bucketOf e = none ∧ nonempty e.fix = none ∧
        e.flagged = none then none
    else
      some ⟨nonempty e.color, bucketOf e, nonempty e.fix, e.flagged, nonempty_ne _, nonempty_ne _,
        h⟩

/-- `wireKey`, the array before it is made a text; there is none for no entry. -/
def wireKey (entry : Option WireEntry) : Option (String × String × String × Option Bool) :=
  entry.map fun e =>
    (e.color.getD "", (e.triage.map TriageBucket.toString).getD "", e.fix.getD "", e.flagged)

theorem getD_inj {s t : Option String} (hs : s ≠ some "") (ht : t ≠ some "")
    (h : s.getD "" = t.getD "") : s = t := by
  cases s with
  | none =>
    cases t with
    | none => rfl
    | some t => exact absurd (congrArg some h.symm) ht
  | some s =>
    cases t with
    | none => exact absurd (congrArg some h) hs
    | some t => exact congrArg some h

theorem toString_inj {a b : Option TriageBucket}
    (h : (a.map TriageBucket.toString).getD "" = (b.map TriageBucket.toString).getD "") :
    a = b := by
  revert h
  rcases a with _ | _ | _ | _ | _ | _ <;> rcases b with _ | _ | _ | _ | _ | _ <;> decide

/-- Entries with one key are equal. -/
theorem wireKey_inj {a b : Option WireEntry} (h : wireKey a = wireKey b) : a = b := by
  cases a with
  | none =>
    cases b with
    | none => rfl
    | some b => cases h
  | some a =>
    cases b with
    | none => cases h
    | some b =>
      simp only [wireKey, Option.map_some, Option.some.injEq, Prod.mk.injEq] at h
      obtain ⟨hcolor, htriage, hfix, hflagged⟩ := h
      exact congrArg some (WireEntry.ext (getD_inj a.color_ne b.color_ne hcolor)
        (toString_inj htriage) (getD_inj a.fix_ne b.fix_ne hfix) hflagged)

/-- `String.length` : characters beyond the basic plane count twice. -/
def jsLength (s : String) : ℕ :=
  s.toList.foldl (fun n c => n + bif c.toNat.blt 0x10000 then 1 else 2) 0

def MAX_FINDING_ID : ℕ := 100
def MAX_TRIAGE_COLOR : ℕ := 50
def MAX_TRIAGE_TEXT : ℕ := 10000
def MAX_TRIAGE_ENTRIES : ℕ := 200
def MAX_TRIAGE_BODY_BYTES : ℕ := 262144
def BODY_OVERHEAD_BYTES : ℕ := 14

def fitsWire (id : String) (wire : Option WireEntry) : Bool :=
  jsLength id ≤ MAX_FINDING_ID &&
    wire.all fun w =>
      (w.color.map jsLength).getD 0 ≤ MAX_TRIAGE_COLOR &&
        (w.fix.map jsLength).getD 0 ≤ MAX_TRIAGE_TEXT

/-! ### The tab -/

/-- A report of a team, `scopeFor`. -/
structure Scope where
  teamId : String
  reportId : String
  deriving DecidableEq

/-- A captured entry; `version` counts the changes of its finding. -/
structure Change where
  wire : Option WireEntry
  version : ℕ
  deriving DecidableEq

/-- The changes captured for a report, in the order they were first captured. -/
structure Batch where
  key : Scope
  changes : List (String × Change)
  deriving DecidableEq

/-- A flush between two of its answers: the batch of the request, and what goes after it. -/
structure Sending where
  key : Scope
  batch : List (String × Change)
  rest : List (String × Change)
  deriving DecidableEq

/-- What is known of a finding on the server.  `stamp` is the identity of the object. -/
structure Baseline where
  key : Option (String × String × String × Option Bool)
  stamp : ℕ
  deriving DecidableEq

/-- A loaded report, with the ids of its findings that are texts and not empty. -/
structure LoadedReport where
  managedReportId : Option String
  findings : List String

/-- What is shown: a team, its active reports, and the reports that are loaded. -/
structure TeamView where
  teamId : String
  activeReports : List String
  reports : List LoadedReport

/-- A write of a finding's entry at the server; `mine` is the version that this tab posted. -/
structure ServerWrite where
  wire : Option WireEntry
  mine : Option ℕ
  deriving DecidableEq

/-- The variables of the module and of the client that it works on.  `log` is the server's: the
writes of each finding, the last first.  `version`, `edited`, `refused` and `stamps` are nobody's:
how often what the server keeps of a finding changed here, the findings that were edited, those
whose last POST was refused, and how many baseline objects were made. -/
structure TriageTab where
  triage : TriageStateMap
  view : TeamView
  baseline : FMap String Baseline
  hydratedReports : Finset Scope
  pending : List Batch
  pushTimer : Bool
  flushChain : List Batch
  sending : Option Sending
  log : String → List ServerWrite
  version : String → ℕ
  edited : Finset String
  refused : Finset String
  stamps : ℕ

namespace TeamView

variable (v : TeamView)

def loadedFindingIds : List String := (v.reports.flatMap (·.findings)).dedup

def reportForFinding (id : String) : Option String :=
  (v.reports.findSome? fun report =>
    report.managedReportId.filter fun reportId =>
      report.findings.contains id && v.activeReports.contains reportId).or v.activeReports.head?

def findingIdsForManagedReport (reportId : String) : List String :=
  have own := v.reports.filter fun report => report.managedReportId = some reportId
  if own ≠ [] ∨ v.reports = [] then (own.flatMap (·.findings)).dedup else v.loadedFindingIds

end TeamView

/-- `Map.set` on the changes of a batch. -/
def Batch.set (b : Batch) (id : String) (c : Change) : Batch :=
  { b with changes :=
      if b.changes.any (·.1 = id) then b.changes.map fun p => if p.1 = id then (id, c) else p
      else b.changes ++ [(id, c)] }

/-- A change is put into the queue of its report, which is made at the end if there is none. -/
def setPending (key : Scope) (id : String) (c : Change) : List Batch → List Batch
  | [] => [⟨key, [(id, c)]⟩]
  | b :: bs => if b.key = key then b.set id c :: bs else b :: setPending key id c bs

/-- `requeue` : what was not sent goes back, except where there is a newer capture. -/
def requeue (key : Scope) (unsent : List (String × Change)) : List Batch → List Batch
  | [] => [⟨key, unsent⟩]
  | b :: bs =>
    if b.key = key then
      { b with changes := b.changes ++ unsent.filter fun p => !b.changes.any (·.1 = p.1) } :: bs
    else b :: requeue key unsent bs

/-- One request of a flush, and what is left: `bytes` and `count` are of what is in it already. -/
def takeBatch (entryBytes : String → Option WireEntry → ℕ) :
    ℕ → ℕ → List (String × Change) → List (String × Change) × List (String × Change)
  | _, _, [] => ([], [])
  | bytes, count, p :: ps =>
    if MAX_TRIAGE_ENTRIES ≤ count ∨
        0 < count ∧ MAX_TRIAGE_BODY_BYTES < bytes + entryBytes p.1 p.2.wire then ([], p :: ps)
    else
      have more := takeBatch entryBytes (bytes + entryBytes p.1 p.2.wire) (count + 1) ps
      (p :: more.1, more.2)

namespace TriageTab

variable (s : TriageTab)

/-- The entry of a finding on the server. -/
def server (id : String) : Option ServerWrite := (s.log id).head?

def wireOf (id : String) : Option WireEntry := wireEntryOf (s.triage id)

def baselineKey (id : String) : Option (String × String × String × Option Bool) :=
  (s.baseline id).bind (·.key)

def setBaseline (id : String) (wire : Option WireEntry) : TriageTab :=
  { s with
    baseline := s.baseline.insert id ⟨wireKey wire, s.stamps⟩
    stamps := s.stamps + 1 }

/-! ### Capturing -/

/-- The report that a finding is captured for, if it is. -/
def captureScope (id : String) : Option Scope :=
  if s.baselineKey id = wireKey (s.wireOf id) ∨ fitsWire id (s.wireOf id) = false then none
  else ((s.view.reportForFinding id).map fun reportId => ⟨s.view.teamId, reportId⟩).filter
    (· ∈ s.hydratedReports)

/-- One turn of the loop of `scheduleTriagePush`. -/
def capture (id : String) : TriageTab :=
  if s.baselineKey id = wireKey (s.wireOf id) then s
  -- over the caps: kept local, until it changes again
  else if fitsWire id (s.wireOf id) = false then s.setBaseline id (s.wireOf id)
  else
    match s.captureScope id with
    | none => s
    | some key => { s with pending := setPending key id ⟨s.wireOf id, s.version id⟩ s.pending }

def scheduleTriagePush : TriageTab :=
  if s.view.activeReports = [] ∨ s.hydratedReports = ∅ then s
  else
    have s' := s.view.loadedFindingIds.foldl capture s
    { s' with pushTimer := s'.pushTimer || !s'.pending.isEmpty }

/-- The user changes an entry, which is saved. -/
def edit (id : String) (entry : Option TriageEntry) : TriageTab :=
  { s with
    triage := match entry with
      | none => s.triage.erase id
      | some e => s.triage.insert id e
    version := if wireEntryOf entry = s.wireOf id then s.version
      else Function.update s.version id (s.version id + 1)
    edited := insert id s.edited }

/-! ### Sending -/

def flushPending : TriageTab :=
  { s with pushTimer := false, pending := [], flushChain := s.flushChain ++ s.pending }

/-- The next request of a flush that has these changes to send. -/
def nextPost (entryBytes : String → Option WireEntry → ℕ) (key : Scope)
    (changes : List (String × Change)) : TriageTab :=
  have taken := takeBatch entryBytes BODY_OVERHEAD_BYTES 0 changes
  { s with sending := if changes = [] then none else some ⟨key, taken.1, taken.2⟩ }

/-- The next flush of the chain starts. -/
def send (entryBytes : String → Option WireEntry → ℕ) : Option TriageTab :=
  match s.sending, s.flushChain with
  | none, b :: bs => some ({ s with flushChain := bs }.nextPost entryBytes b.key b.changes)
  | _, _ => none

/-- How a POST ends. -/
inductive Posted
  | landed
  | refusedAsSent
  | transient
  deriving DecidableEq

/-- An entry of a POST that landed is written. -/
def land (p : String × Change) : TriageTab :=
  { s.setBaseline p.1 p.2.wire with
    log := Function.update s.log p.1 (⟨p.2.wire, some p.2.version⟩ :: s.log p.1)
    refused := s.refused.erase p.1 }

def refuse (p : String × Change) : TriageTab :=
  { s.setBaseline p.1 p.2.wire with refused := insert p.1 s.refused }

/-- The POST of a flush is answered. -/
def settle (entryBytes : String → Option WireEntry → ℕ) (posted : Posted) : Option TriageTab :=
  s.sending.map fun q =>
    match posted with
    | .landed => (q.batch.foldl land s).nextPost entryBytes q.key q.rest
    | .refusedAsSent => (q.batch.foldl refuse s).nextPost entryBytes q.key q.rest
    | .transient =>
      { s with sending := none, pending := requeue q.key (q.batch ++ q.rest) s.pending }

/-- No timer, no queued change and no POST is outstanding. -/
def Quiet : Prop :=
  s.pushTimer = false ∧ s.pending = [] ∧ s.flushChain = [] ∧ s.sending = none

instance : Decidable s.Quiet := inferInstanceAs (Decidable (_ ∧ _))

end TriageTab

/-- An edit with its save, the timer, a flush for another reason, or a POST. -/
inductive PushLabel
  | edit (id : String) (entry : Option TriageEntry)
  | view (v : TeamView)
  | expire
  | flush
  | send
  | settle (posted : TriageTab.Posted)

/-- Edits of the findings of hydrated reports, and what becomes of them; `entryBytes` are the bytes
of an entry in the body of a request. -/
def triagePushes (entryBytes : String → Option WireEntry → ℕ) : Machine TriageTab PushLabel where
  step s
    | .edit id entry =>
      if id ∈ s.view.loadedFindingIds ∧ ((s.view.reportForFinding id).any fun reportId =>
          ⟨s.view.teamId, reportId⟩ ∈ s.hydratedReports) = true then
        some (s.edit id entry).scheduleTriagePush
      else none
    | .view v => some { s with view := v }
    | .expire => if s.pushTimer then some s.flushPending else none
    | .flush => some s.flushPending
    | .send => s.send entryBytes
    | .settle posted => s.settle entryBytes posted

end Triage.Ui
