import Triage.Ui.ManagedTriage

/-!
# Reading the triage of managed reports

A report that is opened is hydrated, and one that is open is refreshed: the tab sends what it has
captured, reads the server's entries, by itself or in a read that several reports share, and adopts
them. A hydrate lets the server win; a refresh leaves what changed here since it began.
-/

namespace Triage.Ui

open Client

/-- `entriesEqual` of `triage-entry.ts`, for which no color and the empty one are equal. -/
def entriesEqual (a b : TriageEntry) : Bool :=
  a.color.getD "" = b.color.getD "" && bucketOf a = bucketOf b &&
    a.comment.getD "" = b.comment.getD "" && a.fix.getD "" = b.fix.getD "" &&
    a.flagged = b.flagged && ignoredReportsEqual a.ignoredReports b.ignoredReports &&
    ignoredReportsEqual a.scopedIgnoredReports b.scopedIgnoredReports

/-- `setEntry` -/
def setEntry (map : TriageStateMap) (id : String) (entry : TriageEntry) : TriageStateMap :=
  match normalizeEntry (some entry) with
  | none => map.erase id
  | some next => if entriesEqual (orEmpty (map id)) next then map else map.insert id next

/-- The entry that is set for what the server has.  What reports ignore is kept if the bucket allows
it, and comments are not the server's to tell here. -/
def adoptedEntry (wire : Option WireEntry) (cur : Option TriageEntry) : TriageEntry where
  color := wire.bind (·.color)
  triage := wire.bind (·.triage)
  comment := none
  fix := wire.bind (·.fix)
  flagged := wire.bind (·.flagged)
  ignoredReports := match wire.bind (·.triage) with
    | none | some .ignored => (orEmpty cur).ignoredReports
    | some _ => []
  scopedIgnoredReports := (orEmpty cur).scopedIgnoredReports
  legacyDeleted := false

namespace TriageTab

variable (s : TriageTab)

/-- An entry of the server is adopted. -/
def adopt (id : String) (wire : Option WireEntry) : TriageTab :=
  have triage := setEntry s.triage id (adoptedEntry wire (s.triage id))
  { s.setBaseline id wire with
    triage
    version := if wireEntryOf (triage id) = s.wireOf id then s.version
      else Function.update s.version id (s.version id + 1) }

/-- One turn of the loop of a hydrate. -/
def hydrateEntry (entries : String → List ServerWrite) (id : String) : TriageTab :=
  match entries id with
  -- never seen by the server: the local entry is kept
  | [] => { s with baseline := s.baseline.erase id }
  | w :: _ => s.adopt id w.wire

/-- A refresh adopts an entry: nothing of it changed since `before`. -/
def Unchanged (before : FMap String Baseline) (id : String) : Prop :=
  s.baseline id = before id ∧ wireKey (s.wireOf id) = (before id).bind (·.key)

instance (before : FMap String Baseline) (id : String) : Decidable (s.Unchanged before id) :=
  inferInstanceAs (Decidable (_ ∧ _))

/-- One turn of the loop of a refresh. -/
def refreshEntry (before : FMap String Baseline) (entries : String → List ServerWrite)
    (id : String) : TriageTab :=
  if s.Unchanged before id then s.adopt id ((entries id).head?.bind (·.wire)) else s

end TriageTab

/-- Where a read of the server's entries is: what was captured is sent before. -/
inductive ReadPhase
  | flushing (target : ℕ)
  | requested
  | answered (entries : String → List ServerWrite)

/-- A hydrate leaves the findings of `except` as they are. -/
inductive CallKind
  | hydrate (except : Finset String)
  | refresh
  deriving DecidableEq

/-- Where a hydrate or a refresh is: what was captured is sent, or a read is waited for.  `before`
is the baseline that was known then, and `known`, which no code reads, what the server held. -/
inductive CallPhase
  | flushing (target : ℕ)
  | reading (read : ℕ) (before : FMap String Baseline) (known : String → List ServerWrite)

/-- A hydrate or a refresh of a report; `view` is the view it began in. -/
structure ReadCall where
  kind : CallKind
  reportId : String
  view : ℕ
  phase : CallPhase

/-- A tab with its reads.  `views` tells the views apart, `flushed` counts the flushes that ended.
`own` is nobody's: the findings whose local entry is what the user made of it last. -/
structure ReadTab where
  tab : TriageTab
  views : ℕ
  flushed : ℕ
  reads : FMap ℕ ReadPhase
  calls : FMap ℕ ReadCall
  own : Finset String

namespace ReadTab

variable (s : ReadTab)

/-- The flushes that were begun or queued so far. -/
def flushTarget : ℕ :=
  s.flushed + s.tab.flushChain.length + if s.tab.sending.isSome then 1 else 0

def scope (reportId : String) : Scope := ⟨s.tab.view.teamId, reportId⟩

/-- A hydrate goes on while its report is shown, a refresh while it is hydrated too. -/
def isCurrent (c : ReadCall) : Bool :=
  c.view = s.views &&
    match c.kind with
    | .hydrate _ => s.tab.view.activeReports.contains c.reportId
    | .refresh => s.scope c.reportId ∈ s.tab.hydratedReports

def setTab (tab : TriageTab) : ReadTab := { s with tab }

/-- A step of the pushes, which may end a flush. -/
def pushed (tab : TriageTab) : ReadTab :=
  { s with
    tab
    flushed := s.flushed + if s.tab.sending.isSome && tab.sending.isNone then 1 else 0 }

def edit (id : String) (entry : Option TriageEntry) : ReadTab :=
  { s with
    tab := (s.tab.edit id entry).scheduleTriagePush
    own := if wireEntryOf entry = s.tab.wireOf id then s.own else insert id s.own }

/-- The start of `hydrateManagedReportTriage` and of `refreshManagedReportTriage`. -/
def begin (call : ℕ) (kind : CallKind) (reportId : String) : Option ReadTab :=
  if s.calls call = none ∧ s.isCurrent ⟨kind, reportId, s.views, .flushing 0⟩ then
    have tab := match kind with
      | .hydrate _ =>
        { s.tab with hydratedReports := s.tab.hydratedReports.erase (s.scope reportId) }
      | .refresh => s.tab
    have s' := s.setTab tab.flushPending
    some { s' with
      calls := s.calls.insert call ⟨kind, reportId, s.views, .flushing s'.flushTarget⟩ }
  else none

/-- `createManagedAnnotationRead` is started. -/
def startRead (read : ℕ) : ReadTab :=
  have s' := s.setTab s.tab.flushPending
  { s' with reads := s.reads.insert read (.flushing s'.flushTarget) }

/-- A call whose flushes ended waits for a read: one of its own, or one that may be under way. -/
def await (call read : ℕ) (shared : Bool) : Option ReadTab :=
  match s.calls call with
  | some c@⟨_, _, _, .flushing target⟩ =>
    if target ≤ s.flushed ∧ s.isCurrent c ∧ (shared ∨ s.reads read = none) then
      have s' := if (s.reads read).isSome then s
        else if shared then s.startRead read
        else { s with reads := s.reads.insert read .requested }
      some { s' with
        calls := s.calls.insert call
          { c with phase := .reading read s'.tab.baseline s'.tab.log } }
    else none
  | _ => none

def request (read : ℕ) : Option ReadTab :=
  match s.reads read with
  | some (.flushing target) =>
    if target ≤ s.flushed then some { s with reads := s.reads.insert read .requested } else none
  | _ => none

/-- The server answers with its entries at some moment. -/
def answer (read : ℕ) : Option ReadTab :=
  match s.reads read with
  | some .requested => some { s with reads := s.reads.insert read (.answered s.tab.log) }
  | _ => none

/-- The tab after the entries were adopted, before what they leave to be pushed is captured. -/
def adopted (c : ReadCall) (before : FMap String Baseline) (entries : String → List ServerWrite) :
    TriageTab :=
  match c.kind with
  | .hydrate except =>
    have tab := ((s.tab.view.findingIdsForManagedReport c.reportId).filter (· ∉ except)).foldl
      (TriageTab.hydrateEntry · entries) s.tab
    { tab with hydratedReports := insert (s.scope c.reportId) tab.hydratedReports }
  | .refresh =>
    (s.tab.view.findingIdsForManagedReport c.reportId).foldl
      (TriageTab.refreshEntry · before entries) s.tab

/-- A hydrate captures what is left in any case, a refresh if it changed an entry. -/
def captures (c : ReadCall) (tab : TriageTab) : Bool :=
  match c.kind with
  | .hydrate _ => true
  | .refresh => tab.triage ≠ s.tab.triage

/-- A hydrate or a refresh whose read was answered ends. -/
def adopt (call : ℕ) : Option ReadTab :=
  match s.calls call with
  | some c@⟨_, _, _, .reading read before _⟩ =>
    match s.reads read with
    | some (.answered entries) =>
      have calls := s.calls.erase call
      if s.isCurrent c then
        have tab := s.adopted c before entries
        some { s with
          calls
          tab := if s.captures c tab then tab.scheduleTriagePush else tab
          own := s.own.filter fun id => tab.version id = s.tab.version id }
      else some { s with calls }
    | _ => none
  | _ => none

end ReadTab

/-- A step of the user, of the pushes, of another writer of the server, or of a read. -/
inductive ReadLabel
  | edit (id : String) (entry : Option TriageEntry)
  | view (v : TeamView)
  | expire
  | flush
  | send
  | settle (posted : TriageTab.Posted)
  | other (id : String) (wire : Option WireEntry)
  | begin (call : ℕ) (kind : CallKind) (reportId : String)
  | startRead (read : ℕ)
  | await (call read : ℕ) (shared : Bool)
  | request (read : ℕ)
  | answer (read : ℕ)
  | adopt (call : ℕ)
  | giveUp (call : ℕ)

/-- The triage of a tab, with its reads. -/
def triageReads (entryBytes : String → Option WireEntry → ℕ) : Machine ReadTab ReadLabel where
  step s
    | .edit id entry =>
      if id ∈ s.tab.view.loadedFindingIds then some (s.edit id entry) else none
    | .view v => some { s with tab := { s.tab with view := v }, views := s.views + 1 }
    | .expire => if s.tab.pushTimer then some (s.setTab s.tab.flushPending) else none
    | .flush => some (s.setTab s.tab.flushPending)
    | .send => (s.tab.send entryBytes).map s.pushed
    | .settle posted => (s.tab.settle entryBytes posted).map s.pushed
    | .other id wire => some (s.setTab { s.tab with
        log := Function.update s.tab.log id (⟨wire, none⟩ :: s.tab.log id) })
    | .begin call kind reportId => s.begin call kind reportId
    | .startRead read => if s.reads read = none then some (s.startRead read) else none
    | .await call read shared => s.await call read shared
    | .request read => s.request read
    | .answer read => s.answer read
    | .adopt call => s.adopt call
    | .giveUp call => some { s with calls := s.calls.erase call }

end Triage.Ui
