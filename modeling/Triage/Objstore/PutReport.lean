import Triage.Machine.Async
import Triage.Objstore.Store

/-!
# Reporting a commit

The REST `PUT` of an object from its token to its answer, over the outcomes of all that it awaits:
each may throw, and a compare-and-set that throws may have taken effect.

## Main results

* `commitPut_ensures` : what `commitPut` returns, by whether the compare-and-set took effect.
* `put_reported_iff` : the `PUT` reports its commit exactly if nothing throws from there on.
-/

namespace Triage.Objstore

open List Async Except

/-- What an await rejects with; `code` is the system's error code, if it has one. -/
structure Fault where
  code : Option String
  deriving DecidableEq, Repr

/-- What becomes of the version-CAS.  A statement that throws may have taken effect. -/
inductive CasReply
  | won
  | lost
  | threw (fault : Fault) (took : Bool)
  deriving DecidableEq, Repr

/-- What is written to the response. -/
inductive PutAnswer
  | deny (status : ℕ) (error : String)
  | denyConflict (currentVersion : Option ℤ) (currentIncarnation : Option String)
  | committed (version : ℤ) (incarnation contentHash : String) (contentLength : ℤ)
  deriving DecidableEq, Repr

/-- What the handler asks. -/
inductive PutCall
  | selectStaging (key : Key) (stagingId : String)
  | getLive (key : Key)
  | insertLiveIfAbsent (key : Key) (row : ObjectRow)
  | updateLiveCAS (key : Key) (row : ObjectRow) (expectedVersion : ℤ)
      (expectedIncarnation : String)
  | deleteStaging (key : Key) (stagingId : String)
  | refreshStagingBegunAt (begunAt : ℤ) (key : Key) (stagingId : String)
  | openStagingWriter (tag stagingId : String)
  /-- The body is streamed to the writer. -/
  | pipeline
  | finalizeWriter
  | abortWriter (err : Fault)
  | statStaging (tag stagingId : String)
  | promoteStagingToLive (tag stagingId contentHash : String)
  | unlinkStaging (tag stagingId : String)
  | randomId
  | now
  | inFlightHas (stagingId : String)
  | inFlightAdd (stagingId : String)
  | inFlightDelete (stagingId : String)
  | headersSent
  | destroy
  | respond (answer : PutAnswer)
  /-- The event `objstore-put` with the row. -/
  | broadcast (key : Key) (row : ObjectRow)
  | publishObjPut (key : Key)
  deriving DecidableEq, Repr

/-- What it is answered.  Both backends log what `unlinkStaging` fails with and return. -/
@[reducible] def PutCall.Reply : PutCall → Type
  | .selectStaging .. => Except Fault (Option StagingRow)
  | .getLive .. => Except Fault (Option ObjectRow)
  | .insertLiveIfAbsent .. | .updateLiveCAS .. => CasReply
  | .deleteStaging .. | .refreshStagingBegunAt .. | .openStagingWriter .. | .finalizeWriter
  | .abortWriter .. => Except Fault Unit
  /- the number of bytes received -/
  | .pipeline => Except Fault ℤ
  | .statStaging .. => Except Fault (Option ℤ)
  | .promoteStagingToLive .. => Except Fault Bool
  | .randomId => String
  | .now => ℤ
  | .inFlightHas .. | .headersSent => Bool
  | .unlinkStaging .. | .inFlightAdd .. | .inFlightDelete .. | .destroy | .respond ..
  | .broadcast .. | .publishObjPut .. => Unit

/-- Code of the handler. -/
abbrev PutHandler (α : Type) : Type := Async PutCall.Reply Fault α

/-- A question with its answer. -/
abbrev PutEvent : Type := Async.Event PutCall.Reply

namespace PutHandler

/-- An await: the promise is fulfilled or rejects. -/
def settle {α : Type} : Except Fault α → PutHandler α
  | .ok a => .done a
  | .error e => .throw e

def selectStaging (key : Key) (stagingId : String) : PutHandler (Option StagingRow) :=
  .ask (.selectStaging key stagingId) settle

def getLive (key : Key) : PutHandler (Option ObjectRow) := .ask (.getLive key) settle

def deleteStaging (key : Key) (stagingId : String) : PutHandler Unit :=
  .ask (.deleteStaging key stagingId) settle

def refreshStagingBegunAt (begunAt : ℤ) (key : Key) (stagingId : String) : PutHandler Unit :=
  .ask (.refreshStagingBegunAt begunAt key stagingId) settle

def openStagingWriter (tag stagingId : String) : PutHandler Unit :=
  .ask (.openStagingWriter tag stagingId) settle

def pipeline : PutHandler ℤ := .ask .pipeline settle

def finalizeWriter : PutHandler Unit := .ask .finalizeWriter settle

def abortWriter (err : Fault) : PutHandler Unit := .ask (.abortWriter err) settle

def statStaging (tag stagingId : String) : PutHandler (Option ℤ) :=
  .ask (.statStaging tag stagingId) settle

def promoteStagingToLive (tag stagingId contentHash : String) : PutHandler Bool :=
  .ask (.promoteStagingToLive tag stagingId contentHash) settle

def unlinkStaging (tag stagingId : String) : PutHandler Unit :=
  .ask (.unlinkStaging tag stagingId) .done

def randomId : PutHandler String := .ask .randomId .done

def now : PutHandler ℤ := .ask .now .done

def inFlightHas (stagingId : String) : PutHandler Bool := .ask (.inFlightHas stagingId) .done

def inFlightAdd (stagingId : String) : PutHandler Unit := .ask (.inFlightAdd stagingId) .done

def inFlightDelete (stagingId : String) : PutHandler Unit :=
  .ask (.inFlightDelete stagingId) .done

def headersSent : PutHandler Bool := .ask .headersSent .done

def destroy : PutHandler Unit := .ask .destroy .done

def respond (answer : PutAnswer) : PutHandler Unit := .ask (.respond answer) .done

def broadcast (key : Key) (row : ObjectRow) : PutHandler Unit := .ask (.broadcast key row) .done

def publishObjPut (key : Key) : PutHandler Unit := .ask (.publishObjPut key) .done

/-- `deny` -/
def deny (status : ℕ) (error : String) : PutHandler Unit := respond (.deny status error)

/-- `denyConflict`, with the columns of the live row. -/
def denyConflict (live : Option ObjectRow) : PutHandler Unit :=
  respond (.denyConflict (live.map (·.version)) (live.map (·.incarnation)))

/-! ### The store -/

/-- The staged size that `commitPut` goes by; `none` where it has none. -/
def stagedSize (input : CommitPutInput) : PutHandler (Option ℤ) :=
  match input.observedSize with
  | some size => pure (some size)
  | none => (statStaging input.key.workspaceTag input.stagingId).handle fun _ => pure none

/-- The version-CAS of `commitPut`. -/
def versionCAS (input : CommitPutInput) (staging : StagingRow) (nextVersion : ℤ)
    (freshIncarnation : String) (putAt : ℤ) : PutHandler CasReply :=
  match staging.prevVersion, staging.prevIncarnation with
  | none, _ =>
    .ask (.insertLiveIfAbsent input.key (committedRow staging 1 freshIncarnation putAt)) .done
  | some v, some i =>
    .ask (.updateLiveCAS input.key (committedRow staging nextVersion i putAt) v i) .done
  -- `incarnation = NULL` holds of no row
  | some _, none => pure .lost

/-- The row that `commitPut` returns. -/
def returnedRow (staging : StagingRow) (nextVersion : ℤ) (freshIncarnation : String)
    (putAt : ℤ) : ObjectRow :=
  committedRow staging nextVersion
    (if staging.prevVersion = none then freshIncarnation else staging.prevIncarnation.getD "")
    putAt

/-- `commitPut` after the version-CAS; it does not see what a statement that threw did. -/
def commitDecided (input : CommitPutInput) (row : ObjectRow) :
    CasReply → PutHandler (Except CommitPutFailure ObjectRow)
  | .threw _ _ => pure (.error .ioError)
  | .lost => do
    let current ← getLive input.key
    pure (.error (.conflict current))
  | .won => do
    unlinkStaging input.key.workspaceTag input.stagingId
    deleteStaging input.key input.stagingId
    pure (.ok row)

/-- `commitPut` after the promotion. -/
def commitPromoted (input : CommitPutInput) (staging : StagingRow) (live : Option ObjectRow) :
    PutHandler (Except CommitPutFailure ObjectRow) := do
  let nextVersion := (live.map (·.version)).getD 0 + 1
  let freshIncarnation ← randomId
  let putAt ← now
  let outcome ← versionCAS input staging nextVersion freshIncarnation putAt
  commitDecided input (returnedRow staging nextVersion freshIncarnation putAt) outcome

/-- `commitPut` -/
def commitPut (input : CommitPutInput) : PutHandler (Except CommitPutFailure ObjectRow) := do
  match ← selectStaging input.key input.stagingId with
  | none => pure (.error .noStaging)
  | some staging => do
    match ← stagedSize input with
    | none => pure (.error .ioError)
    | some size =>
      if size ≠ staging.expectedLength then pure (.error .sizeMismatch)
      else do
        let live ← getLive input.key
        if ¬matchesPrev live staging.prevVersion staging.prevIncarnation then
          pure (.error (.conflict live))
        else do
          if ← promoteStagingToLive input.key.workspaceTag input.stagingId staging.contentHash then
            commitPromoted input staging live
          else pure (.error .ioError)

/-- `abortPut` -/
def abortPut (key : Key) (stagingId : String) : PutHandler Unit := do
  unlinkStaging key.workspaceTag stagingId
  deleteStaging key stagingId

/-! ### The handler -/

/-- `IO_FAULT_CODES` -/
def ioFaultCodes : List String :=
  ["ENOSPC", "EACCES", "EROFS", "EIO", "EMFILE", "ENFILE", "EDQUOT", "EPERM", "ENOENT"]

/-- `MAX_CONTENT_LENGTH` -/
def maxContentLength : ℤ := 100 * 1024 * 1024

/-- The body of a `PUT`: the bytes received, or `none` where the answer was given. -/
def receiveBody (key : Key) (stagingId : String) (declared : ℤ) : PutHandler (Option ℤ) :=
  Async.handle
    (do
      let received ← pipeline
      -- the counter in the pipeline
      if declared < received then .throw ⟨none⟩
      else do
        finalizeWriter
        pure (some received))
    fun err => do
      abortWriter err
      abortPut key stagingId
      if err.code.any (· ∈ ioFaultCodes) then deny 500 "io-error" else deny 400 "aborted"
      pure none

/-- What `runUploadAndCommit` returns. -/
inductive Uploaded
  | handled
  | commit (result : Except CommitPutFailure ObjectRow)

/-- An upload that is refused. -/
def refuse (key : Key) (stagingId : String) (status : ℕ) (error : String) : PutHandler Uploaded :=
  do
  abortPut key stagingId
  deny status error
  pure .handled

/-- The commit of an upload of `size` bytes. -/
def commitUploaded (key : Key) (stagingId : String) (size : ℤ) : PutHandler Uploaded := do
  let begunAt ← now
  refreshStagingBegunAt begunAt key stagingId
  let commit ← commitPut ⟨key, stagingId, some size⟩
  match commit with
  | .ok row => pure (.commit (.ok row))
  | .error reason => do
    abortPut key stagingId
    pure (.commit (.error reason))

/-- `runUploadAndCommit` -/
def runUploadAndCommit (key : Key) (stagingId : String) (len declared : ℤ) :
    PutHandler Uploaded := do
  openStagingWriter key.workspaceTag stagingId
  match ← receiveBody key stagingId declared with
  | none => pure .handled
  | some received =>
    if received ≠ declared then refuse key stagingId 400 "length-mismatch"
    else do
      let onDisk ← (statStaging key.workspaceTag stagingId).handle fun _ => pure none
      match onDisk with
      | none => refuse key stagingId 500 "io-error"
      | some onDisk =>
        if onDisk ≠ len then refuse key stagingId 400 "length-mismatch"
        else commitUploaded key stagingId onDisk

/-- `denyCommitFailure` -/
def denyCommitFailure : CommitPutFailure → PutHandler Unit
  | .conflict current => denyConflict current
  | .noStaging => deny 410 "gone"
  | .ioError => deny 500 "io-error"
  | .sizeMismatch => deny 400 "length-mismatch"

/-- The report of a committed row. -/
def report (key : Key) (row : ObjectRow) : PutHandler Unit := do
  respond (.committed row.version row.incarnation row.contentHash row.contentLength)
  broadcast key row
  publishObjPut key

/-- `handleRestPutBody` while it holds the staging id. -/
def uploadInFlight (key : Key) (stagingId : String) (len declared : ℤ) : PutHandler Unit := do
  match ← runUploadAndCommit key stagingId len declared with
  | .handled => pure ()
  | .commit (.error reason) => denyCommitFailure reason
  | .commit (.ok row) => report key row

/-- `handleRestPutBody` -/
def handleRestPutBody (key : Key) (stagingId : String) (len declared : ℤ) : PutHandler Unit := do
  match ← selectStaging key stagingId with
  | none => deny 410 "gone"
  | some _ => do
    if ← inFlightHas stagingId then do
      let cur ← getLive key
      denyConflict cur
    else do
      inFlightAdd stagingId
      (uploadInFlight key stagingId len declared).cleanup (inFlightDelete stagingId)

/-- `handleRestPut`; `declared` is the `Content-Length` where it is a safe integer. -/
def handleRestPut (key : Key) (stagingId : String) (len : ℤ) (declared : Option ℤ) :
    PutHandler Unit :=
  match declared with
  | none => deny 411 "length-required"
  | some declared =>
    if declared < 0 ∨ maxContentLength < declared then deny 411 "length-required"
    else if declared ≠ len then deny 400 "length-mismatch"
    else handleRestPutBody key stagingId len declared

/-- What a token permits. -/
inductive TokenOp
  | put (sid : String) (len : ℤ)
  | get (ver : ℤ) (inc : String)
  deriving DecidableEq, Repr

/-- `TokenPayload`; the expiry is checked by `verifyToken`. -/
structure TokenPayload where
  op : TokenOp
  tag : String
  res : String
  deriving DecidableEq, Repr

/-- A `PUT` request: `matchRoute` of its path, `extractBearer` of its header and its length. -/
structure PutRequest where
  route : Option Key
  token : Option String
  declared : Option ℤ
  deriving DecidableEq, Repr

/-- `handleRest` on a `PUT`. -/
def handleRest (verifyToken : String → Option TokenPayload) (isValidStagingId : String → Bool)
    (req : PutRequest) : PutHandler Unit :=
  match req.route with
  | none => deny 404 "not-found"
  | some route =>
    match req.token.bind verifyToken with
    | none => deny 401 "unauthorized"
    | some payload =>
      if payload.tag ≠ route.workspaceTag ∨ payload.res ≠ route.resourceTag then
        deny 401 "unauthorized"
      else
        match payload.op with
        | .get .. => deny 405 "method-not-allowed"
        | .put sid len =>
          if ¬isValidStagingId sid then deny 401 "unauthorized"
          else (handleRestPut route sid len req.declared).handle fun _ => do
            if ← headersSent then destroy else deny 500 "internal"

/-! ### What a run did -/

def CasReply.took : CasReply → Bool
  | .won => true
  | .lost => false
  | .threw _ took => took

/-- The promise rejected. -/
def rejected {α : Type} : Except Fault α → Bool
  | .ok _ => false
  | .error _ => true

/-- The compare-and-set of the live row took effect. -/
def took : PutEvent → Bool
  | ⟨.insertLiveIfAbsent _ _, r⟩ => CasReply.took r
  | ⟨.updateLiveCAS _ _ _ _, r⟩ => CasReply.took r
  | _ => false

/-- An await threw. -/
def threw : PutEvent → Bool
  | ⟨.selectStaging _ _, r⟩ => rejected r
  | ⟨.getLive _, r⟩ => rejected r
  | ⟨.insertLiveIfAbsent _ _, .threw _ _⟩ => true
  | ⟨.updateLiveCAS _ _ _ _, .threw _ _⟩ => true
  | ⟨.deleteStaging _ _, r⟩ => rejected r
  | ⟨.refreshStagingBegunAt _ _ _, r⟩ => rejected r
  | ⟨.openStagingWriter _ _, r⟩ => rejected r
  | ⟨.pipeline, r⟩ => rejected r
  | ⟨.finalizeWriter, r⟩ => rejected r
  | ⟨.abortWriter _, r⟩ => rejected r
  | ⟨.statStaging _ _, r⟩ => rejected r
  | ⟨.promoteStagingToLive _ _ _, r⟩ => rejected r
  | _ => false

/-- The answer was a success. -/
def succeeded : PutEvent → Bool
  | ⟨.respond (.committed _ _ _ _), _⟩ => true
  | _ => false

/-- The event `objstore-put` was broadcast. -/
def announced : PutEvent → Bool
  | ⟨.broadcast _ _, _⟩ => true
  | _ => false

/-- Nothing that a report is about. -/
structure Idle (e : PutEvent) : Prop where
  took : took e = false
  succeeded : succeeded e = false
  announced : announced e = false

def Silently {α : Type} (x : PutHandler α) : Prop := x.Ensures fun t _ => ∀ e ∈ t, Idle e

section Silently

variable {α β : Type} {x : PutHandler α}

theorem silently_done (a : α) : Silently (.done a) :=
  ensures_done fun _ he => absurd he not_mem_nil

theorem silently_throw (e : Fault) : Silently (.throw e : PutHandler α) :=
  ensures_throw fun _ he => absurd he not_mem_nil

theorem silently_settle (r : Except Fault α) : Silently (settle r) := by
  cases r with
  | ok a => exact silently_done a
  | error e => exact silently_throw e

theorem silently_ask {q : PutCall} {k : q.Reply → PutHandler α} (hq : ∀ r, Idle ⟨q, r⟩)
    (hk : ∀ r, Silently (k r)) : Silently (.ask q k) := by
  refine ensures_ask fun r => (hk r).mono fun t _ ht => ?_
  exact forall_mem_cons.mpr ⟨hq r, ht⟩

theorem Silently.bind {f : α → PutHandler β} (hx : Silently x) (hf : ∀ a, Silently (f a)) :
    Silently (x >>= f) := by
  refine Async.Ensures.bind hx (fun t a ht => ?_) fun t e ht => ht
  exact (hf a).mono fun t' _ ht' => forall_mem_append.mpr ⟨ht, ht'⟩

theorem Silently.handle {h : Fault → PutHandler α} (hx : Silently x)
    (hh : ∀ e, Silently (h e)) : Silently (x.handle h) := by
  refine Async.Ensures.handle hx (fun t a ht => ht) fun t e ht => ?_
  exact (hh e).mono fun t' _ ht' => forall_mem_append.mpr ⟨ht, ht'⟩

end Silently

open Silently

variable (key : Key)

theorem silently_selectStaging (stagingId : String) : Silently (selectStaging key stagingId) :=
  silently_ask (fun _ => ⟨rfl, rfl, rfl⟩) silently_settle

theorem silently_getLive : Silently (getLive key) :=
  silently_ask (fun _ => ⟨rfl, rfl, rfl⟩) silently_settle

variable (input : CommitPutInput) (tag stagingId : String) (live : Option ObjectRow)
  (staging : StagingRow)

theorem silently_unlinkStaging : Silently (unlinkStaging tag stagingId) :=
  silently_ask (fun _ => ⟨rfl, rfl, rfl⟩) silently_done

theorem silently_deleteStaging (stagingId : String) : Silently (deleteStaging key stagingId) :=
  silently_ask (fun _ => ⟨rfl, rfl, rfl⟩) silently_settle

theorem silently_statStaging : Silently (statStaging tag stagingId) :=
  silently_ask (fun _ => ⟨rfl, rfl, rfl⟩) silently_settle

theorem silently_now : Silently now :=
  silently_ask (fun _ => ⟨rfl, rfl, rfl⟩) silently_done

theorem silently_deny (status : ℕ) (error : String) : Silently (deny status error) :=
  silently_ask (fun _ => ⟨rfl, rfl, rfl⟩) silently_done

theorem silently_denyConflict : Silently (denyConflict live) :=
  silently_ask (fun _ => ⟨rfl, rfl, rfl⟩) silently_done

theorem silently_abortPut (stagingId : String) : Silently (abortPut key stagingId) :=
  (silently_unlinkStaging _ _).bind fun _ => silently_deleteStaging key stagingId

theorem silently_receiveBody (stagingId : String) (declared : ℤ) :
    Silently (receiveBody key stagingId declared) := by
  refine handle ?_ fun err => ?_
  · refine (silently_ask (fun _ => ⟨rfl, rfl, rfl⟩) silently_settle).bind fun received => ?_
    split
    · exact silently_throw _
    · exact (silently_ask (fun _ => ⟨rfl, rfl, rfl⟩) silently_settle).bind fun _ => silently_done _
  · refine (silently_ask (fun _ => ⟨rfl, rfl, rfl⟩) silently_settle).bind fun _ => ?_
    refine (silently_abortPut key stagingId).bind fun _ => ?_
    split
    · exact (silently_deny _ _).bind fun _ => silently_done _
    · exact (silently_deny _ _).bind fun _ => silently_done _

theorem silently_denyCommitFailure (reason : CommitPutFailure) :
    Silently (denyCommitFailure reason) := by
  cases reason with
  | conflict current => exact silently_denyConflict current
  | noStaging => exact silently_deny _ _
  | ioError => exact silently_deny _ _
  | sizeMismatch => exact silently_deny _ _

/-! ### The commit -/

/-- What a run has done by when it returns to the handler: it took no effect, or it took effect, and
the flag says whether nothing threw from there on. -/
inductive CommitTrace : List PutEvent → Bool → Prop
  | idle {t : List PutEvent} (ht : ∀ e ∈ t, Idle e) : CommitTrace t false
  | took {before after : List PutEvent} {e : PutEvent} {calm : Bool}
      (hbefore : ∀ e ∈ before, Idle e) (he : took e = true) (hafter : ∀ e ∈ after, Idle e)
      (hcalm : calm = true ↔ ∀ e' ∈ e :: after, threw e' = false) :
      CommitTrace (before ++ e :: after) calm

variable {t t' : List PutEvent} {e : PutEvent} {c : CasReply} {calm : Bool}

theorem CommitTrace.prepend (ht : ∀ e ∈ t, Idle e)
    (h : CommitTrace t' calm) : CommitTrace (t ++ t') calm := by
  cases h with
  | idle ht' => exact .idle (forall_mem_append.mpr ⟨ht, ht'⟩)
  | took hbefore he hafter hcalm =>
    rw [← append_assoc]
    exact .took (forall_mem_append.mpr ⟨ht, hbefore⟩) he hafter hcalm

/-- What threw stays thrown. -/
theorem CommitTrace.append (h : CommitTrace t false)
    (ht' : ∀ e ∈ t', Idle e) : CommitTrace (t ++ t') false := by
  cases h with
  | idle ht => exact .idle (forall_mem_append.mpr ⟨ht, ht'⟩)
  | took hbefore he hafter hcalm =>
    rw [append_assoc, cons_append]
    refine .took hbefore he (forall_mem_append.mpr ⟨hafter, ht'⟩) ?_
    refine ⟨fun h => (by cases h), fun hall => hcalm.mpr fun e he => ?_⟩
    exact hall e (by rw [← cons_append]; exact mem_append_left _ he)

/-- A single event that took effect, and what follows it. -/
theorem CommitTrace.single {after : List PutEvent}
    (he : PutHandler.took e = true) (hafter : ∀ e ∈ after, Idle e)
    (hcalm : calm = true ↔ ∀ e' ∈ e :: after, threw e' = false) :
    CommitTrace (e :: after) calm := by
  have htrace : CommitTrace ([] ++ e :: after) calm :=
    .took (fun _ h => absurd h not_mem_nil) he hafter hcalm
  exact htrace

/-- The program returned what `f` holds of. -/
def returned {α : Type} (f : α → Bool) : Except Fault α → Bool
  | .ok a => f a
  | .error _ => false

/-- The program returns what `f` holds of exactly if it took effect and nothing threw from there
on. -/
def Commits {α : Type} (x : PutHandler α) (f : α → Bool) : Prop :=
  x.Ensures fun t r => CommitTrace t (returned f r)

section Commits

variable {α β : Type} {x : PutHandler α} {k : α → PutHandler β} {f : α → Bool} {g : β → Bool}

theorem commits_done {a : α} (ha : f a = false) : Commits (.done a) f :=
  ensures_done (by
    rw [returned, ha]
    exact .idle fun _ h => absurd h not_mem_nil)

theorem Silently.andThen (hx : Silently x) (hk : ∀ a, Commits (k a) g) : Commits (x >>= k) g := by
  refine Async.Ensures.bind hx (fun t a ht => ?_) fun t e ht => .idle ht
  exact (hk a).mono fun t' r ht' => ht'.prepend ht

/-- What was committed is passed on, and what was not stays so. -/
theorem Commits.bind (hx : Commits x f)
    (hcommitted : ∀ a, f a = true → ∃ b, k a = .done b ∧ g b = true) (hother : ∀ a, f a = false →
      Silently (k a) ∧ (k a).Ensures fun _ r => returned g r = false) :
    Commits (x >>= k) g := by
  refine Async.Ensures.bind hx (fun t a ht => ?_) fun t e ht => ht
  rcases hfa : f a with _ | _
  · rw [returned, hfa] at ht
    obtain ⟨hsilent, hnone⟩ := hother a hfa
    intro t' r hrun
    rw [hnone t' r hrun]
    exact ht.append (hsilent t' r hrun)
  · obtain ⟨b, hb, hgb⟩ := hcommitted a hfa
    rw [hb]
    refine ensures_done ?_
    rw [append_nil, returned, hgb]
    rwa [returned, hfa] at ht

end Commits

/-- What the compare-and-set comes to is what its one event says. -/
theorem versionCAS_ensures (nextVersion : ℤ) (freshIncarnation : String) (putAt : ℤ) :
    (versionCAS input staging nextVersion freshIncarnation putAt).Ensures fun t r =>
      ∃ c, r = .ok c ∧ ((c ≠ .won ∧ ∀ e ∈ t, Idle e) ∨
        (c ≠ .lost ∧ ∃ e, t = [e] ∧ took e = true ∧ (threw e = false ↔ c = .won))) := by
  have hidle : ∀ e : PutEvent, took e = false → succeeded e = false → announced e = false →
      ∀ e' ∈ [e], Idle e' := by
    rintro e htook hsucceeded hannounced e' he'
    rw [mem_singleton.mp he']
    exact ⟨htook, hsucceeded, hannounced⟩
  rw [versionCAS]
  split
  · refine ensures_ask fun r => ensures_done ⟨r, rfl, ?_⟩
    rcases r with _ | _ | ⟨fault, _ | _⟩
    · exact .inr ⟨by simp, _, rfl, rfl, by simp [threw]⟩
    · exact .inl ⟨by simp, hidle _ rfl rfl rfl⟩
    · exact .inl ⟨by simp, hidle _ rfl rfl rfl⟩
    · exact .inr ⟨by simp, _, rfl, rfl, by simp [threw]⟩
  · refine ensures_ask fun r => ensures_done ⟨r, rfl, ?_⟩
    rcases r with _ | _ | ⟨fault, _ | _⟩
    · exact .inr ⟨by simp, _, rfl, rfl, by simp [threw]⟩
    · exact .inl ⟨by simp, hidle _ rfl rfl rfl⟩
    · exact .inl ⟨by simp, hidle _ rfl rfl rfl⟩
    · exact .inr ⟨by simp, _, rfl, rfl, by simp [threw]⟩
  · exact ensures_done ⟨.lost, rfl, .inl ⟨by simp, fun _ h => absurd h not_mem_nil⟩⟩

/-- Where the row was not changed, `commitPut` returns none. -/
theorem commitDecided_commits (row : ObjectRow)
    (hc : c ≠ .won) : Commits (commitDecided input row c) isOk := by
  rcases c with _ | _ | ⟨fault, b⟩
  · exact absurd rfl hc
  · exact (silently_getLive _).andThen fun _ => commits_done rfl
  · exact commits_done rfl

/-- Where it was changed, `commitPut` returns the row exactly if nothing threw. -/
theorem commitDecided_ensures (row : ObjectRow)
    (hc : c ≠ .lost) (he : took e = true) (hthrew : threw e = false ↔ c = .won) :
    (commitDecided input row c).Ensures fun t r => CommitTrace ([e] ++ t) (returned isOk r) := by
  rcases c with _ | _ | ⟨fault, b⟩
  · refine ensures_ask fun _ => ensures_ask fun r => ?_
    have hidle : ∀ e' ∈ ([⟨.unlinkStaging input.key.workspaceTag input.stagingId, ()⟩,
        ⟨.deleteStaging input.key input.stagingId, r⟩] : List PutEvent), Idle e' := by
      refine forall_mem_cons.mpr ⟨⟨rfl, rfl, rfl⟩, ?_⟩
      refine forall_mem_cons.mpr ⟨⟨rfl, rfl, rfl⟩, ?_⟩
      exact fun _ h => absurd h not_mem_nil
    rcases r with fault | _
    · refine ensures_throw (.single he hidle ?_)
      simp [returned, threw, rejected]
    · refine ensures_done (.single he hidle ⟨fun _ => ?_, fun _ => rfl⟩)
      refine forall_mem_cons.mpr ⟨hthrew.mpr rfl, forall_mem_cons.mpr ⟨rfl, ?_⟩⟩
      exact forall_mem_cons.mpr ⟨rfl, fun _ h => absurd h not_mem_nil⟩
  · exact absurd rfl hc
  · refine ensures_done (.single he (fun _ h => absurd h not_mem_nil) ?_)
    have hthrew' : threw e = true := by
      rw [← Bool.not_eq_false, hthrew]
      simp
    simp [returned, hthrew', Except.isOk, Except.toBool]

theorem commitPromoted_commits (live : Option ObjectRow) :
    Commits (commitPromoted input staging live) isOk := by
  refine andThen (silently_ask (fun _ => ⟨rfl, rfl, rfl⟩) silently_done)
    fun freshIncarnation => ?_
  refine silently_now.andThen fun putAt => ?_
  refine (versionCAS_ensures input staging _ freshIncarnation putAt).bind ?_ ?_
  · rintro t c ⟨c', hc, hpost⟩
    cases hc
    rcases hpost with ⟨hwon, ht⟩ | ⟨hlost, e, rfl, he, hthrew⟩
    · exact (commitDecided_commits input _ hwon).mono fun t' r ht' => ht'.prepend ht
    · exact commitDecided_ensures input _ hlost he hthrew
  · rintro t e ⟨c, hc, -⟩
    cases hc

/-- **`commitPut` returns a row exactly if the row was changed and nothing threw from there on.** -/
theorem commitPut_ensures : Commits (commitPut input) isOk := by
  refine (silently_selectStaging _ _).andThen fun staging => ?_
  rcases staging with _ | staging
  · exact commits_done rfl
  have hsize : Silently (stagedSize input) := by
    rw [stagedSize]
    split
    · exact silently_done _
    · exact (silently_statStaging _ _).handle fun _ => silently_done _
  refine hsize.andThen fun size => ?_
  rcases size with _ | size
  · exact commits_done rfl
  dsimp only
  split
  · exact commits_done rfl
  refine (silently_getLive _).andThen fun live => ?_
  split
  · exact commits_done rfl
  refine andThen (silently_ask (fun _ => ⟨rfl, rfl, rfl⟩) silently_settle) fun ok => ?_
  split
  · exact commitPromoted_commits input staging live
  · exact commits_done rfl

/-- The upload ended in a commit. -/
def Uploaded.committed : Uploaded → Bool
  | .commit (.ok _) => true
  | _ => false

theorem commitUploaded_commits (stagingId : String) (size : ℤ) :
    Commits (commitUploaded key stagingId size) Uploaded.committed := by
  refine silently_now.andThen fun begunAt => ?_
  refine andThen (silently_ask (fun _ => ⟨rfl, rfl, rfl⟩) silently_settle) fun _ => ?_
  refine (commitPut_ensures _).bind ?_ ?_
  · rintro (reason | row) ha
    · cases ha
    · exact ⟨.commit (.ok row), rfl, rfl⟩
  · rintro (reason | row) ha
    · refine ⟨(silently_abortPut key stagingId).bind fun _ => silently_done _, ?_⟩
      refine Async.Ensures.bind (silently_abortPut key stagingId) ?_ ?_
      · exact fun _ _ _ => ensures_done rfl
      · exact fun _ _ _ => rfl
    · cases ha

theorem refuse_commits (stagingId : String) (status : ℕ) (error : String) :
    Commits (refuse key stagingId status error) Uploaded.committed :=
  (silently_abortPut key stagingId).andThen fun _ =>
    (silently_deny _ _).andThen fun _ => commits_done rfl

theorem runUploadAndCommit_commits (stagingId : String) (len declared : ℤ) :
    Commits (runUploadAndCommit key stagingId len declared) Uploaded.committed := by
  refine andThen (silently_ask (fun _ => ⟨rfl, rfl, rfl⟩) silently_settle) fun _ => ?_
  refine (silently_receiveBody key stagingId declared).andThen fun received => ?_
  rcases received with _ | received
  · exact commits_done rfl
  dsimp only
  split
  · exact refuse_commits key stagingId _ _
  have hstat : Silently ((statStaging key.workspaceTag stagingId).handle fun _ => pure none) :=
    (silently_statStaging _ _).handle fun _ => silently_done _
  refine hstat.andThen fun onDisk => ?_
  rcases onDisk with _ | onDisk
  · exact refuse_commits key stagingId _ _
  dsimp only
  split
  · exact refuse_commits key stagingId _ _
  · exact commitUploaded_commits key stagingId onDisk

/-! ### The report -/

/-- What is done after an answer or a failure: nothing that a report is about, and nothing
throws. -/
def Harmless (t : List PutEvent) : Prop := ∀ e ∈ t, Idle e ∧ threw e = false

theorem harmless_singleton (he : Idle e) (hthrew : threw e = false) : Harmless [e] := by
  intro e' he'
  rw [mem_singleton.mp he']
  exact ⟨he, hthrew⟩

theorem harmless_append (h : Harmless t) (h' : Harmless t') :
    Harmless (t ++ t') := forall_mem_append.mpr ⟨h, h'⟩

/-- The events of `report`. -/
def reportEvents (key : Key) (row : ObjectRow) : List PutEvent :=
  [⟨.respond (.committed row.version row.incarnation row.contentHash row.contentLength), ()⟩,
    ⟨.broadcast key row, ()⟩, ⟨.publishObjPut key, ()⟩]

/-- A run of the handler: it does not report, and took no effect or threw after it did; or it took
effect, threw nothing since, and reports. -/
inductive ReportTrace : List PutEvent → Prop
  | unreported {t : List PutEvent} (h : CommitTrace t false) : ReportTrace t
  | reported {t tail : List PutEvent} (h : CommitTrace t true) (key : Key) (row : ObjectRow)
      (htail : Harmless tail) : ReportTrace (t ++ (reportEvents key row ++ tail))

theorem ReportTrace.prepend (ht : ∀ e ∈ t, Idle e) (h : ReportTrace t') :
    ReportTrace (t ++ t') := by
  cases h with
  | unreported h => exact .unreported (h.prepend ht)
  | reported h key row htail =>
    rw [← append_assoc]
    exact .reported (h.prepend ht) key row htail

theorem ReportTrace.append (h : ReportTrace t) (ht' : Harmless t') : ReportTrace (t ++ t') := by
  cases h with
  | unreported h => exact .unreported (h.append fun e he => (ht' e he).1)
  | reported h key row htail =>
    rw [append_assoc, append_assoc]
    exact .reported h key row (harmless_append htail ht')

def Reports {α : Type} (x : PutHandler α) : Prop := x.Ensures fun t _ => ReportTrace t

theorem Silently.reports {α : Type} {x : PutHandler α} (hx : Silently x) : Reports x :=
  hx.mono fun _ _ ht => .unreported (.idle ht)

theorem Silently.thenReports {α β : Type} {x : PutHandler α} {k : α → PutHandler β}
    (hx : Silently x) (hk : ∀ a, Reports (k a)) : Reports (x >>= k) := by
  refine Async.Ensures.bind hx (fun t a ht => ?_) fun t e ht => .unreported (.idle ht)
  exact (hk a).mono fun t' r ht' => ht'.prepend ht

theorem uploadInFlight_reports (stagingId : String) (len declared : ℤ) :
    Reports (uploadInFlight key stagingId len declared) := by
  refine Async.Ensures.bind (runUploadAndCommit_commits key stagingId len declared) ?_
    fun t e ht => .unreported ht
  intro t uploaded ht
  rcases uploaded with _ | reason | row
  · exact ensures_done ((append_nil t).symm ▸ .unreported ht)
  · exact (silently_denyCommitFailure reason).mono fun t' _ ht' => .unreported (ht.append ht')
  · refine ensures_ask fun _ => ensures_ask fun _ => ensures_ask fun _ => ?_
    exact ensures_done (.reported ht key row fun _ h => absurd h not_mem_nil)

theorem handleRestPutBody_reports (stagingId : String) (len declared : ℤ) :
    Reports (handleRestPutBody key stagingId len declared) := by
  refine (silently_selectStaging key stagingId).thenReports fun staging => ?_
  rcases staging with _ | staging
  · exact (silently_deny _ _).reports
  refine (silently_ask (fun _ => ⟨rfl, rfl, rfl⟩) silently_done : Silently (inFlightHas stagingId)
    ).thenReports fun busy => ?_
  rcases busy with _ | _
  · refine (silently_ask (fun _ => ⟨rfl, rfl, rfl⟩) silently_done : Silently (inFlightAdd stagingId)
      ).thenReports fun _ => ?_
    refine (uploadInFlight_reports key stagingId len declared).cleanup fun t r ht => ?_
    refine ensures_ask fun _ => ensures_done ⟨⟨(), rfl⟩, ?_⟩
    exact ht.append (harmless_singleton ⟨rfl, rfl, rfl⟩ rfl)
  · exact ((silently_getLive key).bind fun _ => silently_denyConflict _).reports

theorem handleRestPut_reports (stagingId : String) (len : ℤ) (declared : Option ℤ) :
    Reports (handleRestPut key stagingId len declared) := by
  rcases declared with _ | declared
  · exact (silently_deny _ _).reports
  · rw [handleRestPut]
    split_ifs
    · exact (silently_deny _ _).reports
    · exact (silently_deny _ _).reports
    · exact handleRestPutBody_reports key stagingId len declared

variable {verifyToken : String → Option TokenPayload} {isValidStagingId : String → Bool}
  {req : PutRequest}

theorem handleRest_reports : Reports (handleRest verifyToken isValidStagingId req) := by
  rw [handleRest]
  split
  · exact (silently_deny _ _).reports
  split
  · exact (silently_deny _ _).reports
  split
  · exact (silently_deny _ _).reports
  split
  · exact (silently_deny _ _).reports
  split
  · exact (silently_deny _ _).reports
  · refine (handleRestPut_reports _ _ _ _).handle (fun t a ht => ht) fun t e ht => ?_
    refine ensures_ask fun sent => ?_
    rcases sent with _ | _
    · refine ensures_ask fun _ => ensures_done (ht.append ?_)
      exact harmless_append (harmless_singleton ⟨rfl, rfl, rfl⟩ rfl)
        (harmless_singleton ⟨rfl, rfl, rfl⟩ rfl)
    · refine ensures_ask fun _ => ensures_done (ht.append ?_)
      exact harmless_append (harmless_singleton ⟨rfl, rfl, rfl⟩ rfl)
        (harmless_singleton ⟨rfl, rfl, rfl⟩ rfl)

/-! ### Main results -/

/-- The events from the compare-and-set that took effect on. -/
def sinceTook (t : List PutEvent) : List PutEvent := t.dropWhile fun e => !took e

theorem sinceTook_idle (ht : ∀ e ∈ t, Idle e) (t' : List PutEvent) :
    sinceTook (t ++ t') = sinceTook t' :=
  dropWhile_append_of_pos fun e he => by rw [(ht e he).took, Bool.not_false]

theorem sinceTook_cons (he : took e = true) (t : List PutEvent) : sinceTook (e :: t) = e :: t := by
  rw [sinceTook, dropWhile_cons, he, Bool.not_true, if_neg Bool.false_ne_true]

/-- The compare-and-set took effect exactly if the answer is a success and the event was broadcast
once. -/
def ReportedIff (t : List PutEvent) : Prop :=
  (∃ e ∈ t, took e = true) ↔ (∃ e ∈ t, succeeded e = true) ∧ t.countP announced = 1

theorem not_succeeded (ht : ∀ e ∈ t, succeeded e = false) : ¬ ∃ e ∈ t, succeeded e = true := by
  rintro ⟨e, he, hsucceeded⟩
  exact absurd ((ht e he).symm.trans hsucceeded) Bool.false_ne_true

/-- No event of a run that took effect is an answer or a broadcast before it returns. -/
theorem CommitTrace.unreported (h : CommitTrace t calm) :
    ∀ e ∈ t, PutHandler.succeeded e = false ∧ announced e = false := by
  have hcas : ∀ e : PutEvent, PutHandler.took e = true →
      PutHandler.succeeded e = false ∧ announced e = false := by
    rintro ⟨q, r⟩ he
    cases q with
    | insertLiveIfAbsent => exact ⟨rfl, rfl⟩
    | updateLiveCAS => exact ⟨rfl, rfl⟩
    | _ => cases he
  cases h with
  | idle ht => exact fun e he => ⟨(ht e he).succeeded, (ht e he).announced⟩
  | took hbefore he hafter =>
    intro e' he'
    rcases mem_append.mp he' with he' | he'
    · exact ⟨(hbefore e' he').succeeded, (hbefore e' he').announced⟩
    · rcases mem_cons.mp he' with rfl | he'
      · exact hcas _ he
      · exact ⟨(hafter e' he').succeeded, (hafter e' he').announced⟩

/-- A run that does not report took no effect, or threw after it. -/
theorem CommitTrace.reportedIff (h : CommitTrace t false) :
    ReportedIff t ↔ ∀ e ∈ sinceTook t, threw e = false := by
  have hnone : ¬ ∃ e ∈ t, PutHandler.succeeded e = true :=
    not_succeeded fun e he => (h.unreported e he).1
  have hleft : ReportedIff t ↔ ¬ ∃ e ∈ t, PutHandler.took e = true := by
    rw [ReportedIff, iff_false_intro hnone, false_and, iff_false]
  rw [hleft]
  cases h with
  | idle ht =>
    have hsince : sinceTook t = [] := by
      rw [← append_nil t, sinceTook_idle ht]
      rfl
    rw [hsince]
    refine ⟨fun _ e he => absurd he not_mem_nil, ?_⟩
    rintro - ⟨e, he, htook⟩
    exact absurd ((ht e he).took.symm.trans htook) Bool.false_ne_true
  | took hbefore he hafter hcalm =>
    rw [sinceTook_idle hbefore, sinceTook_cons he, ← hcalm]
    refine ⟨fun h => absurd ⟨_, ?_, he⟩ h, fun h => (by cases h)⟩
    exact mem_append_right _ mem_cons_self

/-- A run that reports took effect and threw nothing since. -/
theorem CommitTrace.reportedIff_report {tail : List PutEvent} (h : CommitTrace t true) (key : Key)
    (row : ObjectRow) (htail : Harmless tail) :
    ReportedIff (t ++ (reportEvents key row ++ tail)) ∧
      ∀ e ∈ sinceTook (t ++ (reportEvents key row ++ tail)), threw e = false := by
  have hcount : (t ++ (reportEvents key row ++ tail)).countP announced = 1 := by
    have hbefore : t.countP announced = 0 :=
      countP_eq_zero.mpr fun e he => by rw [(h.unreported e he).2]; exact Bool.false_ne_true
    have hafter : tail.countP announced = 0 :=
      countP_eq_zero.mpr fun e he => by
        rw [(htail e he).1.announced]; exact Bool.false_ne_true
    rw [countP_append, countP_append, hbefore, hafter]
    rfl
  have hsucceeded : ∃ e ∈ t ++ (reportEvents key row ++ tail), PutHandler.succeeded e = true :=
    ⟨_, mem_append_right _ (mem_append_left _ mem_cons_self), rfl⟩
  cases h with
  | took hbefore he hafter hcalm =>
    refine ⟨⟨fun _ => ⟨hsucceeded, hcount⟩, fun _ => ⟨_, ?_, he⟩⟩, ?_⟩
    · exact mem_append_left _ (mem_append_right _ mem_cons_self)
    · rw [append_assoc, sinceTook_idle hbefore, cons_append, sinceTook_cons he]
      intro e' he'
      rw [← cons_append, mem_append] at he'
      rcases he' with he' | he'
      · exact hcalm.mp rfl e' he'
      rcases mem_append.mp he' with he' | he'
      · have hreport : ∀ e ∈ reportEvents key row, threw e = false := by
          simp [reportEvents, threw]
        exact hreport e' he'
      · exact (htail e' he').2

/-- **A commit is reported exactly if nothing throws from it on.**  In every run of the `PUT`, the
compare-and-set of the live row took effect if and only if the answer is a success and the event is
broadcast once, exactly if nothing awaited threw from a compare-and-set that took effect on. -/
theorem put_reported_iff {verifyToken : String → Option TokenPayload}
    {isValidStagingId : String → Bool} {req : PutRequest} {t : List PutEvent}
    {r : Except Fault Unit} (h : (handleRest verifyToken isValidStagingId req).Runs t r) :
    ReportedIff t ↔ ∀ e ∈ sinceTook t, threw e = false := by
  have hreports : ReportTrace t := handleRest_reports t r h
  cases hreports with
  | unreported hcommit => exact hcommit.reportedIff
  | reported hcommit key row htail =>
    obtain ⟨hleft, hright⟩ := hcommit.reportedIff_report key row htail
    exact ⟨fun _ => hright, fun _ => hleft⟩

/-- An environment of a first upload of one byte, where dropping the staging row ends so. -/
def firstUpload (dropped : Except Fault Unit) : ∀ q : PutCall, q.Reply
  | .selectStaging _ _ => .ok (some ⟨none, none, 1, "hash", "signature", 0⟩)
  | .getLive _ => .ok none
  | .insertLiveIfAbsent _ _ => .won
  | .updateLiveCAS _ _ _ _ => .lost
  | .deleteStaging _ _ => dropped
  | .refreshStagingBegunAt _ _ _ | .openStagingWriter _ _ | .finalizeWriter | .abortWriter _ =>
    .ok ()
  | .pipeline => .ok 1
  | .statStaging _ _ => .ok (some 1)
  | .promoteStagingToLive _ _ _ => .ok true
  | .randomId => "incarnation"
  | .now => 0
  | .inFlightHas _ | .headersSent => false
  | .unlinkStaging _ _ | .inFlightAdd _ | .inFlightDelete _ | .destroy | .respond _
  | .broadcast _ _ | .publishObjPut _ => ()

/-- The upload. -/
def oneByte : PutHandler Unit :=
  handleRest (fun _ => some ⟨.put "staging" 1, "workspace", "resource"⟩) (fun _ => true)
    ⟨some ⟨"workspace", "resource"⟩, some "token", some 1⟩

/-- A commit that is reported. -/
theorem put_reported_iff_first :
    (ReportedIff (oneByte.run (firstUpload (.ok ()))).1 ↔
      ∀ e ∈ sinceTook (oneByte.run (firstUpload (.ok ()))).1, threw e = false) ∧
    (oneByte.run (firstUpload (.ok ()))).1.any took = true := by
  refine ⟨?_, by decide +kernel⟩
  exact put_reported_iff (Async.runs_run (firstUpload (.ok ())) oneByte)

/-- The statement that drops the staging row throws after the commit: the answer is no success, and
nothing is broadcast. -/
theorem put_unreported :
    ((oneByte.run (firstUpload (.error ⟨none⟩))).1.any took = true ∧
      (oneByte.run (firstUpload (.error ⟨none⟩))).1.any succeeded = false ∧
      (oneByte.run (firstUpload (.error ⟨none⟩))).1.countP announced = 0) ∧
    ¬ ReportedIff (oneByte.run (firstUpload (.error ⟨none⟩))).1 := by
  have htook : (oneByte.run (firstUpload (.error ⟨none⟩))).1.any took = true := by decide +kernel
  have hannounced : (oneByte.run (firstUpload (.error ⟨none⟩))).1.countP announced = 0 := by
    decide +kernel
  refine ⟨⟨htook, by decide +kernel, hannounced⟩, fun hiff => ?_⟩
  have hone := (hiff.mp (any_eq_true.mp htook)).2
  rw [hannounced] at hone
  exact absurd hone Nat.zero_ne_one

end PutHandler

end Triage.Objstore
