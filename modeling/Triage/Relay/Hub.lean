import Triage.Relay.Commit
import Mathlib.Data.Finset.Union

/-!
# Subscriptions and broadcasts

The hub of one relay process and the handlers that use it. `handleSubscribe` joins the socket to
the subscribers of a workspace, pauses the broadcasts to the socket, reads the chain in up to three
queries, sends it and releases the pause; a later subscription of the same socket to the same
workspace supersedes one whose reads are under way. `handleSave` commits a revision, and broadcasts
it to the subscribers in a later turn of the event loop.

Handlers run until their next await; between two awaits any other handler may run.
-/

namespace Triage.Relay

open Function

/-! ### The hub -/

/-- A frame and the handler that sent it; the number of the handler is not on the wire.  A snapshot
and a broadcast are both `workspace-state`. -/
inductive Frame
  | subscribed (call : ℕ) (tag : String)
  | snapshot (call : ℕ) (tag : String) (revisions : List RevisionRow)
  | broadcast (call : ℕ) (tag : String) (revision : RevisionRow)
  /-- The ack or the rejection of a save. -/
  | saveReply (call : ℕ)
  deriving DecidableEq, Repr

/-- Whether the frame was sent by `broadcast`. -/
def Frame.isBroadcast : Frame → Bool
  | .broadcast .. => true
  | _ => false

/-- An entry of `paused`. -/
structure Pause where
  depth : ℕ
  payloads : List Frame
  deriving DecidableEq, Repr

/-- What the relay holds for one socket. -/
structure Socket where
  /-- `readyState === OPEN` -/
  isOpen : Bool
  /-- The workspaces it subscribes to. -/
  tags : Finset String
  paused : Option Pause
  /-- `subscriptionLookups`: the handler whose lookup is current, by workspace. -/
  lookups : String → Option ℕ
  /-- The frames sent, which arrive in this order. -/
  sent : List Frame
  /-- The handler that subscribed last, by workspace.  The program does not have it. -/
  newest : String → Option ℕ

namespace Socket

variable (k : Socket)

/-- A socket that has just connected. -/
def connected : Socket := ⟨true, ∅, none, fun _ => none, [], fun _ => none⟩

/-- The broadcasts held back. -/
def held : List Frame := (k.paused.map (·.payloads)).getD []

/-- `send`; a socket whose buffer is over the cap is terminated first (`HubLabel.closing`). -/
def send (frame : Frame) : Socket :=
  if k.isOpen then { k with sent := k.sent ++ [frame] } else k

/-- `pauseBroadcasts` -/
def pauseBroadcasts : Socket :=
  match k.paused with
  | none => { k with paused := some ⟨1, []⟩ }
  | some z => { k with paused := some { z with depth := z.depth + 1 } }

/-- The release of one pause that has not been released before. -/
def release : Socket :=
  match k.paused with
  | none => k
  | some z =>
    if 0 < z.depth - 1 then { k with paused := some { z with depth := z.depth - 1 } }
    else { k with paused := none, sent := if k.isOpen then k.sent ++ z.payloads else k.sent }

/-- `fanOut` for one subscriber; `full` when the frame would exceed the cap of its buffer. -/
def fanOut (frame : Frame) (full : Bool) : Socket :=
  match k.paused with
  | none => if full then { k with isOpen := false } else k.send frame
  | some z =>
    if full then { k with paused := none, isOpen := false }
    else { k with paused := some { z with payloads := z.payloads ++ [frame] } }

/-- `subscribe` -/
def subscribe (tag : String) : Socket := { k with tags := insert tag k.tags }

/-- `unsubscribeAll` -/
def unsubscribeAll : Socket := { k with paused := none, tags := ∅ }

/-- `lookups.set` -/
def setLookup (tag : String) (p : ℕ) : Socket :=
  { k with
    lookups := update k.lookups tag (some p)
    newest := update k.newest tag (some p) }

/-- `lookups.delete` when the lookup is still current. -/
def deleteLookup (tag : String) (p : ℕ) : Socket :=
  if k.lookups tag = some p then { k with lookups := update k.lookups tag none } else k

end Socket

/-! ### Handlers -/

/-- What a subscribe frame asks for. -/
structure Lookup where
  socket : ℕ
  tag : String
  fromId : Option String
  deriving DecidableEq, Repr

/-- A lookup under way, with the table and the number of frames sent when it began. -/
structure Registration where
  lookup : Lookup
  began : List WorkspaceRevision
  sentBefore : ℕ
  deriving DecidableEq, Repr

/-- Where a handler stands: the await it makes next, with what it has read, or how it ended. -/
inductive HubCall
  /-- Not called yet. -/
  | idle
  /-- `handleSubscribe`: the signature. -/
  | verifying (l : Lookup)
  /-- The object inventory. -/
  | resources (g : Registration)
  /-- The queries of `chainFrom`. -/
  | querySeqOfId (g : Registration) (fromId : String)
  | queryKeyframe (g : Registration)
  | queryAfterSeq (g : Registration) (seq : ℕ)
  | queryFromSeq (g : Registration) (seq : ℕ)
  | queryAll (g : Registration)
  /-- The chain has been read from the table `seen`. -/
  | reply (g : Registration) (seen : List WorkspaceRevision) (revisions : List RevisionRow)
  /-- The chain has been sent. -/
  | published (g : Registration) (seen : List WorkspaceRevision) (revisions : List RevisionRow)
  /-- Rejected, superseded or failed. -/
  | returned (l : Lookup)
  /-- `handleSave`: the commit. -/
  | committing (input : RevisionInsert) (except : Option ℕ)
  /-- Committed; the broadcast comes next. -/
  | broadcasting (row : WorkspaceRevision) (except : Option ℕ)
  | saved (row : WorkspaceRevision) (except : Option ℕ)
  /-- A duplicate or a stale base; the reply comes next. -/
  | refused (except : Option ℕ)
  | notSaved
  deriving DecidableEq, Repr

/-- The lookup a handler has under way. -/
def HubCall.registration : HubCall → Option Registration
  | .resources g | .querySeqOfId g _ | .queryKeyframe g | .queryAfterSeq g _ | .queryFromSeq g _
  | .queryAll g | .reply g _ _ => some g
  | _ => none

/-- The table, the sockets and the handlers. -/
structure HubState where
  rows : List WorkspaceRevision
  sockets : ℕ → Socket
  calls : ℕ → HubCall
  /-- Whether a handler has released its pause. -/
  released : ℕ → Bool

/-- What happens next. -/
inductive HubLabel
  /-- A subscribe frame arrives. -/
  | subscribe (p : ℕ) (l : Lookup)
  | verified (p : ℕ) (ok : Bool)
  | resourcesRead (p : ℕ)
  /-- The next query of `chainFrom` is answered. -/
  | query (p : ℕ)
  | answer (p : ℕ)
  /-- A read of the lookup throws. -/
  | lookupFails (p : ℕ)
  /-- A save arrives, on socket `except` or over REST. -/
  | save (q : ℕ) (input : RevisionInsert) (except : Option ℕ)
  | commit (q : ℕ)
  /-- The handler goes on after its commit; the buffers of the sockets in `full` overflow. -/
  | finishSave (q : ℕ) (full : Finset ℕ)
  /-- A socket is closed or terminated, and its `close` event fires. -/
  | closing (k : ℕ)
  | closed (k : ℕ)

namespace HubState

variable (s : HubState)

/-- An empty table, connected sockets and no handler. -/
def init : HubState := ⟨[], fun _ => .connected, fun _ => .idle, fun _ => false⟩

/-- Handler `p` moves to stage `c`. -/
def setCall (p : ℕ) (c : HubCall) : HubState := { s with calls := update s.calls p c }

/-- Socket `k` changes. -/
def onSocket (k : ℕ) (f : Socket → Socket) : HubState :=
  { s with sockets := update s.sockets k (f (s.sockets k)) }

/-- The `resume` of handler `p`: releasing twice does nothing. -/
def resume (p k : ℕ) : HubState :=
  if s.released p then s
  else { s.onSocket k .release with released := update s.released p true }

/-- Whether the lookup of handler `p` may go on: its socket is open and it is not superseded. -/
def isCurrent (p : ℕ) (l : Lookup) : Bool :=
  (s.sockets l.socket).isOpen && (s.sockets l.socket).lookups l.tag = some p

/-- `handleSubscribe` after the signature is verified, up to its next await. -/
def register (p : ℕ) (l : Lookup) : HubState :=
  have previous := (s.sockets l.socket).lookups l.tag
  have paused := s.onSocket l.socket fun k => k.pauseBroadcasts.setLookup l.tag p
  have resumed :=
    match previous with
    | none => paused
    | some p' => paused.resume p' l.socket
  (resumed.onSocket l.socket fun k => k.subscribe l.tag).setCall p
    (.resources ⟨l, s.rows, (s.sockets l.socket).sent.length⟩)

/-- The `finally` of `handleSubscribe`. -/
def finish (p : ℕ) (l : Lookup) (c : HubCall) : HubState :=
  ((s.onSocket l.socket fun k => k.deleteLookup l.tag p).resume p l.socket).setCall p c

/-- The two frames that answer a subscribe frame. -/
def sendChain (p : ℕ) (l : Lookup) (revisions : List RevisionRow) : HubState :=
  s.onSocket l.socket fun k =>
    (k.send (.subscribed p l.tag)).send (.snapshot p l.tag revisions)

/-- `broadcast` -/
def broadcast (tag : String) (frame : Frame) (except : Option ℕ) (full : Finset ℕ) : HubState :=
  { s with
    sockets := fun k =>
      if tag ∈ (s.sockets k).tags ∧ except ≠ some k then (s.sockets k).fanOut frame (k ∈ full)
      else s.sockets k }

/-- The reply to the socket a save came from. -/
def replySave (q : ℕ) : Option ℕ → HubState
  | none => s
  | some k => s.onSocket k fun socket => socket.send (.saveReply q)

end HubState

/-- The stage after the next query of `chainFrom`. -/
def HubCall.afterQuery (db : List WorkspaceRevision) : HubCall → Option HubCall
  | .querySeqOfId g fromId =>
    match seqOfId db g.lookup.tag fromId with
    | some seq => some (.queryAfterSeq g seq)
    | none => some (.queryKeyframe g)
  | .queryKeyframe g =>
    match lastKeyframeSeq db g.lookup.tag with
    | some seq => some (.queryFromSeq g seq)
    | none => some (.queryAll g)
  | .queryAfterSeq g seq => some (.reply g db (chainAfterSeq db g.lookup.tag seq))
  | .queryFromSeq g seq => some (.reply g db (chainFromSeq db g.lookup.tag seq))
  | .queryAll g => some (.reply g db (chainAll db g.lookup.tag))
  | _ => none

/-- All interleavings of the handlers. -/
def hubMachine : Machine HubState HubLabel where
  step s
    | .subscribe p l => if s.calls p = .idle then some (s.setCall p (.verifying l)) else none
    | .verified p ok =>
      match s.calls p with
      | .verifying l =>
        if ok ∧ (s.sockets l.socket).isOpen then some (s.register p l)
        else some (s.setCall p (.returned l))
      | _ => none
    | .resourcesRead p =>
      match s.calls p with
      | .resources g =>
        if s.isCurrent p g.lookup then
          match g.lookup.fromId with
          | some fromId => some (s.setCall p (.querySeqOfId g fromId))
          | none => some (s.setCall p (.queryKeyframe g))
        else some (s.finish p g.lookup (.returned g.lookup))
      | _ => none
    | .query p => ((s.calls p).afterQuery s.rows).map fun c => s.setCall p c
    | .answer p =>
      match s.calls p with
      | .reply g seen revisions =>
        if s.isCurrent p g.lookup then
          some ((s.sendChain p g.lookup revisions).finish p g.lookup (.published g seen revisions))
        else some (s.finish p g.lookup (.returned g.lookup))
      | _ => none
    | .lookupFails p =>
      (s.calls p).registration.map fun g =>
        have failed :=
          -- a superseded lookup leaves the socket to its successor
          if (s.sockets g.lookup.socket).lookups g.lookup.tag = some p then
            s.onSocket g.lookup.socket fun k => { k with isOpen := false }
          else s
        failed.finish p g.lookup (.returned g.lookup)
    | .save q input except =>
      if s.calls q = .idle then some (s.setCall q (.committing input except)) else none
    | .commit q =>
      match s.calls q with
      | .committing input except =>
        match gatedInsert s.rows input with
        | none => some (s.setCall q (.refused except))
        | some row =>
          if uniqueViolation s.rows row then some (s.setCall q (.refused except))
          else some ({ s with rows := s.rows ++ [row] }.setCall q (.broadcasting row except))
      | _ => none
    | .finishSave q full =>
      match s.calls q with
      | .broadcasting row except =>
        some (((s.broadcast row.workspaceTag
          (.broadcast q row.workspaceTag (mapRevisionRow row)) except full).replySave q
            except).setCall q (.saved row except))
      | .refused except => some ((s.replySave q except).setCall q .notSaved)
      | _ => none
    | .closing k => some (s.onSocket k fun socket => { socket with isOpen := false })
    | .closed k =>
      if (s.sockets k).isOpen then none else some (s.onSocket k fun socket => socket.unsubscribeAll)

end Triage.Relay
