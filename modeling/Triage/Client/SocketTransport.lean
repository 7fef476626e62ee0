import Mathlib.Data.Int.Basic
import Mathlib.Data.List.Basic
import Triage.Machine.Basic

/-!
# The client's socket transport

`client/sync/socket-transport.ts` keeps at most one connection to the relay, shared by all planes of
the client. A reference count says whether anybody wants it; a WebSocket is tried first and the
event-stream adapter second; a lost connection is tried again after a growing delay. Every path
mutates the same few variables, and the consumers it notifies may call back into the transport
while it is half way through an operation.

The calls a consumer makes from inside a notification are part of the label that causes the
notification, as a tree (`Call`). What the browser decides is part of the label too (`Browser`).
Not modelled: the sending of frames and the authentication exchange, which change none of the
variables below.

## Main results

* `Safe`, `Live` : an unwanted transport has neither a socket nor a timer; a wanted one has one.
  `Safe` holds even half way through an operation, which is what a nested call needs.
* `never_wedges` : **both hold in every reachable state, and the events of a superseded socket
  change nothing**.
-/

namespace Triage.Client.SocketTransport

open Option

/-- `INITIAL_RECONNECT_DELAY`. -/
def initialReconnectDelay : ℕ := 1000

/-- `MAX_RECONNECT_DELAY`. -/
def maxReconnectDelay : ℕ := 30000

/-- A socket object, with the variables its listeners close over. -/
structure Socket where
  /-- The identity of the object. -/
  id : ℕ
  /-- The event-stream adapter rather than a WebSocket. -/
  sse : Bool
  /-- Whether this attempt ever reached `open`. -/
  hasOpened : Bool
  deriving DecidableEq, Repr

/-- The transport's variables. -/
structure Transport where
  serverUrl : String
  pingIntervalMs : ℕ
  socket : Option Socket
  currentIsSse : Bool
  connectionNonce : Option String
  acquireCount : ℤ
  transportClosed : Bool
  protocolLocked : Bool
  /-- A reconnect timer is pending. -/
  reconnectTimer : Bool
  reconnectDelayMs : ℕ
  /-- The socket the pending stable-connection timer was started for. -/
  stableConnectionTimer : Option ℕ
  /-- The heartbeat interval runs; a pong is awaited. -/
  pingInterval : Bool
  pongTimeout : Bool
  /-- The acquire handles that have not been released. -/
  held : List ℕ
  /-- The next acquire handle and the next socket object. -/
  nextHandle : ℕ
  nextSocket : ℕ
  deriving DecidableEq, Repr

namespace Transport

/-- `createSocketTransport`. -/
def create (serverUrl : String) (pingIntervalMs : ℕ) : Transport where
  serverUrl := serverUrl
  pingIntervalMs := pingIntervalMs
  socket := none
  currentIsSse := false
  connectionNonce := none
  acquireCount := 0
  transportClosed := false
  protocolLocked := false
  reconnectTimer := false
  reconnectDelayMs := initialReconnectDelay
  stableConnectionTimer := none
  pingInterval := false
  pongTimeout := false
  held := []
  nextHandle := 0
  nextSocket := 0

/-- Somebody holds the transport, it has a server, and it is neither closed nor locked. -/
def wanted (t : Transport) : Bool :=
  0 < t.acquireCount && t.serverUrl != "" && !t.transportClosed && !t.protocolLocked

end Transport

/-- What the browser answers when a connection is opened. -/
structure Browser where
  /-- `new WebSocket(serverUrl)` throws. -/
  webSocketThrows : Bool
  /-- `new SseTransport(serverUrl)` throws. -/
  sseThrows : Bool
  deriving DecidableEq, Repr

/-! ### The private functions -/

section Functions

variable (browser : Browser) (notify : Transport → Transport) (t : Transport)

def clearReconnect : Transport := { t with reconnectTimer := false }

def clearStableConnection : Transport := { t with stableConnectionTimer := none }

/-- `reconnectDelayMs = INITIAL_RECONNECT_DELAY`. -/
def resetDelay : Transport := { t with reconnectDelayMs := initialReconnectDelay }

def scheduleReconnect : Transport :=
  if t.transportClosed then clearReconnect t
  else if t.protocolLocked then clearReconnect t
  else if t.acquireCount = 0 then clearReconnect t
  else if t.serverUrl = "" then clearReconnect t
  else { t with
    reconnectTimer := true
    reconnectDelayMs := min (t.reconnectDelayMs * 2) maxReconnectDelay }

def stopHeartbeat : Transport := { t with pingInterval := false, pongTimeout := false }

def startHeartbeat : Transport :=
  let t := stopHeartbeat t
  if t.pingIntervalMs = 0 then t
  else if t.currentIsSse then t
  else { t with pingInterval := true }

/-- The tail of `tryOpen`: the socket just constructed becomes the current one. -/
def install (sse : Bool) : Transport :=
  { t with
    socket := some { id := t.nextSocket, sse := sse, hasOpened := false }
    currentIsSse := sse
    connectionNonce := none
    nextSocket := t.nextSocket + 1 }

/-- `tryOpen(true)`. -/
def tryOpenSse : Transport :=
  if t.transportClosed then t
  else if t.protocolLocked then t
  else if t.acquireCount = 0 then t
  else if t.serverUrl = "" then t
  else if browser.sseThrows then scheduleReconnect t
  else install t true

/-- `tryOpen(false)`. -/
def tryOpen : Transport :=
  if t.transportClosed then t
  else if t.protocolLocked then t
  else if t.acquireCount = 0 then t
  else if t.serverUrl = "" then t
  else if browser.webSocketThrows then tryOpenSse browser t
  else install t false

def openSocket : Transport :=
  if t.transportClosed then t
  else if t.protocolLocked then t
  else if t.socket.isSome then t
  else if t.acquireCount = 0 then t
  else if t.serverUrl = "" then t
  else tryOpen browser t

/-- `teardownCurrentSocket`; `notify` is what the consumers do when told of the disconnect. -/
def teardownCurrentSocket : Transport :=
  let t := clearStableConnection t
  if t.socket.isNone then t
  else notify (stopHeartbeat { t with socket := none, connectionNonce := none })

/-! ### The interface -/

/-- `acquireCount += 1`, for the handle to be returned. -/
def countUp : Transport := { t with
  acquireCount := t.acquireCount + 1
  held := t.nextHandle :: t.held
  nextHandle := t.nextHandle + 1 }

def acquire : Transport :=
  if t.transportClosed then { t with nextHandle := t.nextHandle + 1 }
  else
    let t := countUp t
    if t.acquireCount = 1 ∧ t.socket = none then openSocket browser t else t

/-- `released = true`, for the handle `h`. -/
def markReleased (h : ℕ) : Transport := { t with held := t.held.erase h }

/-- `acquireCount -= 1`. -/
def countDown : Transport := { t with acquireCount := t.acquireCount - 1 }

/-- `release` of the handle `h`. -/
def release (h : ℕ) : Transport :=
  if h ∉ t.held then t
  else
    let t := markReleased t h
    if t.transportClosed then t
    else
      let t := countDown t
      if t.acquireCount = 0 then teardownCurrentSocket notify (resetDelay (clearReconnect t)) else t

def setServerUrl (url : String) : Transport :=
  if url = t.serverUrl then t
  else
    let t := { resetDelay (clearReconnect t) with serverUrl := url }
    let t := if t.socket.isSome then teardownCurrentSocket notify t else t
    if 0 < t.acquireCount ∧ t.serverUrl ≠ "" then openSocket browser t else t

/-- `transportClosed = true`. -/
def markClosed : Transport := { t with transportClosed := true }

/-- `acquireCount = 0`. -/
def zeroCount : Transport := { t with acquireCount := 0 }

def close : Transport :=
  if t.transportClosed then t
  else zeroCount (teardownCurrentSocket notify (clearReconnect (markClosed t)))

def setProtocolLocked (locked : Bool) : Transport :=
  if locked = t.protocolLocked then t
  else
    let t := { t with protocolLocked := locked }
    if locked then teardownCurrentSocket notify (clearReconnect t)
    else if 0 < t.acquireCount ∧ t.serverUrl ≠ "" then openSocket browser t
    else t

def setHeartbeatTimings (pingMs : Option ℕ) : Transport :=
  let t := { t with pingIntervalMs := pingMs.getD t.pingIntervalMs }
  if t.pingInterval then startHeartbeat t else t

end Functions

/-- A call of the transport's interface; `during` lists the calls the consumers make when the call
notifies them. -/
inductive Call
  | acquire (browser : Browser)
  | release (handle : ℕ) (during : List Call)
  | setServerUrl (url : String) (browser : Browser) (during : List Call)
  | close (during : List Call)
  | setProtocolLocked (locked : Bool) (browser : Browser) (during : List Call)
  | setHeartbeatTimings (pingMs : Option ℕ)

mutual

/-- The effect of a call. -/
def perform : Call → Transport → Transport
  | .acquire browser, t => acquire browser t
  | .release h during, t => release (performAll during) t h
  | .setServerUrl url browser during, t => setServerUrl browser (performAll during) t url
  | .close during, t => close (performAll during) t
  | .setProtocolLocked locked browser during, t =>
    setProtocolLocked browser (performAll during) t locked
  | .setHeartbeatTimings pingMs, t => setHeartbeatTimings t pingMs

/-- The effect of the calls made in a row. -/
def performAll : List Call → Transport → Transport
  | [], t => t
  | c :: cs, t => performAll cs (perform c t)

end

/-! ### Events -/

/-- A wire frame, as far as the transport tells them apart, with the calls the consumers make when
they are notified. -/
inductive Frame
  /-- Not a JSON object; dropped. -/
  | malformed
  | pong
  /-- A challenge; a second one with another nonce is a session restart, told to the consumers as a
  disconnect and a connect. -/
  | challenge (nonce : String) (onDisconnected onConnected : List Call)
  /-- `unauthorized` of kind `auth-failed`, settled inside the transport. -/
  | authFailed
  /-- Any other frame, `authenticated` included, goes to the consumers. -/
  | other (onMessage : List Call)

/-- An event a socket object fires. -/
inductive SocketEvent
  | open
  | message (frame : Frame)
  /-- `code` is the close code, `hasFetch` whether `fetch` exists, `during` the calls made when the
  consumers are told of the disconnect. -/
  | close (code : Option ℕ) (hasFetch : Bool) (browser : Browser) (during : List Call)
  | error

def handleMessage (frame : Frame) (t : Transport) : Transport :=
  match frame with
  | .malformed => t
  | .pong => { t with pongTimeout := false }
  | .challenge nonce onDisconnected onConnected =>
    let t :=
      if t.connectionNonce.isSome ∧ t.connectionNonce ≠ some nonce then
        performAll onDisconnected t
      else t
    performAll onConnected { t with connectionNonce := some nonce }
  | .authFailed => t
  | .other onMessage => performAll onMessage t

/-- The `open` listener of the socket `id`. -/
def onOpen (id : ℕ) (t : Transport) : Transport :=
  match t.socket with
  | none => t
  | some socket =>
    if socket.id ≠ id then t
    else
      startHeartbeat { t with
        socket := some { socket with hasOpened := true }
        stableConnectionTimer := some id }

/-- The `message` listener of the socket `id`. -/
def onMessage (id : ℕ) (frame : Frame) (t : Transport) : Transport :=
  if t.socket.map (·.id) ≠ some id then t else handleMessage frame t

/-- The `close` listener of the socket `id`. -/
def onClose (id : ℕ) (code : Option ℕ) (hasFetch : Bool) (browser : Browser)
    (notify : Transport → Transport) (t : Transport) : Transport :=
  match t.socket with
  | none => t
  | some socket =>
    if socket.id ≠ id then t
    else
      let t := stopHeartbeat { clearStableConnection t with
        socket := none
        connectionNonce := none }
      if ¬ socket.hasOpened ∧ ¬ socket.sse ∧ ¬ t.transportClosed ∧ 0 < t.acquireCount then
        if hasFetch then tryOpenSse browser t
        else scheduleReconnect (notify t)
      else
        let t := if code = some 1001 then resetDelay t else t
        let t := notify t
        if ¬ t.transportClosed ∧ 0 < t.acquireCount then scheduleReconnect t else t

/-- An event of the socket `id`. -/
def onEvent (id : ℕ) (event : SocketEvent) (t : Transport) : Transport :=
  match event with
  | .open => onOpen id t
  | .message frame => onMessage id frame t
  | .close code hasFetch browser during => onClose id code hasFetch browser (performAll during) t
  | .error => t

/-- What happens next. -/
inductive Label
  | call (c : Call)
  | event (id : ℕ) (e : SocketEvent)
  /-- The reconnect timer fires. -/
  | reconnect (browser : Browser)
  /-- The stable-connection timer fires. -/
  | stable
  /-- The heartbeat interval fires; `isOpen` is the socket's `readyState === OPEN`. -/
  | ping (isOpen : Bool)
  /-- The pong timeout fires; it asks the socket to close, whose event comes later. -/
  | pongTimeout

/-- The transport under any order of calls, socket events and timers. -/
def transportMachine : Machine Transport Label where
  step t
    | .call c => some (perform c t)
    | .event id e => some (onEvent id e t)
    | .reconnect browser =>
      if t.reconnectTimer then some (openSocket browser { t with reconnectTimer := false })
      else none
    | .stable =>
      match t.stableConnectionTimer with
      | none => none
      | some id =>
        let t := { t with stableConnectionTimer := none }
        some (if t.socket.map (·.id) = some id then resetDelay t else t)
    | .ping isOpen =>
      if t.pingInterval then
        some (if t.socket.isNone ∨ ¬ isOpen ∨ t.pongTimeout then t
          else { t with pongTimeout := true })
      else none
    | .pongTimeout => if t.pongTimeout then some { t with pongTimeout := false } else none

/-! ### The invariant -/

/-- Until the transport is closed, the count is the number of handles held. -/
structure Counted (t : Transport) : Prop where
  count : t.transportClosed = false → t.acquireCount = t.held.length
  nonneg : 0 ≤ t.acquireCount

/-- What holds even half way through an operation: an unwanted transport has neither a socket nor a
pending reconnect. -/
structure Safe (t : Transport) : Prop extends Counted t where
  idle : t.wanted = false → t.socket = none ∧ t.reconnectTimer = false

/-- A wanted transport has a socket or a pending reconnect. -/
def Live (t : Transport) : Prop :=
  t.wanted = true → t.socket.isSome = true ∨ t.reconnectTimer = true

/-- Both. -/
def Inv (t : Transport) : Prop := Safe t ∧ Live t

/-- A transformation that keeps `Safe`, keeps `Inv` too, and never reopens a closed transport. -/
structure Preserves (f : Transport → Transport) : Prop where
  safe : ∀ {t}, Safe t → Safe (f t)
  inv : ∀ {t}, Inv t → Inv (f t)
  closed : ∀ {t}, t.transportClosed = true → (f t).transportClosed = true

variable {t : Transport}

theorem wanted_iff : t.wanted = true ↔
    0 < t.acquireCount ∧ t.serverUrl ≠ "" ∧ t.transportClosed = false ∧
      t.protocolLocked = false := by
  simp [Transport.wanted, and_assoc]

theorem wanted_eq_false_iff (h : 0 ≤ t.acquireCount) : t.wanted = false ↔
    t.transportClosed = true ∨ t.protocolLocked = true ∨ t.acquireCount = 0 ∨ t.serverUrl = "" := by
  have hcount : t.acquireCount = 0 ↔ ¬ 0 < t.acquireCount := by omega
  rw [← Bool.not_eq_true, wanted_iff, hcount]
  cases t.transportClosed <;> cases t.protocolLocked <;> simp [-not_lt, imp_iff_not_or]

theorem Safe.inv_of_unwanted (h : Safe t) (hw : t.wanted = false) : Inv t :=
  ⟨h, fun hw' => absurd (hw.symm.trans hw') (by simp)⟩

theorem Inv.of_socket (h : Safe t) (hs : t.socket.isSome = true) : Inv t :=
  ⟨h, fun _ => .inl hs⟩

/-- Variables `wanted` and the count do not depend on may change, as long as an idle transport stays
idle. -/
theorem Safe.congr {t t' : Transport} (h : Safe t) (hw : t'.wanted = t.wanted)
    (hclosed : t'.transportClosed = t.transportClosed) (hcount : t'.acquireCount = t.acquireCount)
    (hheld : t'.held = t.held) (hidle : t.socket = none ∧ t.reconnectTimer = false →
      t'.socket = none ∧ t'.reconnectTimer = false) : Safe t' where
  idle hw' := hidle (h.idle (hw ▸ hw'))
  count hc := by rw [hcount, hheld]; exact h.count (hclosed ▸ hc)
  nonneg := hcount ▸ h.nonneg

/-- The states agree on everything the invariant speaks of. -/
structure Alike (t t' : Transport) : Prop where
  wanted : t'.wanted = t.wanted
  closed : t'.transportClosed = t.transportClosed
  count : t'.acquireCount = t.acquireCount
  held : t'.held = t.held
  socket : t'.socket.isSome = t.socket.isSome
  timer : t'.reconnectTimer = t.reconnectTimer

theorem Safe.alike {t t' : Transport} (h : Safe t) (ha : Alike t t') : Safe t' := by
  refine h.congr ha.wanted ha.closed ha.count ha.held fun hi => ⟨?_, ha.timer.trans hi.2⟩
  have hs := ha.socket
  rw [hi.1] at hs
  simpa using hs

theorem Inv.alike {t t' : Transport} (h : Inv t) (ha : Alike t t') : Inv t' := by
  refine ⟨h.1.alike ha, fun hw => ?_⟩
  rw [ha.socket, ha.timer]
  exact h.2 (ha.wanted ▸ hw)

theorem Counted.safe_of_idle (h : Counted t) (hs : t.socket = none)
    (ht : t.reconnectTimer = false) : Safe t :=
  ⟨h, fun _ => ⟨hs, ht⟩⟩

/-! ### The private functions -/

section Lemmas

variable {browser : Browser} {notify : Transport → Transport} {t : Transport}

theorem scheduleReconnect_of_wanted (hw : t.wanted = true) : scheduleReconnect t = { t with
    reconnectTimer := true
    reconnectDelayMs := min (t.reconnectDelayMs * 2) maxReconnectDelay } := by
  obtain ⟨hcount, hurl, hclosed, hlocked⟩ := wanted_iff.mp hw
  have hne : t.acquireCount ≠ 0 := by omega
  simp [scheduleReconnect, hclosed, hlocked, hne, hurl]

theorem scheduleReconnect_of_unwanted (h : Safe t) (hw : t.wanted = false) :
    scheduleReconnect t = clearReconnect t := by
  unfold scheduleReconnect
  rcases (wanted_eq_false_iff h.nonneg).mp hw with hc | hc | hc | hc <;> simp [hc]

/-- Scheduling a reconnect establishes the invariant. -/
theorem inv_scheduleReconnect (h : Safe t) : Inv (scheduleReconnect t) := by
  cases hw : t.wanted with
  | true =>
    rw [scheduleReconnect_of_wanted hw]
    exact ⟨⟨⟨h.count, h.nonneg⟩, fun hw' => absurd (hw.symm.trans hw') (by simp)⟩,
      fun _ => .inr rfl⟩
  | false =>
    rw [scheduleReconnect_of_unwanted h hw]
    have hsafe : Safe (clearReconnect t) := h.congr rfl rfl rfl rfl fun hi => ⟨hi.1, rfl⟩
    exact hsafe.inv_of_unwanted hw

theorem inv_install (sse : Bool) (h : Safe t) (hw : t.wanted = true) : Inv (install t sse) :=
  .of_socket ⟨⟨h.count, h.nonneg⟩, fun hw' => absurd (hw.symm.trans hw') (by simp)⟩ rfl

/-- Opening a socket establishes the invariant: a wanted transport gets one, or a timer. -/
theorem inv_tryOpenSse (h : Safe t) : Inv (tryOpenSse browser t) := by
  cases hw : t.wanted with
  | true =>
    obtain ⟨hcount, hurl, hclosed, hlocked⟩ := wanted_iff.mp hw
    have hne : t.acquireCount ≠ 0 := by omega
    simp only [tryOpenSse, hclosed, hlocked, hne, hurl, Bool.false_eq_true, if_false]
    split_ifs
    · exact inv_scheduleReconnect h
    · exact inv_install true h hw
  | false =>
    have heq : tryOpenSse browser t = t := by
      unfold tryOpenSse
      rcases (wanted_eq_false_iff h.nonneg).mp hw with hc | hc | hc | hc <;> simp [hc]
    rw [heq]
    exact h.inv_of_unwanted hw

theorem inv_tryOpen (h : Safe t) : Inv (tryOpen browser t) := by
  cases hw : t.wanted with
  | true =>
    obtain ⟨hcount, hurl, hclosed, hlocked⟩ := wanted_iff.mp hw
    have hne : t.acquireCount ≠ 0 := by omega
    simp only [tryOpen, hclosed, hlocked, hne, hurl, Bool.false_eq_true, if_false]
    split_ifs
    · exact inv_tryOpenSse h
    · exact inv_install false h hw
  | false =>
    have heq : tryOpen browser t = t := by
      unfold tryOpen
      rcases (wanted_eq_false_iff h.nonneg).mp hw with hc | hc | hc | hc <;> simp [hc]
    rw [heq]
    exact h.inv_of_unwanted hw

theorem inv_openSocket (h : Safe t) : Inv (openSocket browser t) := by
  unfold openSocket
  split_ifs with hclosed hlocked hsocket hcount hurl
  · exact h.inv_of_unwanted ((wanted_eq_false_iff h.nonneg).mpr (.inl hclosed))
  · exact h.inv_of_unwanted ((wanted_eq_false_iff h.nonneg).mpr (.inr (.inl hlocked)))
  · exact .of_socket h hsocket
  · exact h.inv_of_unwanted ((wanted_eq_false_iff h.nonneg).mpr (.inr (.inr (.inl hcount))))
  · exact h.inv_of_unwanted ((wanted_eq_false_iff h.nonneg).mpr (.inr (.inr (.inr hurl))))
  · exact inv_tryOpen h

/-- A teardown with no reconnect pending leaves `Safe`, whatever the consumers do when told. -/
theorem safe_teardown (hn : Preserves notify) (h : Counted t) (ht : t.reconnectTimer = false) :
    Safe (teardownCurrentSocket notify t) := by
  unfold teardownCurrentSocket
  dsimp only
  split_ifs with hs
  · have hidle : Safe t := h.safe_of_idle (isNone_iff_eq_none.mp hs) ht
    exact hidle.congr rfl rfl rfl rfl id
  · exact hn.safe (Counted.safe_of_idle ⟨h.count, h.nonneg⟩ rfl ht)

/-- A teardown of an unwanted transport leaves the invariant: only the consumers can make it wanted
again, and their calls keep it. -/
theorem inv_teardown (hn : Preserves notify) (h : Counted t) (ht : t.reconnectTimer = false)
    (hw : t.wanted = false) : Inv (teardownCurrentSocket notify t) := by
  unfold teardownCurrentSocket
  dsimp only
  split_ifs with hs
  · have hidle : Safe t := h.safe_of_idle (isNone_iff_eq_none.mp hs) ht
    have hsafe : Safe (clearStableConnection t) := hidle.congr rfl rfl rfl rfl id
    exact hsafe.inv_of_unwanted hw
  · refine hn.inv (Safe.inv_of_unwanted ?_ hw)
    exact Counted.safe_of_idle ⟨h.count, h.nonneg⟩ rfl ht

/-! No function below opens a closed transport again. -/

theorem scheduleReconnect_closed : (scheduleReconnect t).transportClosed = t.transportClosed := by
  unfold scheduleReconnect
  split_ifs <;> rfl

theorem tryOpenSse_closed : (tryOpenSse browser t).transportClosed = t.transportClosed := by
  unfold tryOpenSse
  split_ifs <;> first | rfl | exact scheduleReconnect_closed

theorem openSocket_closed : (openSocket browser t).transportClosed = t.transportClosed := by
  unfold openSocket tryOpen
  split_ifs <;> first | rfl | exact tryOpenSse_closed

theorem teardown_closed (hn : Preserves notify) (hc : t.transportClosed = true) :
    (teardownCurrentSocket notify t).transportClosed = true := by
  unfold teardownCurrentSocket
  dsimp only
  split_ifs
  · exact hc
  · exact hn.closed hc

end Lemmas

/-! ### The interface -/

section Interface

variable (browser : Browser) {notify : Transport → Transport}

theorem safe_countUp {t : Transport} (h : Safe t) (hclosed : t.transportClosed = false) :
    Safe (countUp t) := by
  have hcount := h.count hclosed
  have hnonneg := h.nonneg
  have hnonneg' : 0 ≤ (countUp t).acquireCount := show 0 ≤ t.acquireCount + 1 by omega
  refine ⟨⟨fun _ => by simp [countUp, hcount], hnonneg'⟩, fun hw => ?_⟩
  refine h.idle ((wanted_eq_false_iff hnonneg).mpr ?_)
  rcases (wanted_eq_false_iff hnonneg').mp hw with hc | hc | hc | hc
  · exact .inl hc
  · exact .inr (.inl hc)
  · have hc' : t.acquireCount + 1 = 0 := hc
    omega
  · exact .inr (.inr (.inr hc))

theorem preserves_acquire : Preserves (acquire browser) where
  safe {t} h := by
    unfold acquire
    dsimp only
    split_ifs with hclosed hfirst
    · exact h.congr rfl rfl rfl rfl id
    · exact (inv_openSocket (safe_countUp h (by simpa using hclosed))).1
    · exact safe_countUp h (by simpa using hclosed)
  inv {t} h := by
    unfold acquire
    dsimp only
    split_ifs with hclosed hfirst
    · exact ⟨h.1.congr rfl rfl rfl rfl id, h.2⟩
    · exact inv_openSocket (safe_countUp h.1 (by simpa using hclosed))
    · have hsafe := safe_countUp h.1 (by simpa using hclosed)
      refine ⟨hsafe, fun hw => ?_⟩
      -- either somebody held it before, or the socket is there already
      by_cases hsocket : t.socket = none
      · obtain ⟨-, hurl, hclosed', hlocked⟩ := wanted_iff.mp hw
        have hone : t.acquireCount + 1 ≠ 1 := fun h1 => hfirst ⟨h1, hsocket⟩
        have hnonneg := h.1.nonneg
        exact h.2 (wanted_iff.mpr ⟨by omega, hurl, hclosed', hlocked⟩)
      · exact .inl (isSome_iff_ne_none.mpr hsocket)
  closed {t} hc := by simp [acquire, hc]

theorem counted_release {t : Transport} {handle : ℕ} (h : Safe t) (hheld : handle ∈ t.held)
    (hclosed : t.transportClosed = false) : Counted (countDown (markReleased t handle)) := by
  have hcount := h.count hclosed
  have hpos := List.length_pos_of_mem hheld
  have hlen := List.length_erase_of_mem hheld
  constructor
  · intro _
    simp only [countDown, markReleased]
    omega
  · simp only [countDown, markReleased]
    omega

section

variable (hn : Preserves notify)
include hn

theorem preserves_release (handle : ℕ) : Preserves (release notify · handle) := by
  have key : ∀ t, Safe t → Safe (release notify t handle) ∧
      (Live t → Live (release notify t handle)) := by
    intro t h
    unfold release
    dsimp only
    split_ifs with hheld hclosed hlast
    · have hsafe : Safe (markReleased t handle) :=
        ⟨⟨fun hc => absurd hclosed (ne_true_of_eq_false hc), h.nonneg⟩, h.idle⟩
      exact ⟨hsafe, id⟩
    · -- the last holder lets go
      have hcounted := counted_release h hheld (by simpa [markReleased] using hclosed)
      have hw : (resetDelay (clearReconnect (countDown (markReleased t handle)))).wanted = false :=
        (wanted_eq_false_iff hcounted.nonneg).mpr (.inr (.inr (.inl hlast)))
      have hcounted' : Counted (resetDelay (clearReconnect (countDown (markReleased t handle)))) :=
        ⟨hcounted.count, hcounted.nonneg⟩
      have hinv := inv_teardown hn hcounted' rfl hw
      exact ⟨hinv.1, fun _ => hinv.2⟩
    · -- others still hold it: it is wanted as before
      have hcounted := counted_release h hheld (by simpa [markReleased] using hclosed)
      have hnonneg := hcounted.nonneg
      simp only [countDown, markReleased] at hnonneg hlast
      have hw : (countDown (markReleased t handle)).wanted = t.wanted := by
        have hpos : 1 < t.acquireCount := by omega
        have hpos' : 0 < t.acquireCount := by omega
        simp [Transport.wanted, countDown, markReleased, hpos, hpos']
      refine ⟨⟨hcounted, fun hw' => h.idle (hw ▸ hw')⟩, fun hl hw' => hl (hw ▸ hw')⟩
    · exact ⟨h, id⟩
  refine ⟨fun h => (key _ h).1, fun h => ⟨(key _ h.1).1, (key _ h.1).2 h.2⟩, ?_⟩
  intro t hc
  unfold release
  dsimp only
  split_ifs with hheld hclosed hlast
  · exact hc
  · exact absurd hc hclosed
  · exact absurd hc hclosed
  · exact hc

theorem preserves_setServerUrl (url : String) : Preserves (setServerUrl browser notify · url) := by
  have key : ∀ t, Safe t → url ≠ t.serverUrl → Inv (setServerUrl browser notify t url) := by
    intro t h hurl
    unfold setServerUrl
    rw [if_neg hurl]
    dsimp only
    set t₁ := { resetDelay (clearReconnect t) with serverUrl := url } with ht₁
    have hcounted : Counted t₁ := ⟨h.count, h.nonneg⟩
    have hsafe :
        Safe (if t₁.socket.isSome = true then teardownCurrentSocket notify t₁ else t₁) := by
      split_ifs with hs
      · exact safe_teardown hn hcounted rfl
      · exact hcounted.safe_of_idle (not_isSome_iff_eq_none.mp hs) rfl
    generalize (if t₁.socket.isSome = true then teardownCurrentSocket notify t₁ else t₁) = t₂
      at hsafe ⊢
    split_ifs with hopen
    · exact inv_openSocket hsafe
    · refine hsafe.inv_of_unwanted (Bool.eq_false_iff.mpr fun hw => hopen ?_)
      exact ⟨(wanted_iff.mp hw).1, (wanted_iff.mp hw).2.1⟩
  have hsame : ∀ t : Transport, url = t.serverUrl → setServerUrl browser notify t url = t :=
    fun t hurl => if_pos hurl
  refine ⟨fun {t} h => ?_, fun {t} h => ?_, fun {t} hc => ?_⟩
  · by_cases hurl : url = t.serverUrl
    · simpa [hsame t hurl] using h
    · exact (key t h hurl).1
  · by_cases hurl : url = t.serverUrl
    · simpa [hsame t hurl] using h
    · exact key t h.1 hurl
  · unfold setServerUrl
    dsimp only
    split_ifs
    · exact hc
    · exact openSocket_closed.trans (teardown_closed hn hc)
    · exact teardown_closed hn hc
    · exact openSocket_closed.trans hc
    · exact hc

theorem preserves_close : Preserves (close notify) := by
  have hw : ∀ t : Transport, t.transportClosed = true → t.wanted = false := by
    intro t hc
    simp [Transport.wanted, hc]
  have hclosed : ∀ t, (teardownCurrentSocket notify (clearReconnect (markClosed t))).transportClosed
      = true := fun t => teardown_closed hn rfl
  have key : ∀ t, Safe t → Inv (close notify t) := by
    intro t h
    unfold close
    split_ifs with hc
    · exact h.inv_of_unwanted (hw t hc)
    · have hcounted : Counted (clearReconnect (markClosed t)) :=
        ⟨fun hc' => (by cases hc'), h.nonneg⟩
      have hinv := inv_teardown hn hcounted rfl (hw _ rfl)
      have hcl := hclosed t
      generalize teardownCurrentSocket notify (clearReconnect (markClosed t)) = t₁ at hinv hcl ⊢
      have hzero : Counted (zeroCount t₁) :=
        ⟨fun hc' => absurd hcl (ne_true_of_eq_false hc'), Int.le_refl 0⟩
      have hidle := hinv.1.idle (hw t₁ hcl)
      exact (hzero.safe_of_idle hidle.1 hidle.2).inv_of_unwanted (hw _ hcl)
  refine ⟨fun h => (key _ h).1, fun h => key _ h.1, fun {t} hc => ?_⟩
  unfold close
  rw [if_pos hc]
  exact hc

theorem preserves_setProtocolLocked (locked : Bool) :
    Preserves (setProtocolLocked browser notify · locked) := by
  have key : ∀ t, Safe t → locked ≠ t.protocolLocked →
      Inv (setProtocolLocked browser notify t locked) := by
    intro t h hne
    unfold setProtocolLocked
    rw [if_neg hne]
    dsimp only
    cases locked with
    | true =>
      rw [if_pos rfl]
      have hcounted : Counted (clearReconnect { t with protocolLocked := true }) :=
        ⟨h.count, h.nonneg⟩
      exact inv_teardown hn hcounted rfl
        ((wanted_eq_false_iff hcounted.nonneg).mpr (.inr (.inl rfl)))
    | false =>
      -- it was locked, hence idle
      have hlocked : t.protocolLocked = true := by simpa using hne
      have hidle := h.idle ((wanted_eq_false_iff h.nonneg).mpr (.inr (.inl hlocked)))
      have hcounted : Counted { t with protocolLocked := false } := ⟨h.count, h.nonneg⟩
      have hsafe : Safe { t with protocolLocked := false } := hcounted.safe_of_idle hidle.1 hidle.2
      rw [if_neg (by simp)]
      split_ifs with hopen
      · exact inv_openSocket hsafe
      · refine hsafe.inv_of_unwanted (Bool.eq_false_iff.mpr fun hw => hopen ?_)
        exact ⟨(wanted_iff.mp hw).1, (wanted_iff.mp hw).2.1⟩
  have hsame : ∀ t : Transport, locked = t.protocolLocked →
      setProtocolLocked browser notify t locked = t := fun t hl => if_pos hl
  refine ⟨fun {t} h => ?_, fun {t} h => ?_, fun {t} hc => ?_⟩
  · by_cases hl : locked = t.protocolLocked
    · simpa [hsame t hl] using h
    · exact (key t h hl).1
  · by_cases hl : locked = t.protocolLocked
    · simpa [hsame t hl] using h
    · exact key t h.1 hl
  · unfold setProtocolLocked
    dsimp only
    split_ifs
    · exact hc
    · exact teardown_closed hn hc
    · exact openSocket_closed.trans hc
    · exact hc

end

theorem alike_startHeartbeat (t : Transport) : Alike t (startHeartbeat t) := by
  unfold startHeartbeat
  dsimp only
  split_ifs <;> exact ⟨rfl, rfl, rfl, rfl, rfl, rfl⟩

theorem alike_setHeartbeatTimings (t : Transport) (pingMs : Option ℕ) :
    Alike t (setHeartbeatTimings t pingMs) := by
  unfold setHeartbeatTimings startHeartbeat
  dsimp only
  split_ifs <;> exact ⟨rfl, rfl, rfl, rfl, rfl, rfl⟩

theorem preserves_setHeartbeatTimings (pingMs : Option ℕ) :
    Preserves (setHeartbeatTimings · pingMs) :=
  ⟨fun h => h.alike (alike_setHeartbeatTimings _ pingMs),
    fun h => h.alike (alike_setHeartbeatTimings _ pingMs),
    (alike_setHeartbeatTimings _ pingMs).closed.trans⟩

end Interface

mutual

/-- Every call keeps the invariant, and keeps `Safe` when made from inside another call. -/
theorem preserves_perform : ∀ c, Preserves (perform c)
  | .acquire browser => preserves_acquire browser
  | .release h during => preserves_release (preserves_performAll during) h
  | .setServerUrl url browser during =>
    preserves_setServerUrl browser (preserves_performAll during) url
  | .close during => preserves_close (preserves_performAll during)
  | .setProtocolLocked locked browser during =>
    preserves_setProtocolLocked browser (preserves_performAll during) locked
  | .setHeartbeatTimings pingMs => preserves_setHeartbeatTimings pingMs

theorem preserves_performAll : ∀ cs, Preserves (performAll cs)
  | [] => ⟨id, id, id⟩
  | c :: cs =>
    ⟨fun h => (preserves_performAll cs).safe ((preserves_perform c).safe h),
      fun h => (preserves_performAll cs).inv ((preserves_perform c).inv h),
      fun h => (preserves_performAll cs).closed ((preserves_perform c).closed h)⟩

end

/-! ### Events and runs -/

theorem inv_handleMessage {t : Transport} (h : Inv t) (frame : Frame) :
    Inv (handleMessage frame t) := by
  cases frame with
  | malformed => exact h
  | pong => exact h.alike ⟨rfl, rfl, rfl, rfl, rfl, rfl⟩
  | authFailed => exact h
  | other onMessage => exact (preserves_performAll onMessage).inv h
  | challenge nonce onDisconnected onConnected =>
    have hmid : Inv (if t.connectionNonce.isSome ∧ t.connectionNonce ≠ some nonce then
        performAll onDisconnected t else t) := by
      split_ifs
      · exact (preserves_performAll onDisconnected).inv h
      · exact h
    exact (preserves_performAll onConnected).inv (hmid.alike ⟨rfl, rfl, rfl, rfl, rfl, rfl⟩)

theorem inv_onOpen {t : Transport} (h : Inv t) (id : ℕ) : Inv (onOpen id t) := by
  unfold onOpen
  cases hs : t.socket with
  | none => exact h
  | some socket =>
    dsimp only
    split_ifs
    · exact h
    · have hopen : Inv { t with
          socket := some { socket with hasOpened := true }
          stableConnectionTimer := some id } :=
        h.alike ⟨rfl, rfl, rfl, rfl, by simp [hs], rfl⟩
      exact hopen.alike (alike_startHeartbeat _)

/-- A lost socket is replaced by the adapter at once, or by a timer after the consumers were
told. -/
theorem inv_onClose {t : Transport} (h : Inv t) (id : ℕ) (code : Option ℕ) (hasFetch : Bool)
    (browser : Browser) {notify : Transport → Transport} (hn : Preserves notify) :
    Inv (onClose id code hasFetch browser notify t) := by
  unfold onClose
  cases hs : t.socket with
  | none => exact h
  | some socket =>
    dsimp only
    -- the socket is gone; nothing else the invariant speaks of has changed
    have hlost : Safe (stopHeartbeat { clearStableConnection t with
        socket := none
        connectionNonce := none }) :=
      h.1.congr rfl rfl rfl rfl fun hi => ⟨rfl, hi.2⟩
    generalize stopHeartbeat { clearStableConnection t with
        socket := none
        connectionNonce := none } = t₁ at hlost ⊢
    have hnotified : Safe (notify (if code = some 1001 then resetDelay t₁ else t₁)) := by
      refine hn.safe ?_
      split_ifs
      · exact hlost.alike ⟨rfl, rfl, rfl, rfl, rfl, rfl⟩
      · exact hlost
    generalize notify (if code = some 1001 then resetDelay t₁ else t₁) = t₂ at hnotified ⊢
    split_ifs with hid hfall hfetch hagain
    · exact h
    · exact inv_tryOpenSse hlost
    · exact inv_scheduleReconnect (hn.safe hlost)
    · exact inv_scheduleReconnect hnotified
    · refine hnotified.inv_of_unwanted (Bool.eq_false_iff.mpr fun hw => hagain ?_)
      obtain ⟨hcount, -, hclosed, -⟩ := wanted_iff.mp hw
      exact ⟨by simp [hclosed], hcount⟩

theorem inv_onEvent {t : Transport} (h : Inv t) (id : ℕ) (event : SocketEvent) :
    Inv (onEvent id event t) := by
  cases event with
  | «open» => exact inv_onOpen h id
  | message frame =>
    unfold onEvent onMessage
    dsimp only
    split_ifs
    · exact h
    · exact inv_handleMessage h frame
  | close code hasFetch browser during =>
    exact inv_onClose h id code hasFetch browser (preserves_performAll during)
  | error => exact h

/-- The listeners of a socket that is not the current one return at once. -/
theorem onEvent_of_stale {t : Transport} {id : ℕ} (hid : t.socket.map (·.id) ≠ some id)
    (event : SocketEvent) : onEvent id event t = t := by
  cases hs : t.socket with
  | none =>
    cases event <;> simp [onEvent, onOpen, onMessage, onClose, hs]
  | some socket =>
    have hne : socket.id ≠ id := by simpa [hs] using hid
    cases event <;> simp [onEvent, onOpen, onMessage, onClose, hs, hne]

theorem inv_step {t t' : Transport} {a : Label} (h : Inv t)
    (hst : transportMachine.step t a = some t') : Inv t' := by
  cases a with
  | call c =>
    cases hst
    exact (preserves_perform c).inv h
  | event id e =>
    cases hst
    exact inv_onEvent h id e
  | reconnect browser =>
    simp only [transportMachine] at hst
    split_ifs at hst
    cases hst
    -- the timer is gone, but the open that follows puts a socket or a timer in its place
    exact inv_openSocket (h.1.congr rfl rfl rfl rfl fun hi => ⟨hi.1, rfl⟩)
  | stable =>
    simp only [transportMachine] at hst
    cases hs : t.stableConnectionTimer with
    | none => simp [hs] at hst
    | some id =>
      simp only [hs, some.injEq] at hst
      subst hst
      split_ifs <;> exact h.alike ⟨rfl, rfl, rfl, rfl, rfl, rfl⟩
  | ping isOpen =>
    simp only [transportMachine] at hst
    split_ifs at hst <;> cases hst <;> exact h.alike ⟨rfl, rfl, rfl, rfl, rfl, rfl⟩
  | pongTimeout =>
    simp only [transportMachine] at hst
    split_ifs at hst
    cases hst
    exact h.alike ⟨rfl, rfl, rfl, rfl, rfl, rfl⟩

theorem inv_create (serverUrl : String) (pingIntervalMs : ℕ) :
    Inv (.create serverUrl pingIntervalMs) :=
  Safe.inv_of_unwanted (Counted.safe_of_idle ⟨fun _ => rfl, Int.le_refl 0⟩ rfl rfl) rfl

/-- **The transport never wedges.**  In every reachable state a wanted transport has a socket or a
pending reconnect, an unwanted one has neither, and an event of a socket that is not the current one
changes nothing. -/
theorem never_wedges {serverUrl : String} {pingIntervalMs : ℕ} {t : Transport}
    (h : transportMachine.Reachable (.create serverUrl pingIntervalMs) t) :
    (t.wanted = true → t.socket.isSome = true ∨ t.reconnectTimer = true) ∧
      (t.wanted = false → t.socket = none ∧ t.reconnectTimer = false) ∧
      ∀ id e, t.socket.map (·.id) ≠ some id → transportMachine.step t (.event id e) = some t := by
  have hinv : Inv t := h.invariant (inv_create serverUrl pingIntervalMs) fun _ _ _ => inv_step
  refine ⟨hinv.2, hinv.1.idle, fun id e hid => ?_⟩
  exact congrArg some (onEvent_of_stale hid e)

/-- The socket opens and is lost; told of that, a consumer moves the transport to another server. -/
def movedLabels : List Label :=
  [.call (.acquire ⟨false, false⟩), .event 0 .open,
   .event 0 (.close (some 1006) true ⟨false, false⟩ [.setServerUrl "wss://b" ⟨false, false⟩ []])]

/-- The state after that. -/
def movedEnd : Transport :=
  (transportMachine.run (.create "wss://a" 15000) movedLabels).getD (.create "" 0)

theorem movedEnd_run : transportMachine.run (.create "wss://a" 15000) movedLabels = some movedEnd :=
  rfl

/-- The nested call has opened the socket `1`; a late close of the socket `0` leaves it alone. -/
theorem never_wedges_moved : movedEnd.wanted = true ∧ movedEnd.socket.isSome = true ∧
    transportMachine.step movedEnd (.event 0 (.close none true ⟨true, true⟩ [])) = some movedEnd :=
  ⟨by decide, by decide,
    (never_wedges (Machine.reachable_of_run movedEnd_run)).2.2 0 _ (by decide)⟩

end Triage.Client.SocketTransport
