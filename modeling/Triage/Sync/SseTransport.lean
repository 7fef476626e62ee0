import Mathlib.Data.List.Flatten
import Mathlib.Data.List.Sort
import Mathlib.Data.Rat.Init
import Triage.Sync.SseFraming

/-!
# The client's end of the event stream

`SseTransport` stands for a WebSocket where a client can only make requests. What it is to send is
gathered and goes out with the next request; every request opens a response, and the responses are
read side by side, each through a decoder and a parser of its own. A response may still be read
when the next one has begun, but an event of it closes the transport once the next one's have been
dispatched.

## Main results

* `SseTransport.told_said` : the messages told are messages of the session, each once and in order;
  an open transport has told all that the responses have brought.
* `SseTransport.sent_posted` : what was sent is posted once and in order, and a flush is to come for
  what is left.
-/

namespace Triage.Sync

open Streams Transducer Relay Client Function List

/-- What the transport tells its listeners. -/
inductive SseTold
  | opened
  | message (data : List Char)
  | closed (code : Option ℚ) (reason : Option (List Char))

/-- The data of a message. -/
def SseTold.message? : SseTold → Option (List Char)
  | .message data => some data
  | _ => none

/-- What is outside of the transport: what its listeners close it on, and how the payload of a
`close` event is read. -/
structure SseOutside where
  closes : List SseTold → Bool
  readClose : List Char → Option ℚ × Option (List Char)

/-- What the dispatch of an event reads and writes, with records of what was told and of the events
dispatched. -/
structure SseDownstream where
  readyState : SseReadyState
  sessionId : Option (List Char)
  flushTimer : Bool
  downstreamWatchdog : Bool
  lastDispatchedSeq : ℕ
  told : List SseTold
  dispatched : List SseEvent

namespace SseDownstream

variable (outside : SseOutside) (d : SseDownstream)

def shutdown (code : Option ℚ) (reason : Option (List Char)) : SseDownstream :=
  if d.readyState = .closed then d
  else { d with
    readyState := .closed
    flushTimer := false
    downstreamWatchdog := false
    told := d.told ++ [.closed code reason] }

/-- `dispatchEvent`: the listeners may close the transport. -/
def tell (what : SseTold) : SseDownstream :=
  have d := { d with told := d.told ++ [what] }
  if outside.closes d.told then d.shutdown none none else d

def dispatchEvent_ (ev : SseEvent) : SseDownstream :=
  if ev.event = "session".toList then
    have opened := { d with sessionId := some ev.data }
    if d.readyState = .connecting then
      { opened with readyState := .opened }.tell outside .opened
    else opened
  else if ev.event = "close".toList then
    d.shutdown (outside.readClose ev.data).1 (outside.readClose ev.data).2
  else if ev.event = [] ∨ ev.event = "message".toList then
    if d.readyState ≠ .opened then d else d.tell outside (.message ev.data)
  else d

/-- `dispatchOrderedEvent`: an event of a response behind the last one dispatched closes the
transport. -/
def dispatchOrderedEvent (seq : ℕ) (ev : SseEvent) : SseDownstream :=
  if d.readyState = .closed then d
  else if seq < d.lastDispatchedSeq then d.shutdown none none
  else { d with
    lastDispatchedSeq := seq
    dispatched := d.dispatched ++ [ev] }.dispatchEvent_ outside ev

/-- The events of a chunk, in order. -/
def dispatchAll (seq : ℕ) (evs : List SseEvent) : SseDownstream :=
  evs.foldl (fun d ev => d.dispatchOrderedEvent outside seq ev) d

end SseDownstream

/-- How far a request is: not made, without an answer, or its response is read, or has come to its
end, or was lost. -/
inductive SsePhase
  | unsent | fetching | reading | ended | failed
  deriving DecidableEq

/-- A decoder with the parser behind it. -/
def sseReader : Transducer ((Utf8State × Bool) × List Char) UInt8 SseEvent :=
  textDecoder.comp SseParser.parse

/-- A request, and what has come of its response. -/
structure SseReader where
  phase : SsePhase
  received : List UInt8
  state : (Utf8State × Bool) × List Char

/-- What the decoder held back, at the end of a response. -/
def SseReader.tail (reader : SseReader) : List SseEvent :=
  have text := (foldSteps markStep reader.state.1.2 reader.state.1.1.finish).1
  if 0 < text.length then (SseParser.parse.feed reader.state.2 text).1 else []

/-- The body of a request. -/
structure SseBody (Frame : Type) where
  id : Option (List Char)
  password : Option (List Char)
  frames : List Frame

/-- The transport.  `flushes` has the request that each waiting flush waits for; `posts` and `sent`
are records of what was posted and sent. -/
structure SseTransport (Frame : Type) extends SseDownstream where
  cachedPassword : Option (List Char)
  outbound : List Frame
  flushes : List ℕ
  inFlightPost : Option ℕ
  postSeq : ℕ
  readers : ℕ → SseReader
  posts : List (SseBody Frame)
  sent : List Frame

variable {Frame : Type}

namespace SseTransport

/-- The constructor: the first flush is due at once. -/
def start : SseTransport Frame :=
  ⟨⟨.connecting, none, true, false, 0, [], []⟩, none, [], [], none, 0,
    fun _ => ⟨.unsent, [], sseReader.init⟩, [], []⟩

section Functions

variable (outside : SseOutside) (t : SseTransport Frame)

/-- `close`, and the end of a request that failed. -/
def close : SseTransport Frame := { t with toSseDownstream := t.shutdown none none }

/-- `send`, of a frame other than `authenticate`; a flush is due. -/
def send (frame : Frame) : SseTransport Frame :=
  { t with outbound := t.outbound ++ [frame], sent := t.sent ++ [frame], flushTimer := true }

/-- `send`, of an `authenticate` frame: the password goes with every request. -/
def authenticate (password : List Char) : SseTransport Frame :=
  { t with cachedPassword := some password, flushTimer := true }

/-- The second half of `flush`: the request. -/
def post : SseTransport Frame :=
  if t.readyState = .closed then t
  else { t with
    outbound := []
    posts := t.posts ++ [⟨t.sessionId, t.cachedPassword, t.outbound⟩]
    postSeq := t.postSeq + 1
    downstreamWatchdog := true
    inFlightPost := some (t.postSeq + 1)
    readers := update t.readers (t.postSeq + 1) ⟨.fetching, [], sseReader.init⟩ }

/-- `flush`: it waits for the request in flight, if there is one. -/
def flush : SseTransport Frame :=
  if t.readyState = .closed then t
  else match t.inFlightPost with
    | none => t.post
    | some seq => { t with flushes := t.flushes ++ [seq] }

/-- A request is not in flight any more. -/
def settle (seq : ℕ) : SseTransport Frame :=
  if t.inFlightPost = some seq then { t with inFlightPost := none } else t

/-- A request is at another phase. -/
def turn (seq : ℕ) (phase : SsePhase) : SseTransport Frame :=
  { t with readers := update t.readers seq { t.readers seq with phase := phase } }

/-- What was read of a response, and the events of it that are dispatched. -/
def read (seq : ℕ) (reader : SseReader) (evs : List SseEvent) : SseTransport Frame :=
  { t with
    readers := update t.readers seq reader
    toSseDownstream := t.dispatchAll outside seq evs }

/-- `consumeStream`, on a chunk; the watchdog is armed on the latest response only. -/
def consume (seq : ℕ) (bytes : List UInt8) : SseTransport Frame :=
  have fed := sseReader.feed (t.readers seq).state bytes
  { t with downstreamWatchdog := t.downstreamWatchdog || seq = t.postSeq }.read outside seq
    ⟨.reading, (t.readers seq).received ++ bytes, fed.2⟩ fed.1

/-- The latest response is lost. -/
def lose (seq : ℕ) : SseTransport Frame := if seq = t.postSeq then t.close else t

end Functions

/-- What happens to a transport. -/
inductive Label (Frame : Type)
  | send (frame : Frame)
  | authenticate (password : List Char)
  | close
  /-- The flush that is due begins. -/
  | timer
  /-- A flush has waited long enough: the request that it waits for has been answered, or some
  seconds have passed. -/
  | resume (i : ℕ)
  | watchdog
  /-- A request is answered. -/
  | headers (seq : ℕ)
  /-- A request fails, or is refused. -/
  | failed (seq : ℕ)
  | chunk (seq : ℕ) (bytes : List UInt8)
  | eof (seq : ℕ)
  /-- Reading a response fails. -/
  | error (seq : ℕ)

/-- Whether something can happen. -/
def enabled (t : SseTransport Frame) : Label Frame → Bool
  | .send _ | .authenticate _ => t.readyState ≠ .closed
  | .close => true
  | .timer => t.flushTimer
  | .resume i => i < t.flushes.length
  | .watchdog => t.downstreamWatchdog
  | .headers seq | .failed seq => (t.readers seq).phase = .fetching
  | .chunk seq _ | .eof seq | .error seq => (t.readers seq).phase = .reading

/-- What it does. -/
def perform (outside : SseOutside) (t : SseTransport Frame) : Label Frame → SseTransport Frame
  | .send frame => t.send frame
  | .authenticate password => t.authenticate password
  | .close | .watchdog => t.close
  | .timer => { t with flushTimer := false }.flush
  | .resume i => { t with flushes := t.flushes.eraseIdx i }.post
  | .headers seq => (t.turn seq .reading).settle seq
  | .failed seq => (t.turn seq .failed).close.settle seq
  | .chunk seq bytes =>
    if t.readyState = .closed then t.turn seq .failed else t.consume outside seq bytes
  | .eof seq =>
    if t.readyState = .closed then t.turn seq .ended
    else (t.read outside seq { t.readers seq with phase := .ended } (t.readers seq).tail).lose seq
  | .error seq => (t.turn seq .failed).lose seq

/-- The transport under its users, its timers and the network, in any order. -/
def machine (outside : SseOutside) : Machine (SseTransport Frame) (Label Frame) where
  step t a := if t.enabled a then some (t.perform outside a) else none

end SseTransport

/-! ### What the listeners are told -/

/-- An event that announces a session. -/
def announces (ev : SseEvent) : Bool := ev.event = "session".toList

/-- The messages among some events, from the first session on. -/
def messages (evs : List SseEvent) : List (List Char) :=
  (evs.dropWhile (!announces ·)).filterMap forwardedMessage

/-- The named events are not forwarded. -/
theorem forwardedMessage_named {ev : SseEvent}
    (h : ev.event = "session".toList ∨ ev.event = "close".toList) : forwardedMessage ev = none := by
  have hname : ¬(ev.event = [] ∨ ev.event = "message".toList) := by
    rcases h with h | h <;> rw [h] <;> decide
  rw [forwardedMessage, if_neg hname]

/-- One more event. -/
theorem messages_append (before : List SseEvent) (ev : SseEvent) :
    messages (before ++ [ev]) = messages before ++
      if before.any announces then (forwardedMessage ev).toList else [] := by
  induction before with
  | nil =>
    by_cases hev : announces ev
    · simp [messages, hev, forwardedMessage_named (.inl (of_decide_eq_true hev))]
    · simp [messages, hev]
  | cons first before ih =>
    by_cases hfirst : announces first
    · have hall (rest) : messages (first :: rest) = (first :: rest).filterMap forwardedMessage := by
        rw [messages, dropWhile_cons_of_neg (by simp [hfirst])]
      rw [cons_append, hall, hall, ← cons_append, filterMap_append, if_pos (by simp [hfirst])]
      cases hmessage : forwardedMessage ev <;> simp [hmessage]
    · simpa [messages, hfirst] using ih

namespace SseDownstream

variable {o : SseOutside} {d d' : SseDownstream} {seq : ℕ} {evs : List SseEvent}

/-- The listeners were told of the messages dispatched, and the transport is open from the first
session on. -/
structure Heard (d : SseDownstream) : Prop where
  told : d.told.filterMap SseTold.message? = messages d.dispatched
  state : d.readyState = .connecting ∧ d.dispatched.any announces = false ∨
    d.readyState = .opened ∧ d.dispatched.any announces ∨ d.readyState = .closed

/-- What `d` goes on to after an event. -/
structure Goes (d d' : SseDownstream) : Prop where
  heard : Heard d'
  dispatched : d'.dispatched = d.dispatched
  last : d'.lastDispatchedSeq = d.lastDispatchedSeq
  opened : d'.readyState ≠ .closed → d'.flushTimer = d.flushTimer

theorem closed_shutdown (code : Option ℚ) (reason : Option (List Char)) :
    (d.shutdown code reason).readyState = .closed := by
  rw [shutdown]
  split_ifs with h
  · exact h
  · rfl

/-- A transport that is closed has told no more messages. -/
theorem goes_shutdown (h : d.told.filterMap SseTold.message? = messages d.dispatched)
    (code : Option ℚ) (reason : Option (List Char)) : d.Goes (d.shutdown code reason) := by
  have hclosed := d.closed_shutdown code reason
  rw [shutdown] at hclosed ⊢
  split_ifs with hd
  · exact ⟨⟨h, .inr (.inr hd)⟩, rfl, rfl, absurd hd⟩
  · refine ⟨⟨?_, .inr (.inr rfl)⟩, rfl, rfl, absurd rfl⟩
    rw [← h, filterMap_append]
    exact append_nil _

/-- What is told of is one of the messages, in a state that fits. -/
theorem goes_tell {w : SseTold}
    (htold : d.told.filterMap SseTold.message? ++ w.message?.toList = messages d.dispatched)
    (hstate : d.readyState = .opened ∧ d.dispatched.any announces) :
    d.Goes (d.tell o w) := by
  have h : { d with told := d.told ++ [w] }.told.filterMap SseTold.message? =
      messages d.dispatched := by
    rw [← htold, filterMap_append]
    cases w <;> rfl
  rw [tell]
  dsimp only
  split_ifs
  · have hgoes := goes_shutdown (d := { d with told := d.told ++ [w] }) h none none
    exact ⟨hgoes.heard, hgoes.dispatched, hgoes.last, absurd (closed_shutdown ..)⟩
  · exact ⟨⟨h, .inr (.inl hstate)⟩, rfl, rfl, fun _ => rfl⟩

theorem Heard.dispatchEvent_ (h : d.Heard) (hopen : d.readyState ≠ .closed) (last : ℕ)
    (ev : SseEvent) : Goes { d with
      lastDispatchedSeq := last
      dispatched := d.dispatched ++ [ev] } ({ d with
      lastDispatchedSeq := last
      dispatched := d.dispatched ++ [ev] }.dispatchEvent_ o ev) := by
  have hmessages := messages_append d.dispatched ev
  have hany : (d.dispatched ++ [ev]).any announces =
      (d.dispatched.any announces || announces ev) := by simp
  -- an event that is not told of
  have hquiet (hnone : d.dispatched.any announces → forwardedMessage ev = none) :
      d.told.filterMap SseTold.message? = messages (d.dispatched ++ [ev]) := by
    rw [hmessages, h.told]
    split_ifs with hany
    · simp [hnone hany]
    · exact (append_nil _).symm
  rw [SseDownstream.dispatchEvent_]
  dsimp only
  split_ifs with hsession hconnecting hclose hforwarded hstate
  · have hnone := hquiet fun _ => forwardedMessage_named (.inl hsession)
    have hgoes := goes_tell (o := o) (w := .opened) (d := { d with
      readyState := .opened
      sessionId := some ev.data
      lastDispatchedSeq := last
      dispatched := d.dispatched ++ [ev] }) (by rw [← hnone]; exact append_nil _)
      ⟨rfl, by rw [hany, announces, decide_eq_true hsession, Bool.or_true]⟩
    exact ⟨hgoes.heard, hgoes.dispatched, hgoes.last, hgoes.opened⟩
  · refine ⟨⟨hquiet fun _ => forwardedMessage_named (.inl hsession), .inr (.inl ⟨?_, ?_⟩)⟩, rfl,
      rfl, fun _ => rfl⟩
    · exact ((h.state.resolve_left fun hs => hconnecting hs.1).resolve_right hopen).1
    · rw [hany, announces, decide_eq_true hsession, Bool.or_true]
  · exact goes_shutdown (hquiet fun _ => forwardedMessage_named (.inr hclose)) _ _
  · have hs := h.state.resolve_right fun hs => hs.elim (hstate ·.1) hopen
    refine ⟨⟨hquiet fun hsome => ?_, .inl ⟨hs.1, ?_⟩⟩, rfl, rfl, fun _ => rfl⟩
    · rw [hs.2] at hsome
      cases hsome
    · rw [hany, hs.2, announces, decide_eq_false hsession, Bool.or_false]
  · have hs := (h.state.resolve_left fun hs => hstate (by simp [hs.1])).resolve_right hopen
    refine goes_tell ?_ ⟨hs.1, by rw [hany, hs.2, Bool.true_or]⟩
    rw [hmessages, if_pos hs.2, h.told, forwardedMessage, if_pos hforwarded]
    rfl
  · refine ⟨⟨hquiet fun _ => if_neg hforwarded, ?_⟩, rfl, rfl, fun _ => rfl⟩
    rw [hany, announces, decide_eq_false hsession, Bool.or_false]
    exact h.state

/-- What the events of a chunk do to an open transport: unless the first one is behind, they are
dispatched until it is closed. -/
structure Dispatch (seq : ℕ) (evs : List SseEvent) (d d' : SseDownstream) : Prop where
  heard : d'.Heard
  opened : d'.readyState ≠ .closed → d'.flushTimer = d.flushTimer
  done : ∃ done, done <+: evs ∧ d'.dispatched = d.dispatched ++ done ∧
    (done ≠ [] → d.lastDispatchedSeq ≤ seq) ∧ (d'.readyState ≠ .closed →
      done = evs ∧ d'.lastDispatchedSeq = if evs = [] then d.lastDispatchedSeq else seq)

theorem dispatchAll_closed (h : d.readyState = .closed) (seq : ℕ) (evs : List SseEvent) :
    d.dispatchAll o seq evs = d := by
  induction evs with
  | nil => rfl
  | cons ev evs ih =>
    rw [dispatchAll, foldl_cons, dispatchOrderedEvent, if_pos h]
    exact ih

theorem dispatch_dispatchAll (h : d.Heard) (hopen : d.readyState ≠ .closed) (seq : ℕ)
    (evs : List SseEvent) : Dispatch seq evs d (d.dispatchAll o seq evs) := by
  induction evs generalizing d with
  | nil => exact ⟨h, fun _ => rfl,
      ⟨[], prefix_rfl, (append_nil _).symm, (absurd rfl ·), fun _ => ⟨rfl, rfl⟩⟩⟩
  | cons ev evs ih =>
    show Dispatch _ _ _ ((d.dispatchOrderedEvent o seq ev).dispatchAll o seq evs)
    rw [dispatchOrderedEvent, if_neg hopen]
    split_ifs with hbehind
    · have hgoes := goes_shutdown h.told none none
      have hclosed := d.closed_shutdown none none
      rw [dispatchAll_closed hclosed]
      exact ⟨hgoes.heard, absurd hclosed, ⟨[], nil_prefix, hgoes.dispatched.trans
        (append_nil _).symm, (absurd rfl ·), absurd hclosed⟩⟩
    · have hseq := Nat.le_of_not_lt hbehind
      have hgoes := h.dispatchEvent_ (o := o) hopen seq ev
      generalize SseDownstream.dispatchEvent_ o _ ev = d₁ at hgoes
      by_cases hclosed : d₁.readyState = .closed
      · rw [dispatchAll_closed hclosed]
        exact ⟨hgoes.heard, absurd hclosed, ⟨[ev], ⟨evs, rfl⟩, hgoes.dispatched, fun _ => hseq,
          absurd hclosed⟩⟩
      · have hrest := ih hgoes.heard hclosed
        generalize d₁.dispatchAll o seq evs = d₂ at hrest
        obtain ⟨done, hdone, hdispatched, -, hall⟩ := hrest.done
        refine ⟨hrest.heard, fun ho => (hrest.opened ho).trans (hgoes.opened hclosed),
          ⟨ev :: done, (prefix_cons_inj ev).2 hdone, ?_, fun _ => hseq, fun ho => ⟨?_, ?_⟩⟩⟩
        · rw [hdispatched, hgoes.dispatched, append_assoc]
          rfl
        · rw [(hall ho).1]
        · rw [(hall ho).2, hgoes.last, ite_self]
          rfl

end SseDownstream

namespace SseTransport

open SseDownstream

variable {o : SseOutside} {t t' : SseTransport Frame} {seq : ℕ} {evs : List SseEvent}

/-! ### What the responses bring -/

/-- The events of what has come of a response. -/
def events (reader : SseReader) : List SseEvent :=
  (sseReader.feed sseReader.init reader.received).1 ++
    if reader.phase = .ended then reader.tail else []

/-- The events of the responses, one response after the other. -/
def brought (t : SseTransport Frame) : List SseEvent :=
  (range' 1 t.postSeq).flatMap fun seq => events (t.readers seq)

/-- More comes at one place, and nothing has come behind it. -/
theorem flatMap_range'_grow {β : Type} {n k : ℕ} (hk : 0 < k) (hn : k ≤ n) {f g : ℕ → List β}
    {more : List β} (hother : ∀ i, i ≠ k → g i = f i) (hmore : g k = f k ++ more)
    (hafter : ∀ i, k < i → f i = []) :
    (range' 1 n).flatMap g = (range' 1 n).flatMap f ++ more := by
  obtain ⟨m, rfl⟩ := Nat.exists_eq_add_of_le hn
  obtain ⟨j, rfl⟩ := Nat.exists_eq_succ_of_ne_zero (Nat.ne_of_gt hk)
  have hsplit : range' 1 (j + 1 + m) = range' 1 j ++ (j + 1) :: range' (j + 2) m := by
    rw [Nat.add_assoc, ← range'_append_1, Nat.add_comm 1 m, range'_succ, Nat.add_comm 1 j]
  have hbefore : (range' 1 j).flatMap g = (range' 1 j).flatMap f :=
    flatMap_congr fun i hi => hother i (by simp only [mem_range'_1] at hi; omega)
  have hnone (h) (hh : ∀ i, j + 1 < i → h i = []) : (range' (j + 2) m).flatMap h = ([] : List β) :=
    flatMap_eq_nil_iff.2 fun i hi => hh i (by simp only [mem_range'_1] at hi; omega)
  rw [hsplit, flatMap_append, flatMap_append, flatMap_cons, flatMap_cons, hbefore, hmore,
    hnone f hafter, hnone g fun i hi => (hother i (by omega)).trans (hafter i hi)]
  simp

/-- A request that was made, if any, is one of the first `n`, and its decoder and parser are where
what it has received leaves them. -/
def Sound (n seq : ℕ) (reader : SseReader) : Prop :=
  (reader.phase ≠ .unsent → 0 < seq ∧ seq ≤ n) ∧
    reader.state = (sseReader.feed sseReader.init reader.received).2

/-- What holds between two steps. -/
structure Inv (t : SseTransport Frame) : Prop where
  heard : t.Heard
  sound : ∀ seq, Sound t.postSeq seq (t.readers seq)
  sublist : t.dispatched <+ t.brought
  opened : t.readyState ≠ .closed → t.dispatched = t.brought ∧
    ∀ seq, t.lastDispatchedSeq < seq → events (t.readers seq) = []

theorem splits_sseReader : sseReader.Splits := splits_textDecoder.comp SseParser.splits_parse

/-- Nothing comes of a response that has brought nothing. -/
theorem events_nothing {reader : SseReader} (hreceived : reader.received = [])
    (hstate : reader.state = sseReader.init) : events reader = [] := by
  have htail : reader.tail = [] := by
    rw [SseReader.tail, hstate]
    rfl
  rw [events, hreceived, splits_sseReader.init, htail, ite_self, append_nil]

theorem inv_start : (start : SseTransport Frame).Inv where
  heard := ⟨rfl, .inl ⟨rfl, rfl⟩⟩
  sound _ := ⟨absurd rfl, by rw [start, splits_sseReader.init]⟩
  sublist := Sublist.slnil
  opened _ := ⟨rfl, fun _ _ => events_nothing rfl rfl⟩

theorem Inv.close (h : t.Inv) : t.close.Inv :=
  have hgoes := goes_shutdown h.heard.told none none
  ⟨hgoes.heard, h.sound, hgoes.dispatched.symm ▸ h.sublist, absurd (closed_shutdown ..)⟩

/-- A request that is made has brought nothing. -/
theorem Inv.post (h : t.Inv) : t.post.Inv := by
  rw [SseTransport.post]
  split_ifs with hclosed
  · exact h
  · have hbrought : (range' 1 (t.postSeq + 1)).flatMap (fun seq => events
        (update t.readers (t.postSeq + 1) ⟨.fetching, [], sseReader.init⟩ seq)) = t.brought := by
      rw [range'_1_concat, flatMap_append, flatMap_singleton, Nat.add_comm 1, update_self,
        events_nothing rfl rfl, append_nil]
      refine flatMap_congr fun seq hseq => congrArg events (update_of_ne ?_ ..)
      simp only [mem_range'_1] at hseq
      omega
    refine ⟨⟨h.heard.told, h.heard.state⟩, (forall_update_iff _ (Sound (t.postSeq + 1))).2
      ⟨⟨fun _ => ⟨Nat.succ_pos _, Nat.le_refl _⟩, by rw [splits_sseReader.init]⟩, fun seq _ =>
        (h.sound seq).imp_left fun hsent hphase =>
          (hsent hphase).imp_right (Nat.le_trans · (Nat.le_succ _))⟩,
      h.sublist.trans (hbrought ▸ Sublist.refl _), fun hopen => ?_⟩
    obtain ⟨hall, hafter⟩ := h.opened hopen
    exact ⟨hall.trans hbrought.symm, (forall_update_iff _ fun seq reader =>
      t.lastDispatchedSeq < seq → events reader = []).2
        ⟨fun _ => events_nothing rfl rfl, fun seq _ => hafter seq⟩⟩

/-- More has come of a response, and is dispatched if the transport is open. -/
theorem Inv.read (h : t.Inv) (hphase : (t.readers seq).phase ≠ .unsent) {reader : SseReader}
    (hstate : reader.state = (sseReader.feed sseReader.init reader.received).2)
    {more : List SseEvent} (hevents : events reader = events (t.readers seq) ++ more)
    (hmore : t.readyState ≠ .closed → evs = more) : (t.read o seq reader evs).Inv := by
  obtain ⟨hseq, hn⟩ := (h.sound seq).1 hphase
  have hgrow : ∀ k, events (t.readers k) <+: events (update t.readers seq reader k) :=
    (forall_update_iff _ fun k reader => events (t.readers k) <+: events reader).2
      ⟨⟨more, hevents.symm⟩, fun _ _ => prefix_rfl⟩
  have hsound := (forall_update_iff t.readers (Sound t.postSeq)).2
    ⟨⟨fun _ => (h.sound seq).1 hphase, hstate⟩, fun k _ => h.sound k⟩
  have hsublist : t.brought <+ (t.read o seq reader evs).brought :=
    Sublist.flatMap_right _ fun k _ => (hgrow k).sublist
  by_cases hclosed : t.readyState = .closed
  · have hsame := dispatchAll_closed (o := o) hclosed seq evs
    rw [SseTransport.read, hsame] at hsublist ⊢
    exact ⟨h.heard, hsound, h.sublist.trans hsublist, absurd hclosed⟩
  obtain rfl := hmore hclosed
  obtain ⟨hall, hafter⟩ := h.opened hclosed
  have hbrought (hbehind : evs ≠ [] → t.lastDispatchedSeq ≤ seq) :
      (t.read o seq reader evs).brought = t.brought ++ evs := by
    rcases eq_or_ne evs [] with rfl | hne
    · refine (flatMap_congr fun k _ => ?_).trans (append_nil _).symm
      exact (forall_update_iff _ fun k reader => events reader = events (t.readers k)).2
        ⟨hevents.trans (append_nil _), fun _ _ => rfl⟩ k
    · exact flatMap_range'_grow hseq hn (fun k hk => congrArg events (update_of_ne hk ..))
        ((congrArg events (update_self ..)).trans hevents) fun k hk => hafter k
          (Nat.lt_of_le_of_lt (hbehind hne) hk)
  have hdispatch := dispatch_dispatchAll (o := o) h.heard hclosed seq evs
  obtain ⟨done, hdone, hdispatched, hbehind, hlast⟩ := hdispatch.done
  refine ⟨hdispatch.heard, hsound, ?_, fun ho => ?_⟩
  · rcases eq_or_ne done [] with rfl | hne
    · rw [append_nil] at hdispatched
      exact hdispatched ▸ h.sublist.trans hsublist
    · rw [hbrought fun _ => hbehind hne, ← hall]
      exact hdispatched ▸ (Sublist.refl _).append hdone.sublist
  · obtain ⟨rfl, hlast⟩ := hlast ho
    refine ⟨by rw [hbrought hbehind, ← hall, ← hdispatched]; rfl, fun k hk => ?_⟩
    rw [SseTransport.read, hlast] at hk
    show events (update t.readers seq reader k) = []
    rcases eq_or_ne k seq with rfl | hne
    · split_ifs at hk with hnil
      · rw [update_self, hevents, hnil, append_nil, hafter k hk]
      · exact absurd hk (Nat.lt_irrefl k)
    · rw [update_of_ne hne]
      split_ifs at hk with hnil
      · exact hafter k hk
      · exact hafter k (Nat.lt_of_le_of_lt (hbehind hnil) hk)

/-- A request is at another phase, and nothing is dispatched for it. -/
theorem Inv.turn (h : t.Inv) (hphase : (t.readers seq).phase = .fetching ∨
    (t.readers seq).phase = .reading) {phase : SsePhase}
    (hquiet : t.readyState ≠ .closed → phase ≠ .ended) : (t.turn seq phase).Inv := by
  have hevents : events { t.readers seq with phase := phase } = events (t.readers seq) ++
      if phase = .ended then (t.readers seq).tail else [] := by
    have hended : (t.readers seq).phase ≠ .ended := fun hended => by simp [hended] at hphase
    rw [events.eq_1 (t.readers seq), if_neg hended, append_nil]
    rfl
  have hread : (t.read ⟨fun _ => false, fun _ => (none, none)⟩ seq
      { t.readers seq with phase := phase } []).Inv :=
    h.read (fun hunsent => by simp [hunsent] at hphase) (h.sound seq).2 hevents fun hopen =>
      (if_neg (hquiet hopen)).symm
  exact hread

theorem Inv.lose (h : t.Inv) (seq : ℕ) : (t.lose seq).Inv := by
  rw [SseTransport.lose]
  split_ifs
  · exact h.close
  · exact h

theorem Inv.settle (h : t.Inv) (seq : ℕ) : (t.settle seq).Inv := by
  rw [SseTransport.settle]
  split_ifs <;> exact ⟨h.heard, h.sound, h.sublist, h.opened⟩

theorem Inv.step {a : Label Frame} (h : t.Inv) (hst : (machine o).step t a = some t') :
    t'.Inv := by
  obtain ⟨hon, hst⟩ := Option.ite_none_right_eq_some.1 hst
  cases hst
  cases a with
  | send frame | authenticate password =>
    exact ⟨⟨h.heard.told, h.heard.state⟩, h.sound, h.sublist, h.opened⟩
  | close | watchdog => exact h.close
  | timer =>
    have hoff : { t with flushTimer := false }.Inv :=
      ⟨⟨h.heard.told, h.heard.state⟩, h.sound, h.sublist, h.opened⟩
    show (flush _).Inv
    rw [flush]
    split_ifs
    · exact hoff
    · split
      · exact hoff.post
      · exact ⟨hoff.heard, hoff.sound, hoff.sublist, hoff.opened⟩
  | resume i => exact Inv.post ⟨h.heard, h.sound, h.sublist, h.opened⟩
  | headers seq => exact (h.turn (.inl (of_decide_eq_true hon)) fun _ => by decide).settle seq
  | failed seq => exact (h.turn (.inl (of_decide_eq_true hon)) fun _ => by decide).close.settle seq
  | chunk seq bytes =>
    have hphase : (t.readers seq).phase = .reading := of_decide_eq_true hon
    rw [perform]
    split_ifs with hclosed
    · exact h.turn (.inr hphase) fun _ => by decide
    · have happend := splits_sseReader.append sseReader.init (t.readers seq).received bytes
      have harmed : { t with downstreamWatchdog := t.downstreamWatchdog || seq = t.postSeq }.Inv :=
        ⟨⟨h.heard.told, h.heard.state⟩, h.sound, h.sublist, h.opened⟩
      refine harmed.read (by simp [hphase]) ?_ ?_ fun _ => rfl
      · rw [happend, (h.sound seq).2]
      · simp [events, happend, (h.sound seq).2, hphase]
  | eof seq =>
    have hphase : (t.readers seq).phase = .reading := of_decide_eq_true hon
    rw [perform]
    split_ifs with hclosed
    · exact h.turn (.inr hphase) (absurd hclosed)
    · refine Inv.lose ?_ seq
      refine h.read (by simp [hphase]) (h.sound seq).2 ?_ fun _ => rfl
      simp [events, hphase, SseReader.tail]
  | error seq => exact (h.turn (.inr (of_decide_eq_true hon)) fun _ => by decide).lose seq

/-- What an open transport has told its listeners is what the responses have brought, one response
after the other, from the first session on; a closed one has told them nothing else. -/
theorem Inv.told (h : t.Inv) :
    t.told.filterMap SseTold.message? <+ t.brought.filterMap forwardedMessage ∧
      (t.readyState ≠ .closed → t.told.filterMap SseTold.message? = messages t.brought) := by
  rw [h.heard.told]
  refine ⟨?_, fun hopen => by rw [(h.opened hopen).1]⟩
  exact ((dropWhile_sublist _).trans h.sublist).filterMap _

/-- What a response brings. -/
theorem feed_responseBytes (writes : List SseWrite) :
    (sseReader.feed sseReader.init (responseBytes writes)).1 = writes.filterMap sseEvent ∧
      ∃ seen, (sseReader.feed sseReader.init (responseBytes writes)).2 = ((.start, seen), []) := by
  obtain ⟨seen, hdecode⟩ := textDecoder_response writes
  have hparse : SseParser.parse.feed SseParser.parse.init (writes.flatMap SseWrite.wire) =
      (writes.filterMap sseEvent, []) := parseBlocks_wires _
  simp only [sseReader, Transducer.comp, hdecode, hparse]
  exact ⟨trivial, seen, rfl⟩

/-- Listeners that close nothing. -/
def quiet : SseOutside := ⟨fun _ => false, fun _ => (none, none)⟩

/-- The session and a message. -/
def greeting : List SseWrite := [.retry, .session ['s'], .send ['a']]

/-- A transport whose first response has brought a chunk. -/
def chunked (bytes : List UInt8) : SseTransport ℕ :=
  ((start.perform quiet .timer).perform quiet (.headers 1)).perform quiet (.chunk 1 bytes)

theorem reachable_chunked (bytes : List UInt8) :
    (machine quiet).Reachable start (chunked bytes) :=
  have hrun : (machine quiet).run start [.timer, .headers 1, .chunk 1 bytes] =
    some (chunked bytes) := rfl
  Machine.reachable_of_run hrun

/-- The transport reads the responses of a session: each brings what was written to it, in full if
it comes to its end, and the requests came to the session in the order they were made in. -/
structure Carried (t : SseTransport Frame) (r : SseRun) : Prop where
  received : ∀ seq, (t.readers seq).received <+: responseBytes (r.session.written (seq - 1))
  ended : ∀ seq, (t.readers seq).phase = .ended →
    (t.readers seq).received = responseBytes (r.session.written (seq - 1))
  attached : ∀ seq, (t.readers seq).received ≠ [] → seq - 1 ∈ r.before ++ [r.current]
  order : (r.before ++ [r.current]).Pairwise (· < ·)

/-- A response brings no event that was not written to it. -/
theorem events_prefix {reader : SseReader} {writes : List SseWrite}
    (hstate : reader.state = (sseReader.feed sseReader.init reader.received).2)
    (hreceived : reader.received <+: responseBytes writes)
    (hended : reader.phase = .ended → reader.received = responseBytes writes) :
    events reader <+: writes.filterMap sseEvent := by
  obtain ⟨hfeed, seen, hend⟩ := feed_responseBytes writes
  rw [events]
  split_ifs with hphase
  · have htail : reader.tail = [] := by
      rw [SseReader.tail, hstate, hended hphase, hend]
      rfl
    simp [htail, hended hphase, hfeed]
  · obtain ⟨rest, hrest⟩ := hreceived
    rw [append_nil, ← hfeed, ← hrest, splits_sseReader.append]
    exact prefix_append _ _

/-- Lists are put together along places in order. -/
theorem flatMap_sublist {β : Type} {l l' : List ℕ} {f g : ℕ → List β} (hl : l.Pairwise (· < ·))
    (hl' : l'.Pairwise (· < ·)) (hmem : ∀ i, f i ≠ [] → i ∈ l') (hfg : ∀ i, f i <+ g i) :
    l.flatMap f <+ l'.flatMap g := by
  have hfilter : l.flatMap f = (l.filter (f · ≠ [])).flatMap f := by
    induction l with
    | nil => rfl
    | cons i l ih => by_cases hi : f i = [] <;> simp [hi, ih (pairwise_cons.1 hl).2]
  have hsub : l.filter (f · ≠ []) ⊆ l' := fun i hi => hmem i (of_decide_eq_true (mem_filter.1 hi).2)
  have hsorted := hl.filter (f · ≠ [])
  rw [hfilter]
  exact ((sublist_of_subperm_of_pairwise (subperm_of_subset hsorted.nodup hsub) hsorted
    hl').flatMap f).trans (Sublist.flatMap_right _ fun i _ => hfg i)

/-- **No message is told that the session did not say**, nor twice, nor in another order, however
its responses are read side by side; and a transport that is still open has told all that they
have brought, one response after the other. -/
theorem told_said (h : (machine o).Reachable start t) {r : SseRun} {sid : List Char}
    (hr : SseRun.machine.Reachable (.start sid) r) (hcarried : t.Carried r) :
    t.told.filterMap SseTold.message? <+ r.said.filterMap forwardedMessage ∧
      (t.readyState ≠ .closed → t.told.filterMap SseTold.message? = messages t.brought) := by
  have hinv : t.Inv := h.invariant inv_start fun _ _ _ ht hst => ht.step hst
  have hsaid := (hr.invariant (SseRun.inv_start sid) fun _ _ _ hr hst => hr.step hst).said
  refine hinv.told.imp_left fun htold => htold.trans (Sublist.filterMap _ ?_)
  have hwritten (res : ℕ) := events_prefix (hinv.sound (1 + res)).2 (hcarried.received _)
    (hcarried.ended _)
  simp only [Nat.add_sub_cancel_left] at hwritten
  rw [← hsaid, SseRun.events, brought, range'_eq_map_range, flatMap_map]
  refine flatMap_sublist pairwise_lt_range hcarried.order (fun res hres => ?_) fun res =>
    (hwritten res).sublist
  have hattached := hcarried.attached (1 + res)
  rw [Nat.add_sub_cancel_left] at hattached
  refine hattached fun hnone => hres (events_nothing hnone ?_)
  rw [(hinv.sound _).2, hnone, splits_sseReader.init]

/-- The session says one message, and it is told. -/
theorem told_said_greeting : ∃ r, SseRun.machine.run (.start ['s']) [.send ['a']] = some r ∧
    (chunked (responseBytes greeting)).told.filterMap SseTold.message? <+
      r.said.filterMap forwardedMessage ∧
    (chunked (responseBytes greeting)).told.filterMap SseTold.message? = [['a']] := by
  have hrun : SseRun.machine.run (.start ['s']) [.send ['a']] = some _ := rfl
  have hother (seq : ℕ) (hne : seq ≠ 1) : (chunked (responseBytes greeting)).readers seq =
      ⟨.unsent, [], sseReader.init⟩ := by
    show update (update (update _ 1 _) 1 _) 1 _ seq = _
    rw [update_of_ne hne, update_of_ne hne, update_of_ne hne]
    rfl
  have hfeed := (feed_responseBytes greeting).1
  refine ⟨_, hrun, (told_said (reachable_chunked _) (Machine.reachable_of_run hrun)
    ⟨fun seq => ?_, fun seq => ?_, fun seq => ?_, pairwise_singleton _ _⟩).imp_right fun htold =>
      (htold ?_).trans ?_⟩
  case refine_4 =>
    show (dispatchAll quiet _ 1 (sseReader.feed sseReader.init
      (responseBytes greeting)).1).readyState ≠ .closed
    rw [hfeed]
    nofun
  case refine_5 =>
    show messages ((sseReader.feed sseReader.init (responseBytes greeting)).1 ++ [] ++ []) = _
    rw [hfeed]
    rfl
  all_goals rcases eq_or_ne seq 1 with rfl | hne
  · exact prefix_rfl
  · exact hother seq hne ▸ nil_prefix
  · nofun
  · rw [hother seq hne]
    nofun
  · exact fun _ => mem_singleton_self 0
  · rw [hother seq hne]
    exact absurd rfl

/-! ### What the transport sends -/

/-- What was sent is posted or is to be, and then a flush is due or waits. -/
structure Posted (t : SseTransport Frame) : Prop where
  sent : t.posts.flatMap SseBody.frames ++ t.outbound = t.sent
  due : t.readyState ≠ .closed → t.outbound ≠ [] → t.flushTimer = true ∨ t.flushes ≠ []

theorem Posted.close (h : t.posts.flatMap SseBody.frames ++ t.outbound = t.sent) :
    t.close.Posted :=
  ⟨h, absurd (closed_shutdown ..)⟩

theorem Posted.post (h : t.posts.flatMap SseBody.frames ++ t.outbound = t.sent) :
    t.post.Posted := by
  rw [SseTransport.post]
  split_ifs with hclosed
  · exact ⟨h, absurd hclosed⟩
  · refine ⟨?_, fun _ => absurd rfl⟩
    rw [← h, flatMap_append, append_nil]
    simp

theorem Posted.lose (h : t.Posted) (seq : ℕ) : (t.lose seq).Posted := by
  rw [SseTransport.lose]
  split_ifs
  · exact Posted.close h.sent
  · exact h

theorem Posted.settle (h : t.Posted) (seq : ℕ) : (t.settle seq).Posted := by
  rw [SseTransport.settle]
  split_ifs <;> exact ⟨h.sent, h.due⟩

/-- A dispatch that leaves the transport open leaves its timer. -/
theorem Posted.read (h : t.Posted) (hheard : t.Heard) (hopen : t.readyState ≠ .closed)
    (seq : ℕ) (reader : SseReader) (evs : List SseEvent) :
    (t.read o seq reader evs).Posted := by
  have hdispatch := dispatch_dispatchAll (o := o) hheard hopen seq evs
  refine ⟨h.sent, fun ho hne => ?_⟩
  show (t.dispatchAll o seq evs).flushTimer = true ∨ _
  rw [hdispatch.opened ho]
  exact h.due hopen hne

theorem Posted.step {a : Label Frame} (h : t.Posted) (hheard : t.Heard)
    (hst : (machine o).step t a = some t') : t'.Posted := by
  obtain ⟨hon, hst⟩ := Option.ite_none_right_eq_some.1 hst
  cases hst
  cases a with
  | send frame =>
    refine ⟨?_, fun _ _ => .inl rfl⟩
    show t.posts.flatMap SseBody.frames ++ (t.outbound ++ [frame]) = t.sent ++ [frame]
    rw [← append_assoc, h.sent]
  | authenticate password => exact ⟨h.sent, fun _ _ => .inl rfl⟩
  | close | watchdog => exact Posted.close h.sent
  | timer =>
    show (flush _).Posted
    rw [flush]
    split_ifs with hclosed
    · exact ⟨h.sent, absurd hclosed⟩
    · split
      · exact Posted.post h.sent
      · exact ⟨h.sent, fun _ _ => .inr (by simp)⟩
  | resume i => exact Posted.post h.sent
  | headers seq => exact Posted.settle (t := t.turn seq .reading) ⟨h.sent, h.due⟩ seq
  | failed seq => exact Posted.settle (Posted.close (t := t.turn seq .failed) h.sent) seq
  | chunk seq bytes =>
    rw [perform]
    split_ifs with hclosed
    · exact ⟨h.sent, h.due⟩
    · exact Posted.read (t := { t with
        downstreamWatchdog := t.downstreamWatchdog || seq = t.postSeq }) ⟨h.sent, h.due⟩
        ⟨hheard.told, hheard.state⟩ hclosed _ _ _
  | eof seq =>
    rw [perform]
    split_ifs with hclosed
    · exact ⟨h.sent, h.due⟩
    · exact (h.read hheard hclosed _ _ _).lose seq
  | error seq => exact Posted.lose (t := t.turn seq .failed) ⟨h.sent, h.due⟩ seq

/-- **What is sent is posted once and in order**, whatever happens to the transport, and while it is
open a flush is to come for what was not posted. -/
theorem sent_posted (h : (machine o).Reachable start t) :
    t.posts.flatMap SseBody.frames ++ t.outbound = t.sent ∧
      (t.readyState ≠ .closed → t.outbound ≠ [] → t.flushTimer = true ∨ t.flushes ≠ []) := by
  have hposted := h.invariant (I := fun t => t.Inv ∧ t.Posted)
    ⟨inv_start, rfl, fun _ => absurd rfl⟩
    fun _ _ _ ht hst => ⟨ht.1.step hst, ht.2.step ht.1.heard hst⟩
  exact ⟨hposted.2.sent, hposted.2.due⟩

/-- One frame is posted, and one is to be. -/
theorem sent_posted_two : ∃ t : SseTransport ℕ,
    (machine quiet).run start [.send 7, .timer, .send 8] = some t ∧
      t.posts.flatMap SseBody.frames ++ t.outbound = [7, 8] :=
  have hrun : (machine quiet).run (start : SseTransport ℕ) [.send 7, .timer, .send 8] = some _ :=
    rfl
  ⟨_, hrun, (sent_posted (Machine.reachable_of_run hrun)).1⟩

end SseTransport

end Triage.Sync
