import Triage.Machine.Basic
import Mathlib

/-!
# Pausing and flushing broadcasts

The hub sends a broadcast to every socket that is joined to its key, or holds it back while the
socket's broadcasts are paused. Pauses nest: each `pauseBroadcasts` hands out a closure that
releases it once, and the last release sends what was held back. A buffer that exceeds its cap
terminates the socket.

## Main results

* `FlowSocket.Carries` : an operation keeps what it was told to send, in order.
* `hub_pause_flush` : what a socket was told is sent once and in order, not during a pause, unless
  it leaves, closes or overflows.
* `held_bytes_le` : what is held back for a socket is within the cap.
-/

namespace Triage.Relay

open List Option Function

/-- A broadcast's payload, with its number; the number is not on the wire. -/
structure FlowPayload where
  number : ℕ
  text : String
  deriving DecidableEq, Repr

open FlowPayload

/-- `Buffer.byteLength` -/
def FlowPayload.byteLength (p : FlowPayload) : ℕ := p.text.utf8ByteSize

/-- What was sent on a socket: a broadcast, or a message to it alone. -/
inductive FlowFrame
  | broadcast (payload : FlowPayload)
  | message (text : String)
  deriving DecidableEq, Repr

def FlowFrame.number? : FlowFrame → Option ℕ
  | .broadcast payload => some payload.number
  | .message _ => none

/-- What a pause holds back. -/
structure Pending where
  depth : ℕ
  payloads : List FlowPayload
  bytes : ℕ
  deriving DecidableEq, Repr

/-- A socket and what the hub keeps for it. -/
structure FlowSocket where
  /-- `readyState === OPEN` -/
  isOpen : Bool
  /-- `terminate()` was called, which the hub does where a buffer exceeds its cap. -/
  terminated : Bool
  /-- The keys in `Peer.tags`, while the peer is registered. -/
  tags : Option (Finset String)
  /-- The socket's entry of `paused`, one of `pendings`. -/
  paused : Option ℕ
  /-- The objects that pauses of this socket have made. -/
  pendings : List Pending
  /-- The closures handed out: the object each refers to, and whether it was called. -/
  releases : List (ℕ × Bool)
  sent : List FlowFrame
  deriving DecidableEq

namespace FlowSocket

/-- A socket that has just connected. -/
def connected : FlowSocket := ⟨true, false, some ∅, none, [], [], []⟩

variable (cap : ℕ) (k : FlowSocket)

/-- The numbers of the broadcasts sent. -/
def broadcasts : List ℕ := k.sent.filterMap FlowFrame.number?

/-- The payloads held back. -/
def payloads : List FlowPayload :=
  (k.paused.bind fun i => k.pendings[i]?).elim [] Pending.payloads

/-- Their numbers. -/
def held : List ℕ := k.payloads.map FlowPayload.number

/-- `terminate` -/
def terminate : FlowSocket := { k with isOpen := false, terminated := true }

/-- `sendRaw`, where `amount` is `bufferedAmount`. -/
def sendRaw (amount : ℕ) (frame : FlowFrame) : FlowSocket :=
  if !k.isOpen then k
  else if cap < amount then k.terminate
  else { k with sent := k.sent ++ [frame] }

/-- The pending object changes. -/
def onPending (i : ℕ) (f : Pending → Pending) : FlowSocket :=
  { k with pendings := k.pendings.modify i f }

/-- `pauseBroadcasts` -/
def pauseBroadcasts : FlowSocket :=
  match k.paused with
  | none =>
    { k with
      paused := some k.pendings.length
      pendings := k.pendings ++ [⟨1, [], 0⟩]
      releases := k.releases ++ [(k.pendings.length, false)] }
  | some i =>
    { k with
      pendings := k.pendings.modify i fun z => { z with depth := z.depth + 1 }
      releases := k.releases ++ [(i, false)] }

/-- The loop of a release; `amounts` is what `bufferedAmount` is before each payload. -/
def flush (amounts : ℕ → ℕ) : ℕ → List FlowPayload → FlowSocket → FlowSocket
  | _, [], k => k
  | i, p :: ps, k => flush amounts (i + 1) ps (k.sendRaw cap (amounts i) (.broadcast p))

/-- The last release of a pending object that is the socket's. -/
def drain (amounts : ℕ → ℕ) (i : ℕ) : FlowSocket :=
  (flush cap amounts 0 k.payloads { k with paused := none }).onPending i
    fun z => { z with payloads := [] }

/-- The `j`-th closure is called. -/
def release (amounts : ℕ → ℕ) (j : ℕ) : FlowSocket :=
  match k.releases[j]? with
  | none => k
  | some (_, true) => k
  | some (i, false) =>
    let k' := { k.onPending i fun z => { z with depth := z.depth - 1 } with
      releases := k.releases.set j (i, true) }
    if 0 < (k'.pendings[i]?.elim 0 Pending.depth) ∨ k'.paused ≠ some i then k'
    else k'.drain cap amounts i

/-- `fanOut` for one subscriber. -/
def fanOut (amount : ℕ) (payload : FlowPayload) : FlowSocket :=
  match k.paused with
  | none => k.sendRaw cap amount (.broadcast payload)
  | some i =>
    let k' := k.onPending i fun z => { z with bytes := z.bytes + payload.byteLength }
    if cap < (k'.pendings[i]?.elim 0 Pending.bytes) then
      { k'.onPending i fun z => { z with payloads := [] } with paused := none }.terminate
    else k'.onPending i fun z => { z with payloads := z.payloads ++ [payload] }

/-- `unsubscribeAll`, for the pause. -/
def unsubscribeAll : FlowSocket :=
  match k.paused with
  | none => k
  | some i => { k.onPending i fun z => { z with payloads := [] } with paused := none }

/-- `subscribe`, for the peer. -/
def subscribe (tag : String) : FlowSocket := { k with tags := k.tags.map (insert tag) }

end FlowSocket

open FlowSocket

/-- The sockets, the subscribers of each key in the order in which they joined, and the number of
broadcasts so far. -/
structure FlowState where
  sockets : ℕ → FlowSocket
  subscribers : String → List ℕ
  count : ℕ

/-- What happens next.  `bufferedAmount` is what the network makes it. -/
inductive FlowLabel
  | subscribe (k : ℕ) (tag : String)
  | pauseBroadcasts (k : ℕ)
  /-- The `j`-th closure that pauses of the socket handed out is called. -/
  | release (k j : ℕ) (amounts : ℕ → ℕ)
  /-- `broadcast`, or `broadcastLocalRaw` without an originator. -/
  | broadcast (tag : String) (text : String) (except : Option ℕ) (amounts : ℕ → ℕ)
  | send (k : ℕ) (text : String) (amount : ℕ)
  | unsubscribeAll (k : ℕ)
  /-- The peer of a closed socket is dropped. -/
  | unregister (k : ℕ)
  /-- The socket closes, by either side. -/
  | close (k : ℕ)

namespace FlowState

variable (cap : ℕ) (s : FlowState)

def init : FlowState := ⟨fun _ => .connected, fun _ => [], 0⟩

def onSocket (k : ℕ) (f : FlowSocket → FlowSocket) : FlowState :=
  { s with sockets := update s.sockets k (f (s.sockets k)) }

/-- `fanOut` over a snapshot of the subscribers. -/
def fanOut (set : List ℕ) (payload : FlowPayload) (except : Option ℕ) (amounts : ℕ → ℕ) :
    FlowState :=
  set.foldl (fun s k =>
    if except = some k then s else s.onSocket k fun socket => socket.fanOut cap (amounts k) payload)
    s

/-- `unsubscribeAll`: the pause, then the keys of the registered peer. -/
def unsubscribeAll (k : ℕ) : FlowState :=
  let s' := s.onSocket k FlowSocket.unsubscribeAll
  match (s'.sockets k).tags with
  | none => s'
  | some tags =>
    { s' with
      subscribers := fun tag =>
        if tag ∈ tags then (s'.subscribers tag).erase k else s'.subscribers tag }

def step (s : FlowState) : FlowLabel → Option FlowState
  | .subscribe k tag =>
    some { s.onSocket k (·.subscribe tag) with
      subscribers := update s.subscribers tag
        (if k ∈ s.subscribers tag then s.subscribers tag else s.subscribers tag ++ [k]) }
  | .pauseBroadcasts k => some (s.onSocket k FlowSocket.pauseBroadcasts)
  | .release k j amounts =>
    if j < (s.sockets k).releases.length then
      some (s.onSocket k fun socket => socket.release cap amounts j)
    else none
  | .broadcast tag text except amounts =>
    some { s.fanOut cap (s.subscribers tag) ⟨s.count, text⟩ except amounts with
      count := s.count + 1 }
  | .send k text amount =>
    some (s.onSocket k fun socket => socket.sendRaw cap amount (.message text))
  | .unsubscribeAll k => some (s.unsubscribeAll k)
  | .unregister k => some (s.onSocket k fun socket => { socket with tags := none })
  | .close k => some (s.onSocket k fun socket => { socket with isOpen := false })

end FlowState

/-- The hub with any number of sockets and keys. -/
def flowMachine (cap : ℕ) : Machine FlowState FlowLabel := ⟨FlowState.step cap⟩

/-! ### One socket -/

namespace FlowSocket

variable {cap : ℕ} {k k' k'' : FlowSocket}

/-- **What a socket was told is kept, in order**: unless it ends up closed, it was open, and what it
has sent and holds back grows by what it was told. -/
def Carries (k : FlowSocket) (told : List ℕ) (k' : FlowSocket) : Prop :=
  k'.isOpen = true → k.isOpen = true ∧ k'.broadcasts ++ k'.held = k.broadcasts ++ k.held ++ told

theorem Carries.refl (k : FlowSocket) : k.Carries [] k :=
  fun hopen => ⟨hopen, (append_nil _).symm⟩

variable {told' : List ℕ} {amount j : ℕ} {amounts : ℕ → ℕ} {ps : List FlowPayload}
  {f : Pending → Pending} {p : FlowPayload} {told : List ℕ}

theorem Carries.trans (h : k.Carries told k') (h' : k'.Carries told' k'') :
    k.Carries (told ++ told') k'' := by
  intro hopen
  obtain ⟨hopen', hsent'⟩ := h' hopen
  obtain ⟨hopen'', hsent⟩ := h hopen'
  refine ⟨hopen'', ?_⟩
  rw [hsent', hsent, append_assoc]

/-- The operation changes nothing that is sent or held back. -/
theorem Carries.of_eq (hopen : k'.isOpen = true → k.isOpen = true)
    (hsent : k'.broadcasts = k.broadcasts) (hheld : k'.held = k.held) : k.Carries [] k' := by
  intro h
  refine ⟨hopen h, ?_⟩
  rw [hsent, hheld, append_nil]

/-! #### Sending -/

@[simp] theorem paused_sendRaw (amount : ℕ) (frame : FlowFrame) :
    (k.sendRaw cap amount frame).paused = k.paused := by
  rw [sendRaw]
  split_ifs <;> rfl

@[simp] theorem pendings_sendRaw (amount : ℕ) (frame : FlowFrame) :
    (k.sendRaw cap amount frame).pendings = k.pendings := by
  rw [sendRaw]
  split_ifs <;> rfl

@[simp] theorem releases_sendRaw (amount : ℕ) (frame : FlowFrame) :
    (k.sendRaw cap amount frame).releases = k.releases := by
  rw [sendRaw]
  split_ifs <;> rfl

theorem held_sendRaw (amount : ℕ) (frame : FlowFrame) :
    (k.sendRaw cap amount frame).held = k.held := by
  rw [held, payloads, paused_sendRaw, pendings_sendRaw, held, payloads]

/-- A socket that is still open has sent the frame. -/
theorem sendRaw_of_open {frame : FlowFrame} (h : (k.sendRaw cap amount frame).isOpen = true) :
    k.isOpen = true ∧ (k.sendRaw cap amount frame).broadcasts =
      k.broadcasts ++ frame.number?.toList := by
  rcases hopen : k.isOpen with _ | _
  · simp [sendRaw, hopen] at h
  · by_cases hfull : cap < amount
    · simp [sendRaw, hopen, hfull, terminate] at h
    · refine ⟨rfl, ?_⟩
      rw [sendRaw, hopen, Bool.not_true, if_neg Bool.false_ne_true, if_neg hfull, broadcasts,
        filterMap_append]
      cases frame <;> rfl

/-- Sending adds a frame or none. -/
theorem broadcasts_sendRaw (cap amount : ℕ) (frame : FlowFrame) :
    (k.sendRaw cap amount frame).broadcasts = k.broadcasts ∨
      (k.sendRaw cap amount frame).broadcasts = k.broadcasts ++ frame.number?.toList := by
  rw [sendRaw]
  split_ifs
  · exact .inl rfl
  · exact .inl rfl
  · refine .inr ?_
    rw [broadcasts, filterMap_append]
    cases frame <;> rfl

theorem open_of_sendRaw {frame : FlowFrame} (h : k.isOpen = true ∨ k.terminated = true) :
    (k.sendRaw cap amount frame).isOpen = true ∨
      (k.sendRaw cap amount frame).terminated = true := by
  rw [sendRaw]
  split_ifs
  · exact h
  · exact .inr rfl
  · exact h

/-! #### Flushing -/

/-- What sending does to the rest of a socket. -/
theorem flush_frame (cap : ℕ) (amounts : ℕ → ℕ) (i : ℕ) (ps : List FlowPayload) (k : FlowSocket) :
    (flush cap amounts i ps k).paused = k.paused ∧
      (flush cap amounts i ps k).pendings = k.pendings ∧
      (flush cap amounts i ps k).releases = k.releases := by
  induction ps generalizing i k with
  | nil => exact ⟨rfl, rfl, rfl⟩
  | cons p ps ih =>
    obtain ⟨hpaused, hpendings, hreleases⟩ := ih (i + 1) (k.sendRaw cap (amounts i)
      (.broadcast p))
    rw [flush, hpaused, hpendings, hreleases]
    exact ⟨paused_sendRaw .., pendings_sendRaw .., releases_sendRaw ..⟩

variable {i : ℕ}

/-- A socket that is still open has sent all of them. -/
theorem flush_of_open {k : FlowSocket} (h : (flush cap amounts i ps k).isOpen = true) :
    k.isOpen = true ∧ (flush cap amounts i ps k).broadcasts = k.broadcasts ++ ps.map number := by
  induction ps generalizing i k with
  | nil => exact ⟨h, (append_nil _).symm⟩
  | cons p ps ih =>
    obtain ⟨hopen, hsent⟩ := ih h
    obtain ⟨hopen', hsent'⟩ := sendRaw_of_open hopen
    refine ⟨hopen', ?_⟩
    rw [flush, hsent, hsent', append_assoc]
    rfl

/-- Whether it is or not, it has sent some of them in order. -/
theorem broadcasts_flush (amounts : ℕ → ℕ) (i : ℕ) (ps : List FlowPayload) (k : FlowSocket) :
    ∃ qs, qs.Sublist (ps.map number) ∧
      (flush cap amounts i ps k).broadcasts = k.broadcasts ++ qs := by
  induction ps generalizing i k with
  | nil => exact ⟨[], .slnil, (append_nil _).symm⟩
  | cons p ps ih =>
    obtain ⟨qs, hqs, hsent⟩ := ih (i + 1) (k.sendRaw cap (amounts i) (.broadcast p))
    rcases broadcasts_sendRaw (k := k) cap (amounts i) (.broadcast p) with heq | heq
    · exact ⟨qs, hqs.cons _, by rw [flush, hsent, heq]⟩
    · exact ⟨p.number :: qs, hqs.cons_cons _, by rw [flush, hsent, heq, append_assoc]; rfl⟩

theorem open_of_flush {k : FlowSocket} (h : k.isOpen = true ∨ k.terminated = true) :
    (flush cap amounts i ps k).isOpen = true ∨ (flush cap amounts i ps k).terminated = true := by
  induction ps generalizing i k with
  | nil => exact h
  | cons p ps ih => exact ih (open_of_sendRaw h)

/-! #### Pending objects -/

/-- A pending object's depth is the number of its closures that were not called. -/
structure Counted (k : FlowSocket) : Prop where
  depth : ∀ i z, k.pendings[i]? = some z → z.depth = k.releases.count (i, false)
  current : ∀ i, k.paused = some i → i < k.pendings.length ∧ 0 < k.releases.count (i, false)
  range : ∀ r ∈ k.releases, r.1 < k.pendings.length

theorem counted_connected : connected.Counted where
  depth i z h := by cases h
  current i h := by cases h
  range r h := by cases h

/-- The count reads these fields alone. -/
theorem Counted.congr (h : k.Counted) (hpendings : k'.pendings = k.pendings)
    (hreleases : k'.releases = k.releases) (hpaused : k'.paused = k.paused) : k'.Counted where
  depth := by rw [hpendings, hreleases]; exact h.depth
  current := by rw [hpendings, hreleases, hpaused]; exact h.current
  range := by rw [hpendings, hreleases]; exact h.range

theorem Counted.onPending (h : k.Counted)
    (hf : ∀ z, (f z).depth = z.depth) : (k.onPending i f).Counted where
  depth j z hz := by
    rw [FlowSocket.onPending, getElem?_modify] at hz
    obtain ⟨y, hy, rfl⟩ := map_eq_some_iff.mp hz
    have hdepth := h.depth j y hy
    split
    · rw [hf, hdepth]
      rfl
    · exact hdepth
  current j hj := by
    rw [FlowSocket.onPending, length_modify]
    exact h.current j hj
  range r hr := by
    rw [FlowSocket.onPending, length_modify]
    exact h.range r hr

theorem Counted.unpaused (h : k.Counted) : ({ k with paused := none } : FlowSocket).Counted where
  depth := h.depth
  current i hi := by cases hi
  range := h.range

theorem payloads_onPending (hf : ∀ z, (f z).payloads = z.payloads) :
    (k.onPending i f).payloads = k.payloads := by
  rw [payloads, payloads, onPending]
  rcases k.paused with _ | j
  · rfl
  · rw [bind_some, bind_some, getElem?_modify]
    rcases k.pendings[j]? with _ | z
    · rfl
    · by_cases hij : i = j
      · simp [hij, hf]
      · simp [hij]

/-- What is held back when the pending object is the socket's. -/
theorem payloads_of_paused (hpaused : k.paused = some i) :
    k.payloads = k.pendings[i]?.elim [] Pending.payloads := by
  rw [payloads, hpaused, bind_some]

/-! #### Pauses -/

/-- The `j`-th closure was called. -/
def Released (j : ℕ) (k : FlowSocket) : Prop := ∃ i, k.releases[j]? = some (i, true)

/-- The `j`-th closure was not called, and refers to the pause that the socket is under. -/
def Holding (j : ℕ) (k : FlowSocket) : Prop :=
  ∃ i, k.paused = some i ∧ k.releases[j]? = some (i, false)

/-- What an operation other than leaving does: what was told is kept in order, and nothing is sent
under a pause that lasts. -/
structure Flows (k : FlowSocket) (told : List ℕ) (k' : FlowSocket) : Prop where
  carries : k.Carries told k'
  released : ∀ j, k.Released j → k'.Released j
  holding : ∀ j, k.Holding j → k'.isOpen = true →
    k'.Released j ∨ (k'.Holding j ∧ k'.broadcasts = k.broadcasts)

theorem Flows.refl (k : FlowSocket) : k.Flows [] k :=
  ⟨.refl k, fun _ h => h, fun _ h _ => .inr ⟨h, rfl⟩⟩

theorem Flows.trans (h : k.Flows told k') (h' : k'.Flows told' k'') :
    k.Flows (told ++ told') k'' where
  carries := h.carries.trans h'.carries
  released j hj := h'.released j (h.released j hj)
  holding j hj hopen := by
    rcases h.holding j hj (h'.carries hopen).1 with hrel | ⟨hhold, hsent⟩
    · exact .inl (h'.released j hrel)
    · rcases h'.holding j hhold hopen with hrel | ⟨hhold', hsent'⟩
      · exact .inl hrel
      · exact .inr ⟨hhold', hsent'.trans hsent⟩

/-- An operation that leaves the pause as it is. -/
theorem Flows.of_same (hcarries : k.Carries told k')
    (hreleases : k'.releases = k.releases) (hpaused : k'.isOpen = true → k'.paused = k.paused)
    (hsent : k'.isOpen = true → k.paused ≠ none → k'.broadcasts = k.broadcasts) :
    k.Flows told k' where
  carries := hcarries
  released j hj := by rwa [Released, hreleases]
  holding j hj hopen := by
    obtain ⟨i, hi, hj'⟩ := hj
    refine .inr ⟨⟨i, (hpaused hopen).trans hi, by rwa [hreleases]⟩, hsent hopen ?_⟩
    rw [hi]
    exact some_ne_none i

theorem flows_message (amount : ℕ) (text : String) :
    k.Flows [] (k.sendRaw cap amount (.message text)) := by
  have hsame : (k.sendRaw cap amount (.message text)).isOpen = true →
      (k.sendRaw cap amount (.message text)).broadcasts = k.broadcasts := by
    intro hopen
    rw [(sendRaw_of_open hopen).2]
    exact append_nil _
  refine .of_same ?_ (releases_sendRaw ..) (fun _ => paused_sendRaw ..) fun hopen _ => hsame hopen
  intro hopen
  refine ⟨(sendRaw_of_open hopen).1, ?_⟩
  rw [hsame hopen, held_sendRaw, append_nil]

theorem pauseBroadcasts_none (h : k.paused = none) :
    k.pauseBroadcasts =
      { k with
        paused := some k.pendings.length
        pendings := k.pendings ++ [⟨1, [], 0⟩]
        releases := k.releases ++ [(k.pendings.length, false)] } := by
  cases k
  cases h
  rfl

theorem pauseBroadcasts_some (h : k.paused = some i) :
    k.pauseBroadcasts =
      { k.onPending i fun z => { z with depth := z.depth + 1 } with
        releases := k.releases ++ [(i, false)] } := by
  cases k
  cases h
  rfl

/-- A pause hands out a closure. -/
theorem releases_pauseBroadcasts :
    ∃ i, k.pauseBroadcasts.paused = some i ∧
      k.pauseBroadcasts.releases = k.releases ++ [(i, false)] := by
  rcases hpaused : k.paused with _ | i
  · rw [pauseBroadcasts_none hpaused]
    exact ⟨_, rfl, rfl⟩
  · rw [pauseBroadcasts_some hpaused]
    exact ⟨i, hpaused, rfl⟩

theorem held_pauseBroadcasts : k.pauseBroadcasts.held = k.held := by
  rcases hpaused : k.paused with _ | i
  · rw [pauseBroadcasts_none hpaused, held, held, payloads, payloads, hpaused, bind_some,
      getElem?_concat_length]
    rfl
  · rw [pauseBroadcasts_some hpaused]
    exact congrArg (List.map number) (payloads_onPending (k := k) (i := i)
      (f := fun z => { z with depth := z.depth + 1 }) fun _ => rfl)

/-- **A pause has begun** under the closure that was handed out. -/
theorem holding_pauseBroadcasts : k.pauseBroadcasts.Holding k.releases.length := by
  obtain ⟨i, hpaused, hreleases⟩ := k.releases_pauseBroadcasts
  refine ⟨i, hpaused, ?_⟩
  rw [hreleases, getElem?_concat_length]

theorem pauseBroadcasts_frame : k.pauseBroadcasts.isOpen = k.isOpen ∧
    k.pauseBroadcasts.sent = k.sent ∧ k.pauseBroadcasts.terminated = k.terminated := by
  rcases hpaused : k.paused with _ | i
  · rw [pauseBroadcasts_none hpaused]
    exact ⟨rfl, rfl, rfl⟩
  · rw [pauseBroadcasts_some hpaused]
    exact ⟨rfl, rfl, rfl⟩

theorem flows_pauseBroadcasts : k.Flows [] k.pauseBroadcasts := by
  obtain ⟨hopen, hsent, -⟩ := k.pauseBroadcasts_frame
  obtain ⟨i, hpaused, hreleases⟩ := k.releases_pauseBroadcasts
  have hbroadcasts : k.pauseBroadcasts.broadcasts = k.broadcasts := by
    rw [broadcasts, hsent, broadcasts]
  have hkept : ∀ {j : ℕ} {r : ℕ × Bool}, k.releases[j]? = some r →
      k.pauseBroadcasts.releases[j]? = some r := by
    intro j r hj
    rw [hreleases, getElem?_append_left (List.getElem?_eq_some_iff.mp hj).1, hj]
  refine ⟨.of_eq (fun h => hopen ▸ h) hbroadcasts held_pauseBroadcasts, ?_, ?_⟩
  · rintro j ⟨i', hj⟩
    exact ⟨i', hkept hj⟩
  · rintro j ⟨i', hi, hj⟩ -
    refine .inr ⟨⟨i', ?_, hkept hj⟩, hbroadcasts⟩
    rw [pauseBroadcasts_some hi]
    exact hi

theorem Counted.pauseBroadcasts (h : k.Counted) : k.pauseBroadcasts.Counted := by
  rcases hpaused : k.paused with _ | i
  · rw [pauseBroadcasts_none hpaused]
    have hnew : k.releases.count (k.pendings.length, false) = 0 := by
      refine count_eq_zero.mpr fun hmem => ?_
      exact absurd (h.range _ hmem) (lt_irrefl _)
    refine ⟨?_, ?_, ?_⟩
    · intro j z hz
      rcases Nat.lt_trichotomy j k.pendings.length with hj | rfl | hj
      · rw [getElem?_append_left hj] at hz
        rw [h.depth j z hz, count_append, count_singleton]
        simp [Nat.ne_of_gt hj]
      · rw [getElem?_concat_length] at hz
        cases hz
        rw [count_append, hnew]
        simp
      · have hlen := (List.getElem?_eq_some_iff.mp hz).1
        rw [length_append, length_singleton] at hlen
        omega
    · rintro j hj
      cases hj
      rw [count_append, hnew]
      simp
    · intro r hr
      rw [length_append, length_singleton]
      rcases mem_append.mp hr with hr | hr
      · exact Nat.lt_succ_of_lt (h.range r hr)
      · rw [mem_singleton.mp hr]
        exact Nat.lt_succ_self _
  · rw [pauseBroadcasts_some hpaused]
    refine ⟨?_, ?_, ?_⟩
    · intro j z hz
      rw [FlowSocket.onPending, getElem?_modify] at hz
      obtain ⟨y, hy, rfl⟩ := map_eq_some_iff.mp hz
      have hdepth := h.depth j y hy
      rw [count_append, count_singleton]
      by_cases hij : i = j
      · subst hij
        simp [hdepth]
      · simp [hij, hdepth]
    · intro j hj
      obtain ⟨hlt, hpos⟩ := h.current j hj
      rw [FlowSocket.onPending, length_modify, count_append]
      exact ⟨hlt, Nat.add_pos_left hpos _⟩
    · intro r hr
      rw [FlowSocket.onPending, length_modify]
      rcases mem_append.mp hr with hr | hr
      · exact h.range r hr
      · rw [mem_singleton.mp hr]
        exact (h.current i hpaused).1

/-! #### Releases -/

/-- A closure is called for the first time, before the flush. -/
def called (k : FlowSocket) (j i : ℕ) : FlowSocket :=
  { k.onPending i fun z => { z with depth := z.depth - 1 } with
    releases := k.releases.set j (i, true) }

theorem release_eq (hj : k.releases[j]? = some (i, false)) :
    k.release cap amounts j =
      if 0 < ((k.called j i).pendings[i]?.elim 0 Pending.depth) ∨ (k.called j i).paused ≠ some i
      then k.called j i else (k.called j i).drain cap amounts i := by
  rw [release, hj]
  rfl

theorem count_called (hj : k.releases[j]? = some (i, false)) (i' : ℕ) :
    (k.called j i).releases.count (i', false) =
      k.releases.count (i', false) - if i = i' then 1 else 0 := by
  obtain ⟨hlt, hget⟩ := List.getElem?_eq_some_iff.mp hj
  have hset := count_set (a := (i, true)) (b := (i', false)) hlt
  rw [hget] at hset
  rw [called, hset]
  by_cases hi : i = i'
  · simp [hi]
  · simp [hi]

/-- The depths after the call, and what they count. -/
theorem depth_called (h : k.Counted) (hj : k.releases[j]? = some (i, false)) (i' : ℕ)
    (z : Pending) (hz : (k.called j i).pendings[i']? = some z) :
    z.depth = (k.called j i).releases.count (i', false) := by
  rw [count_called hj]
  rw [called, onPending, getElem?_modify] at hz
  obtain ⟨y, hy, rfl⟩ := map_eq_some_iff.mp hz
  have hdepth := h.depth i' y hy
  by_cases hi : i = i'
  · simp [hi, hdepth]
  · simp [hi, hdepth]

theorem range_called (h : k.Counted) (hj : k.releases[j]? = some (i, false)) :
    ∀ r ∈ (k.called j i).releases, r.1 < (k.called j i).pendings.length := by
  intro r hr
  rw [called, onPending, length_modify]
  rcases mem_or_eq_of_mem_set hr with hr | rfl
  · exact h.range r hr
  · exact h.range (i, false) (mem_of_getElem? hj)

/-- The pause goes on exactly if closures of it are left. -/
theorem pending_called (h : k.Counted) (hj : k.releases[j]? = some (i, false)) :
    (k.called j i).pendings[i]?.elim 0 Pending.depth =
      (k.called j i).releases.count (i, false) := by
  have hlt : i < (k.called j i).pendings.length := by
    rw [called, onPending, length_modify]
    exact h.range (i, false) (mem_of_getElem? hj)
  have hz := getElem?_eq_getElem hlt
  rw [hz]
  exact depth_called h hj i _ hz

theorem Counted.drain
    (hdepth : ∀ i z, k.pendings[i]? = some z → z.depth = k.releases.count (i, false))
    (hrange : ∀ r ∈ k.releases, r.1 < k.pendings.length) : (k.drain cap amounts i).Counted := by
  have hbase : ({ k with paused := none } : FlowSocket).Counted :=
    ⟨hdepth, fun i hi => (by cases hi), hrange⟩
  obtain ⟨hpaused, hpendings, hreleases⟩ :=
    flush_frame cap amounts 0 k.payloads { k with paused := none }
  exact (hbase.congr hpendings hreleases hpaused).onPending fun _ => rfl

theorem Counted.release (h : k.Counted) (amounts : ℕ → ℕ) (j : ℕ) :
    (k.release cap amounts j).Counted := by
  rcases hj : k.releases[j]? with _ | ⟨i, _ | _⟩
  · rw [FlowSocket.release, hj]
    exact h
  · rw [release_eq hj]
    split
    · rename_i hmore
      refine ⟨depth_called h hj, ?_, range_called h hj⟩
      intro i' hi'
      obtain ⟨hlt, hpos⟩ := h.current i' hi'
      refine ⟨by rwa [called, FlowSocket.onPending, length_modify], ?_⟩
      by_cases hii : i = i'
      · subst hii
        rcases hmore with hmore | hmore
        · rwa [pending_called h hj] at hmore
        · exact absurd hi' hmore
      · rw [count_called hj, if_neg hii]
        exact hpos
    · exact .drain (depth_called h hj) (range_called h hj)
  · rw [FlowSocket.release, hj]
    exact h

theorem held_unpaused (hpaused : k.paused = none) : k.held = [] := by
  rw [held, payloads, hpaused]
  rfl

/-- A drained socket that is still open has sent what it held back. -/
theorem drain_of_open (hopen : (k.drain cap amounts i).isOpen = true) :
    k.isOpen = true ∧ (k.drain cap amounts i).broadcasts = k.broadcasts ++ k.held :=
  flush_of_open (k := { k with paused := none }) hopen

theorem drain_frame (cap : ℕ) (amounts : ℕ → ℕ) (i : ℕ) :
    (k.drain cap amounts i).paused = none ∧ (k.drain cap amounts i).releases = k.releases := by
  obtain ⟨hpaused, -, hreleases⟩ := flush_frame cap amounts 0 k.payloads { k with paused := none }
  exact ⟨hpaused, hreleases⟩

theorem carries_drain : k.Carries [] (k.drain cap amounts i) := by
  intro hopen
  obtain ⟨hopen', hsent⟩ := drain_of_open hopen
  refine ⟨hopen', ?_⟩
  rw [hsent, held_unpaused (drain_frame cap amounts i).1]

theorem held_called (j i : ℕ) : (k.called j i).held = k.held :=
  congrArg (List.map number) (payloads_onPending (k := k) (i := i)
    (f := fun z => { z with depth := z.depth - 1 }) fun _ => rfl)

theorem carries_called (j i : ℕ) : k.Carries [] (k.called j i) :=
  .of_eq id rfl (held_called j i)

/-- The called closure is released, and the others are as they were. -/
theorem getElem?_called (hj : k.releases[j]? = some (i, false)) (j' : ℕ) :
    (k.called j i).releases[j']? = if j' = j then some (i, true) else k.releases[j']? := by
  obtain ⟨hlt, -⟩ := List.getElem?_eq_some_iff.mp hj
  rw [called, getElem?_set]
  by_cases hjj : j' = j
  · subst hjj
    simp [hlt]
  · simp [hjj, Ne.symm hjj]

theorem flows_release (h : k.Counted) (amounts : ℕ → ℕ) (j : ℕ) :
    k.Flows [] (k.release cap amounts j) := by
  rcases hj : k.releases[j]? with _ | ⟨i, _ | _⟩
  · rw [release, hj]
    exact .refl k
  · have hreleased : ∀ j', k.Released j' → (k.called j i).Released j' := by
      rintro j' ⟨i', hj'⟩
      by_cases hjj : j' = j
      · exact ⟨i, by rw [getElem?_called hj, if_pos hjj]⟩
      · exact ⟨i', by rw [getElem?_called hj, if_neg hjj, hj']⟩
    rw [release_eq hj]
    split
    · refine ⟨carries_called j i, hreleased, ?_⟩
      rintro j' ⟨i', hi', hj'⟩ -
      by_cases hjj : j' = j
      · exact .inl ⟨i, by rw [getElem?_called hj, if_pos hjj]⟩
      · exact .inr ⟨⟨i', hi', by rw [getElem?_called hj, if_neg hjj, hj']⟩, rfl⟩
    · rename_i hdrain
      rw [not_or, not_not, pending_called h hj] at hdrain
      obtain ⟨-, hreleases⟩ := drain_frame (k := k.called j i) cap amounts i
      refine ⟨(carries_called j i).trans carries_drain, ?_, ?_⟩
      · rintro j' hj'
        rw [Released, hreleases]
        exact hreleased j' hj'
      · rintro j' ⟨i', hi', hj'⟩ -
        refine .inl ?_
        rw [Released, hreleases]
        by_cases hjj : j' = j
        · exact ⟨i, by rw [getElem?_called hj, if_pos hjj]⟩
        -- another closure of the same pause would have kept it
        · have hii : i' = i := some.inj (hi'.symm.trans hdrain.2)
          have hmem : (i, false) ∈ (k.called j i).releases := by
            refine mem_of_getElem? (i := j') ?_
            rw [getElem?_called hj, if_neg hjj, hj', hii]
          exact absurd (count_pos_iff.mpr hmem) hdrain.1
  · rw [release, hj]
    exact .refl k

/-- A flush on a closed socket sends nothing. -/
theorem flush_closed (cap : ℕ) (amounts : ℕ → ℕ) (i : ℕ) (ps : List FlowPayload) {k : FlowSocket}
    (hclosed : k.isOpen = false) : flush cap amounts i ps k = k := by
  induction ps generalizing i with
  | nil => rfl
  | cons p ps ih => rw [flush, sendRaw, hclosed, Bool.not_false, if_pos rfl, ih]

theorem broadcasts_drain (cap : ℕ) (amounts : ℕ → ℕ) (i : ℕ) :
    (k.drain cap amounts i).broadcasts = k.broadcasts ∨ (k.isOpen = true ∧
      ∃ qs, qs.Sublist k.held ∧ (k.drain cap amounts i).broadcasts = k.broadcasts ++ qs) := by
  rcases hopen : k.isOpen with _ | _
  · refine .inl ?_
    have hflush := flush_closed cap amounts 0 k.payloads (k := { k with paused := none }) hopen
    rw [drain, hflush]
    rfl
  · exact .inr ⟨rfl, broadcasts_flush amounts 0 k.payloads { k with paused := none }⟩

/-- A release sends some of what is held back, or nothing. -/
theorem broadcasts_release (cap : ℕ) (amounts : ℕ → ℕ) (j : ℕ) :
    (k.release cap amounts j).broadcasts = k.broadcasts ∨ (k.isOpen = true ∧
      ∃ qs, qs.Sublist k.held ∧ (k.release cap amounts j).broadcasts = k.broadcasts ++ qs) := by
  rcases hj : k.releases[j]? with _ | ⟨i, _ | _⟩
  · rw [release, hj]
    exact .inl rfl
  · rw [release_eq hj]
    split
    · exact .inl rfl
    · rcases broadcasts_drain (k := k.called j i) cap amounts i with heq | ⟨hopen, qs, hqs⟩
      · exact .inl heq
      · rw [held_called] at hqs
        exact .inr ⟨hopen, qs, hqs⟩
  · rw [release, hj]
    exact .inl rfl

theorem open_of_release (h : k.isOpen = true ∨ k.terminated = true) :
    (k.release cap amounts j).isOpen = true ∨ (k.release cap amounts j).terminated = true := by
  rcases hj : k.releases[j]? with _ | ⟨i, _ | _⟩
  · rw [release, hj]
    exact h
  · rw [release_eq hj]
    split
    · exact h
    · exact open_of_flush (k := { k.called j i with paused := none }) h
  · rw [release, hj]
    exact h

/-! #### Broadcasts -/

/-- The payload is counted. -/
def weighed (k : FlowSocket) (i : ℕ) (p : FlowPayload) : FlowSocket :=
  k.onPending i fun z => { z with bytes := z.bytes + p.byteLength }

theorem held_weighed (i : ℕ) (p : FlowPayload) : (k.weighed i p).held = k.held :=
  congrArg (List.map number) (payloads_onPending (k := k) (i := i)
    (f := fun z => { z with bytes := z.bytes + p.byteLength }) fun _ => rfl)

theorem fanOut_none (h : k.paused = none) :
    k.fanOut cap amount p = k.sendRaw cap amount (.broadcast p) := by
  cases k
  cases h
  rfl

theorem fanOut_some (h : k.paused = some i) :
    k.fanOut cap amount p =
      if cap < ((k.weighed i p).pendings[i]?.elim 0 Pending.bytes) then
        terminate { (k.weighed i p).onPending i fun z => { z with payloads := [] } with
          paused := none }
      else (k.weighed i p).onPending i fun z => { z with payloads := z.payloads ++ [p] } := by
  cases k
  cases h
  rfl

section

variable (h : k.Counted)
include h

theorem Counted.weighed (i : ℕ) (p : FlowPayload) : (k.weighed i p).Counted :=
  h.onPending fun _ => rfl

theorem Counted.fanOut (amount : ℕ) (p : FlowPayload) : (k.fanOut cap amount p).Counted := by
  rcases hpaused : k.paused with _ | i
  · rw [fanOut_none hpaused]
    exact h.congr (pendings_sendRaw ..) (releases_sendRaw ..) (paused_sendRaw ..)
  · rw [fanOut_some hpaused]
    split
    · have hcleared := (h.weighed i p).onPending (i := i) (f := fun z => { z with payloads := [] })
        fun _ => rfl
      exact ⟨hcleared.depth, fun i hi => (by cases hi), hcleared.range⟩
    · exact (h.weighed i p).onPending fun _ => rfl

/-- A payload that is pushed is held back last. -/
theorem held_pushed (hpaused : k.paused = some i) (p : FlowPayload) :
    (k.onPending i fun z => { z with payloads := z.payloads ++ [p] }).held =
      k.held ++ [p.number] := by
  have hlt := (h.current i hpaused).1
  have hz := getElem?_eq_getElem hlt
  have hpushed : (k.onPending i fun z => { z with payloads := z.payloads ++ [p] }).payloads =
      k.payloads ++ [p] := by
    rw [payloads_of_paused (k := k.onPending i _) hpaused, payloads_of_paused hpaused, onPending,
      getElem?_modify, hz]
    simp
  rw [held, held, hpushed, map_append]
  rfl

/-- A broadcast reaches the wire only where it is not held back. -/
theorem flows_fanOut (cap amount : ℕ) (p : FlowPayload) :
    k.Flows [p.number] (k.fanOut cap amount p) := by
  rcases hpaused : k.paused with _ | i
  · rw [fanOut_none hpaused]
    refine .of_same ?_ (releases_sendRaw ..) (fun _ => paused_sendRaw ..) fun _ hne =>
      absurd hpaused hne
    intro hopen
    obtain ⟨hk, hsent⟩ := sendRaw_of_open hopen
    refine ⟨hk, ?_⟩
    rw [hsent, held_sendRaw, held_unpaused hpaused, append_nil, append_nil]
    rfl
  · rw [fanOut_some hpaused]
    split
    -- the buffer exceeds its cap
    · exact ⟨fun hopen => (by cases hopen), fun _ hj => hj, fun _ _ hopen => (by cases hopen)⟩
    · refine .of_same ?_ rfl (fun _ => rfl) fun _ _ => rfl
      intro hopen
      refine ⟨hopen, ?_⟩
      rw [held_pushed (h.weighed i p) hpaused, held_weighed, ← append_assoc]
      rfl

end

theorem broadcasts_fanOut (cap amount : ℕ) (p : FlowPayload) :
    (k.fanOut cap amount p).broadcasts = k.broadcasts ∨ (k.isOpen = true ∧
      (k.fanOut cap amount p).broadcasts = k.broadcasts ++ [p.number]) := by
  rcases hpaused : k.paused with _ | i
  · rw [fanOut_none hpaused]
    rcases hopen : k.isOpen with _ | _
    · refine .inl ?_
      rw [sendRaw, hopen, Bool.not_false, if_pos rfl]
    · exact (broadcasts_sendRaw cap amount (.broadcast p)).imp_right fun h => ⟨rfl, h⟩
  · rw [fanOut_some hpaused]
    split <;> exact .inl rfl

theorem open_of_fanOut (h : k.isOpen = true ∨ k.terminated = true) :
    (k.fanOut cap amount p).isOpen = true ∨ (k.fanOut cap amount p).terminated = true := by
  rcases hpaused : k.paused with _ | i
  · rw [fanOut_none hpaused]
    exact open_of_sendRaw h
  · rw [fanOut_some hpaused]
    split
    · exact .inr rfl
    · exact h

/-! #### Leaving -/

theorem unsubscribeAll_frame : k.unsubscribeAll.isOpen = k.isOpen ∧
    k.unsubscribeAll.paused = none ∧ k.unsubscribeAll.sent = k.sent ∧
    k.unsubscribeAll.terminated = k.terminated := by
  rw [unsubscribeAll]
  rcases hpaused : k.paused with _ | i
  · exact ⟨rfl, hpaused, rfl, rfl⟩
  · exact ⟨rfl, rfl, rfl, rfl⟩

theorem Counted.unsubscribeAll (h : k.Counted) : k.unsubscribeAll.Counted := by
  rw [FlowSocket.unsubscribeAll]
  rcases k.paused with _ | i
  · exact h
  · have hcleared := h.onPending (i := i) (f := fun z => { z with payloads := [] }) fun _ => rfl
    exact hcleared.unpaused

/-! #### Any operation -/

/-- What a step of the hub other than leaving and closing does to a socket: the number of
broadcasts before it, and which of them it tells the socket while it is open. -/
inductive Moves (cap n : ℕ) : List ℕ → FlowSocket → FlowSocket → Prop
  | same {k : FlowSocket} : Moves cap n [] k k
  | subscribe {k : FlowSocket} (tag : String) : Moves cap n [] k (k.subscribe tag)
  | unregister {k : FlowSocket} : Moves cap n [] k { k with tags := none }
  | pauseBroadcasts {k : FlowSocket} : Moves cap n [] k k.pauseBroadcasts
  | release {k : FlowSocket} (amounts : ℕ → ℕ) (j : ℕ) :
      Moves cap n [] k (k.release cap amounts j)
  | message {k : FlowSocket} (amount : ℕ) (text : String) :
      Moves cap n [] k (k.sendRaw cap amount (.message text))
  | broadcast {k : FlowSocket} (amount : ℕ) (text : String) :
      Moves cap n (if k.isOpen then [n] else []) k (k.fanOut cap amount ⟨n, text⟩)

variable {n n' : ℕ} {told past : List ℕ}

theorem Moves.flows (hk : k.Counted) (h : Moves cap n told k k') : k.Flows told k' := by
  cases h with
  | same => exact .refl k
  | subscribe tag => exact .of_same (.of_eq id rfl rfl) rfl (fun _ => rfl) fun _ _ => rfl
  | unregister => exact .of_same (.of_eq id rfl rfl) rfl (fun _ => rfl) fun _ _ => rfl
  | pauseBroadcasts => exact flows_pauseBroadcasts
  | release amounts j => exact flows_release hk amounts j
  | message amount text => exact flows_message amount text
  | broadcast amount text =>
    have hflows := flows_fanOut hk cap amount ⟨n, text⟩
    rcases hopen : k.isOpen with _ | _
    -- a closed socket stays closed
    · refine ⟨fun hopen' => ?_, hflows.released, hflows.holding⟩
      exact absurd (hflows.carries hopen').1 (by rw [hopen]; exact Bool.false_ne_true)
    · exact hflows

theorem Moves.counted (hk : k.Counted) (h : Moves cap n told k k') : k'.Counted := by
  cases h with
  | same => exact hk
  | subscribe tag => exact hk.congr rfl rfl rfl
  | unregister => exact hk.congr rfl rfl rfl
  | pauseBroadcasts => exact hk.pauseBroadcasts
  | release amounts j => exact hk.release amounts j
  | message amount text =>
    exact hk.congr (pendings_sendRaw ..) (releases_sendRaw ..) (paused_sendRaw ..)
  | broadcast amount text => exact hk.fanOut amount _

/-- A socket closes only by being terminated. -/
theorem Moves.open (h : Moves cap n told k k') (hopen : k.isOpen = true ∨ k.terminated = true) :
    k'.isOpen = true ∨ k'.terminated = true := by
  cases h with
  | same => exact hopen
  | subscribe tag => exact hopen
  | unregister => exact hopen
  | pauseBroadcasts =>
    rw [k.pauseBroadcasts_frame.1, k.pauseBroadcasts_frame.2.2]
    exact hopen
  | release amounts j => exact open_of_release hopen
  | message amount text => exact open_of_sendRaw hopen
  | broadcast amount text => exact open_of_fanOut hopen

/-- What was sent to a socket, and on an open one what is held back, is of what it was told, in that
order; it was told of broadcasts before the `n`-th, each once. -/
structure Ordered (n : ℕ) (past : List ℕ) (k : FlowSocket) : Prop where
  counted : k.Counted
  increasing : past.Pairwise (· < ·)
  bound : ∀ m ∈ past, m < n
  sent : k.broadcasts.Sublist past
  held : k.isOpen = true → (k.broadcasts ++ k.held).Sublist past

theorem ordered_connected : connected.Ordered 0 [] :=
  ⟨counted_connected, .nil, fun _ h => absurd h not_mem_nil, .slnil, fun _ => .slnil⟩

/-- What was sent stays within what was told, in order, whatever becomes of the socket. -/
theorem Moves.sent (hk : k.Ordered n past) (h : Moves cap n told k k') :
    k'.broadcasts.Sublist (past ++ told) := by
  have hkept : ∀ {told}, k.broadcasts.Sublist (past ++ told) :=
    hk.sent.trans (sublist_append_left ..)
  cases h with
  | same => exact hkept
  | subscribe tag => exact hkept
  | unregister => exact hkept
  | pauseBroadcasts =>
    rw [broadcasts, k.pauseBroadcasts_frame.2.1]
    exact hkept
  | release amounts j =>
    rcases broadcasts_release (k := k) cap amounts j with heq | ⟨hopen, qs, hqs, heq⟩
    · rw [heq]
      exact hkept
    · rw [heq, append_nil]
      exact (hqs.append_left _).trans (hk.held hopen)
  | message amount text =>
    rcases broadcasts_sendRaw (k := k) cap amount (.message text) with heq | heq
    · rw [heq]
      exact hkept
    · rw [heq]
      exact (append_nil k.broadcasts).symm ▸ hkept
  | broadcast amount text =>
    rcases broadcasts_fanOut (k := k) cap amount ⟨n, text⟩ with heq | ⟨hopen, heq⟩
    · rw [heq]
      exact hkept
    · rw [heq, if_pos hopen]
      exact hk.sent.append_right _

theorem Moves.told_eq (h : Moves cap n told k k') : told = [] ∨ told = [n] := by
  cases h with
  | broadcast amount text =>
    split_ifs
    · exact .inr rfl
    · exact .inl rfl
  | _ => exact .inl rfl

section

variable (hk : k.Ordered n past)
include hk

/-- The order is kept. -/
theorem Ordered.moves (h : Moves cap n told k k') (hn : n ≤ n')
    (hnew : told ≠ [] → n' = n + 1) : k'.Ordered n' (past ++ told) := by
  refine ⟨h.counted hk.counted, ?_, ?_, h.sent hk, ?_⟩
  · rcases h.told_eq with rfl | rfl
    · rw [append_nil]
      exact hk.increasing
    · refine pairwise_append.mpr ⟨hk.increasing, pairwise_singleton _ _, ?_⟩
      intro m hm m' hm'
      rw [mem_singleton.mp hm']
      exact hk.bound m hm
  · intro m hm
    rcases mem_append.mp hm with hm | hm
    · exact lt_of_lt_of_le (hk.bound m hm) hn
    · rcases h.told_eq with rfl | rfl
      · exact absurd hm not_mem_nil
      · rw [mem_singleton.mp hm, hnew (cons_ne_nil _ _)]
        exact Nat.lt_succ_self n
  · intro hopen
    obtain ⟨hopen', hsent⟩ := (h.flows hk.counted).carries hopen
    rw [hsent]
    exact (hk.held hopen').append_right _

/-- Leaving drops what is held back. -/
theorem Ordered.unsubscribeAll : k.unsubscribeAll.Ordered n past := by
  obtain ⟨-, hpaused, hsent, -⟩ := k.unsubscribeAll_frame
  have hsame : k.unsubscribeAll.broadcasts.Sublist past := by
    rw [broadcasts, hsent]
    exact hk.sent
  refine ⟨hk.counted.unsubscribeAll, hk.increasing, hk.bound, hsame, fun _ => ?_⟩
  rw [held_unpaused hpaused, append_nil]
  exact hsame

theorem Ordered.mono (hn : n ≤ n') : k.Ordered n' past :=
  ⟨hk.counted, hk.increasing, fun m hm => lt_of_lt_of_le (hk.bound m hm) hn, hk.sent, hk.held⟩

theorem Ordered.close : ({ k with isOpen := false } : FlowSocket).Ordered n past :=
  ⟨hk.counted.congr rfl rfl rfl, hk.increasing, hk.bound, hk.sent, fun h => (by cases h)⟩

end

/-- A socket all of whose closures were called holds nothing back. -/
theorem held_of_released (hk : k.Counted)
    (h : ∀ j, j < k.releases.length → k.Released j) : k.held = [] := by
  rcases hpaused : k.paused with _ | i
  · exact held_unpaused hpaused
  · exfalso
    obtain ⟨j, hj⟩ := mem_iff_getElem?.mp (count_pos_iff.mp (hk.current i hpaused).2)
    obtain ⟨i', hj'⟩ := h j (List.getElem?_eq_some_iff.mp hj).1
    rw [hj] at hj'
    cases hj'

end FlowSocket

/-! ### All sockets -/

namespace FlowState

variable {cap : ℕ} {s s' : FlowState} {label : FlowLabel}

theorem sockets_onSocket (k : ℕ) (f : FlowSocket → FlowSocket) (k' : ℕ) :
    (s.onSocket k f).sockets k' = if k' = k then f (s.sockets k) else s.sockets k' :=
  update_apply ..

/-- What a step tells a socket: a broadcast to a key that it is joined to, while it is open and not
the originator. -/
def tells (s : FlowState) (k : ℕ) : FlowLabel → List ℕ
  | .broadcast tag _ except _ =>
    if k ∈ s.subscribers tag ∧ except ≠ some k ∧ (s.sockets k).isOpen = true then [s.count] else []
  | _ => []

/-- What a run tells a socket. -/
def told (cap k : ℕ) (s : FlowState) : List FlowLabel → List ℕ
  | [] => []
  | label :: labels => s.tells k label ++
    (s.step cap label).elim [] fun s' => told cap k s' labels

/-- A broadcast reaches each subscriber once. -/
theorem sockets_fanOut (cap : ℕ) {set : List ℕ} (hset : set.Nodup) (p : FlowPayload)
    (except : Option ℕ) (amounts : ℕ → ℕ) (s : FlowState) (k : ℕ) :
    (s.fanOut cap set p except amounts).sockets k =
      if k ∈ set ∧ except ≠ some k then (s.sockets k).fanOut cap (amounts k) p
      else s.sockets k := by
  induction set generalizing s with
  | nil => simp [fanOut]
  | cons x xs ih =>
    obtain ⟨hx, hxs⟩ := nodup_cons.mp hset
    have hhead : (if except = some x then s
        else s.onSocket x fun socket => socket.fanOut cap (amounts x) p).sockets k =
        if k = x ∧ except ≠ some k then (s.sockets k).fanOut cap (amounts k) p
        else s.sockets k := by
      by_cases hkx : k = x
      · subst hkx
        split_ifs with hex hne hne
        · exact absurd hex hne.2
        · rfl
        · rw [sockets_onSocket, if_pos rfl]
        · exact absurd ⟨rfl, hex⟩ hne
      · have hneg : ¬ (k = x ∧ except ≠ some k) := fun h => hkx h.1
        rw [if_neg hneg]
        split_ifs
        · rfl
        · rw [sockets_onSocket, if_neg hkx]
    have htail := ih hxs (if except = some x then s
      else s.onSocket x fun socket => socket.fanOut cap (amounts x) p)
    rw [fanOut, foldl_cons]
    refine htail.trans ?_
    rw [hhead]
    by_cases hkx : k = x
    · subst hkx
      simp [hx]
    · simp [hkx]

theorem frame_fanOut (set : List ℕ) (p : FlowPayload) (except : Option ℕ) (amounts : ℕ → ℕ)
    (s : FlowState) : (s.fanOut cap set p except amounts).subscribers = s.subscribers := by
  induction set generalizing s with
  | nil => rfl
  | cons x xs ih =>
    rw [fanOut, foldl_cons]
    refine (ih _).trans ?_
    split_ifs <;> rfl

/-- Each socket joins a key once. -/
def Joined (s : FlowState) : Prop := ∀ tag, (s.subscribers tag).Nodup

theorem sockets_unsubscribeAll (k k' : ℕ) :
    (s.unsubscribeAll k).sockets k' =
      if k' = k then (s.sockets k).unsubscribeAll else s.sockets k' := by
  rw [unsubscribeAll]
  split <;> exact sockets_onSocket ..

theorem joined_unsubscribeAll (hjoined : s.Joined) (k : ℕ) : (s.unsubscribeAll k).Joined := by
  intro tag
  rw [unsubscribeAll]
  split
  · exact hjoined tag
  · dsimp only
    split_ifs
    · exact (hjoined tag).erase k
    · exact hjoined tag

theorem Joined.step (hjoined : s.Joined) (h : s.step cap label = some s') : s'.Joined := by
  cases label with
  | subscribe k tag =>
    cases h
    intro tag'
    dsimp only
    rw [update_apply]
    split_ifs with htag hk
    · exact hjoined tag
    · refine nodup_append.mpr ⟨hjoined tag, nodup_singleton k, ?_⟩
      rintro x hx y hy rfl
      rw [mem_singleton.mp hy] at hx
      exact hk hx
    · exact hjoined tag'
  | pauseBroadcasts k => cases h; exact hjoined
  | release k j amounts =>
    rw [FlowState.step] at h
    split_ifs at h
    cases h
    exact hjoined
  | broadcast tag text except amounts =>
    cases h
    intro tag'
    rw [frame_fanOut]
    exact hjoined tag'
  | send k text amount => cases h; exact hjoined
  | unsubscribeAll k => cases h; exact joined_unsubscribeAll hjoined k
  | unregister k => cases h; exact hjoined
  | close k => cases h; exact hjoined

/-- An operation on one socket moves every other one by nothing. -/
theorem moves_onSocket {n k k' : ℕ} {f : FlowSocket → FlowSocket}
    (h : FlowSocket.Moves cap n [] (s.sockets k) (f (s.sockets k))) :
    FlowSocket.Moves cap n [] (s.sockets k') ((s.onSocket k f).sockets k') := by
  rw [sockets_onSocket]
  split_ifs with hk
  · rw [hk]
    exact h
  · exact .same

/-- **What a step does to a socket.** -/
theorem step_socket (hjoined : s.Joined) (h : s.step cap label = some s') (k : ℕ) :
    (label = .unsubscribeAll k ∧ s'.sockets k = (s.sockets k).unsubscribeAll) ∨
      (label = .close k ∧ s'.sockets k = { s.sockets k with isOpen := false }) ∨
      FlowSocket.Moves cap s.count (s.tells k label) (s.sockets k) (s'.sockets k) := by
  cases label with
  | subscribe k' tag =>
    cases h
    exact .inr (.inr (moves_onSocket (s := s) (f := fun socket => socket.subscribe tag)
      (.subscribe tag)))
  | pauseBroadcasts k' =>
    cases h
    exact .inr (.inr (moves_onSocket .pauseBroadcasts))
  | release k' j amounts =>
    rw [FlowState.step] at h
    split_ifs at h
    cases h
    exact .inr (.inr (moves_onSocket (.release amounts j)))
  | broadcast tag text except amounts =>
    cases h
    refine .inr (.inr ?_)
    have hsocket := sockets_fanOut cap (hjoined tag) ⟨s.count, text⟩ except amounts s k
    dsimp only
    rw [hsocket, tells]
    by_cases hmem : k ∈ s.subscribers tag ∧ except ≠ some k
    · rw [if_pos hmem]
      have htells : FlowSocket.Moves cap s.count _ (s.sockets k) _ := .broadcast (amounts k) text
      simpa only [hmem.1, hmem.2, true_and, ne_eq, not_false_eq_true] using htells
    · rw [if_neg hmem, if_neg fun hall => hmem ⟨hall.1, hall.2.1⟩]
      exact .same
  | send k' text amount =>
    cases h
    exact .inr (.inr (moves_onSocket (.message amount text)))
  | unsubscribeAll k' =>
    cases h
    rw [sockets_unsubscribeAll]
    by_cases hk : k = k'
    · exact .inl ⟨hk ▸ rfl, by rw [if_pos hk, hk]⟩
    · rw [if_neg hk]
      exact .inr (.inr .same)
  | unregister k' =>
    cases h
    exact .inr (.inr (moves_onSocket .unregister))
  | close k' =>
    cases h
    rw [sockets_onSocket]
    by_cases hk : k = k'
    · exact .inr (.inl ⟨hk ▸ rfl, by rw [if_pos hk, hk]⟩)
    · rw [if_neg hk]
      exact .inr (.inr .same)

theorem count_step (h : s.step cap label = some s') (k : ℕ) :
    s.count ≤ s'.count ∧ (s.tells k label ≠ [] → s'.count = s.count + 1) := by
  cases label with
  | broadcast tag text except amounts =>
    cases h
    exact ⟨Nat.le_succ _, fun _ => rfl⟩
  | release k' j amounts =>
    rw [FlowState.step] at h
    split_ifs at h
    cases h
    exact ⟨le_rfl, fun hne => absurd rfl hne⟩
  | unsubscribeAll k' =>
    cases h
    refine ⟨?_, fun hne => absurd rfl hne⟩
    rw [unsubscribeAll]
    split <;> exact le_rfl
  | _ =>
    cases h
    exact ⟨le_rfl, fun hne => absurd rfl hne⟩

/-- The invariant, with what the run so far told each socket. -/
structure Inv (s : FlowState) (past : ℕ → List ℕ) : Prop where
  joined : s.Joined
  ordered : ∀ k, (s.sockets k).Ordered s.count (past k)

theorem inv_init : init.Inv fun _ => [] :=
  ⟨fun _ => .nil, fun _ => ordered_connected⟩

variable {past : ℕ → List ℕ}

theorem Inv.step (hinv : s.Inv past) (h : s.step cap label = some s') :
    s'.Inv fun k => past k ++ s.tells k label := by
  refine ⟨hinv.joined.step h, fun k => ?_⟩
  obtain ⟨hcount, hnew⟩ := count_step h k
  rcases step_socket hinv.joined h k with ⟨hlabel, hk⟩ | ⟨hlabel, hk⟩ | hmoves
  · subst hlabel
    rw [hk]
    change FlowSocket.Ordered _ (past k ++ []) _
    rw [append_nil]
    exact ((hinv.ordered k).unsubscribeAll).mono hcount
  · subst hlabel
    rw [hk]
    change FlowSocket.Ordered _ (past k ++ []) _
    rw [append_nil]
    exact ((hinv.ordered k).close).mono hcount
  · exact (hinv.ordered k).moves hmoves hcount hnew

variable {labels : List FlowLabel}

theorem Inv.run (hinv : s.Inv past) (h : (flowMachine cap).run s labels = some s') :
    s'.Inv fun k => past k ++ s.told cap k labels := by
  induction labels generalizing s past with
  | nil =>
    cases h
    have hpast : (fun k => past k ++ s'.told cap k []) = past := by
      funext k
      exact append_nil _
    rw [hpast]
    exact hinv
  | cons label labels ih =>
    obtain ⟨t, hstep, hrun⟩ := bind_eq_some_iff.mp h
    have htold : (fun k => past k ++ s.told cap k (label :: labels)) =
        fun k => (past k ++ s.tells k label) ++ t.told cap k labels := by
      funext k
      have hstep' : s.step cap label = some t := hstep
      rw [told, hstep', elim_some, append_assoc]
    rw [htold]
    exact ih (hinv.step hstep) hrun

/-- A run in which a socket does not leave carries what it is told, unless it closes. -/
theorem flows_run {k : ℕ} (hinv : s.Inv past)
    (h : (flowMachine cap).run s labels = some s') (hstays : .unsubscribeAll k ∉ labels)
    (hopen : (s'.sockets k).isOpen = true) :
    (s.sockets k).Flows (s.told cap k labels) (s'.sockets k) := by
  induction labels generalizing s past with
  | nil =>
    cases h
    exact .refl _
  | cons label labels ih =>
    obtain ⟨t, hstep, hrun⟩ := bind_eq_some_iff.mp h
    have hstep' : s.step cap label = some t := hstep
    have hrest := ih (hinv.step hstep') hrun fun hmem => hstays (mem_cons_of_mem _ hmem)
    have htold : s.told cap k (label :: labels) = s.tells k label ++ t.told cap k labels := by
      rw [told, hstep', elim_some]
    rw [htold]
    rcases step_socket hinv.joined hstep' k with ⟨hlabel, -⟩ | ⟨-, hk⟩ | hmoves
    · exact absurd (hlabel ▸ mem_cons_self) hstays
    -- a closed socket is not open later
    · have hopen' := (hrest.carries hopen).1
      rw [hk] at hopen'
      cases hopen'
    · exact (hmoves.flows (hinv.ordered k).counted).trans hrest

/-- A socket closes on its own account or by being terminated. -/
theorem open_run {k : ℕ} (hinv : s.Inv past)
    (h : (flowMachine cap).run s labels = some s') (hclose : .close k ∉ labels)
    (hopen : (s.sockets k).isOpen = true ∨ (s.sockets k).terminated = true) :
    (s'.sockets k).isOpen = true ∨ (s'.sockets k).terminated = true := by
  induction labels generalizing s past with
  | nil =>
    cases h
    exact hopen
  | cons label labels ih =>
    obtain ⟨t, hstep, hrun⟩ := bind_eq_some_iff.mp h
    refine ih (hinv.step hstep) hrun (fun hmem => hclose (mem_cons_of_mem _ hmem)) ?_
    rcases step_socket hinv.joined hstep k with ⟨-, hk⟩ | ⟨hlabel, -⟩ | hmoves
    · rw [hk, (s.sockets k).unsubscribeAll_frame.1, (s.sockets k).unsubscribeAll_frame.2.2.2]
      exact hopen
    · exact absurd (hlabel ▸ mem_cons_self) hclose
    · exact hmoves.open hopen

end FlowState

/-! ### Main results -/

/-- **What a socket is told is sent to it once and in order.**  In every run what was sent to a
socket is of the broadcasts made to it, in their order and without repetition.  While it does not
leave and is open at the end, what it has sent and holds back grows by exactly the broadcasts made
to it; it holds nothing back once every closure was called, and sends none from a pause until the
closure of that pause is called.  It closes on its own account, or by being terminated. -/
theorem hub_pause_flush (cap : ℕ) {before labels : List FlowLabel} {s s' : FlowState}
    (hs : (flowMachine cap).run .init before = some s)
    (h : (flowMachine cap).run s labels = some s') (k : ℕ) :
    ((FlowState.init.told cap k before ++ s.told cap k labels).Pairwise (· < ·) ∧
      (s'.sockets k).broadcasts.Sublist
        (FlowState.init.told cap k before ++ s.told cap k labels)) ∧
    (.unsubscribeAll k ∉ labels → (s'.sockets k).isOpen = true →
      (s'.sockets k).broadcasts ++ (s'.sockets k).held =
        (s.sockets k).broadcasts ++ (s.sockets k).held ++ s.told cap k labels ∧
      ((∀ j < (s'.sockets k).releases.length, (s'.sockets k).Released j) →
        (s'.sockets k).held = []) ∧
      ∀ j, (s.sockets k).Holding j → ¬ (s'.sockets k).Released j →
        (s'.sockets k).broadcasts = (s.sockets k).broadcasts) ∧
    (s.sockets k).pauseBroadcasts.Holding (s.sockets k).releases.length ∧
    ((s.sockets k).isOpen = true → (s'.sockets k).isOpen = false →
      .close k ∈ labels ∨ (s'.sockets k).terminated = true) := by
  have hinv := FlowState.inv_init.run hs
  have hinv' := (hinv.run h).ordered k
  refine ⟨⟨hinv'.increasing, hinv'.sent⟩, ?_, FlowSocket.holding_pauseBroadcasts, ?_⟩
  · intro hstays hopen
    have hflows := FlowState.flows_run hinv h hstays hopen
    refine ⟨(hflows.carries hopen).2, FlowSocket.held_of_released hinv'.counted, ?_⟩
    intro j hj hreleased
    rcases hflows.holding j hj hopen with hrel | ⟨-, hsent⟩
    · exact absurd hrel hreleased
    · exact hsent
  · intro hopen hclosed
    by_cases hclose : .close k ∈ labels
    · exact .inl hclose
    · rcases FlowState.open_run hinv h hclose (.inl hopen) with hopen' | hterm
      · exact absurd (hclosed.symm.trans hopen') Bool.false_ne_true
      · exact .inr hterm

/-- A pause that is released over one broadcast. -/
theorem hub_pause_flush_released : ∃ s s',
    (flowMachine 8).run .init [.subscribe 0 "t", .pauseBroadcasts 0] = some s ∧
      (flowMachine 8).run s [.broadcast "t" "x" none fun _ => 0, .release 0 0 fun _ => 0] =
        some s' ∧
      (s'.sockets 0).broadcasts ++ (s'.sockets 0).held = (s.sockets 0).broadcasts ++
        (s.sockets 0).held ++
        s.told 8 0 [.broadcast "t" "x" none fun _ => 0, .release 0 0 fun _ => 0] ∧
      (s'.sockets 0).broadcasts = [0] := by
  have hbefore : (flowMachine 8).run .init [.subscribe 0 "t", .pauseBroadcasts 0] = some _ := rfl
  refine ⟨_, _, hbefore, rfl, ?_, by decide +kernel⟩
  refine ((hub_pause_flush 8 hbefore (by rfl) 0).2.1 ?_ ?_).1
  · simp
  · decide +kernel

/-- A socket that leaves under a pause loses what was held back, and one that made a broadcast
is not sent it; both stay open. -/
theorem hub_pause_drops :
    (FlowState.init.told 8 0 [.subscribe 0 "t", .pauseBroadcasts 0,
        .broadcast "t" "x" none fun _ => 0, .unsubscribeAll 0, .release 0 0 fun _ => 0] = [0] ∧
      ((flowMachine 8).run .init [.subscribe 0 "t", .pauseBroadcasts 0,
        .broadcast "t" "x" none fun _ => 0, .unsubscribeAll 0, .release 0 0 fun _ => 0]).map
        (fun s => (((s.sockets 0).isOpen, (s.sockets 0).terminated),
          ((s.sockets 0).broadcasts, (s.sockets 0).held))) = some ((true, false), ([], []))) ∧
    ((flowMachine 8).run .init [.subscribe 0 "t", .broadcast "t" "x" (some 0) fun _ => 0]).map
      (fun s => ((s.subscribers "t", (s.sockets 0).isOpen, (s.sockets 0).terminated),
        ((s.sockets 0).broadcasts, (s.sockets 0).held))) =
      some (([0], true, false), ([], [])) := by
  refine ⟨⟨?_, ?_⟩, ?_⟩
  · decide +kernel
  · decide +kernel
  · decide +kernel

/-! ### What is held back is bounded -/

/-- The payloads of a pending object are counted in its bytes, and dropped past the cap. -/
def Pending.Bounded (cap : ℕ) (z : Pending) : Prop :=
  (z.payloads.map FlowPayload.byteLength).sum ≤ z.bytes ∧ (cap < z.bytes → z.payloads = [])

namespace FlowSocket

variable {cap n : ℕ} {k k' : FlowSocket} {told : List ℕ} {f : Pending → Pending}

def Bounded (cap : ℕ) (k : FlowSocket) : Prop :=
  ∀ (i : ℕ) (z : Pending), k.pendings[i]? = some z → z.Bounded cap

theorem Bounded.onPending (h : k.Bounded cap) {i : ℕ} (hf : ∀ z, k.pendings[i]? = some z →
    z.Bounded cap → (f z).Bounded cap) : (k.onPending i f).Bounded cap := by
  intro j z hz
  rw [FlowSocket.onPending, getElem?_modify] at hz
  obtain ⟨y, hy, rfl⟩ := map_eq_some_iff.mp hz
  split_ifs with hij
  · exact hf y (hij ▸ hy) (h j y hy)
  · exact h j y hy

theorem bounded_dropped {depth bytes : ℕ} : Pending.Bounded cap ⟨depth, [], bytes⟩ :=
  ⟨Nat.zero_le _, fun _ => rfl⟩

section

variable (h : k.Bounded cap)
include h

theorem Bounded.drop (i : ℕ) : (k.onPending i fun z => { z with payloads := [] }).Bounded cap :=
  h.onPending fun _ _ _ => bounded_dropped

/-- A payload is counted before it is held back, and held back only within the cap. -/
theorem Bounded.fanOut (amount : ℕ) (payload : FlowPayload) :
    (k.fanOut cap amount payload).Bounded cap := by
  rw [FlowSocket.fanOut]
  split
  · rwa [Bounded, pendings_sendRaw]
  · rename_i i _
    have hmodify : ∀ g : Pending → Pending,
        (k.onPending i fun z => { z with bytes := z.bytes + payload.byteLength }).onPending i g =
          k.onPending i fun z => g { z with bytes := z.bytes + payload.byteLength } := by
      intro g
      simp only [FlowSocket.onPending, modify_modify_eq]
      rfl
    dsimp only
    split_ifs with hbytes
    · rw [hmodify]
      exact h.onPending (f := fun z => ⟨z.depth, [], z.bytes + payload.byteLength⟩)
        fun _ _ _ => bounded_dropped
    · rw [hmodify]
      refine h.onPending fun z hz hbounded => ⟨?_, fun hpast => absurd ?_ hbytes⟩
      · simpa using hbounded.1
      · simpa [FlowSocket.onPending, hz] using hpast

theorem Bounded.pauseBroadcasts : k.pauseBroadcasts.Bounded cap := by
  rw [FlowSocket.pauseBroadcasts]
  split
  · intro i z hz
    rcases mem_append.1 (mem_of_getElem? hz) with hmem | hmem
    · obtain ⟨j, hj⟩ := getElem?_of_mem hmem
      exact h j z hj
    · rw [mem_singleton.1 hmem]
      exact ⟨le_rfl, fun _ => rfl⟩
  · exact h.onPending fun _ _ hz => hz

theorem Bounded.release (amounts : ℕ → ℕ) (j : ℕ) : (k.release cap amounts j).Bounded cap := by
  rw [FlowSocket.release]
  split
  · exact h
  · exact h
  · rename_i i _
    have hdepth : (k.onPending i fun z => { z with depth := z.depth - 1 }).Bounded cap :=
      h.onPending fun _ _ hz => hz
    dsimp only
    split_ifs
    · exact hdepth
    · refine Bounded.drop ?_ i
      rw [Bounded, (flush_frame ..).2.1]
      exact hdepth

end

theorem Moves.bounded (hmoves : Moves cap n told k k') (h : k.Bounded cap) : k'.Bounded cap := by
  cases hmoves with
  | same => exact h
  | subscribe tag => exact h
  | unregister => exact h
  | pauseBroadcasts => exact h.pauseBroadcasts
  | release amounts j => exact h.release amounts j
  | message amount text => rwa [Bounded, pendings_sendRaw]
  | broadcast amount text => exact h.fanOut amount _

end FlowSocket

/-- **What the hub holds back for a socket is within the cap**, however its pauses are nested and
whatever is broadcast meanwhile. -/
theorem held_bytes_le {cap : ℕ} {s : FlowState} (h : (flowMachine cap).Reachable .init s) (k : ℕ) :
    ((s.sockets k).payloads.map FlowPayload.byteLength).sum ≤ cap := by
  have hinv : s.Joined ∧ ∀ k, (s.sockets k).Bounded cap := by
    refine h.invariant (I := fun s => s.Joined ∧ ∀ k, (s.sockets k).Bounded cap)
      ⟨fun _ => .nil, fun _ _ _ => nofun⟩ fun s label s' hs hst => ⟨hs.1.step hst, fun k => ?_⟩
    rcases FlowState.step_socket hs.1 hst k with ⟨-, hk⟩ | ⟨-, hk⟩ | hmoves
    · rw [hk, unsubscribeAll]
      split
      · exact hs.2 k
      · exact (hs.2 k).drop _
    · rw [hk]
      exact hs.2 k
    · exact hmoves.bounded (hs.2 k)
  rw [payloads]
  rcases (s.sockets k).paused with _ | i
  · exact Nat.zero_le _
  · rcases hz : (s.sockets k).pendings[i]? with _ | z
    · simp [hz]
    · obtain ⟨hsum, hdropped⟩ := hinv.2 k i z hz
      rw [bind_some, hz]
      by_cases hpast : cap < z.bytes
      · simp [hdropped hpast]
      · exact hsum.trans (not_lt.1 hpast)

/-- One payload is held back. -/
theorem held_bytes_le_paused : ∃ s, (flowMachine 8).run .init
      [.subscribe 0 "t", .pauseBroadcasts 0, .broadcast "t" "x" none fun _ => 0] = some s ∧
    (s.sockets 0).held = [0] ∧ ((s.sockets 0).payloads.map FlowPayload.byteLength).sum ≤ 8 :=
  have h : (flowMachine 8).run .init
      [.subscribe 0 "t", .pauseBroadcasts 0, .broadcast "t" "x" none fun _ => 0] = some _ := rfl
  ⟨_, h, by decide +kernel, held_bytes_le (Machine.reachable_of_run h) 0⟩

end Triage.Relay
