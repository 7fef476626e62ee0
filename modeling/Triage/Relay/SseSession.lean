import Triage.Streams.Utf8

/-!
# The server's side of the event stream

An `SseSession` stands for a WebSocket where a client can only make requests: each request opens a
response, the latest response carries everything the server says, and one that is superseded is
ended. Every response begins with a `retry` line; messages, the two named events and keepalive
comments follow in the order in which the session writes them.
-/

namespace Triage.Relay

open Streams Function

/-! ### JSON -/

/-- A hexadecimal digit. -/
def hexDigit (n : ℕ) : Char := .ofNat (if n < 10 then 48 + n else 87 + n)

/-- A character inside a string of `JSON.stringify`. -/
def jsonChar (c : Char) : List Char :=
  if c = '"' then ['\\', '"']
  else if c = '\\' then ['\\', '\\']
  else if c = '\n' then ['\\', 'n']
  else if c = '\r' then ['\\', 'r']
  else if c = '\t' then ['\\', 't']
  else if c.toNat = 8 then ['\\', 'b']
  else if c.toNat = 12 then ['\\', 'f']
  else if c.toNat < 32 then ['\\', 'u', '0', '0', hexDigit (c.toNat / 16), hexDigit (c.toNat % 16)]
  else [c]

/-- A string as `JSON.stringify` writes it. -/
def jsonString (s : List Char) : List Char := '"' :: s.flatMap jsonChar ++ ['"']

/-- The payload of a `close` event. -/
def closePayload (code : ℕ) (reason : List Char) : List Char :=
  '{' :: "\x22code\x22:".toList ++ Nat.toDigits 10 code ++ ",\x22reason\x22:".toList ++
    jsonString reason ++ ['}']

/-! ### The text of an event -/

/-- What the server writes to a response. -/
inductive SseWrite
  /-- `writeSseHeaders`: the retry hint, first on every response. -/
  | retry
  /-- `send`: a message. -/
  | send (payload : List Char)
  /-- `ping`: a keepalive comment. -/
  | ping
  /-- `writeEvent`: the continuation token. -/
  | session (sid : List Char)
  /-- `close`: the server is going away. -/
  | close (code : ℕ) (reason : List Char)

/-- The lines of a payload, each in a `data` field. -/
def dataFields (payload : List Char) : List Char :=
  ['\n'].intercalate ((payload.splitOn '\n').map ("data: ".toList ++ ·))

/-- The text of a write. -/
def SseWrite.wire : SseWrite → List Char
  | .retry => "retry: 1000\n\n".toList
  | .send payload => dataFields payload ++ "\n\n".toList
  | .ping => ":\n\n".toList
  | .session sid => "event: session\n".toList ++ dataFields sid ++ "\n\n".toList
  | .close code reason => "event: close\ndata: ".toList ++ closePayload code reason ++ "\n\n".toList

/-- The bytes of a response. -/
def responseBytes (writes : List SseWrite) : List UInt8 := encodeUtf8 (writes.flatMap SseWrite.wire)

/-! ### The session -/

/-- The `readyState` of a session. -/
inductive SseReadyState
  | connecting | opened | closing | closed
  deriving DecidableEq

/-- A session, and what has been written to each of its responses. -/
structure SseSession where
  readyState : SseReadyState
  currentRes : Option ℕ
  written : ℕ → List SseWrite

namespace SseSession

/-- Writes to the current response of an open session. -/
def write (s : SseSession) (w : SseWrite) : SseSession :=
  if s.readyState ≠ .opened then s
  else match s.currentRes with
    | none => s
    | some res => { s with written := update s.written res (s.written res ++ [w]) }

/-- The retry hint goes to a response that is not yet, or only just, the current one. -/
def writeSseHeaders (s : SseSession) (res : ℕ) : SseSession :=
  { s with written := update s.written res (s.written res ++ [.retry]) }

def send (s : SseSession) (payload : List Char) : SseSession := s.write (.send payload)

def ping (s : SseSession) : SseSession := s.write .ping

/-- A session is announced on the response it is created with. -/
def createSession (res : ℕ) (sid : List Char) : SseSession :=
  ((⟨.opened, some res, fun _ => []⟩ : SseSession).writeSseHeaders res).write (.session sid)

/-- Swaps in the response of the latest request. -/
def attachResponse (s : SseSession) (res : ℕ) : SseSession :=
  if s.readyState ≠ .opened then s else { s with currentRes := some res }.writeSseHeaders res

def close (s : SseSession) (code : ℕ) (reason : List Char) : SseSession :=
  if s.readyState = .closed then s
  else { s.write (.close code reason) with readyState := .closed, currentRes := none }

def terminate (s : SseSession) : SseSession :=
  if s.readyState = .closed then s else { s with readyState := .closed, currentRes := none }

/-- The client drops a response. -/
def resClosed (s : SseSession) (res : ℕ) : SseSession :=
  if s.currentRes ≠ some res ∨ s.readyState = .closed then s
  else { s with readyState := .closed, currentRes := none }

end SseSession

end Triage.Relay
