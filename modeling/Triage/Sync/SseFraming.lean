import Triage.Relay.SseSession
import Triage.Client.SseParser
import Triage.Machine.Basic

/-!
# What the server writes is what the client reads

The framing of the event stream, from the session that writes it to the parser that reads it. A
payload keeps its blank lines out of the framing because each of its lines is in a field, so a
block ends where its write ends, whatever the chunks.

## Main results

* `cut_lines` : where a block ends.
* `parseBlocks_wire` : one write, then the rest.
* `consumeStream_written` : the events of a response are those written to it.
* `SseRun.said_once` : responses that supersede each other lose nothing and repeat nothing.
-/

namespace Triage.Sync

open Streams Transducer Relay Client SseParser Function List SseSession

/-- The event that a write is for; a retry hint and a keepalive are for none. -/
def sseEvent : SseWrite → Option SseEvent
  | .retry => none
  | .send payload => some ⟨[], payload⟩
  | .ping => none
  | .session sid => some ⟨"session".toList, sid⟩
  | .close code reason => some ⟨"close".toList, closePayload code reason⟩

/-- The message of a write, if it is one. -/
def sentMessage : SseWrite → Option (List Char)
  | .send payload => some payload
  | _ => none

/-- `dispatchEvent_`: the data of the events that are forwarded as messages. -/
def forwardedMessage (ev : SseEvent) : Option (List Char) :=
  if ev.event = [] ∨ ev.event = "message".toList then some ev.data else none

/-! ### Blocks -/

/-- A block that does not end in a newline, and has no empty line, ends at the blank line. -/
theorem cut_line {line : List Char} (hline : '\n' ∉ line) (rest : List Char) :
    cut (line ++ '\n' :: '\n' :: rest) = some (line, rest) := by
  induction line with
  | nil => rfl
  | cons c line ih =>
    have hc : c ≠ '\n' := by rintro rfl; simp at hline
    rw [cons_append, cut.eq_2 _ _ fun _ h => absurd h hc, ih fun h => hline (by simp [h])]
    rfl

/-- A line in front of a block. -/
theorem cut_cons_line {line block rest : List Char} (hline : '\n' ∉ line) {c : Char}
    {more : List Char} (hc : c ≠ '\n') (h : cut (c :: more) = some (block, rest)) :
    cut (line ++ '\n' :: c :: more) = some (line ++ '\n' :: block, rest) := by
  induction line with
  | nil =>
    have hc' : ∀ tail, '\n' = '\n' → c :: more = '\n' :: tail → False := by
      rintro tail - htail
      exact hc (List.cons.inj htail).1
    rw [nil_append, cut.eq_2 _ _ hc', h]
    rfl
  | cons d line ih =>
    have hd : d ≠ '\n' := by rintro rfl; simp at hline
    rw [cons_append, cut.eq_2 _ _ fun _ h => absurd h hd, ih fun h => hline (by simp [h])]
    rfl

/-- The lines of a block: there is one, none is empty and none holds a newline. -/
structure BlockLines (lines : List (List Char)) : Prop where
  ne_nil : lines ≠ []
  line_ne_nil : ∀ line ∈ lines, line ≠ []
  newline : ∀ line ∈ lines, '\n' ∉ line

variable {lines : List (List Char)}

theorem BlockLines.exists_cons (h : BlockLines lines) :
    ∃ c more, ['\n'].intercalate lines = c :: more ∧ c ≠ '\n' := by
  obtain ⟨line, tail, rfl⟩ := exists_cons_of_ne_nil h.ne_nil
  obtain ⟨c, more, rfl⟩ := exists_cons_of_ne_nil (h.line_ne_nil line (by simp))
  have hc : c ≠ '\n' := by
    rintro rfl
    exact h.newline _ mem_cons_self (by simp)
  by_cases htail : tail = []
  · subst htail
    exact ⟨c, more, intercalate_singleton, hc⟩
  · exact ⟨c, _, intercalate_cons_of_ne_nil htail, hc⟩

/-- **A block ends at the blank line behind it**, and not before. -/
theorem cut_lines (h : BlockLines lines) (rest : List Char) :
    cut (['\n'].intercalate lines ++ '\n' :: '\n' :: rest) =
      some (['\n'].intercalate lines, rest) := by
  induction lines with
  | nil => exact absurd rfl h.ne_nil
  | cons line lines ih =>
    by_cases hlines : lines = []
    · subst hlines
      rw [intercalate_singleton]
      exact cut_line (h.newline line (by simp)) rest
    · have h' : BlockLines lines :=
        ⟨hlines, fun l hl => h.line_ne_nil l (by simp [hl]), fun l hl => h.newline l (by simp [hl])⟩
      obtain ⟨c, more, hmore, hc⟩ := h'.exists_cons
      have hcut := ih h'
      rw [intercalate_cons_of_ne_nil hlines, hmore] at *
      simpa using cut_cons_line (h.newline line (by simp)) hc hcut

theorem readBlock_lines (h : BlockLines lines) :
    readBlock (['\n'].intercalate lines) = blockEvent (lines.foldl readLine ([], [])) := by
  rw [readBlock, splitOn_intercalate _ h.newline h.ne_nil]

/-! ### The lines of a write -/

theorem newline_of_mem_splitOn {text line : List Char} (h : line ∈ text.splitOn '\n') :
    '\n' ∉ line := by
  induction text generalizing line with
  | nil =>
    obtain rfl : line = [] := by simpa [splitOn_nil] using h
    simp
  | cons c text ih =>
    rw [splitOn_cons_eq_if_modifyHead] at h
    split_ifs at h with hc
    · rcases mem_cons.1 h with rfl | h
      · simp
      · exact ih h
    · obtain ⟨head, tail, hsplit⟩ := exists_cons_of_ne_nil (splitOn_ne_nil '\n' text)
      rw [hsplit, modifyHead_cons] at h
      rcases mem_cons.1 h with rfl | h
      · have hhead := ih (hsplit ▸ mem_cons_self)
        rw [mem_cons, not_or]
        exact ⟨fun hc' => hc (by simp [← hc']), hhead⟩
      · exact ih (hsplit ▸ mem_cons_of_mem _ h)

/-- The lines of the block a write makes. -/
def wireLines : SseWrite → List (List Char)
  | .retry => ["retry: 1000".toList]
  | .send payload => (payload.splitOn '\n').map ("data: ".toList ++ ·)
  | .ping => [":".toList]
  | .session sid => "event: session".toList :: (sid.splitOn '\n').map ("data: ".toList ++ ·)
  | .close code reason => ["event: close".toList, "data: ".toList ++ closePayload code reason]

variable (w : SseWrite)

theorem wire_eq : w.wire = ['\n'].intercalate (wireLines w) ++ ['\n', '\n'] := by
  cases w with
  | retry => rfl
  | send payload => rfl
  | ping => rfl
  | session sid =>
    have hne : (sid.splitOn '\n').map ("data: ".toList ++ ·) ≠ [] := by simp
    rw [wireLines, intercalate_cons_of_ne_nil hne]
    rfl
  | close code reason =>
    rw [wireLines, intercalate_cons_of_ne_nil (by simp), intercalate_singleton]
    rfl

theorem newline_jsonChar (c : Char) : '\n' ∉ jsonChar c := by
  have hhex : ∀ n < 16, hexDigit n ≠ '\n' := by decide
  unfold jsonChar
  split_ifs with h₁ h₂ h₃ h₄ h₅ h₆ h₇ h₈
  · decide
  · decide
  · decide
  · decide
  · decide
  · decide
  · decide
  · have hhigh := hhex (c.toNat / 16) (by omega)
    have hlow := hhex (c.toNat % 16) (by omega)
    simp [hhigh.symm, hlow.symm]
  · simpa using Ne.symm h₃

theorem newline_closePayload (code : ℕ) (reason : List Char) : '\n' ∉ closePayload code reason := by
  have hdigits : '\n' ∉ Nat.toDigits 10 code := by
    intro h
    exact absurd (Nat.isDigit_of_mem_toDigits (by decide) (by decide) h) (by decide)
  have hreason : '\n' ∉ reason.flatMap jsonChar := by
    intro h
    obtain ⟨c, -, hc⟩ := mem_flatMap.1 h
    exact newline_jsonChar c hc
  simp [closePayload, jsonString, hdigits, hreason]

theorem blockLines_data (payload : List Char) :
    BlockLines ((payload.splitOn '\n').map ("data: ".toList ++ ·)) := by
  refine ⟨by simp, fun line hline => ?_, fun line hline => ?_⟩
  · obtain ⟨l, -, rfl⟩ := mem_map.1 hline
    simp
  · obtain ⟨l, hl, rfl⟩ := mem_map.1 hline
    have := newline_of_mem_splitOn hl
    simp [this]

theorem blockLines_wireLines : BlockLines (wireLines w) := by
  cases w with
  | retry => exact ⟨by decide, by decide, by decide⟩
  | send payload => exact blockLines_data payload
  | ping => exact ⟨by decide, by decide, by decide⟩
  | session sid =>
    have h := blockLines_data sid
    refine ⟨by simp [wireLines], fun line hline => ?_, fun line hline => ?_⟩
    · rcases mem_cons.1 hline with rfl | hline
      · decide
      · exact h.line_ne_nil line hline
    · rcases mem_cons.1 hline with rfl | hline
      · decide
      · exact h.newline line hline
  | close code reason =>
    have := newline_closePayload code reason
    exact ⟨by simp [wireLines], by simp [wireLines], by simp [wireLines, this]⟩

/-! ### Reading a block -/

variable (block : List Char × List (List Char))

/-- A `data` field gives back the line that was put into it. -/
theorem readLine_data (line : List Char) :
    readLine block ("data: ".toList ++ line) = (block.1, block.2 ++ [line]) := rfl

theorem foldl_readLine_data (lines : List (List Char)) :
    (lines.map ("data: ".toList ++ ·)).foldl readLine block = (block.1, block.2 ++ lines) := by
  induction lines generalizing block with
  | nil => simp
  | cons line lines ih =>
    rw [map_cons, foldl_cons, readLine_data, ih, append_assoc]
    rfl

/-- The data lines of a payload are joined to the payload. -/
theorem blockEvent_payload (event payload : List Char) :
    blockEvent (event, payload.splitOn '\n') = some ⟨event, payload⟩ := by
  have hne : (payload.splitOn '\n').length ≠ 0 := by simp
  rw [blockEvent, if_neg hne, intercalate_splitOn]

theorem blockEvent_singleton (event line : List Char) :
    blockEvent (event, [line]) = some ⟨event, line⟩ := by
  simp [blockEvent]

theorem readLine_session :
    readLine ([], []) "event: session".toList = ("session".toList, []) := by decide

theorem readLine_close : readLine ([], []) "event: close".toList = ("close".toList, []) := by decide

theorem readBlock_wire : readBlock (['\n'].intercalate (wireLines w)) = sseEvent w := by
  rw [readBlock_lines (blockLines_wireLines w)]
  cases w with
  | retry => rfl
  | send payload =>
    rw [wireLines, foldl_readLine_data]
    exact blockEvent_payload [] payload
  | ping => rfl
  | session sid =>
    rw [wireLines, foldl_cons, foldl_readLine_data, readLine_session]
    exact blockEvent_payload "session".toList sid
  | close code reason =>
    rw [wireLines, foldl_cons, foldl_cons, foldl_nil, readLine_close, readLine_data]
    exact blockEvent_singleton "close".toList _

/-! ### The whole response -/

/-- One write in front of the rest of a response. -/
theorem parseBlocks_wire (rest : List Char) :
    parseBlocks (w.wire ++ rest) =
      ((sseEvent w).toList ++ (parseBlocks rest).1, (parseBlocks rest).2) := by
  have hcut : cut (w.wire ++ rest) = some (['\n'].intercalate (wireLines w), rest) := by
    rw [wire_eq, append_assoc]
    exact cut_lines (blockLines_wireLines w) rest
  rw [parseBlocks_some hcut, readBlock_wire]

theorem parseBlocks_wires (writes : List SseWrite) :
    parseBlocks (writes.flatMap SseWrite.wire) = (writes.filterMap sseEvent, []) := by
  induction writes with
  | nil => exact parseBlocks_none rfl
  | cons w writes ih =>
    rw [flatMap_cons, parseBlocks_wire, ih]
    cases h : sseEvent w <;> simp [h]

theorem exists_dataFields_cons (payload : List Char) :
    ∃ text, dataFields payload = 'd' :: text := by
  obtain ⟨head, tail, hsplit⟩ := exists_cons_of_ne_nil (splitOn_ne_nil '\n' payload)
  by_cases htail : tail = []
  · subst htail
    exact ⟨_, by rw [dataFields, hsplit, map_singleton, intercalate_singleton]; rfl⟩
  · have hne : tail.map ("data: ".toList ++ ·) ≠ [] := by simpa using htail
    exact ⟨_, by rw [dataFields, hsplit, map_cons, intercalate_cons_of_ne_nil hne]; rfl⟩

/-- A response never begins with a byte order mark. -/
theorem exists_wire_cons : ∃ c text, w.wire = c :: text ∧ c ≠ byteOrderMark := by
  cases w with
  | retry => exact ⟨'r', "etry: 1000\n\n".toList, by decide, by decide⟩
  | send payload =>
    obtain ⟨text, htext⟩ := exists_dataFields_cons payload
    have hwire : (SseWrite.send payload).wire = 'd' :: (text ++ "\n\n".toList) :=
      congrArg (· ++ "\n\n".toList) htext
    exact ⟨_, _, hwire, by decide⟩
  | ping => exact ⟨':', "\n\n".toList, by decide, by decide⟩
  | session sid => exact ⟨'e', _, rfl, by decide⟩
  | close code reason => exact ⟨'e', _, rfl, by decide⟩

/-- What the decoder makes of the bytes of a response. -/
theorem textDecoder_response (writes : List SseWrite) :
    ∃ seen, textDecoder.feed textDecoder.init (responseBytes writes) =
      (writes.flatMap SseWrite.wire, .start, seen) := by
  cases writes with
  | nil => exact ⟨false, rfl⟩
  | cons w writes =>
    obtain ⟨c, text, hwire, hc⟩ := exists_wire_cons w
    refine ⟨true, ?_⟩
    rw [responseBytes, flatMap_cons, hwire, cons_append]
    exact textDecoder_encode hc _

/-- **The events of a response are the events that were written to it**, in order and each once, for
every way of cutting its bytes into chunks; the messages among them are the messages sent. -/
theorem consumeStream_written (s : SseSession) (res : ℕ) (chunks : List (List UInt8))
    (hchunks : chunks.flatten = responseBytes (s.written res)) :
    consumeStream chunks = (s.written res).filterMap sseEvent ∧
      (consumeStream chunks).filterMap forwardedMessage =
        (s.written res).filterMap sentMessage := by
  obtain ⟨seen, hdecode⟩ := textDecoder_response (s.written res)
  have hfeed : (textDecoder.comp SseParser.parse).feedAll (textDecoder.comp SseParser.parse).init
      chunks = ((s.written res).filterMap sseEvent, (.start, seen), []) := by
    have hparse : SseParser.parse.feed SseParser.parse.init
        ((s.written res).flatMap SseWrite.wire) = ((s.written res).filterMap sseEvent, []) :=
    parseBlocks_wires _
    rw [(splits_textDecoder.comp splits_parse).feedAll, hchunks]
    simp only [Transducer.comp, hdecode, hparse]
  have hevents : consumeStream chunks = (s.written res).filterMap sseEvent := by
    have hflush : (SseParser.parse.feed [] []).1 = [] := congrArg Prod.fst (parseBlocks_none rfl)
    rw [consumeStream, hfeed]
    show _ ++ (SseParser.parse.feed [] []).1 = _
    rw [hflush, append_nil]
  refine ⟨hevents, ?_⟩
  rw [hevents, filterMap_filterMap]
  congr 1
  funext w
  cases w <;> rfl

/-- A session that has sent one message, with a newline and a character of three bytes, and then a
keepalive. -/
def greeted : SseSession :=
  ((SseSession.createSession 0 ['s']).send ['a', '\n', '€']).ping

/-- Its bytes, cut inside that character and between the two newlines that end an event. -/
def greetedChunks : List (List UInt8) :=
  [(responseBytes (greeted.written 0)).take 52,
    ((responseBytes (greeted.written 0)).drop 52).take 3, [],
    (responseBytes (greeted.written 0)).drop 55]

theorem consumeStream_greeted :
    greetedChunks.flatten = responseBytes (greeted.written 0) ∧
      (consumeStream greetedChunks).filterMap forwardedMessage = [['a', '\n', '€']] := by
  have hflatten : greetedChunks.flatten = responseBytes (greeted.written 0) := by decide
  refine ⟨hflatten, ?_⟩
  rw [(consumeStream_written greeted 0 greetedChunks hflatten).2]
  decide

/-! ### Responses that supersede each other -/

/-- What happens to a session. -/
inductive SseLabel
  /-- A request comes, with a response of its own. -/
  | attachResponse (res : ℕ)
  | send (payload : List Char)
  | ping
  | close (code : ℕ) (reason : List Char)
  | terminate
  | resClosed (res : ℕ)

/-- A session, the responses that were superseded and the one that was not, and the events of what
the session was asked to write while it was open. -/
structure SseRun where
  session : SseSession
  before : List ℕ
  current : ℕ
  said : List SseEvent

namespace SseRun

variable {r r' : SseRun}

/-- A session that was created with response `0`. -/
def start (sid : List Char) : SseRun :=
  ⟨.createSession 0 sid, [], 0, [⟨"session".toList, sid⟩]⟩

/-- A write is asked for, which leaves the session at `s`. -/
def tell (r : SseRun) (w : SseWrite) (s : SseSession) : SseRun :=
  { r with
    session := s
    said := r.said ++ if r.session.readyState = .opened then (sseEvent w).toList else [] }

/-- A session under requests, writes and ends in any order. -/
def machine : Machine SseRun SseLabel where
  step r
    | .attachResponse res =>
      if r.session.written res ≠ [] then none
      else if r.session.readyState = .opened then
        some ⟨r.session.attachResponse res, r.before ++ [r.current], res, r.said⟩
      else some { r with session := r.session.attachResponse res }
    | .send payload => some (r.tell (.send payload) (r.session.send payload))
    | .ping => some (r.tell .ping r.session.ping)
    | .close code reason => some (r.tell (.close code reason) (r.session.close code reason))
    | .terminate => some { r with session := r.session.terminate }
    | .resClosed res => some { r with session := r.session.resClosed res }

/-- The events of the responses, one response after the other. -/
def events (r : SseRun) : List SseEvent :=
  (r.before ++ [r.current]).flatMap fun res => (r.session.written res).filterMap sseEvent

/-- What holds between two steps. -/
structure Inv (r : SseRun) : Prop where
  current : r.session.readyState = .opened → r.session.currentRes = some r.current
  fresh : r.current ∉ r.before
  written : ∀ res ∈ r.before ++ [r.current], r.session.written res ≠ []
  said : r.events = r.said

/-- An open session writes to its current response, and no other session writes. -/
theorem Inv.tell (h : r.Inv) (w : SseWrite) : (r.tell w (r.session.write w)).Inv := by
  rw [write, SseRun.tell]
  by_cases hopen : r.session.readyState = .opened
  · rw [if_neg (not_not.2 hopen), h.current hopen, if_pos hopen]
    refine ⟨fun _ => rfl, h.fresh, fun res hres => ?_, ?_⟩
    · rcases eq_or_ne res r.current with rfl | hne
      · simp
      · simpa [update_of_ne hne] using h.written res hres
    · have hsame : ∀ res ∈ r.before, update r.session.written r.current
          (r.session.written r.current ++ [w]) res = r.session.written res := fun res hres =>
        update_of_ne (ne_of_mem_of_not_mem hres h.fresh) ..
      rw [← h.said, events, events, flatMap_append, flatMap_append,
        flatMap_congr fun res hres => congrArg _ (hsame res hres), append_assoc]
      simp [filterMap_append, filterMap_cons]
      cases sseEvent w <;> rfl
  · rw [if_pos hopen, if_neg hopen, append_nil]
    exact h

/-- A session that is ended. -/
theorem Inv.ended (h : r.Inv) {s : SseSession} (hs : s.readyState = .closed)
    (hwritten : s.written = r.session.written) : Inv { r with session := s } where
  current hopen := by
    rw [hs] at hopen
    cases hopen
  fresh := h.fresh
  written := hwritten ▸ h.written
  said := by
    rw [← h.said, events, events, hwritten]

theorem Inv.step {a : SseLabel} (h : r.Inv) (hst : machine.step r a = some r') : r'.Inv := by
  cases a with
  | attachResponse res =>
    simp only [machine] at hst
    by_cases hnew : r.session.written res = []
    · rw [if_neg (not_not.2 hnew), attachResponse] at hst
      by_cases hopen : r.session.readyState = .opened
      · rw [if_pos hopen, if_neg (not_not.2 hopen), writeSseHeaders] at hst
        cases hst
        have hfresh : res ∉ r.before ++ [r.current] := fun hmem => h.written res hmem hnew
        have hsame : ∀ other ∈ r.before ++ [r.current],
            update r.session.written res (r.session.written res ++ [.retry]) other =
              r.session.written other :=
          fun other hmem => update_of_ne (ne_of_mem_of_not_mem hmem hfresh) ..
        refine ⟨fun _ => rfl, hfresh, forall_mem_append.2 ⟨fun other hmem => ?_, by simp⟩, ?_⟩
        · exact (hsame other hmem).trans_ne (h.written other hmem)
        · rw [← h.said, events, events, flatMap_append,
            flatMap_congr fun other hmem => congrArg _ (hsame other hmem)]
          simp [hnew, sseEvent]
      · rw [if_neg hopen, if_pos hopen] at hst
        cases hst
        exact h
    · rw [if_pos hnew] at hst
      cases hst
  | send payload =>
    cases hst
    exact h.tell _
  | ping =>
    cases hst
    exact h.tell _
  | close code reason =>
    cases hst
    rw [close]
    split_ifs with hclosed
    · rw [SseRun.tell, hclosed, if_neg (by decide), append_nil]
      exact h
    · exact (h.tell _).ended rfl rfl
  | terminate =>
    cases hst
    rw [terminate]
    split_ifs
    · exact h
    · exact h.ended rfl rfl
  | resClosed res =>
    cases hst
    rw [resClosed]
    split_ifs
    · exact h
    · exact h.ended rfl rfl

theorem inv_start (sid : List Char) : (start sid).Inv where
  current _ := rfl
  fresh := not_mem_nil
  written := by simp [start, createSession, writeSseHeaders, write]
  said := rfl

/-- **Nothing that a session says is lost or comes twice**, however often a request supersedes the
response it is said on: the events of the responses, one response after the other, are those of what
the session was asked to write while it was open. -/
theorem said_once {sid : List Char} (h : machine.Reachable (start sid) r) : r.events = r.said :=
  (h.invariant (inv_start sid) fun _ _ _ hr hst => hr.step hst).said

/-- The first response is dropped once it is superseded, and the second one later. -/
theorem said_once_superseded : ∃ r, machine.run (start [])
      [.send ['a'], .attachResponse 1, .resClosed 0, .send ['b'], .resClosed 1, .send ['c']] =
        some r ∧ r.events = [⟨"session".toList, []⟩, ⟨[], ['a']⟩, ⟨[], ['b']⟩] :=
  have hrun : machine.run (start []) [.send ['a'], .attachResponse 1, .resClosed 0, .send ['b'],
      .resClosed 1, .send ['c']] = some _ := rfl
  ⟨_, hrun, (said_once (Machine.reachable_of_run hrun)).trans (by decide)⟩

end SseRun

end Triage.Sync
