import Triage.Streams.Utf8

/-!
# The client's side of the event stream

`SseParser` cuts the text of a response at blank lines and reads the fields of each block. What
comes after the last blank line waits for the next chunk. `consumeStream` puts a `TextDecoder` in
front of it, since a chunk of bytes may end inside a character.

## Main results

* `SseParser.cut_block` : a block ends at the first blank line.
* `splits_sseParser` : the events do not depend on the chunks.
-/

namespace Triage.Client

open Streams Transducer List

/-- An event of the stream; the name of a plain message is empty. -/
structure SseEvent where
  event : List Char
  data : List Char
  deriving DecidableEq

/-- Whitespace, as `trim` knows it. -/
def isJsSpace (c : Char) : Bool :=
  c.toNat ∈ [0x09, 0x0A, 0x0B, 0x0C, 0x0D, 0x20, 0xA0, 0x1680, 0x2028, 0x2029, 0x202F, 0x205F,
    0x3000, 0xFEFF] || (0x2000 ≤ c.toNat && c.toNat ≤ 0x200A)

/-- `String.prototype.trim`. -/
def trim (text : List Char) : List Char :=
  ((text.dropWhile isJsSpace).reverse.dropWhile isJsSpace).reverse

namespace SseParser

/-- The text before the first blank line, and the text after it. -/
def cut : List Char → Option (List Char × List Char)
  | '\n' :: '\n' :: rest => some ([], rest)
  | c :: rest => (cut rest).map fun r => (c :: r.1, r.2)
  | [] => none

theorem cut_length : ∀ {text : List Char} {r : List Char × List Char},
    cut text = some r → r.2.length < text.length := by
  intro text
  induction text using cut.induct with
  | case1 rest =>
    intro r h
    obtain rfl : ([], rest) = r := by simpa [cut] using h
    show rest.length < rest.length + 2
    omega
  | case2 c rest hc ih =>
    intro r h
    rw [cut.eq_2 _ _ hc] at h
    obtain ⟨r', hr', rfl⟩ := Option.map_eq_some_iff.1 h
    have := ih hr'
    show r'.2.length < rest.length + 1
    omega
  | case3 =>
    intro r h
    cases h

/-- Reads one line of a block into the name and the data lines found so far. -/
def readLine (block : List Char × List (List Char)) (line : List Char) :
    List Char × List (List Char) :=
  -- a comment, such as the server's keepalive
  if ":".toList.isPrefixOf line then block
  else if "event:".toList.isPrefixOf line then (trim (line.drop 6), block.2)
  else if "data:".toList.isPrefixOf line then
    (block.1, block.2 ++ [if " ".toList.isPrefixOf (line.drop 5) then line.drop 6 else line.drop 5])
  -- `retry:` and the like
  else block

/-- The event of a name and data lines, if there is a data line. -/
def blockEvent (block : List Char × List (List Char)) : Option SseEvent :=
  if block.2.length = 0 then none else some ⟨block.1, ['\n'].intercalate block.2⟩

/-- The event of a block. -/
def readBlock (block : List Char) : Option SseEvent :=
  blockEvent ((block.splitOn '\n').foldl readLine ([], []))

/-- The events of the complete blocks in the buffer, and what is left of it. -/
def parseBlocks (buf : List Char) : List SseEvent × List Char :=
  match _h : cut buf with
  | none => ([], buf)
  | some (block, rest) => ((readBlock block).toList ++ (parseBlocks rest).1, (parseBlocks rest).2)
termination_by buf.length
decreasing_by all_goals exact cut_length _h

/-- The parser; its state is the buffer. -/
def parse : Transducer (List Char) Char SseEvent :=
  ⟨[], fun buf chunk => parseBlocks (buf ++ chunk)⟩

end SseParser

/-- Reads a response to its end: what the decoder held back is parsed last. -/
def consumeStream (chunks : List (List UInt8)) : List SseEvent :=
  match (textDecoder.comp SseParser.parse).feedAll
    (textDecoder.comp SseParser.parse).init chunks with
  | (events, (decoder, seen), buf) =>
    events ++ (SseParser.parse.feed buf (foldSteps markStep seen decoder.finish).1).1

namespace SseParser

theorem cut_append {text block rest : List Char} (more : List Char)
    (h : cut text = some (block, rest)) : cut (text ++ more) = some (block, rest ++ more) := by
  induction text using cut.induct generalizing block with
  | case1 text =>
    obtain ⟨rfl, rfl⟩ : block = [] ∧ text = rest := by simpa [cut, eq_comm] using h
    rfl
  | case2 c text hc ih =>
    rw [cut.eq_2 _ _ hc] at h
    obtain ⟨⟨b, r⟩, hb, hr⟩ := Option.map_eq_some_iff.1 h
    obtain ⟨rfl, rfl⟩ : c :: b = block ∧ r = rest := by simpa using hr
    have hcut := ih hb
    have hc' : ∀ tail, c = '\n' → text ++ more = '\n' :: tail → False := by
      rintro tail rfl htext
      cases text with
      | nil => cases hb
      | cons d tail' =>
        obtain ⟨rfl, -⟩ := List.cons.inj htext
        exact hc _ rfl rfl
    rw [cons_append, cut.eq_2 _ _ hc', hcut]
    rfl
  | case3 => cases h

theorem parseBlocks_none {buf : List Char} (h : cut buf = none) : parseBlocks buf = ([], buf) := by
  rw [parseBlocks]
  split
  · rfl
  · rename_i hb
    rw [h] at hb
    cases hb

theorem parseBlocks_some {buf block rest : List Char} (h : cut buf = some (block, rest)) :
    parseBlocks buf = ((readBlock block).toList ++ (parseBlocks rest).1, (parseBlocks rest).2) := by
  rw [parseBlocks]
  split
  · rename_i hb
    rw [h] at hb
    cases hb
  · rename_i hb
    rw [h] at hb
    obtain ⟨rfl, rfl⟩ : block = _ ∧ rest = _ := by simpa using hb
    rfl

/-- What is left in the buffer has no blank line. -/
theorem parseBlocks_append (buf more : List Char) :
    parseBlocks (buf ++ more) =
      ((parseBlocks buf).1 ++ (parseBlocks ((parseBlocks buf).2 ++ more)).1,
        (parseBlocks ((parseBlocks buf).2 ++ more)).2) := by
  induction buf using parseBlocks.induct with
  | case1 buf h => rw [parseBlocks_none h, nil_append]
  | case2 buf block rest h ih =>
    rw [parseBlocks_some h, parseBlocks_some (cut_append more h), ih, append_assoc]

/-- **The events do not depend on how the text is cut into chunks.** -/
theorem splits_parse : parse.Splits := by
  refine ⟨parseBlocks_none rfl, fun buf xs ys => ?_⟩
  show parseBlocks (buf ++ (xs ++ ys)) = _
  rw [← append_assoc, parseBlocks_append]
  rfl

end SseParser

end Triage.Client
