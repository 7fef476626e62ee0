import Triage.Data.Grouping
import Triage.Streams.Utf8
import Mathlib.Data.List.Sort
import Mathlib.Data.List.Lex
import Mathlib.Data.List.DropRight
import Mathlib.Algebra.Ring.Nat

/-!
# Patches of a package

A patch of a package's version is read as git writes a diff, and applied to the version's files:
each file it deletes, creates, renames or changes, a change's hunks each found in the file as it
was and their changes made in turn.
-/

namespace Triage.NpmPatch

open Streams

/-- Text by its characters; none is half of a pair. -/
abbrev Text := List Char

/-- What an error is told as: `patch-unreadable`, `patch-unsupported` or `patch-does-not-apply`. -/
inductive PatchError where
  | unreadable
  | unsupported
  | doesNotApply
deriving DecidableEq

inductive PartKind where
  | context
  | deletion
  | insertion
deriving DecidableEq

structure HunkPart where
  kind : PartKind
  lines : List Text
  unended : Bool := false
deriving DecidableEq

/-- Where a header says its lines are, how many it finds, and its lines in runs of a kind. -/
structure PatchHunk where
  start : ℕ
  length : ℕ
  parts : List HunkPart
deriving DecidableEq

structure PatchedFile where
  path : Text
  source : Option Text := none
  deleted : Bool := false
  created : Bool := false
  hunks : List PatchHunk := []
deriving DecidableEq

def startsWith (pre t : Text) : Bool := pre.isPrefixOf t

/-- What is left of a text after what it starts with. -/
def after (pre t : Text) : Text := t.drop pre.length

/-! ### Paths -/

/-- A UTF-16 unit alone is encoded as it is, or as U+FFFD where it is half of a pair. -/
def unitBytes (c : Char) : List UInt8 :=
  if c.toNat ≤ 0xFFFF then encodeUtf8 [c] else encodeUtf8 ['\uFFFD', '\uFFFD']

def isOctal (c : Char) : Bool := 48 ≤ c.toNat && c.toNat ≤ 55

/-- The byte that three octal digits write, the first at most 3. -/
def octal (a b c : Char) : Option UInt8 :=
  if isOctal a && a.toNat ≤ 51 && isOctal b && isOctal c then
    some (.ofNat ((a.toNat - 48) * 64 + (b.toNat - 48) * 8 + (c.toNat - 48)))
  else none

/-- `ESCAPES` : the byte that a character stands for after a backslash. -/
def escaped (c : Char) : Option UInt8 :=
  if c = 'a' then some 7 else if c = 'b' then some 8 else if c = 't' then some 9
  else if c = 'n' then some 10 else if c = 'v' then some 11 else if c = 'f' then some 12
  else if c = 'r' then some 13 else if c = '"' then some 34 else if c = '\\' then some 92
  else none

/-- The bytes of a quoted path after its opening quote. -/
def quotedBytes : Text → Option (List UInt8)
  | [] => none
  | ['"'] => some []
  | '"' :: _ => none
  | '\\' :: a :: b :: c :: rest =>
    match octal a b c with
    | some byte => (quotedBytes rest).map (byte :: ·)
    | none => (escaped a).bind fun byte => (quotedBytes (b :: c :: rest)).map (byte :: ·)
  | '\\' :: a :: rest => (escaped a).bind fun byte => (quotedBytes rest).map (byte :: ·)
  | ['\\'] => none
  | c :: rest => (quotedBytes rest).map (unitBytes c ++ ·)

/-- A `TextDecoder` at its defaults. -/
def decodeText (bytes : List UInt8) : Text :=
  let read := utf8Decoder.feed .start bytes
  dropMark ((read.1 ++ read.2.finish).map (·.getD '\uFFFD'))

/-- A path as git writes it, unquoted where quoted. -/
def unquoted (path : Text) : Option Text :=
  match path with
  | '"' :: rest => (quotedBytes rest).map decodeText
  | path => some path

def devNull : Text := "/dev/null".toList

/-- A side's path after its prefix, none for no file. -/
def sidePath (named pre : Text) : Except PatchError (Option Text) :=
  match unquoted (if named.getLast? = some '\t' then named.dropLast else named) with
  | none => .error .unreadable
  | some path =>
    if path = devNull then .ok none
    else if startsWith pre path then .ok (some (after pre path)) else .error .unreadable

/-- A quoted path at the front of a text, with its quotes, and what follows it. -/
def takeQuoted : Text → Option (Text × Text)
  | '"' :: rest => (go rest).map fun p => ('"' :: p.1, p.2)
  | _ => none
where
  go : Text → Option (Text × Text)
    | '"' :: rest => some (['"'], rest)
    | '\\' :: c :: rest => (go rest).map fun p => ('\\' :: c :: p.1, p.2)
    | '\\' :: [] => none
    | c :: rest => (go rest).map fun p => (c :: p.1, p.2)
    | [] => none

/-- The paths a `diff --git` line names, where they are the same. -/
def gitPath (named : Text) : Option Text :=
  match named with
  | '"' :: _ =>
    match takeQuoted named with
    | some (a, ' ' :: rest) =>
      match takeQuoted rest with
      | some (b, []) =>
        match unquoted a, unquoted b with
        | some a, some b =>
          if startsWith ['a', '/'] a && startsWith ['b', '/'] b && a.drop 2 = b.drop 2 then
            some (a.drop 2)
          else none
        | _, _ => none
      | _ => none
    | _ => none
  | _ =>
    let length := (named.length - 5) / 2
    let path := (named.drop 2).take length
    if 5 ≤ named.length ∧ (named.length - 5) % 2 = 0 ∧ startsWith ['a', '/'] named ∧
        named.drop (2 + length) = [' ', 'b', '/'] ++ path then some path else none

def isControl (c : Char) : Bool := c.toNat < 0x20 || (0x7F ≤ c.toNat && c.toNat ≤ 0x9F)

/-- A text's length in UTF-16 units. -/
def unitLength (t : Text) : ℕ := (t.map fun c => if c.toNat ≤ 0xFFFF then 1 else 2).sum

/-- A path of names, with none empty, `.` or `..` among them, nor control characters or
backslashes. -/
def isPatchPath (path : Text) : Bool :=
  0 < unitLength path && unitLength path ≤ 1024 &&
    path.all (fun c => !isControl c && c ≠ '\\') &&
    (path.splitOn '/').all fun part => part ≠ [] && part ≠ ['.'] && part ≠ ['.', '.']

/-! ### Hunks -/

def takeNumber (t : Text) : Option (ℕ × Text) :=
  let digits := t.takeWhile Char.isDigit
  if digits = [] then none else some (Nat.ofDigitChars 10 digits 0, t.dropWhile Char.isDigit)

/-- A line, and a count where it has one after a comma. -/
def takeRange (t : Text) : Option (ℕ × ℕ × Text) :=
  match takeNumber t with
  | none => none
  | some (line, ',' :: rest) => (takeNumber rest).map fun p => (line, p.1, p.2)
  | some (line, rest) => some (line, 1, rest)

/-- The ranges that a hunk's header names: of what was and of what is. -/
def hunkRange (t : Text) : Option ((ℕ × ℕ) × ℕ × ℕ) :=
  if startsWith "@@ -".toList t then
    match takeRange (after "@@ -".toList t) with
    | some (old, olds, ' ' :: '+' :: rest) =>
      match takeRange rest with
      | some (line, news, rest) =>
        if startsWith " @@".toList rest then some ((old, olds), line, news) else none
      | none => none
    | _ => none
  else none

def lineKind (line : Text) : Option PartKind :=
  match line with
  | [] => some .context
  | ['\r'] => some .context
  | ' ' :: _ => some .context
  | '-' :: _ => some .deletion
  | '+' :: _ => some .insertion
  | _ => none

/-- A line put in the last part where it is of its kind, or in one of its own. -/
def addLine (parts : List HunkPart) (kind : PartKind) (line : Text) : List HunkPart :=
  match parts.getLast? with
  | some last =>
    if last.kind = kind then parts.dropLast ++ [{ last with lines := last.lines ++ [line] }]
    else parts ++ [⟨kind, [line], false⟩]
  | none => parts ++ [⟨kind, [line], false⟩]

def endLast (parts : List HunkPart) : List HunkPart :=
  match parts.getLast? with
  | some last => parts.dropLast ++ [{ last with unended := true }]
  | none => parts

def noNewline : Text := "\\ No newline at end of file".toList

/-- The lines that a hunk's header counts, and those after them. -/
def readLines : (lines : List Text) → (olds news : ℕ) → List HunkPart →
    Except PatchError (List HunkPart × List Text)
  | lines, 0, 0, parts => .ok (parts, lines)
  | [], _, _, _ => .error .unreadable
  | line :: rest, olds, news, parts =>
    match lineKind line with
    | none => .error .unreadable
    | some kind =>
      let parts := addLine parts kind (line.drop 1)
      if (kind ≠ .insertion ∧ olds = 0) ∨ (kind ≠ .deletion ∧ news = 0) then .error .unreadable
      else
        let olds := if kind ≠ .insertion then olds - 1 else olds
        let news := if kind ≠ .deletion then news - 1 else news
        match rest with
        | ('\\' :: marker) :: rest' =>
          -- the line before it is the last of its side, with no newline after it
          if startsWith noNewline ('\\' :: marker) then readLines rest' olds news (endLast parts)
          else .error .unreadable
        | rest => readLines rest olds news parts

/-- The hunk whose `@@` line comes first, and the lines after it. -/
def readHunk (head : Text) (lines : List Text) :
    Except PatchError (PatchHunk × List Text) :=
  match hunkRange head with
  | none => .error .unreadable
  | some ((line, olds), _, news) =>
    (readLines lines olds news []).map fun p => (⟨max line 1 - 1, olds, p.1⟩, p.2)

/-- The hunks that come first, and the lines after them. -/
def readHunks : ℕ → List Text → Except PatchError (List PatchHunk × List Text)
  | 0, lines => .ok ([], lines)
  | fuel + 1, lines =>
    match lines with
    | head :: rest =>
      if startsWith "@@ ".toList head then
        (readHunk head rest).bind fun p =>
          (readHunks fuel p.2).map fun q => (p.1 :: q.1, q.2)
      else .ok ([], lines)
    | [] => .ok ([], lines)

/-! ### Files -/

/-- A header's line but its CR. -/
def header (line : Text) : Text := if line.getLast? = some '\r' then line.dropLast else line

/-- What a file's headers say. -/
structure Headers where
  created : Bool := false
  deleted : Bool := false
  source : Option Text := none
  target : Option Text := none
deriving DecidableEq

def isBoundary (line : Text) : Bool :=
  startsWith "diff --git ".toList line || startsWith "@@ ".toList line ||
    startsWith "--- ".toList line

def readHeader (h : Headers) (line : Text) : Except PatchError Headers :=
  if line = "GIT binary patch".toList || startsWith "Binary files ".toList line then
    .error .unsupported
  else if startsWith "copy from ".toList line || startsWith "copy to ".toList line then
    .error .unsupported
  else if startsWith "deleted file mode ".toList line then .ok { h with deleted := true }
  else if startsWith "new file mode ".toList line then .ok { h with created := true }
  else if startsWith "rename from ".toList line then
    .ok { h with source := unquoted (after "rename from ".toList line) }
  else if startsWith "rename to ".toList line then
    .ok { h with target := unquoted (after "rename to ".toList line) }
  else .ok h

/-- The headers of a file, and the lines after them. -/
def readHeaders : Headers → List Text → Except PatchError (Headers × List Text)
  | h, [] => .ok (h, [])
  | h, line :: rest =>
    if isBoundary line then .ok (h, line :: rest)
    else (readHeader h (header line)).bind fun h => readHeaders h rest

/-- The paths of the two sides, where they are named, and the lines after them. -/
def readSides (lines : List Text) :
    Except PatchError (Option (Option Text × Option Text) × List Text) :=
  match lines with
  | before :: rest =>
    if startsWith "--- ".toList before then
      match rest with
      | now :: rest =>
        if startsWith "+++ ".toList now then
          (sidePath ((header before).drop 4) ['a', '/']).bind fun a =>
            (sidePath ((header now).drop 4) ['b', '/']).map fun b => (some (a, b), rest)
        else .error .unreadable
      | [] => .error .unreadable
    else .ok (none, lines)
  | [] => .ok (none, lines)

/-- A file's change by its headers, its sides and its hunks. -/
def patchedFile (named : Option Text) (h : Headers) (sides : Option (Option Text × Option Text))
    (hunks : List PatchHunk) : Except PatchError PatchedFile :=
  let now := h.target.or (match sides with | some s => s.2 | none => named)
  let before := h.source.or (match sides with | some s => s.1 | none => named)
  if h.source.isNone ≠ h.target.isNone ∨ (h.deleted ∧ h.created) then .error .unreadable
  else
    match (if h.deleted then before else now) with
    | none => .error .unreadable
    | some path =>
      if (¬h.created ∧ before = none) ∨ (¬h.deleted ∧ now = none) ∨
          ¬(before.all isPatchPath ∧ now.all isPatchPath) ∨
          (h.source = none ∧ ¬h.deleted ∧ ¬h.created ∧ before ≠ now) then .error .unreadable
      else
        .ok { path, source := if h.source.isSome ∧ h.target.isSome then before else none,
              deleted := h.deleted, created := h.created,
              hunks := if h.deleted then [] else hunks }

/-- The files of a patch's lines. -/
def parseLines : ℕ → List Text → Except PatchError (List PatchedFile)
  | 0, _ => .ok []
  | _, [] => .ok []
  | fuel + 1, line :: rest =>
    let head := header line
    if startsWith "diff --git ".toList head then
      (readHeaders {} rest).bind fun p =>
        (readSides p.2).bind fun q =>
          -- the hunks are read once the paths are known to be right
          (patchedFile (gitPath (after "diff --git ".toList head)) p.1 q.1 []).bind fun _ =>
            (readHunks q.2.length q.2).bind fun r =>
              (patchedFile (gitPath (after "diff --git ".toList head)) p.1 q.1 r.1).bind fun file =>
                (parseLines fuel r.2).map (file :: ·)
    else parseLines fuel rest

/-- The lines of a patch that are read: those but the empty one past its last ending. -/
def patchLines (patch : Text) : List Text :=
  let lines := patch.splitOn '\n'
  if patch.getLast? = some '\n' then lines.dropLast else lines

def parsePatch (patch : Text) : Except PatchError (List PatchedFile) :=
  parseLines (patchLines patch).length (patchLines patch)

/-! ### Applying hunks -/

def splitLines (text : Text) : List Text := text.splitOn '\n'

def joinLines (lines : List Text) : Text := ['\n'].intercalate lines

def isSpace (c : Char) : Bool :=
  (9 ≤ c.toNat && c.toNat ≤ 13) || (0x2000 ≤ c.toNat && c.toNat ≤ 0x200A) ||
    c.toNat ∈ [0x20, 0xA0, 0x1680, 0x2028, 0x2029, 0x202F, 0x205F, 0x3000, 0xFEFF]

def trimEnd (line : Text) : Text := line.rdropWhile isSpace

/-- A change of a file's lines: some removed and some added in their place, or an empty last line
added or removed. -/
inductive LineChange where
  | splice (start : ℕ) (remove : ℕ) (insert : List Text)
  | push
  | pop
deriving DecidableEq

/-- The changes of a hunk's parts where their lines are. -/
def partChanges (lines : List Text) : ℕ → List HunkPart → Option (List LineChange)
  | _, [] => some []
  | i, part :: parts =>
    match part.kind with
    | .insertion => (partChanges lines i parts).map fun changes =>
        .splice i 0 part.lines :: ((if part.unended then [.pop] else []) ++ changes)
    | kind =>
      if ((lines.drop i).take part.lines.length).map trimEnd = part.lines.map trimEnd then
        (partChanges lines (i + part.lines.length) parts).map fun changes =>
          (if kind = .deletion then .splice i part.lines.length [] ::
            (if part.unended then [.push] else []) else []) ++ changes
      else none

def changesAt (hunk : PatchHunk) (lines : List Text) (i : ℤ) : Option (List LineChange) :=
  if i < 0 ∨ (lines.length : ℤ) - i < hunk.length then none
  else partChanges lines i.toNat hunk.parts

def FUZZ : ℕ := 20

/-- Where a hunk's lines are looked for: the nearer first, and the earlier of two as near. -/
def offsets : List ℤ := 0 :: (List.range FUZZ).flatMap fun n => [-((n : ℤ) + 1), (n : ℤ) + 1]

def hunkChanges (lines : List Text) (hunk : PatchHunk) : Except PatchError (List LineChange) :=
  match offsets.findSome? fun offset => changesAt hunk lines (hunk.start + offset) with
  | some changes => .ok changes
  | none => .error .doesNotApply

/-- `Array.splice` : from the end where its start is negative. -/
def splice (lines : List Text) (start : ℤ) (remove : ℕ) (insert : List Text) : List Text :=
  let i := if start < 0 then ((lines.length : ℤ) + start).toNat else min start.toNat lines.length
  lines.take i ++ insert ++ lines.drop (i + remove)

/-- The lines, and how far those after the last change were moved. -/
def applyChange (s : List Text × ℤ) : LineChange → List Text × ℤ
  | .splice start remove insert =>
    (splice s.1 (start + s.2) remove insert, s.2 + (insert.length - remove : ℤ))
  | .push => (s.1 ++ [[]], s.2)
  | .pop => (s.1.dropLast, s.2)

def applied (text : Text) (hunks : List PatchHunk) : Except PatchError Text :=
  (hunks.mapM (hunkChanges (splitLines text))).map fun changes =>
    joinLines (changes.flatten.foldl applyChange (splitLines text, 0)).1

/-! ### Applying a patch -/

structure NpmPackageFile where
  path : Text
  bytes : List UInt8
deriving DecidableEq

/-- A file's text, none for bytes that are not UTF-8 text. -/
def npmFileText (bytes : List UInt8) : Option Text :=
  if 0 ∈ bytes then none else decodeUtf8 true bytes

/-- The files by their paths. -/
abbrev ByPath := List (Text × List UInt8)

def remove (path : Text) (byPath : ByPath) : ByPath := byPath.filter fun p => p.1 ≠ path

def set (path : Text) (bytes : List UInt8) (byPath : ByPath) : ByPath :=
  Grouping.alter path (fun _ => bytes) byPath

/-- What a file that is created holds: its first hunk's first lines. -/
def createdText (hunks : List PatchHunk) : Text :=
  match hunks.head?.bind fun hunk => hunk.parts.head? with
  | some first => joinLines first.lines ++ if first.unended then [] else ['\n']
  | none => []

def patchFile (byPath : ByPath) (file : PatchedFile) : Except PatchError ByPath :=
  if file.created then .ok (set file.path (encodeUtf8 (createdText file.hunks)) byPath)
  else
    let source := file.source.getD file.path
    match Grouping.get source byPath with
    | none => .error .doesNotApply
    | some bytes =>
      if file.deleted then .ok (remove source byPath)
      else
        let next : Except PatchError (List UInt8) :=
          if file.hunks = [] then .ok bytes
          else
            match npmFileText bytes with
            | none => .error .doesNotApply
            | some text => (applied text file.hunks).map encodeUtf8
        next.bind fun next =>
          if file.source.isSome then
            if (Grouping.get file.path byPath).isSome then .error .doesNotApply
            else .ok (set file.path next (remove source byPath))
          else .ok (set file.path next byPath)

/-- A text's UTF-16 units. -/
def units (t : Text) : List ℕ :=
  t.flatMap fun c =>
    if c.toNat ≤ 0xFFFF then [c.toNat]
    else [0xD800 + (c.toNat - 0x10000) / 0x400, 0xDC00 + (c.toNat - 0x10000) % 0x400]

def sortByPath (files : List NpmPackageFile) : List NpmPackageFile :=
  files.insertionSort fun a b => units a.path ≤ units b.path

def byPathOf (files : List NpmPackageFile) : ByPath :=
  files.foldl (fun byPath file => set file.path file.bytes byPath) []

/-- A version's files with a patch applied, in the order of their paths. -/
def patchedFiles (files : List NpmPackageFile) (patch : List PatchedFile) :
    Except PatchError (List NpmPackageFile) :=
  (patch.foldlM patchFile (byPathOf files)).map fun byPath =>
    sortByPath (byPath.map fun p => ⟨p.1, p.2⟩)

end Triage.NpmPatch
