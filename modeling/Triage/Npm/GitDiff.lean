import Triage.Npm.Patch

/-!
# Diffs as git writes them

The unified diff of two trees of text files, as git writes it: for each file that it creates,
deletes, changes or renames, its headers, the paths of its sides, and its hunks, each showing lines
that are kept, removed and added under the numbers of the lines it is at. Paths are quoted under
either setting of `core.quotePath`.
-/

namespace Triage.NpmPatch

open Streams

/-! ### Texts by their lines -/

/-- Lines, each with its ending. -/
def ended (lines : List Text) : Text := lines.flatMap (· ++ ['\n'])

/-- The text of a run of lines, the last without an ending where it is unended. -/
def HunkPart.text (part : HunkPart) : Text :=
  if part.unended then (ended part.lines).dropLast else ended part.lines

/-- The parts that are of the text before. -/
def olds (parts : List HunkPart) : List HunkPart := parts.filter (·.kind ≠ .insertion)

/-- The parts that are of the text after. -/
def news (parts : List HunkPart) : List HunkPart := parts.filter (·.kind ≠ .deletion)

def sideText (side : List HunkPart) : Text := side.flatMap HunkPart.text

def sideLines (side : List HunkPart) : List Text := side.flatMap HunkPart.lines

/-- Only a text's last line is without an ending, and then it is not empty. -/
@[mk_iff]
structure IsSide (side : List HunkPart) : Prop where
  ended : side.Pairwise fun part _ => part.unended = false
  last : ∀ part ∈ side, part.unended = true → part.lines.getLast? ≠ some []

instance (side : List HunkPart) : Decidable (IsSide side) :=
  decidable_of_iff' _ (isSide_iff side)

/-! ### A text's change -/

/-- A hunk, and the lines kept between it and the one before it, which it does not show. -/
structure ShownHunk where
  gap : List Text
  parts : List HunkPart
  heading : Text := []
deriving DecidableEq

/-- The hunks of a change, and the lines kept past the last. -/
structure Edit where
  hunks : List ShownHunk
  rest : List Text := []
  unended : Bool := false
deriving DecidableEq

def keptPart (lines : List Text) (unended : Bool) : List HunkPart :=
  if lines = [] then [] else [⟨.context, lines, unended⟩]

/-- All lines in runs of a kind, those that no hunk shows among them. -/
def Edit.parts (e : Edit) : List HunkPart :=
  (e.hunks.flatMap fun h => keptPart h.gap false ++ h.parts) ++ keptPart e.rest e.unended

def Edit.before (e : Edit) : Text := sideText (olds e.parts)

def Edit.after (e : Edit) : Text := sideText (news e.parts)

/-- A change as git shows it. -/
@[mk_iff]
structure Edit.IsGit (e : Edit) : Prop where
  lines : ∀ part ∈ e.parts, part.lines ≠ [] ∧ ∀ line ∈ part.lines, '\n' ∉ line
  before : IsSide (olds e.parts)
  after : IsSide (news e.parts)
  /-- What is removed comes before what is added in its place. -/
  order : e.parts.IsChain fun a b => a.kind = .insertion → b.kind ≠ .deletion
  runs : ∀ h ∈ e.hunks, h.parts ≠ [] ∧ (h.parts.IsChain fun a b => a.kind ≠ b.kind) ∧
    '\n' ∉ h.heading
  /-- With a line of context around each change, a hunk that finds no line is of an empty text. -/
  context : ∀ h ∈ e.hunks, olds h.parts = [] → olds e.parts = []

instance (e : Edit) : Decidable e.IsGit := decidable_of_iff' _ (Edit.isGit_iff e)

/-- A text that is created or deleted whole. -/
def wholeEdit (kind : PartKind) (lines : List Text) (unended : Bool) : Edit :=
  { hunks := if lines = [] then [] else [{ gap := [], parts := [⟨kind, lines, unended⟩] }] }

/-! ### Hunks as they are written -/

def decimal (n : ℕ) : Text := Nat.toDigits 10 n

/-- The number of the first of some lines, counted from 1, or of the one before where there are
none, and how many they are unless one. -/
def rangeText (before count : ℕ) : Text :=
  decimal (if count = 0 then before else before + 1) ++
    if count = 1 then [] else ',' :: decimal count

def sign : PartKind → Char
  | .context => ' '
  | .deletion => '-'
  | .insertion => '+'

def partLines (part : HunkPart) : List Text :=
  part.lines.map (sign part.kind :: ·) ++ if part.unended then [noNewline] else []

def hunkHead (before after : ℕ) (h : ShownHunk) : Text :=
  "@@ -".toList ++ (rangeText before (sideLines (olds h.parts)).length ++ ' ' :: '+' ::
    (rangeText after (sideLines (news h.parts)).length ++ ' ' :: '@' :: '@' ::
      if h.heading = [] then [] else ' ' :: h.heading))

def hunkLines (before after : ℕ) (h : ShownHunk) : List Text :=
  hunkHead before after h :: h.parts.flatMap partLines

/-- The hunks past so many lines before and after. -/
def hunksLines : ℕ → ℕ → List ShownHunk → List Text
  | _, _, [] => []
  | before, after, h :: hunks =>
    hunkLines (before + h.gap.length) (after + h.gap.length) h ++
      hunksLines (before + h.gap.length + (sideLines (olds h.parts)).length)
        (after + h.gap.length + (sideLines (news h.parts)).length) hunks

/-! ### Paths as they are written -/

/-- The letter for a character that git writes by one after a backslash. -/
def letter (c : Char) : Option Char :=
  if c.toNat = 7 then some 'a' else if c.toNat = 8 then some 'b' else if c = '\t' then some 't'
  else if c = '\n' then some 'n' else if c.toNat = 11 then some 'v'
  else if c.toNat = 12 then some 'f' else if c = '\r' then some 'r'
  else if c = '"' then some '"' else if c = '\\' then some '\\' else none

def digit (n : ℕ) : Char := .ofNat (48 + n)

def octalText (b : UInt8) : Text :=
  ['\\', digit (b.toNat / 64), digit (b.toNat / 8 % 8), digit (b.toNat % 8)]

/-- Whether a character is written as it is: one past ASCII is under `core.quotePath=false`. -/
def isPlain (quotePath : Bool) (c : Char) : Bool :=
  0x20 ≤ c.toNat && c ≠ '"' && c ≠ '\\' && c.toNat ≠ 0x7F && (c.toNat < 0x80 || !quotePath)

def quoteChar (quotePath : Bool) (c : Char) : Text :=
  if isPlain quotePath c then [c]
  else
    match letter c with
    | some e => ['\\', e]
    | none => (String.utf8EncodeChar c).flatMap octalText

def quote (quotePath : Bool) (path : Text) : Text :=
  if path.all (isPlain quotePath) then path
  else '"' :: (path.flatMap (quoteChar quotePath) ++ ['"'])

/-- A side's path, with a tab after one with a space in it. -/
def sideName (quotePath : Bool) (pre : Text) : Option Text → Text
  | some path => quote quotePath (pre ++ path) ++ if ' ' ∈ path then ['\t'] else []
  | none => devNull

/-! ### A file's change -/

inductive Change where
  | created (path mode : Text) (lines : List Text) (unended : Bool)
  /-- The lines of a file that is deleted may be left out. -/
  | deleted (path mode : Text) (lines : List Text) (unended shown : Bool)
  | changed (path : Text) (edit : Edit)
  | renamed (source target : Text) (edit : Edit)
deriving DecidableEq

namespace Change

def edit : Change → Edit
  | created _ _ lines unended => wholeEdit .insertion lines unended
  | deleted _ _ lines unended _ => wholeEdit .deletion lines unended
  | changed _ edit => edit
  | renamed _ _ edit => edit

def source : Change → Option Text
  | created .. => none
  | deleted path .. => some path
  | changed path _ => some path
  | renamed source _ _ => some source

def target : Change → Option Text
  | created path .. => some path
  | deleted .. => none
  | changed path _ => some path
  | renamed _ target _ => some target

/-- The paths that hold something else after than before. -/
def touched : Change → List Text
  | created path .. => [path]
  | deleted path .. => [path]
  | changed path _ => [path]
  | renamed source target _ => [source, target]

def file (path : Option Text) (text : Text) : List NpmPackageFile :=
  path.toList.map fun path => ⟨path, encodeUtf8 text⟩

def before (c : Change) : List NpmPackageFile := file c.source c.edit.before

def after (c : Change) : List NpmPackageFile := file c.target c.edit.after

/-- The hunks that are shown. -/
def hunks : Change → List ShownHunk
  | deleted _ _ _ _ false => []
  | c => c.edit.hunks

/-- The paths a `diff --git` line names. -/
def gitLine (quotePath : Bool) : Change → Text
  | renamed source target _ => line source target
  | created path .. => line path path
  | deleted path .. => line path path
  | changed path _ => line path path
where
  line (a b : Text) : Text :=
    "diff --git ".toList ++
      (quote quotePath ('a' :: '/' :: a) ++ ' ' :: quote quotePath ('b' :: '/' :: b))

def headers (quotePath : Bool) : Change → List Text
  | created _ mode _ _ => ["new file mode ".toList ++ mode]
  | deleted _ mode _ _ _ => ["deleted file mode ".toList ++ mode]
  | changed .. => []
  | renamed source target _ =>
    ["rename from ".toList ++ quote quotePath source, "rename to ".toList ++ quote quotePath target]

def sides (quotePath : Bool) (c : Change) : List Text :=
  if c.hunks = [] then []
  else
    ["--- ".toList ++ sideName quotePath ['a', '/'] c.source,
      "+++ ".toList ++ sideName quotePath ['b', '/'] c.target]

/-- A file that keeps its path is in the diff for its text. -/
def Differs : Change → Prop
  | changed _ edit => edit.before ≠ edit.after
  | _ => True

instance : (c : Change) → Decidable c.Differs
  | changed _ edit => inferInstanceAs (Decidable (edit.before ≠ edit.after))
  | created .. | deleted .. | renamed .. => inferInstanceAs (Decidable True)

def mode : Change → Text
  | created _ mode _ _ => mode
  | deleted _ mode _ _ _ => mode
  | _ => []

end Change

/-- What git's other headers start with. -/
def infos : List Text :=
  ["old mode ".toList, "new mode ".toList, "similarity index ".toList,
    "dissimilarity index ".toList, "index ".toList]

/-- A file's change, with git's other headers above and below those that say what it is. -/
structure FileDiff where
  change : Change
  above : List Text := []
  below : List Text := []
deriving DecidableEq

def FileDiff.lines (quotePath : Bool) (d : FileDiff) : List Text :=
  d.change.gitLine quotePath :: (d.above ++ (d.change.headers quotePath ++ (d.below ++
    (d.change.sides quotePath ++ hunksLines 0 0 d.change.hunks))))

@[mk_iff]
structure FileDiff.IsGit (d : FileDiff) : Prop where
  edit : d.change.edit.IsGit
  /-- The texts are of no NUL. -/
  noNul : '\x00' ∉ d.change.edit.before ∧ '\x00' ∉ d.change.edit.after
  differs : d.change.Differs
  paths : ∀ path ∈ d.change.touched, isPatchPath path = true
  mode : '\n' ∉ d.change.mode
  infos : ∀ line ∈ d.above ++ d.below,
    '\n' ∉ line ∧ ∃ pre ∈ NpmPatch.infos, startsWith pre line = true

instance (d : FileDiff) : Decidable d.IsGit := decidable_of_iff' _ (FileDiff.isGit_iff d)

/-! ### Two trees -/

/-- Two trees, by the files they share and the changes of the others. -/
structure TreeDiff where
  shared : List NpmPackageFile
  files : List FileDiff
deriving DecidableEq

namespace TreeDiff

def before (t : TreeDiff) : List NpmPackageFile := t.shared ++ t.files.flatMap (·.change.before)

def after (t : TreeDiff) : List NpmPackageFile := t.shared ++ t.files.flatMap (·.change.after)

/-- The diff's text. -/
def text (quotePath : Bool) (t : TreeDiff) : Text :=
  ended (t.files.flatMap (FileDiff.lines quotePath))

/-- A path is of one file, shared or changed: git finds no copies, and breaks no file in two. -/
@[mk_iff]
structure IsGit (t : TreeDiff) : Prop where
  files : ∀ d ∈ t.files, d.IsGit
  paths : (t.shared.map (·.path) ++ t.files.flatMap (·.change.touched)).Nodup

instance (t : TreeDiff) : Decidable t.IsGit := decidable_of_iff' _ (isGit_iff t)

end TreeDiff

/-! ### Paths that are read otherwise -/

/-- A path's character past U+FFFF that is quoted as it is. -/
def IsHalved (quotePath : Bool) (path : Text) : Prop :=
  quote quotePath path ≠ path ∧ quotePath = false ∧ ∃ c ∈ path, 0xFFFF < c.toNat

/-- A byte order mark at the start of what is quoted. -/
def IsMarked (quotePath : Bool) (path : Text) : Prop :=
  quote quotePath path ≠ path ∧ path.head? = some byteOrderMark

instance (quotePath : Bool) (path : Text) : Decidable (IsHalved quotePath path) :=
  inferInstanceAs (Decidable (_ ∧ _ ∧ _))

instance (quotePath : Bool) (path : Text) : Decidable (IsMarked quotePath path) :=
  inferInstanceAs (Decidable (_ ∧ _))

/-- Only a path that a `rename` header names is quoted with nothing before it. -/
def Change.Readable (quotePath : Bool) : Change → Prop
  | .renamed source target _ => ∀ path ∈ [source, target],
      ¬IsHalved quotePath path ∧ ¬IsMarked quotePath path
  | c => ∀ path ∈ c.touched, ¬IsHalved quotePath path

instance (quotePath : Bool) : (c : Change) → Decidable (c.Readable quotePath)
  | .created path .. => inferInstanceAs (Decidable (∀ p ∈ [path], _))
  | .deleted path .. => inferInstanceAs (Decidable (∀ p ∈ [path], _))
  | .changed path _ => inferInstanceAs (Decidable (∀ p ∈ [path], _))
  | .renamed source target _ => inferInstanceAs (Decidable (∀ p ∈ [source, target], _ ∧ _))

def TreeDiff.Readable (quotePath : Bool) (t : TreeDiff) : Prop :=
  ∀ d ∈ t.files, d.change.Readable quotePath

instance (quotePath : Bool) (t : TreeDiff) : Decidable (t.Readable quotePath) :=
  inferInstanceAs (Decidable (∀ d ∈ t.files, d.change.Readable quotePath))

end Triage.NpmPatch
