import Mathlib.Algebra.Ring.Nat
import Triage.Data.Occurrences

/-!
# Searching a bundle

A search goes through the lines of the sources of a bundle, up to a number of hits and of files.
Recent results are kept: the same query is answered by its result, and one that contains an earlier
query by those of its hits that are left.
-/

namespace Triage.BundleSearch

/-- Strings are sequences of code units. -/
abbrev Text := List UInt16

/-- What a regular expression finds from an index on, by its index and its length. -/
abbrev Exec := Text → ℕ → Option (ℕ × ℕ)

structure Language where
  toLowerCase : Text → Text
  /-- `new RegExp(pattern, flags)` -/
  newRegExp : Text → String → Except String Exec

def searchMaxTotalHits : ℕ := 5000

def searchMaxFiles : ℕ := 500

def searchMaxMarksPerLine : ℕ := 50

def searchHistoryMax : ℕ := 8

/-- The ranges in a line. -/
abbrev Matcher := Text → List (ℕ × ℕ)

variable (js : Language)

/-! ### Matchers -/

/-- Unicode mode first, and then the legacy one. -/
def compileSearchRegex (pattern : Text) (caseSensitive : Bool) : Except String Exec :=
  match js.newRegExp pattern (if caseSensitive then "gu" else "giu") with
  | .ok exec => .ok exec
  | .error _ => js.newRegExp pattern (if caseSensitive then "g" else "gi")

/-- The matches from an index on, but for those without width; `marks` are there already. Each step
goes on in the line, so that there are no more of them than it is long; an expression that stays
where it is has no end in the source. -/
def regexRanges (exec : ℕ → Option (ℕ × ℕ)) : ℕ → ℕ → ℕ → List (ℕ × ℕ)
  | 0, _, _ => []
  | n + 1, lastIndex, marks =>
    match exec lastIndex with
    | none => []
    | some (i, 0) => regexRanges exec n (i + 1) marks
    | some (i, length) =>
      (i, i + length) ::
        if searchMaxMarksPerLine ≤ marks + 1 then []
        else regexRanges exec n (i + length) (marks + 1)

/-- Case is folded unless the search is sensitive to it. -/
def foldCase (caseSensitive : Bool) (text : Text) : Text :=
  if caseSensitive then text else js.toLowerCase text

def buildSearchMatcher (query : Text) (useRegex caseSensitive : Bool) : Except String Matcher :=
  if useRegex then
    (compileSearchRegex js query caseSensitive).map fun exec line =>
      regexRanges (exec line) (line.length + 2) 0 0
  else
    .ok fun line => Occurrences.walk (foldCase js caseSensitive line)
      (foldCase js caseSensitive query) searchMaxMarksPerLine 0

/-! ### Scans -/

structure Hit where
  ln : ℕ
  ranges : List (ℕ × ℕ)
  deriving DecidableEq

structure FileResult where
  path : Text
  lines : List Text
  hits : List Hit
  deriving DecidableEq

structure SearchResult where
  fileResults : List FileResult
  totalHits : ℕ
  truncated : Bool
  deriving DecidableEq

/-- The sources by path, some of which are no text, and the order in which they are scanned. -/
structure Bundle where
  sources : List (Text × Option Text)
  order : Option (List Text)

def Bundle.content (b : Bundle) (path : Text) : Option Text :=
  (b.sources.find? (·.1 = path)).bind Prod.snd

/-- `order ?? [...sources.keys()].toSorted()` -/
def Bundle.allPaths (b : Bundle) : List Text :=
  b.order.getD ((b.sources.map Prod.fst).mergeSort (· ≤ ·))

/-- `content.split('\n')` -/
def splitLines (content : Text) : List Text := content.splitOn 10

/-- A line with its index; the hits of the file, all hits, and whether there are too many. -/
def scanLine (ranges : Matcher) (s : List Hit × ℕ × Bool) (x : Text × ℕ) : List Hit × ℕ × Bool :=
  if s.2.2 ∨ ranges x.1 = [] then s
  else (s.1 ++ [⟨x.2 + 1, ranges x.1⟩], s.2.1 + 1, searchMaxTotalHits ≤ s.2.1 + 1)

def scanFile (b : Bundle) (ranges : Matcher) (r : SearchResult) (path : Text) : SearchResult :=
  if r.truncated then r
  else
    match b.content path with
    | none => r
    | some content =>
      have s := (splitLines content).zipIdx.foldl (scanLine ranges) ([], r.totalHits, false)
      have fileResults := if s.1 = [] then r.fileResults
        else r.fileResults ++ [⟨path, splitLines content, s.1⟩]
      ⟨fileResults, s.2.1, s.2.2 || searchMaxFiles ≤ fileResults.length⟩

def fullSearch (b : Bundle) (ranges : Matcher) : SearchResult :=
  b.allPaths.foldl (scanFile b ranges) ⟨[], 0, false⟩

/-- The hits of a file that are left. -/
def refineFile (ranges : Matcher) (file : FileResult) : List Hit :=
  file.hits.filterMap fun hit =>
    have found := ranges (file.lines[hit.ln - 1]?.getD [])
    if found = [] then none else some ⟨hit.ln, found⟩

def refineSearch (base : SearchResult) (ranges : Matcher) : SearchResult where
  fileResults := base.fileResults.filterMap fun file =>
    if refineFile ranges file = [] then none else some { file with hits := refineFile ranges file }
  totalHits := (base.fileResults.map fun file => (refineFile ranges file).length).sum
  truncated := false

/-! ### The history -/

/-- The recent results of one bundle and one way to search, the latest first. -/
structure History (Tag : Type*) where
  tag : Option Tag
  useRegex : Bool
  caseSensitive : Bool
  entries : List (Text × SearchResult)

def History.start (Tag : Type*) : History Tag := ⟨none, false, false, []⟩

/-- The query with its case folded, where that is the same search. -/
def foldQuery (useRegex caseSensitive : Bool) (query : Text) : Text :=
  if useRegex then query else foldCase js caseSensitive query

/-- The entry whose query is the longest one that the key contains, and all of whose hits are
there. -/
def findBase (fold : Text → Text) (key : Text) (useRegex : Bool)
    (entries : List (Text × SearchResult)) : Option (SearchResult × ℕ) :=
  entries.foldl (fun base e =>
    if useRegex ∨ e.2.truncated ∨ (∃ b ∈ base, (fold e.1).length ≤ b.2) ∨
        Occurrences.indexOf key (fold e.1) 0 = none then base
    else some (e.2, (fold e.1).length)) none

variable {Tag : Type*} [DecidableEq Tag]

structure Call (Tag : Type*) where
  tag : Tag
  query : Text
  useRegex : Bool
  caseSensitive : Bool

/-- The history, which is emptied for another bundle or another way to search. -/
def History.forCall (h : History Tag) (c : Call Tag) : History Tag :=
  if h.tag = some c.tag ∧ h.useRegex = c.useRegex ∧ h.caseSensitive = c.caseSensitive then h
  else ⟨some c.tag, c.useRegex, c.caseSensitive, []⟩

/-- Each tag stands for a bundle. -/
def runBundleSearch (bundles : Tag → Bundle) (h : History Tag) (c : Call Tag) :
    Except String SearchResult × History Tag :=
  if c.query = [] then (.ok ⟨[], 0, false⟩, h)
  else
    match buildSearchMatcher js c.query c.useRegex c.caseSensitive with
    | .error message => (.error message, h)
    | .ok ranges =>
      have h := h.forCall c
      have fold := foldQuery js c.useRegex c.caseSensitive
      match h.entries.find? fun e => fold e.1 = fold c.query with
      | some e =>
        (.ok e.2, { h with entries := e :: h.entries.eraseP fun e => fold e.1 = fold c.query })
      | none =>
        have base := findBase fold (fold c.query) c.useRegex h.entries
        have result := (base.map fun base => refineSearch base.1 ranges).getD
          (fullSearch (bundles c.tag) ranges)
        (.ok result, { h with entries := ((c.query, result) :: h.entries).take searchHistoryMax })

/-- The answers to calls one after another. -/
def answers (bundles : Tag → Bundle) : History Tag → List (Call Tag) →
    List (Except String SearchResult)
  | _, [] => []
  | h, c :: calls =>
    (runBundleSearch js bundles h c).1 :: answers bundles (runBundleSearch js bundles h c).2 calls

/-- The answer of a scan from scratch. -/
def scratch (bundles : Tag → Bundle) (c : Call Tag) : Except String SearchResult :=
  if c.query = [] then .ok ⟨[], 0, false⟩
  else (buildSearchMatcher js c.query c.useRegex c.caseSensitive).map (fullSearch (bundles c.tag))

end Triage.BundleSearch
