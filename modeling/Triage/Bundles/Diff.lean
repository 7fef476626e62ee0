import Triage.Data.Tally

/-!
# The difference of two bundles

Two bundles are compared file by file: the files of the base as the other bundle lays them out, each
in one bundle alone, changed, or unchanged, then what was renamed within a package, then the
packages by what their files count.
-/

namespace Triage.Bundles

open Grouping

/-! ### Files -/

/-- What a bundle holds of a file: text, a resource by its base64 spelling, an npm package's binary
by its digest and size, or something of no kind that is known, itself. -/
inductive FileContent where
  | text (content : String)
  | base64 (data : String)
  | digest (digest : String) (size : Option ℕ)
  | other (identity : ℕ)
  deriving DecidableEq

def base64Alphabet : List Char :=
  "ABCDEFGHIJKLMNOPQRSTUVWXYZabcdefghijklmnopqrstuvwxyz0123456789+/".toList

/-- The number of bytes that a base64 spelling decodes to, strictly. -/
def base64ByteLength (text : List Char) : Option ℕ :=
  let padded := text.getLast? == some '='
  if (if padded then text.length % 4 ≠ 0 ∨ text.reverse[2]? = some '='
      else text.length % 4 = 1) then none
  else
    let data := if padded then text.dropLast else text
    -- a second padding character
    let data := if padded && data.getLast? == some '=' then data.dropLast else data
    if data.any (· ∉ base64Alphabet) then none
    else
      let tail := data.length % 4
      -- the bits of the last character past the bytes that it spells
      let stray := base64Alphabet.idxOf (data.getLastD 'A') &&& (if tail = 2 then 0x0F else 0x03)
      if 1 < tail ∧ stray ≠ 0 then none
      else some (data.length * 3 / 4)

def bundleFileByteLength : FileContent → Option ℕ
  | .text content => some content.utf8ByteSize
  | .digest _ size => size
  | .base64 data => base64ByteLength data.toList
  | .other _ => none

/-- A file with no size to give, or none at all, counts as zero bytes. -/
def byteLen (content : Option FileContent) : ℤ := ((content.bind bundleFileByteLength).getD 0 : ℕ)

theorem byteLen_nonneg (content : Option FileContent) : 0 ≤ byteLen content := Int.natCast_nonneg _

/-- Text by what it says, resources by their spelling and binaries by their digest. -/
def sameContent : Option FileContent → Option FileContent → Bool
  | some (.text a), some (.text b) => a == b
  | some (.base64 a), some (.base64 b) => a == b
  | some (.digest a _), some (.digest b _) => a == b
  | some (.other a), some (.other b) => a == b
  | none, none => true
  | _, _ => false

/-- What a stasis bundle records of a file beside its bytes. -/
structure FileMeta where
  format : Option String
  executable : Bool
  entry : Bool
  deriving DecidableEq

/-- How one field of a file's record changed. -/
inductive MetaChange where
  | format (before after : Option String)
  | executable (before after : Bool)
  | entry (before after : Bool)
  deriving DecidableEq

/-- None where either side records nothing. -/
def metaChanges : Option FileMeta → Option FileMeta → List MetaChange
  | some before, some after =>
    (if before.format ≠ after.format then [.format before.format after.format] else []) ++
      (if before.executable ≠ after.executable then
        [.executable before.executable after.executable] else []) ++
      (if before.entry ≠ after.entry then [.entry before.entry after.entry] else [])
  | _, _ => []

/-- A file's content as it is read to find renames; one of no known kind by its place in its list
alone. -/
def treeData (content : Option FileContent) (place : String) : String :=
  match content with
  | some (.text content) => "\x00text\x00" ++ content
  | some (.base64 data) => "\x00base64\x00" ++ data
  | some (.digest digest _) => "\x00digest\x00" ++ digest
  | _ => "\x00none\x00" ++ place

/-! ### Rows -/

/-- A file of one bundle alone. -/
structure SideRow where
  path : String
  basePath : Option String
  bytes : ℤ
  deriving DecidableEq

/-- A file of both bundles that changed; `modified` is left out where its contents did and its path
did not. -/
structure ChangedRow where
  path : String
  renamedFrom : Option String
  basePath : Option String
  baseBytes : ℤ
  otherBytes : ℤ
  delta : ℤ
  modified : Option Bool
  changes : List MetaChange
  deriving DecidableEq

/-- The path of a changed file in the base, as the other bundle lays it out. -/
def ChangedRow.baseName (row : ChangedRow) : String := row.renamedFrom.getD row.path

/-- What a package counts. -/
@[ext] structure PkgAcc where
  baseBytes : ℤ
  otherBytes : ℤ
  onlyBaseFiles : ℤ
  onlyOtherFiles : ℤ
  changedFiles : ℤ
  deriving DecidableEq

namespace PkgAcc

def emptyPkgAcc : PkgAcc := ⟨0, 0, 0, 0, 0⟩

/-- One count added to another. -/
def add (a b : PkgAcc) : PkgAcc :=
  ⟨a.baseBytes + b.baseBytes, a.otherBytes + b.otherBytes, a.onlyBaseFiles + b.onlyBaseFiles,
    a.onlyOtherFiles + b.onlyOtherFiles, a.changedFiles + b.changedFiles⟩

instance : Zero PkgAcc := ⟨emptyPkgAcc⟩

instance : Add PkgAcc := ⟨add⟩

instance : AddMonoid PkgAcc where
  add_assoc a b c := PkgAcc.ext (add_assoc _ _ _) (add_assoc _ _ _) (add_assoc _ _ _)
    (add_assoc _ _ _) (add_assoc _ _ _)
  zero_add a := PkgAcc.ext (zero_add _) (zero_add _) (zero_add _) (zero_add _) (zero_add _)
  add_zero a := PkgAcc.ext (add_zero _) (add_zero _) (add_zero _) (add_zero _) (add_zero _)
  nsmul := nsmulRec

/-- Present in the base: by its bytes, or by a file in the base alone or changed. -/
def onBase (acc : PkgAcc) : Bool :=
  decide (0 < acc.baseBytes) || decide (0 < acc.onlyBaseFiles) || decide (0 < acc.changedFiles)

def onOther (acc : PkgAcc) : Bool :=
  decide (0 < acc.otherBytes) || decide (0 < acc.onlyOtherFiles) || decide (0 < acc.changedFiles)

def movedFiles (acc : PkgAcc) : ℤ := acc.onlyBaseFiles + acc.onlyOtherFiles + acc.changedFiles

end PkgAcc

/-- How a package is listed. -/
inductive PkgClass where
  | onlyBase
  | onlyOther
  | changed
  | unchanged
  deriving DecidableEq

def PkgAcc.classify (acc : PkgAcc) : PkgClass :=
  if acc.onBase && !acc.onOther then .onlyBase
  else if acc.onOther && !acc.onBase then .onlyOther
  else if 0 < acc.movedFiles ∨ acc.baseBytes ≠ acc.otherBytes then .changed
  else .unchanged

/-- A package of one bundle alone, or one that did not change. -/
structure PkgRow where
  pkg : String
  bytes : ℤ
  deriving DecidableEq

structure PkgChangedRow where
  pkg : String
  baseBytes : ℤ
  otherBytes : ℤ
  delta : ℤ
  deriving DecidableEq

structure DiffTotals where
  baseFiles : ℤ
  baseBytes : ℤ
  otherFiles : ℤ
  otherBytes : ℤ
  onlyBaseFiles : ℤ
  onlyBaseBytes : ℤ
  onlyOtherFiles : ℤ
  onlyOtherBytes : ℤ
  changedFiles : ℤ
  renamedFiles : ℤ
  changedDelta : ℤ
  unchangedFiles : ℤ
  fileDelta : ℤ
  byteDelta : ℤ
  identical : Bool
  deriving DecidableEq

structure DiffFiles where
  onlyBase : List SideRow
  onlyOther : List SideRow
  changed : List ChangedRow
  deriving DecidableEq

structure DiffPackages where
  onlyBase : List PkgRow
  onlyOther : List PkgRow
  changed : List PkgChangedRow
  unchanged : List PkgRow
  deriving DecidableEq

/-- The names of the packages listed. -/
def DiffPackages.names (d : DiffPackages) : List String :=
  d.onlyBase.map PkgRow.pkg ++ d.onlyOther.map PkgRow.pkg ++ d.changed.map PkgChangedRow.pkg ++
    d.unchanged.map PkgRow.pkg

structure BundleDiff where
  totals : DiffTotals
  files : DiffFiles
  packages : DiffPackages
  deriving DecidableEq

/-! ### The comparison -/

/-- The files of a bundle, by path. -/
structure FileMap where
  entries : List (String × FileContent)
  nodup : (entries.map Prod.fst).Nodup

/-- A file as renames are looked for. -/
structure TreeEntry where
  name : String
  data : String

/-- What `compareTrees` says of two files, of which only renames are read. -/
inductive TreeChange where
  | renamed (old new : String)
  | unrenamed

def TreeChange.pair : TreeChange → Option (String × String)
  | .renamed old new => some (old, new)
  | .unrenamed => none

/-- The renames among the changes. -/
def renamedPairs (changes : List TreeChange) : List (String × String) :=
  changes.filterMap TreeChange.pair

/-- Two bundles, and what they are compared by: the order of strings, the search for renames within
packages, the package of a path, how the other bundle lays out a path of the base, and what stasis
bundles record of their files. -/
structure Compared where
  localeCompare : String → String → ℤ
  compareTrees : (String → String) → List TreeEntry → List TreeEntry → List TreeChange
  pkgOf : String → String
  layout : String → String
  baseMeta : Option (String → FileMeta)
  otherMeta : Option (String → FileMeta)
  base : FileMap
  other : FileMap

/-- The numbers and rows of the loops. -/
structure DiffState where
  onlyBase : List SideRow
  onlyOther : List SideRow
  changed : List ChangedRow
  baseBytes : ℤ
  otherBytes : ℤ
  onlyBaseBytes : ℤ
  onlyOtherBytes : ℤ
  changedDelta : ℤ
  unchangedFiles : ℤ
  pkgs : List (String × PkgAcc)

namespace Compared

variable (c : Compared)

/-- The base's files as the other bundle lays them out. -/
def laid : List (String × FileContent) := newMap (c.base.entries.map fun e => (c.layout e.1, e.2))

/-- The file of the base that is laid out at a path. -/
def baseFile (path : String) : Option String :=
  (c.base.entries.reverse.find? fun e => c.layout e.1 = path).map Prod.fst

/-- The path in the base, where it differs. -/
def atBase (path : String) : Option String :=
  if c.baseFile path = some path then none else c.baseFile path

/-- How a file's record changed, by its base path and its path. -/
def recorded (before : Option String) (after : String) : List MetaChange :=
  metaChanges (before.bind fun path => c.baseMeta.map (· path)) (c.otherMeta.map (· after))

def baseContent (path : String) : Option FileContent := get path c.laid

def otherContent (path : String) : Option FileContent := get path c.other.entries

/-- Adds to the counts of a path's package, which are made on first sight. -/
def count (path : String) (weight : PkgAcc) (pkgs : List (String × PkgAcc)) :
    List (String × PkgAcc) :=
  alter (c.pkgOf path) (fun acc => acc.getD 0 + weight) pkgs

/-- One path of either bundle. -/
def diffStep (st : DiffState) (path : String) : DiffState :=
  match c.baseContent path, c.otherContent path with
  | some bC, some oC =>
    let same := sameContent (some bC) (some oC)
    let record := c.recorded (c.baseFile path) path
    let bB := byteLen (some bC)
    -- identical content shares the byte count
    let oB := if same then bB else byteLen (some oC)
    if same && record.isEmpty then
      { st with
        baseBytes := st.baseBytes + bB, otherBytes := st.otherBytes + oB
        unchangedFiles := st.unchangedFiles + 1
        pkgs := c.count path ⟨bB, oB, 0, 0, 0⟩ st.pkgs }
    else
      { st with
        baseBytes := st.baseBytes + bB, otherBytes := st.otherBytes + oB
        changed := st.changed ++ [⟨path, none, c.atBase path, bB, oB, oB - bB,
          if same then some false else none, record⟩]
        changedDelta := st.changedDelta + (oB - bB)
        pkgs := c.count path ⟨bB, oB, 0, 0, 1⟩ st.pkgs }
  | some bC, none =>
    let bB := byteLen (some bC)
    { st with
      baseBytes := st.baseBytes + bB, onlyBaseBytes := st.onlyBaseBytes + bB
      onlyBase := st.onlyBase ++ [⟨path, c.atBase path, bB⟩]
      pkgs := c.count path ⟨bB, 0, 1, 0, 0⟩ st.pkgs }
  | none, oC =>
    let oB := byteLen oC
    { st with
      otherBytes := st.otherBytes + oB, onlyOtherBytes := st.onlyOtherBytes + oB
      onlyOther := st.onlyOther ++ [⟨path, none, oB⟩]
      pkgs := c.count path ⟨0, oB, 0, 1, 0⟩ st.pkgs }

/-- The paths of either bundle, as the other lays them out. -/
def allPaths : List String := newSet (c.laid.map Prod.fst ++ c.other.entries.map Prod.fst)

/-- The files of one bundle alone as renames are looked for; a path that is empty is left out. -/
def treeEntries (rows : List SideRow) (content : String → Option FileContent) (side : String) :
    List TreeEntry :=
  (rows.filter (·.path ≠ "")).mapIdx fun place row =>
    ⟨row.path, treeData (content row.path) (side ++ toString place)⟩

/-- The renames among the files of one bundle alone, within their packages. -/
def renamesOf (onlyBase onlyOther : List SideRow) : List (String × String) :=
  newMap (renamedPairs (c.compareTrees c.pkgOf (treeEntries onlyBase c.baseContent "a")
    (treeEntries onlyOther c.otherContent "b")))

/-- One rename. -/
def renameStep (st : DiffState) (rename : String × String) : DiffState :=
  let bC := c.baseContent rename.1
  let oC := c.otherContent rename.2
  let same := sameContent bC oC
  let bB := byteLen bC
  let oB := if same then bB else byteLen oC
  { st with
    onlyBaseBytes := st.onlyBaseBytes - bB, onlyOtherBytes := st.onlyOtherBytes - oB
    changed := st.changed ++ [⟨rename.2, some rename.1, c.baseFile rename.1, bB, oB, oB - bB,
      some (!same), c.recorded (c.baseFile rename.1) rename.2⟩]
    changedDelta := st.changedDelta + (oB - bB)
    pkgs := c.count rename.1 ⟨0, 0, -1, -1, 1⟩ st.pkgs }

/-- The loop over the paths. -/
def scanned : DiffState := c.allPaths.foldl c.diffStep ⟨[], [], [], 0, 0, 0, 0, 0, 0, []⟩

def renames : List (String × String) := c.renamesOf c.scanned.onlyBase c.scanned.onlyOther

/-- The loop over the renames, after which the renamed files are no longer in one bundle alone. -/
def settled : DiffState :=
  let st := c.renames.foldl c.renameStep c.scanned
  { st with
    onlyBase := st.onlyBase.filter fun row => row.path ∉ c.renames.map Prod.fst
    onlyOther := st.onlyOther.filter fun row => row.path ∉ c.renames.map Prod.snd }

/-- Largest byte size first, then the key. -/
def byBytesThenKey {R : Type} (bytes : R → ℤ) (key : R → String) (a b : R) : Bool :=
  let d := bytes b - bytes a
  decide ((if d ≠ 0 then d else c.localeCompare (key a) (key b)) ≤ 0)

/-- Largest absolute delta first, then the key. -/
def byAbsDeltaThenKey {R : Type} (delta : R → ℤ) (key : R → String) (a b : R) : Bool :=
  let d := |delta b| - |delta a|
  decide ((if d ≠ 0 then d else c.localeCompare (key a) (key b)) ≤ 0)

/-- The packages that are listed in one way. -/
def classified (cls : PkgClass) : List (String × PkgAcc) :=
  c.settled.pkgs.filter fun p => p.2.classify = cls

def computeBundleDiff : BundleDiff where
  totals :=
    { baseFiles := c.laid.length
      baseBytes := c.settled.baseBytes
      otherFiles := c.other.entries.length
      otherBytes := c.settled.otherBytes
      onlyBaseFiles := c.settled.onlyBase.length
      onlyBaseBytes := c.settled.onlyBaseBytes
      onlyOtherFiles := c.settled.onlyOther.length
      onlyOtherBytes := c.settled.onlyOtherBytes
      changedFiles := c.settled.changed.length
      renamedFiles := c.renames.length
      changedDelta := c.settled.changedDelta
      unchangedFiles := c.settled.unchangedFiles
      fileDelta := c.other.entries.length - c.laid.length
      byteDelta := c.settled.otherBytes - c.settled.baseBytes
      identical := c.settled.onlyBase.isEmpty && c.settled.onlyOther.isEmpty &&
        c.settled.changed.isEmpty }
  files :=
    { onlyBase := c.settled.onlyBase.mergeSort (c.byBytesThenKey SideRow.bytes SideRow.path)
      onlyOther := c.settled.onlyOther.mergeSort (c.byBytesThenKey SideRow.bytes SideRow.path)
      changed := c.settled.changed.mergeSort
        (c.byAbsDeltaThenKey ChangedRow.delta ChangedRow.path) }
  packages :=
    { onlyBase := ((c.classified .onlyBase).map fun p => ⟨p.1, p.2.baseBytes⟩).mergeSort
        (c.byBytesThenKey PkgRow.bytes PkgRow.pkg)
      onlyOther := ((c.classified .onlyOther).map fun p => ⟨p.1, p.2.otherBytes⟩).mergeSort
        (c.byBytesThenKey PkgRow.bytes PkgRow.pkg)
      changed := ((c.classified .changed).map fun p =>
        ⟨p.1, p.2.baseBytes, p.2.otherBytes, p.2.otherBytes - p.2.baseBytes⟩).mergeSort
        (c.byAbsDeltaThenKey PkgChangedRow.delta PkgChangedRow.pkg)
      unchanged := (c.classified .unchanged).map fun p => ⟨p.1, p.2.baseBytes⟩ }

end Compared

end Triage.Bundles
