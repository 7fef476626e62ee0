import Mathlib.Data.Int.Order.Basic
import Triage.Data.Grouping

/-!
# What a pull request's lockfiles lock

The lockfiles that a pull request changes are read at its merge base and at its head, by directory,
and what they lock at the head is told: each version once, as it is locked, and apart those that
none of them locked before.

## Main results

* `lockedWith_inj` : versions of one key are locked alike.
-/

namespace Triage.Managed

open Grouping List

/-! ### Packages -/

/-- What separates the parts of a key, which no part of one has. -/
def NUL : Char := Char.ofNat 0

def Clean (s : String) : Prop := NUL ∉ s.toList

instance (s : String) : Decidable (Clean s) := inferInstanceAs (Decidable (_ ∉ _))

/-- The name of a package, which has an `@` at its start alone. -/
structure PackageName where
  val : String
  ne : val ≠ ""
  scope : '@' ∉ val.toList.tail
  clean : Clean val
  deriving DecidableEq

/-- A version, which is not empty. -/
structure Version where
  val : String
  ne : val ≠ ""
  clean : Clean val
  deriving DecidableEq

/-- Another text of a lockfile. -/
structure Field where
  val : String
  clean : Clean val
  deriving DecidableEq

inductive Source
  | registry
  | mirror
  | git
  | tarball
  | file
  deriving DecidableEq

def Source.toString : Source → String
  | .registry => "registry"
  | .mirror => "mirror"
  | .git => "git"
  | .tarball => "tarball"
  | .file => "file"

inductive ReviewedLockfile
  | npm
  | pnpm
  | yarn1
  deriving DecidableEq

def ReviewedLockfile.toString : ReviewedLockfile → String
  | .npm => "npm"
  | .pnpm => "pnpm"
  | .yarn1 => "yarn1"

/-- `LockedPackage`; `origin` is `from`. -/
structure LockedPackage where
  name : PackageName
  version : Option Version
  source : Source
  origin : Option Field
  integrity : Option Field
  shasum : Option Field
  patchHash : Option Field
  patchPath : Option String
  lockfile : Option ReviewedLockfile
  dev : Bool
  deriving DecidableEq

/-- A text that may be missing. -/
def text (field : Option Field) : String := (field.map Field.val).getD ""

namespace LockedPackage

variable (pkg : LockedPackage)

def versionText : String := (pkg.version.map Version.val).getD ""

end LockedPackage

def NULs : String := String.ofList [NUL]

/-- A package as it is installed. -/
def lockedAs (pkg : LockedPackage) : String :=
  pkg.source.toString ++ NULs ++ pkg.name.val ++ "@" ++ pkg.versionText ++ NULs ++
    text pkg.origin ++ NULs ++ text pkg.patchHash

/-- A package as it is locked, with what its reviews are held to. -/
def lockedWith (pkg : LockedPackage) : String :=
  lockedAs pkg ++ NULs ++ text pkg.integrity ++ NULs ++ text pkg.shasum ++ NULs ++
    (pkg.lockfile.map ReviewedLockfile.toString).getD ""

/-! ### Keys -/

/-- A part that has no separator ends at the first. -/
theorem append_separator_inj {a : Char} {x y z w : List Char} (hx : a ∉ x) (hy : a ∉ y)
    (h : x ++ a :: z = y ++ a :: w) : x = y ∧ z = w := by
  induction x generalizing y with
  | nil =>
    cases y with
    | nil => exact ⟨rfl, (List.cons.inj h).2⟩
    | cons d y =>
      obtain ⟨rfl, -⟩ := List.cons.inj h
      exact absurd mem_cons_self hy
  | cons c x ih =>
    cases y with
    | nil =>
      obtain ⟨rfl, -⟩ := List.cons.inj h
      exact absurd mem_cons_self hx
    | cons d y =>
      obtain ⟨rfl, htail⟩ := List.cons.inj h
      obtain ⟨rfl, hz⟩ := ih (fun hm => hx (mem_cons_of_mem _ hm))
        (fun hm => hy (mem_cons_of_mem _ hm)) htail
      exact ⟨rfl, hz⟩

theorem clean_text (field : Option Field) : NUL ∉ (text field).toList := by
  cases field with
  | none => exact not_mem_nil
  | some field => exact field.clean

theorem Source.toString_inj {a b : Source} (h : a.toString = b.toString) : a = b := by
  revert h
  cases a <;> cases b <;> decide

theorem Source.clean (a : Source) : NUL ∉ a.toString.toList := by
  cases a <;> decide

theorem ReviewedLockfile.toString_inj {a b : Option ReviewedLockfile}
    (h : (a.map ReviewedLockfile.toString).getD "" = (b.map ReviewedLockfile.toString).getD "") :
    a = b := by
  revert h
  rcases a with _ | _ | _ | _ <;> rcases b with _ | _ | _ | _ <;> decide

namespace LockedPackage

variable {p q : LockedPackage}

theorem clean_versionText (p : LockedPackage) : NUL ∉ p.versionText.toList := by
  rw [versionText]
  cases p.version with
  | none => exact not_mem_nil
  | some version => exact version.clean

theorem versionText_inj (h : p.versionText = q.versionText) : p.version = q.version := by
  rw [versionText, versionText] at h
  cases hp : p.version with
  | none =>
    cases hq : q.version with
    | none => rfl
    | some w =>
      rw [hp, hq] at h
      exact absurd h.symm w.ne
  | some v =>
    cases hq : q.version with
    | none =>
      rw [hp, hq] at h
      exact absurd h v.ne
    | some w =>
      rw [hp, hq] at h
      have hval : v.val = w.val := h
      obtain ⟨_, _, _⟩ := v
      obtain ⟨_, _, _⟩ := w
      cases hval
      rfl

end LockedPackage

/-- A package's name ends at the first `@` past its first character. -/
theorem name_version_inj {n m : PackageName} {v w : String}
    (h : (n.val ++ "@" ++ v).toList = (m.val ++ "@" ++ w).toList) : n = m ∧ v = w := by
  obtain ⟨n, hn, hns, hnc⟩ := n
  obtain ⟨m, hm, hms, hmc⟩ := m
  simp only [String.toList_append] at h
  have hat : "@".toList = ['@'] := rfl
  rw [hat, append_assoc, append_assoc] at h
  cases hnl : n.toList with
  | nil => exact absurd (String.toList_eq_nil_iff.1 hnl) hn
  | cons c cs =>
    cases hml : m.toList with
    | nil => exact absurd (String.toList_eq_nil_iff.1 hml) hm
    | cons d ds =>
      simp only [hnl, hml, tail_cons] at hns hms h
      obtain ⟨rfl, htail⟩ := List.cons.inj h
      obtain ⟨rfl, hv⟩ := append_separator_inj hns hms htail
      have hnm : n = m := String.toList_inj.1 (hnl.trans hml.symm)
      subst hnm
      exact ⟨rfl, String.toList_inj.1 hv⟩

/-- Two packages are locked alike: they differ in what reaches them and in the files of their
patches. -/
structure LockedAlike (p q : LockedPackage) : Prop where
  name : p.name = q.name
  version : p.version = q.version
  source : p.source = q.source
  origin : text p.origin = text q.origin
  integrity : text p.integrity = text q.integrity
  shasum : text p.shasum = text q.shasum
  patchHash : text p.patchHash = text q.patchHash
  lockfile : p.lockfile = q.lockfile

theorem clean_name_version (r : LockedPackage) :
    NUL ∉ r.name.val.toList ++ '@' :: r.versionText.toList := by
  intro hmem
  rcases mem_append.1 hmem with hmem | hmem
  · exact r.name.clean hmem
  · rcases mem_cons.1 hmem with heq | hmem
    · exact absurd heq (by decide)
    · exact r.clean_versionText hmem

variable {p q : LockedPackage}

/-- The name and the version of a key end at the separator behind them. -/
theorem name_of_key {z w : List Char}
    (h : p.source.toString.toList ++ NUL :: (p.name.val.toList ++ '@' ::
        (p.versionText.toList ++ NUL :: z)) =
      q.source.toString.toList ++ NUL :: (q.name.val.toList ++ '@' ::
        (q.versionText.toList ++ NUL :: w))) :
    p.source = q.source ∧ p.name = q.name ∧ p.versionText = q.versionText ∧ z = w := by
  have hassoc : ∀ (r : LockedPackage) z, r.name.val.toList ++ '@' :: (r.versionText.toList ++
      NUL :: z) = (r.name.val.toList ++ '@' :: r.versionText.toList) ++ NUL :: z := by
    intro r z
    rw [append_assoc, cons_append]
  obtain ⟨hsource, h⟩ := append_separator_inj p.source.clean q.source.clean h
  rw [hassoc, hassoc] at h
  obtain ⟨hname, h⟩ := append_separator_inj (clean_name_version p) (clean_name_version q) h
  have hat : "@".toList = ['@'] := rfl
  have hboth : (p.name.val ++ "@" ++ p.versionText).toList =
      (q.name.val ++ "@" ++ q.versionText).toList := by
    simp only [String.toList_append, hat, append_assoc, cons_append, nil_append]
    exact hname
  obtain ⟨hname, hversion⟩ := name_version_inj hboth
  exact ⟨Source.toString_inj (String.toList_inj.1 hsource), hname, hversion, h⟩

theorem toList_lockedAs (p : LockedPackage) : (lockedAs p).toList =
    p.source.toString.toList ++ NUL :: (p.name.val.toList ++ '@' ::
      (p.versionText.toList ++ NUL :: ((text p.origin).toList ++ NUL ::
        (text p.patchHash).toList))) := by
  have hnul : NULs.toList = [NUL] := String.toList_ofList
  have hat : "@".toList = ['@'] := rfl
  simp only [lockedAs, String.toList_append, hnul, hat, append_assoc, cons_append, nil_append]

/-- A package is installed under its name. -/
theorem name_of_lockedAs (h : lockedAs p = lockedAs q) : p.name = q.name := by
  have h := congrArg String.toList h
  rw [toList_lockedAs, toList_lockedAs] at h
  exact (name_of_key h).2.1

/-- Versions of one key are locked alike. -/
theorem lockedWith_inj (h : lockedWith p = lockedWith q) : LockedAlike p q := by
  have hnul : NULs.toList = [NUL] := String.toList_ofList
  have h := congrArg String.toList h
  simp only [lockedWith, String.toList_append, toList_lockedAs, hnul, append_assoc,
    cons_append, nil_append] at h
  obtain ⟨hsource, hname, hversion, h⟩ := name_of_key h
  obtain ⟨horigin, h⟩ := append_separator_inj (clean_text _) (clean_text _) h
  obtain ⟨hpatch, h⟩ := append_separator_inj (clean_text _) (clean_text _) h
  obtain ⟨hintegrity, h⟩ := append_separator_inj (clean_text _) (clean_text _) h
  obtain ⟨hshasum, hlockfile⟩ := append_separator_inj (clean_text _) (clean_text _) h
  exact ⟨hname, LockedPackage.versionText_inj hversion, hsource, String.toList_inj.1 horigin,
    String.toList_inj.1 hintegrity, String.toList_inj.1 hshasum, String.toList_inj.1 hpatch,
    ReviewedLockfile.toString_inj (String.toList_inj.1 hlockfile)⟩

/-- `patchedIn` : the patch's file from the repository's root. -/
def patchedIn (path : String) (pkg : LockedPackage) : LockedPackage :=
  match pkg.patchPath with
  | none => pkg
  | some patchPath =>
    have dirs := (path.toList.splitOn '/').dropLast
    have parts := (patchPath.toList.splitOn '/').foldl (fun parts part =>
      parts.bind fun (parts : List (List Char)) =>
        if part = ['.', '.'] then if parts = [] then none else some parts.dropLast
        else if part ≠ ['.'] ∧ part ≠ [] then some (parts ++ [part])
        else some parts) (some dirs)
    { pkg with
      patchPath := (parts.filter (· ≠ [])).map fun parts =>
        String.ofList (List.intercalate ['/'] parts) }

/-! ### Lockfiles -/

inductive Format
  | npm
  | pnpm
  | yarn
  | bun
  deriving DecidableEq

/-- `isTestFixture` -/
def isTestFixture (dirs : List (List Char)) : Bool :=
  have isTests := fun dir : List Char =>
    have bare := ((dir.dropWhile (· = '_')).reverse.dropWhile (· = '_')).reverse
    bare = "test".toList || bare = "tests".toList
  have isFixtures := fun dir : List Char =>
    dir = "fixture".toList || dir = "fixtures".toList || dir = "example".toList ||
      dir = "examples".toList
  ((dirs.dropWhile fun dir => !isTests dir).drop 1).any isFixtures

def isLineTerminator (c : Char) : Bool :=
  c.toNat = 10 || c.toNat = 13 || c.toNat = 0x2028 || c.toNat = 0x2029

/-- `/^pnpm-lock(?:\..+)?\.yaml$/u` -/
def isPnpmLockfile (name : List Char) : Bool :=
  have middle := (name.drop 9).take (name.length - 14)
  "pnpm-lock".toList.isPrefixOf name && ".yaml".toList.isSuffixOf name &&
    (middle.isEmpty ||
      middle.head? = some '.' && 2 ≤ middle.length && middle.tail.all (!isLineTerminator ·))

/-- `lockfileFormat` -/
def lockfileFormat (path : String) : Option Format :=
  have dirs := (path.toList.splitOn '/').dropLast
  have name := (path.toList.splitOn '/').getLast?.getD []
  if dirs.contains "node_modules".toList || isTestFixture dirs then none
  else if name = "package-lock.json".toList || name = "npm-shrinkwrap.json".toList then some .npm
  else if isPnpmLockfile name || name = "shrinkwrap.yaml".toList then some .pnpm
  else if name = "bun.lock".toList || name = "bun.lockb".toList then some .bun
  else if name = "yarn.lock".toList then some .yarn
  else none

/-- A file that a pull request changes. -/
inductive ChangedFile
  | added (path : String)
  | modified (path : String)
  | removed (path : String)
  | renamed (path from_ : String)
  deriving DecidableEq

/-- The path of a file at the merge base, if it is there. -/
def ChangedFile.before : ChangedFile → Option String
  | .added _ => none
  | .modified path | .removed path => some path
  | .renamed _ from_ => some from_

/-- The path of a file at the head, if it is there. -/
def ChangedFile.after : ChangedFile → Option String
  | .removed _ => none
  | .added path | .modified path | .renamed path _ => some path

inductive Side
  | before
  | after
  deriving DecidableEq

/-- A lockfile that a pull request changes, as it was or as it is. -/
structure Taken where
  side : Side
  path : String
  format : Format
  deriving DecidableEq

/-- `take` -/
def take (side : Side) (path : Option String) : Option Taken :=
  path.bind fun path => (lockfileFormat path).map fun format => ⟨side, path, format⟩

/-- The lockfiles that are taken, in order. -/
def taken (files : List ChangedFile) : List Taken :=
  files.flatMap fun file => (take .before file.before).toList ++ (take .after file.after).toList

/-- The path up to its last `/`. -/
def dirOf (path : String) : String :=
  String.ofList (((path.toList.reverse.dropWhile (· ≠ '/')).drop 1).reverse)

def codeUnits (s : String) : List ℕ :=
  s.toList.flatMap fun c =>
    bif c.toNat.blt 0x10000 then [c.toNat]
    else [0xD800 + (c.toNat - 0x10000) / 0x400, 0xDC00 + (c.toNat - 0x10000) % 0x400]

def unitsLt : List ℕ → List ℕ → Bool
  | _, [] => false
  | [], _ :: _ => true
  | a :: as, b :: bs => a.blt b || a.beq b && unitsLt as bs

/-- `a < b`, by code units. -/
def before (a b : String) : Bool := unitsLt (codeUnits a) (codeUnits b)

def MAX_DIRECTORIES : ℕ := 20
def MAX_ADDED : ℕ := 200
def MAX_LOCKED : ℕ := 20000
def MAX_OMITTED : ℕ := 1000

/-- A directory's lockfiles, in the order they were taken. -/
abbrev Directory := List Taken

namespace Directory

variable (d : Directory)

def of (side : Side) : List Taken := d.filter (·.side = side)

/-- The paths of a directory's lockfiles, each once. -/
def paths : List String := (d.map (·.path)).eraseDups

end Directory

def sorted (paths : List String) : List String := paths.mergeSort fun a b => !before b a

/-- The directories whose lockfiles a pull request changes, in order. -/
def allDirectories (files : List ChangedFile) : List (String × Directory) :=
  (groupBy (fun t : Taken => dirOf t.path) (taken files)).mergeSort fun a b => !before b.1 a.1

/-- `lockfilesChanged` -/
structure LockfilesChanged where
  directories : List Directory
  cut : Bool
  omitted : List String

def lockfilesChanged (files : List ChangedFile) : LockfilesChanged where
  directories := ((allDirectories files).take MAX_DIRECTORIES).map (·.2)
  cut := MAX_DIRECTORIES < (allDirectories files).length
  omitted := sorted (((allDirectories files).drop MAX_DIRECTORIES).flatMap (·.2.paths))

/-! ### What is added -/

/-- A lockfile's packages, or why its reader refused it. -/
inductive LockfileRead
  | packages (packages : List LockedPackage)
  | error (error : String) (detail : Option String)

def LockfileRead.packagesOf : LockfileRead → List LockedPackage
  | .packages found => found
  | .error _ _ => []

def LockfileRead.failure : LockfileRead → Option (String × Option String)
  | .packages _ => none
  | .error message detail => some (message, detail)

/-- A lockfile of Bun's is not read. -/
def readLockfile (contents : Taken → LockfileRead) (lockfile : Taken) : LockfileRead :=
  if lockfile.format = .bun then .error "lockfile-unsupported" none else contents lockfile

/-- What is told of semantic versions. -/
structure Semver where
  isExactVersion : String → Bool
  compareVersions : String → String → ℤ

/-- Versions by semver, the highest first, any semver can't read after them. -/
def Semver.byVersion (semver : Semver) (a b : String) : ℤ :=
  if semver.isExactVersion a && semver.isExactVersion b then semver.compareVersions b a
  else if semver.isExactVersion a = semver.isExactVersion b then
    if before a b then -1 else if before b a then 1 else 0
  else if semver.isExactVersion a then 1 else -1

/-- A version new to a directory, with the versions of its package before. -/
structure AddedPackage where
  pkg : LockedPackage
  was : Option (List String)

def byName (semver : Semver) (a b : AddedPackage) : ℤ :=
  if before a.pkg.name.val b.pkg.name.val then -1
  else if before b.pkg.name.val a.pkg.name.val then 1
  else -semver.byVersion a.pkg.versionText b.pkg.versionText

inductive DirectoryDependencies
  | told (paths : List String) (added : List AddedPackage) (more : ℕ) (locked : List LockedPackage)
      (moreLocked : ℕ)
  | error (paths : List String) (error : String) (detail : Option String)

def DirectoryDependencies.paths : DirectoryDependencies → List String
  | .told paths _ _ _ _ => paths
  | .error paths _ _ => paths

/-- Only what devDependencies reach is `dev`, wherever it is locked. -/
def LockedPackage.reach (pkg held : LockedPackage) : LockedPackage :=
  if held.dev && !pkg.dev then { held with dev := false } else held

/-- The versions that a directory's lockfiles locked before. -/
def versionsOf (known : List LockedPackage) (name : PackageName) : Option (List String) :=
  if known.any (·.name = name) then
    some ((known.filter (·.name = name)).filterMap (·.version.map (·.val))).eraseDups
  else none

/-- The versions after, as they are locked. -/
def lockedMap (after : List LockedPackage) : List (String × LockedPackage) :=
  collect lockedWith id LockedPackage.reach after

/-- A version as it is added, with those of its package before. -/
def addedPackage (semver : Semver) (known : List LockedPackage) (pkg : LockedPackage) :
    AddedPackage where
  pkg
  was := (versionsOf known pkg.name).map (·.mergeSort fun a b => semver.byVersion a b ≤ 0)

def AddedPackage.reach (pkg : LockedPackage) (had : AddedPackage) : AddedPackage :=
  { had with pkg := pkg.reach had.pkg }

/-- The versions after that none before has, as they are installed. -/
def addedMap (semver : Semver) (known after : List LockedPackage) : List (String × AddedPackage) :=
  collect lockedAs (addedPackage semver known) AddedPackage.reach
    (after.filter fun pkg => !known.any (lockedAs · = lockedAs pkg))

def addedIn (semver : Semver) (paths : List String) (before after : List LockfileRead) :
    DirectoryDependencies :=
  match (before ++ after).findSome? LockfileRead.failure with
  | some (error, detail) => .error paths error detail
  | none =>
    have known := before.flatMap (·.packagesOf)
    have found := (after.flatMap (·.packagesOf)).map (patchedIn (paths.head?.getD ""))
    have locked := (lockedMap found).map (·.2)
    have all := ((addedMap semver known found).map (·.2)).mergeSort fun a b => byName semver a b ≤ 0
    .told paths (all.take MAX_LOCKED) (all.length - MAX_ADDED) (locked.take MAX_LOCKED)
      (locked.length - MAX_LOCKED)

/-- `PullDependencies` -/
structure PullDependencies where
  base : String
  head : String
  lockfiles : List DirectoryDependencies
  cut : Bool
  omitted : Option (List String)

/-- What is read and told, from the files that are changed, `filesCut` where there are more, and
the lockfiles' contents at the two commits. -/
def pullDependenciesAt (semver : Semver) (base head : String) (files : List ChangedFile)
    (filesCut : Bool) (contents : Taken → LockfileRead) : PullDependencies where
  base
  head
  lockfiles := (lockfilesChanged files).directories.map fun d =>
    addedIn semver (sorted d.paths) ((d.of .before).map (readLockfile contents))
      ((d.of .after).map (readLockfile contents))
  cut := filesCut || (lockfilesChanged files).cut
  omitted :=
    if (lockfilesChanged files).cut && !filesCut &&
        (lockfilesChanged files).omitted.length ≤ MAX_OMITTED then
      some (lockfilesChanged files).omitted
    else none

/-! ### Scopes -/

inductive ScopeMode
  | exclude
  | include
  deriving DecidableEq

/-- The lockfiles that a repository's review holds to. -/
structure LockfileScope where
  mode : ScopeMode
  paths : List String

def EVERY_LOCKFILE : LockfileScope := ⟨.exclude, []⟩

def isEvery (scope : LockfileScope) : Bool := scope.mode = .exclude && scope.paths.isEmpty

/-- A lockfile is named by its path, or by a directory that it is under. -/
def names (path named : String) : Bool :=
  if ['/'].isSuffixOf named.toList then named.toList.isPrefixOf path.toList else path = named

def heldTo (scope : LockfileScope) (path : String) : Bool :=
  match scope.mode with
  | .include => scope.paths.any (names path)
  | .exclude => !scope.paths.any (names path)

def reviewedIn (scope : LockfileScope) (paths : List String) : Bool :=
  paths.isEmpty || paths.any (heldTo scope)

end Triage.Managed
