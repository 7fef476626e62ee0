import Triage.Data.FMap
import Triage.Data.LowerBound
import Mathlib.Order.Lattice.Nat
import Mathlib.Algebra.Order.Field.Rat

/-!
# The scene of a replay

`replay-model.js` plays a repository's commits: each file changed is a file of the scene, in the
directory its path names, and a file removed goes a while after its removal. A directory is made
with those above it when a file first needs it and goes with the last of what it holds. What has
changed is marked to be laid out again, up to the root.
-/

namespace Triage.Replay

open Sorted List

/-- A path, or a name in one, as its UTF-16 units. -/
abbrev Path := List ℕ

/-- `/` -/
def slash : ℕ := 47

/-- `path.slice(0, path.lastIndexOf('/'))`, empty where there is none: the directory a path is
in. -/
def dirname (path : Path) : Path := ((path.reverse.dropWhile (· ≠ slash)).drop 1).reverse

/-- `path.slice(path.lastIndexOf('/') + 1)` -/
def basename (path : Path) : Path := (path.reverse.takeWhile (· ≠ slash)).reverse

/-- `REMOVE_S` and `STAGGER_S` -/
def removeS : ℚ := 1

@[inherit_doc removeS]
def staggerS : ℚ := 6 / 100

/-- A directory; its parent is the one its path names. -/
structure Directory where
  dirs : List Path
  files : List Path
  dirty : Bool
  deriving DecidableEq

/-- A time of the replay, or `Number.NEGATIVE_INFINITY`. -/
inductive Instant
  | ever
  | time (seconds : ℚ)
  deriving DecidableEq

/-- A file, and since when it is going. -/
structure File where
  removed : Option Instant
  deriving DecidableEq

/-- How a file is changed. -/
inductive Kind
  | A
  | M
  | D
  deriving DecidableEq

/-- A change that is due. -/
structure Due where
  time : ℚ
  path : Path
  kind : Kind
  deriving DecidableEq

/-- The scene, less what is drawn. -/
structure Scene where
  dirs : FMap Path Directory
  files : FMap Path File
  going : List Path
  due : List Due
  layout : Bool

/-- `createScene` -/
def createScene : Scene :=
  { dirs := (∅ : FMap Path Directory).insert [] ⟨[], [], true⟩
    files := ∅
    going := []
    due := []
    layout := true }

theorem length_dirname_lt {path : Path} (h : path ≠ []) : (dirname path).length < path.length := by
  have hlength : 0 < path.length := length_pos_iff.2 h
  have hdrop := (dropWhile_sublist (l := path.reverse) (· ≠ slash)).length_le
  rw [length_reverse] at hdrop
  rw [dirname, length_reverse, length_drop]
  omega

/-! ### The tree -/

/-- A directory, and those above it, to be laid out again. -/
def unsettle (dirs : FMap Path Directory) (path : Path) : FMap Path Directory :=
  match dirs path with
  | none => dirs
  | some dir =>
    if dir.dirty then dirs
    else if _h : path = [] then dirs.insert path { dir with dirty := true }
    else unsettle (dirs.insert path { dir with dirty := true }) (dirname path)
termination_by path.length
decreasing_by exact length_dirname_lt _h

/-- A directory made among those of its parent, in the order of their names. -/
def makeDirectory (scene : Scene) (path : Path) : Scene :=
  match scene.dirs (dirname path) with
  | none => scene
  | some parent =>
    { scene with
      dirs := unsettle
        ((scene.dirs.insert (dirname path)
          { parent with dirs := insertSorted basename parent.dirs path }).insert path
            ⟨[], [], true⟩)
        (dirname path)
      layout := true }

/-- `directoryOf` -/
def directoryOf (scene : Scene) (path : Path) : Scene :=
  if (scene.dirs path).isSome then scene
  else if _h : path = [] then scene
  else makeDirectory (directoryOf scene (dirname path)) path
termination_by path.length
decreasing_by exact length_dirname_lt _h

/-- A file that is not there is made. -/
def makeFile (scene : Scene) (path : Path) : Scene :=
  let made := directoryOf scene (dirname path)
  match made.dirs (dirname path) with
  | none => made
  | some dir =>
    { made with
      dirs := unsettle (made.dirs.insert (dirname path) { dir with files := dir.files ++ [path] })
        (dirname path)
      files := made.files.insert path ⟨none⟩
      layout := true }

/-- `going.add` -/
def addGoing (going : List Path) (path : Path) : List Path :=
  if going.contains path then going else going ++ [path]

/-- A file there is changed. -/
def markFile (scene : Scene) (path : Path) (kind : Kind) (time : Instant) : Scene :=
  match scene.files path with
  | none => scene
  | some file =>
    if kind = .D then
      { scene with
        files := scene.files.insert path ⟨some (file.removed.getD time)⟩
        going := addGoing scene.going path }
    else
      { scene with
        files := scene.files.insert path ⟨none⟩
        going := scene.going.erase path }

/-- `changeFile` -/
def changeFile (scene : Scene) (path : Path) (kind : Kind) (time : Instant) : Scene :=
  if (scene.files path).isSome then markFile scene path kind time
  else if kind = .D then scene
  else markFile (makeFile scene path) path kind time

/-- `list.splice(list.indexOf(item), 1)`, which takes the last where there is no such item. -/
def spliceOut (list : List Path) (item : Path) : List Path :=
  if list.contains item then list.erase item else list.dropLast

/-- The directories left empty, from one on up, are gone; the first that is not. -/
def prune (dirs : FMap Path Directory) (left : Path) : FMap Path Directory × Path :=
  match dirs left with
  | none => (dirs, left)
  | some dir =>
    if _h : left ≠ [] ∧ dir.files = [] ∧ dir.dirs = [] then
      match dirs (dirname left) with
      | none => (dirs, left)
      | some parent =>
        prune
          ((dirs.insert (dirname left) { parent with dirs := spliceOut parent.dirs left }).erase
            left)
          (dirname left)
    else (dirs, left)
termination_by left.length
decreasing_by exact length_dirname_lt _h.1

/-- `removeFile` -/
def removeFile (scene : Scene) (path : Path) : Scene :=
  match scene.dirs (dirname path) with
  | none => scene
  | some dir =>
    let pruned := prune
      (scene.dirs.insert (dirname path) { dir with files := spliceOut dir.files path })
      (dirname path)
    { scene with
      dirs := unsettle pruned.1 pruned.2
      files := scene.files.erase path
      going := scene.going.erase path
      layout := true }

/-- `measure`, as far as the marks: what is under a directory, then itself. -/
def measure : ℕ → FMap Path Directory → Path → FMap Path Directory
  | 0, dirs, _ => dirs
  | fuel + 1, dirs, path =>
    match dirs path with
    | none => dirs
    | some dir =>
      if dir.dirty then
        let measured := dir.dirs.foldl (measure fuel) dirs
        match measured path with
        | none => measured
        | some dir => measured.insert path { dir with dirty := false }
      else dirs

/-- `layoutScene`; no path is longer than the longest. -/
def layoutScene (scene : Scene) : Scene :=
  { scene with
    dirs := measure (scene.dirs.keys.sup List.length + 1) scene.dirs []
    layout := false }

/-! ### Commits and the time -/

/-- A file of a commit as the server answers it. -/
inductive FileStatus
  | changed (path : Path) (kind : Kind)
  | renamed (path source : Path)
  deriving DecidableEq

/-- `fileChanges` -/
def fileChanges (files : List FileStatus) : List (Path × Kind) :=
  files.flatMap fun file =>
    match file with
    | .changed path kind => [(path, kind)]
    | .renamed path source => [(source, .D), (path, .A)]

/-- The seconds between two changes of a commit. -/
def stagger (count : ℕ) (span : ℚ) : ℚ := if 1 < count then min staggerS (span / count) else 0

/-- The changes of a commit and when each is due. -/
def commitDue (files : List FileStatus) (time span : ℚ) : List Due :=
  (fileChanges files).mapIdx fun index change =>
    ⟨time + index * stagger (fileChanges files).length span, change.1, change.2⟩

/-- `playCommit` -/
def playCommit (scene : Scene) (files : List FileStatus) (time span : ℚ) : Scene :=
  { scene with
    due := (scene.due ++ commitDue files time span).mergeSort fun a b => decide (a.time ≤ b.time) }

/-- `settleCommit` -/
def settleCommit (scene : Scene) (files : List FileStatus) : Scene :=
  (fileChanges files).foldl
    (fun scene change =>
      let changed := changeFile scene change.1 change.2 .ever
      if change.2 = .D ∧ (scene.files change.1).isSome then removeFile changed change.1
      else changed)
    scene

/-- `now - removed >= REMOVE_S` -/
def Instant.gone (now : ℚ) : Instant → Bool
  | .ever => true
  | .time seconds => decide (removeS ≤ now - seconds)

/-- A file that has been going long enough is removed. -/
def sweepFile (now : ℚ) (scene : Scene) (path : Path) : Scene :=
  match (scene.files path).bind File.removed with
  | none => scene
  | some removed => if removed.gone now then removeFile scene path else scene

/-- The changes due by `now` are made. -/
def makeDue (scene : Scene) (now : ℚ) : Scene :=
  (scene.due.takeWhile fun due => decide (due.time ≤ now)).foldl
    (fun scene due => changeFile scene due.path due.kind (.time due.time))
    { scene with due := scene.due.dropWhile fun due => decide (due.time ≤ now) }

/-- `advanceScene` -/
def advanceScene (scene : Scene) (now : ℚ) : Scene :=
  (makeDue scene now).going.foldl (sweepFile now) (makeDue scene now)

/-- What is done with a scene. -/
inductive Step
  | play (files : List FileStatus) (time span : ℚ)
  | settle (files : List FileStatus)
  | advance (now : ℚ)
  | layout
  deriving DecidableEq

/-- A scene after a step. -/
def Scene.apply (scene : Scene) : Step → Scene
  | .play files time span => playCommit scene files time span
  | .settle files => settleCommit scene files
  | .advance now => advanceScene scene now
  | .layout => layoutScene scene

/-- The scenes that can be reached. -/
def Reachable (scene : Scene) : Prop :=
  ∃ steps : List Step, scene = steps.foldl Scene.apply createScene

end Triage.Replay
