import Triage.Data.Paging
import Mathlib.Data.List.Lex
import Mathlib.Data.List.Sort
import Mathlib.Data.Char
import Mathlib.Algebra.Order.Group.Nat

/-!
# Objects kept on a disk

`object-storage-disk.ts` keeps objects as files of a directory tree and lists them by key, a page at
a time. A page is a walk of the tree in the order of the keys, which starts again from the root
and passes by what comes before its cursor.

## Main results

* `mem_filesUnder` : the objects of a directory are its files at paths of valid names.
-/

namespace Triage.DiskStorage

open Paging List

/-- A key, or a part of one. -/
abbrev Key := List Char

/-- What `stat` tells of a file. -/
structure FileInfo where
  version : ℕ
  modifiedAt : ℕ
  deriving DecidableEq

/-- What a directory holds under a name. -/
inductive DiskNode
  | file (info : FileInfo)
  | dir (info : FileInfo) (entries : List (Key × DiskNode))
  /-- A symbolic link, with what `stat` tells of what it leads to, or another kind. -/
  | other (info : Option FileInfo)

/-! ### Keys -/

/-- `[a-z0-9]` under the flags `iu`, by which `ſ` and the Kelvin sign fold to letters. -/
def isPartStart (c : Char) : Bool :=
  ('a' ≤ c && c ≤ 'z') || ('A' ≤ c && c ≤ 'Z') || ('0' ≤ c && c ≤ '9') ||
    c == 'ſ' || c == Char.ofNat 0x212A

/-- `/^[a-z0-9][a-z0-9.-]*$/iu` -/
def validPart : Key → Bool
  | [] => false
  | c :: part => isPartStart c && part.all fun c => isPartStart c || c == '.' || c == '-'

/-- `validateCacheKey`: whether it does not throw. -/
def validateCacheKey (key : Key) : Bool := (key.splitOn '/').all validPart

/-- `STORAGE_PREFIXES` -/
def storagePrefixes : List Key :=
  ["reports/", "bundles/", "avatars/", "uploads/", "cache/", "cache-encrypted-v1/"].map
    String.toList

/-- `objectPath`: whether it does not throw. -/
def objectPath (key : Key) : Bool :=
  validateCacheKey key && storagePrefixes.any fun start => start.isPrefixOf key

/-! ### The walk -/

/-- The order of a directory's entries: a directory compares as its name plus a slash. -/
def order (entry : Key × DiskNode) : Key :=
  match entry.2 with
  | .dir _ _ => entry.1 ++ ['/']
  | _ => entry.1

/-- `entries.sort` -/
def sortEntries (entries : List (Key × DiskNode)) : List (Key × DiskNode) :=
  entries.mergeSort fun a b => decide (order a ≤ order b)

/-- An object listed. -/
structure ListedObject where
  key : Key
  modifiedAt : ℕ
  deriving DecidableEq

variable {node : DiskNode} {info : FileInfo} {path : List Key} {entries : List (Key × DiskNode)}

theorem sizeOf_lt_of_mem_sort {name : Key} (h : (name, node) ∈ sortEntries entries) :
    sizeOf node < sizeOf (DiskNode.dir info entries) := by
  rw [sortEntries, mem_mergeSort] at h
  have hlt := sizeOf_lt_of_mem h
  rw [Prod.mk.sizeOf_spec] at hlt
  rw [DiskNode.dir.sizeOf_spec]
  omega

/-- `cursor && folder < cursor && !cursor.startsWith(folder)` -/
def passedBy (cursor : Option Key) (folder : Key) : Bool :=
  cursor.any fun c => decide (folder < c) && !folder.isPrefixOf c

/-- `visit` of a directory whose keys begin with `key`: the objects found, up to one more than the
limit. -/
def visit (cursor : Option Key) (limit : ℕ) (node : DiskNode) (key : Key)
    (objects : List ListedObject) : List ListedObject :=
  match node with
  | .dir _ entries =>
    (sortEntries entries).attach.foldl
      (fun objects entry =>
        -- once one more than the limit is found the loops are left
        if limit < objects.length then objects
        else
          match entry with
          | ⟨(_, .other _), _⟩ => objects
          | ⟨(name, .file info), _⟩ =>
            if !objectPath (key ++ name) then objects
            else if Past cursor (key ++ name) then objects ++ [⟨key ++ name, info.modifiedAt⟩]
            else objects
          | ⟨(name, .dir i es), _⟩ =>
            if !objectPath (key ++ name) then objects
            else if passedBy cursor (key ++ name ++ ['/']) then objects
            else visit cursor limit (.dir i es) (key ++ name ++ ['/']) objects)
      objects
  | _ => objects
termination_by sizeOf node
decreasing_by
  exact sizeOf_lt_of_mem_sort (by assumption)

/-- What a path of names leads to. -/
def lookup : DiskNode → List Key → Option DiskNode
  | node, [] => some node
  | .dir _ entries, name :: path =>
    (entries.find? fun entry => entry.1 = name).bind fun entry => lookup entry.2 path
  | _, _ :: _ => none

/-- Whether a path goes on past what is no directory, where the file system throws `ENOTDIR`. -/
def throughFile : DiskNode → List Key → Bool
  | _, [] => false
  | .dir _ entries, name :: path =>
    (entries.find? fun entry => entry.1 = name).any fun entry => throughFile entry.2 path
  | _, _ :: _ => true

/-- A page. -/
structure ObjectPage where
  objects : List ListedObject
  cursor : Option Key
  deriving DecidableEq

/-- `visit(prefix)`: a start that leads nowhere has no objects. -/
def visitStart (root : DiskNode) (start : Key) (cursor : Option Key) (limit : ℕ) :
    List ListedObject :=
  match lookup root ((start.splitOn '/').dropLast) with
  | none => []
  | some node => visit cursor limit node start []

/-- `listFiles`; `none` where it throws. -/
def listFiles (root : DiskNode) (start : Key) (cursor : Option Key) (limit : ℕ) :
    Option ObjectPage :=
  if ¬ ['/'].isSuffixOf start ∨ limit < 1 ∨ ¬ objectPath (start ++ "validate".toList) then none
  else if throughFile root (start.splitOn '/') then none
  else
    -- an empty cursor is none
    let cursor := cursor.filter fun c => !c.isEmpty
    let objects := visitStart root start cursor limit
    some
      { objects := objects.take limit
        cursor := if limit < objects.length then
            (objects[limit - 1]?).map ListedObject.key
          else none }

/-! ### The keys of a tree -/

/-- A directory has one entry of a name, and no name has a slash. -/
inductive DiskNode.Wf : DiskNode → Prop
  | file (info : FileInfo) : Wf (.file info)
  | other (info : Option FileInfo) : Wf (.other info)
  | dir {info : FileInfo} {entries : List (Key × DiskNode)}
      (hnodup : (entries.map Prod.fst).Nodup) (hnames : ∀ entry ∈ entries, '/' ∉ entry.1)
      (hentries : ∀ entry ∈ entries, Wf entry.2) : Wf (.dir info entries)

/-- A disk whose part under `start` is a directory or is missing. -/
structure DiskNode.Under (start : Key) (root : DiskNode) : Prop where
  wf : root.Wf
  start_dir : throughFile root (start.splitOn '/') = false

/-- The objects of a directory whose keys begin with `key`, in the order of their keys. -/
def filesUnder (node : DiskNode) (key : Key) : List ListedObject :=
  match node with
  | .dir _ entries =>
    (sortEntries entries).attach.flatMap fun entry =>
      match entry with
      | ⟨(_, .other _), _⟩ => []
      | ⟨(name, .file info), _⟩ =>
        if objectPath (key ++ name) then [⟨key ++ name, info.modifiedAt⟩] else []
      | ⟨(name, .dir i es), _⟩ =>
        if objectPath (key ++ name) then filesUnder (.dir i es) (key ++ name ++ ['/']) else []
  | _ => []
termination_by sizeOf node
decreasing_by
  exact sizeOf_lt_of_mem_sort (by assumption)

/-- The objects of one entry of a directory. -/
def entryFiles (key : Key) (entry : Key × DiskNode) : List ListedObject :=
  if objectPath (key ++ entry.1) then
    match entry.2 with
    | .file info => [⟨key ++ entry.1, info.modifiedAt⟩]
    | .dir i es => filesUnder (.dir i es) (key ++ entry.1 ++ ['/'])
    | .other _ => []
  else []

theorem filesUnder_dir (info : FileInfo) (entries : List (Key × DiskNode)) (key : Key) :
    filesUnder (.dir info entries) key = (sortEntries entries).flatMap (entryFiles key) := by
  rw [filesUnder]
  conv_rhs => rw [← attach_map_subtype_val (sortEntries entries), flatMap_map]
  refine flatMap_congr fun ⟨⟨name, node⟩, hmem⟩ _ => ?_
  cases node with
  | file info => simp only [entryFiles]
  | dir i es => simp only [entryFiles]
  | other info => simp [entryFiles]

/-- One turn of the loop of `visit`. -/
def visitEntry (cursor : Option Key) (limit : ℕ) (key : Key) (objects : List ListedObject)
    (entry : Key × DiskNode) : List ListedObject :=
  if limit < objects.length then objects
  else if !objectPath (key ++ entry.1) then objects
  else
    match entry.2 with
    | .file info =>
      if Past cursor (key ++ entry.1) then objects ++ [⟨key ++ entry.1, info.modifiedAt⟩]
      else objects
    | .dir i es =>
      if passedBy cursor (key ++ entry.1 ++ ['/']) then objects
      else visit cursor limit (.dir i es) (key ++ entry.1 ++ ['/']) objects
    | .other _ => objects

theorem visit_dir (cursor : Option Key) (limit : ℕ) (info : FileInfo)
    (entries : List (Key × DiskNode)) (key : Key) (objects : List ListedObject) :
    visit cursor limit (.dir info entries) key objects =
      (sortEntries entries).foldl (visitEntry cursor limit key) objects := by
  rw [visit]
  conv_rhs => rw [← attach_map_subtype_val (sortEntries entries), foldl_map]
  congr 1
  funext objects entry
  obtain ⟨⟨name, node⟩, hmem⟩ := entry
  cases node with
  | file info => simp only [visitEntry]
  | dir i es => simp only [visitEntry]
  | other info => simp [visitEntry]

/-! ### Which keys a tree has -/

/-- Keys that begin with `key` are those of valid parts: `key` is the path of a directory. -/
def IsFolder (key : Key) : Prop :=
  ∀ rest, objectPath (key ++ rest) = (rest.splitOn '/').all validPart

theorem IsFolder.child {key name : Key} (h : IsFolder key) (hname : '/' ∉ name)
    (hvalid : objectPath (key ++ name) = true) : IsFolder (key ++ name ++ ['/']) := by
  intro rest
  rw [h, splitOn_eq_singleton hname, all_cons, all_nil, Bool.and_true] at hvalid
  rw [append_assoc, append_assoc, h, singleton_append,
    splitOn_append_cons_self_of_not_mem hname, all_cons, hvalid, Bool.true_and]

/-- A key is one part, or goes on after its first slash. -/
theorem exists_first_part (rest : Key) :
    '/' ∉ rest ∨ ∃ name tail, rest = name ++ '/' :: tail ∧ '/' ∉ name := by
  induction rest with
  | nil => exact .inl not_mem_nil
  | cons c rest ih =>
    by_cases hc : c = '/'
    · exact .inr ⟨[], rest, by rw [hc]; rfl, not_mem_nil⟩
    · rcases ih with hnot | ⟨name, tail, rfl, hname⟩
      · exact .inl (by simp [Ne.symm hc, hnot])
      · exact .inr ⟨c :: name, tail, rfl, by simp [Ne.symm hc, hname]⟩

/-- The entry of a name. -/
theorem find?_entry (hnodup : (entries.map Prod.fst).Nodup) {name : Key} :
    entries.find? (fun entry => entry.1 = name) = some (name, node) ↔ (name, node) ∈ entries := by
  refine ⟨mem_of_find?_eq_some, fun hmem => ?_⟩
  cases hfind : entries.find? fun entry => entry.1 = name with
  | none =>
    have := find?_eq_none.1 hfind _ hmem
    simp at this
  | some entry =>
    have hname := find?_some hfind
    rw [decide_eq_true_iff] at hname
    have := inj_on_of_nodup_map hnodup (mem_of_find?_eq_some hfind) hmem hname
    rw [this]

theorem lookup_dir (hnodup : (entries.map Prod.fst).Nodup) {name : Key} :
    lookup (.dir info entries) (name :: path) = some node ↔
      ∃ child, (name, child) ∈ entries ∧ lookup child path = some node := by
  rw [lookup, Option.bind_eq_some_iff]
  constructor
  · rintro ⟨⟨name', child⟩, hfind, hpath⟩
    have hname := find?_some hfind
    rw [decide_eq_true_iff] at hname
    subst hname
    exact ⟨child, mem_of_find?_eq_some hfind, hpath⟩
  · rintro ⟨child, hmem, hpath⟩
    exact ⟨(name, child), (find?_entry hnodup).2 hmem, hpath⟩

theorem lookup_file : lookup (.file info) path = some node ↔ path = [] ∧ node = .file info := by
  cases path with
  | nil => simp [lookup, eq_comm]
  | cons name path => simp [lookup]

theorem lookup_other {info : Option FileInfo} :
    lookup (.other info) path = some node ↔ path = [] ∧ node = .other info := by
  cases path with
  | nil => simp [lookup, eq_comm]
  | cons name path => simp [lookup]

/-- **The objects of a directory** are the files below it at paths of valid names. -/
theorem mem_filesUnder (hwf : node.Wf) {key : Key} (hkey : IsFolder key)
    {object : ListedObject} : object ∈ filesUnder node key ↔
      (∃ info entries, node = .dir info entries) ∧
      ∃ rest info, object = ⟨key ++ rest, info.modifiedAt⟩ ∧
        (rest.splitOn '/').all validPart = true ∧
        lookup node (rest.splitOn '/') = some (.file info) := by
  induction hwf generalizing key with
  | file info => simp [filesUnder]
  | other info => simp [filesUnder]
  | @dir info entries hnodup hnames hentries ih =>
    rw [filesUnder_dir, mem_flatMap]
    simp only [sortEntries, mem_mergeSort]
    constructor
    · rintro ⟨⟨name, child⟩, hmem, hobject⟩
      have hname : '/' ∉ name := hnames _ hmem
      rw [entryFiles] at hobject
      split_ifs at hobject with hvalid
      · refine ⟨⟨info, entries, rfl⟩, ?_⟩
        cases child with
        | file i =>
          simp only [mem_singleton] at hobject
          refine ⟨name, i, hobject, (hkey name).symm.trans hvalid, ?_⟩
          rw [splitOn_eq_singleton hname, lookup_dir hnodup]
          exact ⟨.file i, hmem, rfl⟩
        | dir i es =>
          obtain ⟨-, rest, j, rfl, hall, hlookup⟩ := (ih _ hmem (hkey.child hname hvalid)).1 hobject
          refine ⟨name ++ '/' :: rest, j, by simp, ?_, ?_⟩
          · rw [splitOn_append_cons_self_of_not_mem hname, all_cons, hall, Bool.and_true]
            rw [hkey, splitOn_eq_singleton hname] at hvalid
            simpa using hvalid
          · rw [splitOn_append_cons_self_of_not_mem hname, lookup_dir hnodup]
            exact ⟨.dir i es, hmem, hlookup⟩
        | other i => simp at hobject
      · cases hobject
    · rintro ⟨-, rest, j, rfl, hall, hlookup⟩
      rcases exists_first_part rest with hslash | ⟨name, tail, rfl, hname⟩
      · -- the file is an entry
        have hvalid : objectPath (key ++ rest) = true := (hkey rest).trans hall
        rw [splitOn_eq_singleton hslash, lookup_dir hnodup] at hlookup
        obtain ⟨child, hmem, hchild⟩ := hlookup
        rw [lookup, Option.some.injEq] at hchild
        subst hchild
        refine ⟨_, hmem, ?_⟩
        rw [entryFiles, if_pos hvalid]
        exact mem_singleton_self _
      · -- the file is below an entry
        rw [splitOn_append_cons_self_of_not_mem hname, lookup_dir hnodup] at hlookup
        rw [splitOn_append_cons_self_of_not_mem hname, all_cons, Bool.and_eq_true] at hall
        obtain ⟨child, hmem, hchild⟩ := hlookup
        have hvalid : objectPath (key ++ name) = true := by
          rw [hkey, splitOn_eq_singleton hname]
          simpa using hall.1
        refine ⟨_, hmem, ?_⟩
        rw [entryFiles, if_pos hvalid]
        have hne : tail.splitOn '/' ≠ [] := splitOn_ne_nil _ _
        cases child with
        | file i => exact absurd (lookup_file.1 hchild).1 hne
        | other i => exact absurd (lookup_other.1 hchild).1 hne
        | dir i es =>
          refine (ih _ hmem (hkey.child hname hvalid)).2 ⟨⟨i, es, rfl⟩, tail, j, ?_, hall.2, hchild⟩
          simp

end Triage.DiskStorage
