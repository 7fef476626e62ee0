import Triage.Managed.DiskListing

/-!
# Walks over a disk that changes

The pages of a listing are followed by their cursors while others create and remove files between
them, and `deleteObjects` of `object-storage.ts` follows them to the end before it deletes what
they listed, each object only where it is still the version it is told of.

## Main results

* `disk_walks` : a walk lists every object that is there throughout once, in the order of keys, and
  what is deleted is every eligible object that is there throughout.
-/

namespace Triage.DiskStorage

open Paging List ListedObject

/-! ### Following the cursors -/

/-- The pages from a cursor on, the disk of each its own, and whether the last was reached. -/
def walkPages (disk : ℕ → DiskNode) (start : Key) (limit : ℕ) :
    ℕ → ℕ → Option Key → List (List ListedObject) × Bool
  | 0, _, _ => ([], false)
  | fuel + 1, time, cursor =>
    match listFiles (disk time) start cursor limit with
    | none => ([], false)
    | some page =>
      match page.cursor with
      | none => ([page.objects], true)
      | some next =>
        let rest := walkPages disk start limit fuel (time + 1) (some next)
        (page.objects :: rest.1, rest.2)

/-! ### Deleting -/

/-- What `stat` tells of what a path leads to. -/
def DiskNode.stat : DiskNode → Option FileInfo
  | .file info => some info
  | .dir info _ => some info
  | .other info => info

/-- `head`; `none` where it throws. -/
def head (root : DiskNode) (key : Key) : Option (Option FileInfo) :=
  if throughFile root (key.splitOn '/') then none
  else some ((lookup root (key.splitOn '/')).bind DiskNode.stat)

/-- A tree without what a path leads to. -/
def removeAt : DiskNode → List Key → DiskNode
  | .dir info entries, [name] => .dir info (entries.filter fun entry => entry.1 ≠ name)
  | .dir info entries, name :: path =>
    .dir info (entries.map fun entry =>
      if entry.1 = name then (entry.1, removeAt entry.2 path) else entry)
  | node, _ => node

/-- `delete` with the version expected: the disk after it and what it answers; `none` where it
throws, as for a directory. -/
def delete (root : DiskNode) (key : Key) (expected : ℕ) : Option (DiskNode × Bool) :=
  match lookup root (key.splitOn '/') with
  | none => if throughFile root (key.splitOn '/') then none else some (root, true)
  | some (.dir info _) => if info.version ≠ expected then some (root, false) else none
  | some node =>
    match node.stat with
    | none => some (root, true)
    | some info =>
      if info.version ≠ expected then some (root, false)
      else some (removeAt root (key.splitOn '/'), true)

/-- A call of `delete`: when, and with what. -/
structure Deletion where
  time : ℕ
  key : Key
  version : ℕ
  deriving DecidableEq

/-- What `deleteObjects` has done. -/
structure Deleted where
  removed : ℕ
  deletions : List Deletion
  /-- The time of the next call of the storage. -/
  time : ℕ
  deriving DecidableEq

section

variable (disk : ℕ → DiskNode)

/-- `keys.add` -/
def addKey (keys : List Key) (key : Key) : List Key :=
  if keys.contains key then keys else keys ++ [key]

/-- The keys of a page to be deleted. -/
def pageKeys (eligible : ℕ → Bool) (keep : Option Key) (objects : List ListedObject) : List Key :=
  (objects.filter fun object =>
    eligible object.modifiedAt && keep.all fun kept => !kept.isPrefixOf object.key).map
      ListedObject.key

/-- The first loop of `deleteObjects`: the keys listed and the time after it, or `none` where it
throws; `none` outside where it has not ended. -/
def collectKeys (start : Key) (eligible : ℕ → Bool) (keep : Option Key) :
    ℕ → ℕ → Option Key → List Key → List Key → Option (Option (List Key × ℕ))
  | 0, _, _, _, _ => none
  | fuel + 1, time, cursor, cursors, keys =>
    match listFiles (disk time) start cursor 100 with
    | none => some none
    | some page =>
      let keys := (pageKeys eligible keep page.objects).foldl addKey keys
      match page.cursor with
      | none => some (some (keys, time + 1))
      | some next =>
        if cursors.contains next then some none
        else collectKeys start eligible keep fuel (time + 1) (some next) (next :: cursors) keys

/-- The second loop of `deleteObjects`; `none` where it throws. -/
def deleteKeys (eligible : ℕ → Bool) : List Key → Deleted → Option Deleted
  | [], done => some done
  | key :: keys, done =>
    match head (disk done.time) key with
    | none => none
    | some none => deleteKeys eligible keys { done with time := done.time + 1 }
    | some (some stored) =>
      if eligible stored.modifiedAt then
        match delete (disk (done.time + 1)) key stored.version with
        | none => none
        | some (_, deleted) =>
          deleteKeys eligible keys
            { removed := if deleted then done.removed + 1 else done.removed
              deletions := done.deletions ++ [⟨done.time + 1, key, stored.version⟩]
              time := done.time + 2 }
      else deleteKeys eligible keys { done with time := done.time + 1 }

/-- `eligible` -/
def eligibleBefore (before : Option ℕ) (modifiedAt : ℕ) : Bool :=
  before.all fun limit => decide (modifiedAt < limit)

/-- `deleteObjects`, the disk arbitrary before each of its calls: `none` where it has not ended,
`some none` where it throws. -/
def deleteObjects (start : Key) (before : Option ℕ) (keep : Option Key) (fuel : ℕ) :
    Option (Option Deleted) :=
  (collectKeys disk start (eligibleBefore before) keep fuel 0 none [] []).map fun collected =>
    collected.bind fun found =>
      deleteKeys disk (eligibleBefore before) found.1 ⟨0, [], found.2⟩

end

/-! ### Walks -/

section Walks

variable {disk : ℕ → DiskNode} {start : Key} {root : DiskNode}

/-- A key that is listed is not empty. -/
theorem ne_nil_of_mem_objectsUnder (hwf : root.Wf) (hstart : ValidStart start)
    {object : ListedObject} (h : object ∈ objectsUnder root start) : object.key ≠ [] := by
  obtain ⟨base, hbase⟩ := hstart.exists_base
  obtain ⟨⟨rest, hkey⟩, -⟩ := (mem_objectsUnder hwf hstart).1 h
  rw [← hkey, hbase]
  simp

variable {limit : ℕ} {cursor : Option Key} {keys path : List Key} {info : FileInfo}
  {eligible : ℕ → Bool} {result : Deleted}

/-- The next cursor of a page is not empty. -/
theorem next_ne_nil (hwf : root.Wf) (hstart : ValidStart start) (hlimit : 0 < limit) {next : Key}
    (h : (page key limit (objectsUnder root start) cursor).2 = some next) :
    some next ≠ some [] := by
  obtain ⟨⟨item, hitem, rfl⟩, -, -⟩ := page_next (objectsUnder_sorted hwf hstart) hlimit h
  simpa using ne_nil_of_mem_objectsUnder hwf hstart (past_of_mem_page hitem).1

/-- The pages of a walk over the disk are those of its sorted objects. -/
theorem walkPages_eq (hdisk : ∀ time, (disk time).Under start) (hstart : ValidStart start)
    (hlimit : 0 < limit) (fuel time : ℕ) (hcursor : cursor ≠ some []) :
    walkPages disk start limit fuel time cursor =
      follow key limit (fun t => objectsUnder (disk t) start) fuel time cursor := by
  induction fuel generalizing time cursor with
  | zero => rfl
  | succ fuel ih =>
    rw [walkPages, listFiles_eq (hdisk time) hstart hcursor hlimit, follow]
    cases hnext : (page key limit (objectsUnder (disk time) start) cursor).2 with
    | none => rfl
    | some next =>
      simp only
      rw [ih (time + 1) (next_ne_nil (hdisk time).wf hstart hlimit hnext)]

/-- What a walk over the disk promises. -/
structure WalkSound (disk : ℕ → DiskNode) (start : Key) (limit : ℕ) : Prop where
  /-- Keys come in strictly increasing order. -/
  ordered : ∀ fuel,
    ((walkPages disk start limit fuel 0 none).1.flatten.map ListedObject.key).Pairwise (· < ·)
  /-- What is listed is there. -/
  found : ∀ fuel (i : ℕ) objects, (walkPages disk start limit fuel 0 none).1[i]? = some objects →
    ∀ object ∈ objects, start <+: object.key ∧ objectPath object.key = true ∧
      ∃ info, objectAt (disk i) object.key = some info ∧ object.modifiedAt = info.modifiedAt
  /-- What is there throughout is listed once. -/
  complete : ∀ fuel, (walkPages disk start limit fuel 0 none).2 = true →
    ∀ key, start <+: key → objectPath key = true →
      (∀ time < (walkPages disk start limit fuel 0 none).1.length,
        (objectAt (disk time) key).isSome) →
      ((walkPages disk start limit fuel 0 none).1.flatten.map ListedObject.key).count key = 1
  /-- The walk ends where the keys are in the end among finitely many. -/
  ends : ∀ (keys : Finset Key) settled, (∀ time, settled ≤ time → ∀ key, start <+: key →
      objectPath key = true → (objectAt (disk time) key).isSome → key ∈ keys) →
    ∃ fuel, (walkPages disk start limit fuel 0 none).2 = true

theorem mem_keys_objectsUnder (hwf : root.Wf) (hstart : ValidStart start)
    {key : Key} (hpre : start <+: key) (hvalid : objectPath key = true)
    (hat : (objectAt root key).isSome) : key ∈ (objectsUnder root start).map ListedObject.key := by
  obtain ⟨info, hinfo⟩ := Option.isSome_iff_exists.1 hat
  exact mem_map.2 ⟨⟨key, info.modifiedAt⟩,
    (mem_objectsUnder hwf hstart).2 ⟨hpre, hvalid, info, hinfo, rfl⟩, rfl⟩

theorem walkSound (hdisk : ∀ time, (disk time).Under start) (hstart : ValidStart start)
    (hlimit : 0 < limit) : WalkSound disk start limit := by
  have heq : ∀ fuel, walkPages disk start limit fuel 0 none =
      follow key limit (fun t => objectsUnder (disk t) start) fuel 0 none :=
    fun fuel => walkPages_eq hdisk hstart hlimit fuel 0 (by simp)
  have hsorted := fun time => objectsUnder_sorted (hdisk time).wf hstart
  have hordered : ∀ fuel, ((walkPages disk start limit fuel 0 none).1.flatten.map key).Pairwise
        (· < ·) := by
    intro fuel
    rw [heq fuel, pairwise_map]
    exact (follow_sorted hsorted hlimit fuel 0 none).1
  refine ⟨hordered, fun fuel i objects hi object hobject => ?_,
    fun fuel hend key hpre hvalid hthere => ?_, fun keys settled hkeys => ?_⟩
  · rw [heq fuel] at hi
    have hmem := mem_of_mem_follow hi hobject
    rw [Nat.zero_add] at hmem
    exact (mem_objectsUnder (hdisk i).wf hstart).1 hmem
  · refine count_eq_one_of_mem ((hordered fuel).imp fun h => h.ne) ?_
    rw [heq fuel] at hend hthere ⊢
    refine mem_follow hsorted hlimit hend (past_none key) fun t _ hlt => ?_
    exact mem_keys_objectsUnder (hdisk t).wf hstart hpre hvalid (hthere t (by omega))
  · have hlate : ∀ time, settled ≤ time → ∀ object ∈ objectsUnder (disk time) start,
        object.key ∈ keys := by
      intro time hle object hobject
      obtain ⟨hpre, hvalid, info, hinfo, -⟩ := (mem_objectsUnder (hdisk time).wf hstart).1 hobject
      exact hkeys time hle object.key hpre hvalid (by rw [hinfo]; rfl)
    obtain ⟨fuel, hfuel⟩ := follow_ends hsorted hlimit hlate 0 none
    exact ⟨fuel, by rw [heq fuel]; exact hfuel⟩

/-! ### The keys collected -/

theorem mem_foldl_addKey {more : List Key} {key : Key} :
    key ∈ more.foldl addKey keys ↔ key ∈ keys ∨ key ∈ more := by
  induction more generalizing keys with
  | nil => simp
  | cons k more ih =>
    rw [foldl_cons, ih, addKey, mem_cons]
    split_ifs with hk
    · refine ⟨fun h => h.imp_right .inr, ?_⟩
      rintro (h | rfl | h)
      · exact .inl h
      · exact .inl (contains_iff_mem.1 hk)
      · exact .inr h
    · rw [mem_append, mem_singleton, or_assoc]

theorem pageKeys_append (eligible : ℕ → Bool) (keep : Option Key) (as bs : List ListedObject) :
    pageKeys eligible keep (as ++ bs) = pageKeys eligible keep as ++ pageKeys eligible keep bs := by
  rw [pageKeys, filter_append, map_append]
  rfl

/-- The first loop follows the walk to its end: no cursor comes twice, as each is past the last. -/
theorem collectKeys_eq (hdisk : ∀ time, (disk time).Under start) (hstart : ValidStart start)
    (eligible : ℕ → Bool) (keep : Option Key) (fuel time : ℕ)
    (hcursor : cursor ≠ some []) {cursors : List Key}
    (hcursors : ∀ c ∈ cursors, ∀ k, Past cursor k → c < k) (keys : List Key) :
    collectKeys disk start eligible keep fuel time cursor cursors keys =
      if (walkPages disk start 100 fuel time cursor).2 then
        some (some
          ((pageKeys eligible keep (walkPages disk start 100 fuel time cursor).1.flatten).foldl
            addKey keys, time + (walkPages disk start 100 fuel time cursor).1.length))
      else none := by
  induction fuel generalizing time cursor cursors keys with
  | zero => rfl
  | succ fuel ih =>
    rw [collectKeys, walkPages, listFiles_eq (hdisk time) hstart hcursor (by decide)]
    cases hnext : (page key 100 (objectsUnder (disk time) start) cursor).2 with
    | none => simp
    | some next =>
      obtain ⟨⟨item, hitem, rfl⟩, -, -⟩ :=
        page_next (objectsUnder_sorted (hdisk time).wf hstart) (by decide) hnext
      have hpast := (past_of_mem_page hitem).2
      have hnew : item.key ∉ cursors := fun hmem => lt_irrefl _ (hcursors _ hmem _ hpast)
      simp only
      rw [if_neg fun h => hnew (contains_iff_mem.1 h),
        ih (time + 1) (next_ne_nil (hdisk time).wf hstart (by decide) hnext)]
      · simp only [flatten_cons, pageKeys_append, foldl_append, length_cons]
        rw [Nat.add_right_comm, Nat.add_assoc]
      · intro c hc k hk
        rw [past_some] at hk
        rcases mem_cons.1 hc with rfl | hc
        · exact hk
        · exact (hcursors c hc _ hpast).trans hk

/-! ### The objects deleted -/

theorem lookup_removeAt (node : DiskNode) (hpath : path ≠ []) :
    lookup (removeAt node path) path = none := by
  induction path generalizing node with
  | nil => exact absurd rfl hpath
  | cons name path ih =>
    cases node with
    | file info => cases path <;> rfl
    | other info => cases path <;> rfl
    | dir info entries =>
      cases path with
      | nil =>
        rw [removeAt, lookup, Option.bind_eq_none_iff]
        intro entry hentry
        have hmem := mem_of_find?_eq_some hentry
        have hname := find?_some hentry
        rw [decide_eq_true_iff] at hname
        rw [mem_filter, decide_eq_true_iff] at hmem
        exact absurd hname hmem.2
      | cons name' path =>
        rw [removeAt, lookup, Option.bind_eq_none_iff]
        swap
        · simp
        intro entry hentry
        have hmem := mem_of_find?_eq_some hentry
        have hname := find?_some hentry
        rw [decide_eq_true_iff] at hname
        obtain ⟨old, -, rfl⟩ := mem_map.1 hmem
        split_ifs at hname ⊢ with hold
        · exact ih old.2 (by simp)
        · exact absurd hname hold

/-- **A delete of the version that is there removes it.** -/
theorem delete_of_objectAt {key : Key} (h : objectAt root key = some info) :
    ∃ after, delete root key info.version = some (after, true) ∧ objectAt after key = none := by
  rw [objectAt_eq_some] at h
  refine ⟨removeAt root (key.splitOn '/'), ?_, ?_⟩
  · rw [delete, h]
    simp [DiskNode.stat]
  · rw [objectAt, lookup_removeAt root (splitOn_ne_nil _ _)]

theorem throughFile_of_lookup {node n : DiskNode}
    (h : lookup node path = some n) : throughFile node path = false := by
  induction path generalizing node with
  | nil => rw [throughFile]
  | cons name path ih =>
    cases node with
    | file info => cases h
    | other info => cases h
    | dir info entries =>
      rw [lookup, Option.bind_eq_some_iff] at h
      obtain ⟨entry, hentry, hlookup⟩ := h
      rw [throughFile, hentry, Option.any_some, ih hlookup]

theorem head_of_objectAt {key : Key}
    (h : objectAt root key = some info) : head root key = some (some info) := by
  rw [objectAt_eq_some] at h
  rw [head, throughFile_of_lookup h, if_neg Bool.false_ne_true, h]
  rfl

/-- The second loop goes on with time, and each deletion comes after what was done before. -/
theorem deleteKeys_deletions {done : Deleted}
    (h : deleteKeys disk eligible keys done = some result) :
    done.time ≤ result.time ∧ ∃ more, result.deletions = done.deletions ++ more ∧
      ∀ d ∈ more, done.time < d.time := by
  induction keys generalizing done with
  | nil =>
    rw [deleteKeys, Option.some.injEq] at h
    exact h ▸ ⟨le_rfl, [], by simp⟩
  | cons key keys ih =>
    rw [deleteKeys] at h
    split at h
    · cases h
    · obtain ⟨hle, more, hmore, htime⟩ := ih h
      exact ⟨by simp only at hle; omega, more, hmore, fun d hd => by
        have := htime d hd
        simp only at this
        omega⟩
    · rename_i stored _
      split_ifs at h
      · split at h
        · cases h
        · obtain ⟨hle, more, hmore, htime⟩ := ih h
          refine ⟨by simp only at hle; omega, ⟨done.time + 1, key, stored.version⟩ :: more, ?_,
            fun d hd => ?_⟩
          · rw [hmore]
            simp only [append_assoc, singleton_append]
          · rcases mem_cons.1 hd with rfl | hd
            · exact Nat.lt_succ_self _
            · have := htime d hd
              simp only at this
              omega
      · obtain ⟨hle, more, hmore, htime⟩ := ih h
        exact ⟨by simp only at hle; omega, more, hmore, fun d hd => by
          have := htime d hd
          simp only at this
          omega⟩

/-- A key that is there with its version until it is deleted is deleted. -/
theorem exists_deletion {done : Deleted}
    (h : deleteKeys disk eligible keys done = some result) {key : Key} (hkey : key ∈ keys)
    (hnew : ∀ d ∈ done.deletions, d.key ≠ key) (heligible : eligible info.modifiedAt = true)
    (hthere : ∀ t, done.time ≤ t → t < result.time →
      (∀ d ∈ result.deletions, d.key = key → t ≤ d.time) → objectAt (disk t) key = some info) :
    ∃ d ∈ result.deletions, d.key = key ∧ ∃ after,
      delete (disk d.time) key d.version = some (after, true) ∧ objectAt after key = none := by
  induction keys generalizing done with
  | nil => cases hkey
  | cons k keys ih =>
    obtain ⟨-, more, hmore, htimes⟩ := deleteKeys_deletions h
    rw [deleteKeys] at h
    rcases eq_or_ne k key with rfl | hne
    · -- no deletion of the key has been made yet
      have hlate : ∀ t ≤ done.time + 1, ∀ d ∈ result.deletions, d.key = k → t ≤ d.time := by
        intro t ht d hd hk
        rw [hmore, mem_append] at hd
        rcases hd with hd | hd
        · exact absurd hk (hnew d hd)
        · have := htimes d hd
          omega
      split at h
      · cases h
      · rename_i hhead
        have hend := (deleteKeys_deletions h).1
        simp only at hend
        rw [head_of_objectAt (hthere done.time le_rfl (by omega) (hlate _ (by omega)))] at hhead
        cases hhead
      · rename_i stored hhead
        have hbound : done.time < result.time := by
          split_ifs at h
          · split at h
            · cases h
            · have hend := (deleteKeys_deletions h).1
              simp only at hend
              omega
          · have hend := (deleteKeys_deletions h).1
            simp only at hend
            omega
        rw [head_of_objectAt (hthere done.time le_rfl hbound (hlate _ (by omega))),
          Option.some.injEq, Option.some.injEq] at hhead
        subst hhead
        rw [if_pos heligible] at h
        split at h
        · cases h
        · rename_i after deleted hdelete
          obtain ⟨hend, more', hmore', -⟩ := deleteKeys_deletions h
          simp only at hend hmore'
          refine ⟨⟨done.time + 1, k, info.version⟩, by rw [hmore']; simp, rfl, ?_⟩
          exact delete_of_objectAt
            (hthere (done.time + 1) (by omega) (by omega) (hlate _ le_rfl))
    · have hmem : key ∈ keys := (mem_cons.1 hkey).resolve_left hne.symm
      split at h
      · cases h
      · exact ih h hmem hnew fun t hle => hthere t (by simp only at hle; omega)
      · split_ifs at h
        · split at h
          · cases h
          · refine ih h hmem (fun d hd => ?_) fun t hle => hthere t (by simp only at hle; omega)
            simp only [mem_append, mem_singleton] at hd
            rcases hd with hd | rfl
            · exact hnew d hd
            · exact hne
        · exact ih h hmem hnew fun t hle => hthere t (by simp only at hle; omega)

/-- What `deleteObjects` promises: an eligible object that is there with its version from the first
page to the call that deletes it is removed by that call. -/
def DeletesSound (disk : ℕ → DiskNode) (start : Key) : Prop :=
  ∀ before keep fuel result, deleteObjects disk start before keep fuel = some (some result) →
    ∀ key info, start <+: key → objectPath key = true → (∀ kept ∈ keep, ¬ kept <+: key) →
      eligibleBefore before info.modifiedAt = true →
      (∀ time < result.time, (∀ d ∈ result.deletions, d.key = key → time ≤ d.time) →
        objectAt (disk time) key = some info) →
      ∃ d ∈ result.deletions, d.key = key ∧ ∃ after,
        delete (disk d.time) key d.version = some (after, true) ∧ objectAt after key = none

theorem deletesSound (hdisk : ∀ time, (disk time).Under start) (hstart : ValidStart start) :
    DeletesSound disk start := by
  intro before keep fuel result h key info hpre hvalid hkeep heligible hthere
  rw [deleteObjects, collectKeys_eq hdisk hstart _ _ fuel 0 (by simp) (by simp),
    Option.map_eq_some_iff] at h
  obtain ⟨collected, hcollected, hdelete⟩ := h
  split_ifs at hcollected with hend
  rw [Option.some.injEq] at hcollected
  subst hcollected
  simp only [Option.bind_some, Nat.zero_add] at hdelete
  obtain ⟨hle, more, hmore, htimes⟩ := deleteKeys_deletions hdelete
  simp only [nil_append] at hle hmore htimes
  -- the key is there on every page, so it is listed
  have hlisted : key ∈
      (walkPages disk start 100 fuel 0 none).1.flatten.map ListedObject.key := by
    have hcount := (walkSound hdisk hstart (by decide : 0 < 100)).complete fuel hend key hpre hvalid
      fun time hlt => by
        rw [hthere time (by omega) fun d hd hk => by
          rw [hmore] at hd
          have := htimes d hd
          omega]
        rfl
    exact count_pos_iff.1 (by omega)
  obtain ⟨object, hobject, rfl⟩ := mem_map.1 hlisted
  obtain ⟨objects, hobjects, hmem⟩ := mem_flatten.1 hobject
  obtain ⟨i, hi, rfl⟩ := getElem_of_mem hobjects
  obtain ⟨-, -, info', hinfo', hmodified⟩ :=
    (walkSound hdisk hstart (by decide : 0 < 100)).found fuel i _ (getElem?_eq_getElem hi)
      object hmem
  -- it is told of as it is, so it is among the keys to be deleted
  rw [hthere i (by omega) fun d hd _ => by
    rw [hmore] at hd
    have := htimes d hd
    omega, Option.some.injEq] at hinfo'
  subst hinfo'
  refine exists_deletion hdelete (mem_foldl_addKey.2 (.inr ?_)) (by simp) heligible
    fun t _ hlt hbefore => hthere t hlt hbefore
  refine mem_map.2 ⟨object, mem_filter.2 ⟨hobject, ?_⟩, rfl⟩
  rw [Bool.and_eq_true, hmodified, Option.all_eq_true]
  refine ⟨heligible, fun kept hkept => ?_⟩
  rw [Bool.not_eq_true', Bool.eq_false_iff, ne_eq, isPrefixOf_iff_prefix]
  exact hkeep kept hkept

/-- **A walk over a changing disk is complete, and so is a removal of what it lists.** -/
theorem disk_walks (hdisk : ∀ time, (disk time).Under start) (hstart : ValidStart start) {limit : ℕ}
    (hlimit : 0 < limit) : WalkSound disk start limit ∧ DeletesSound disk start :=
  ⟨walkSound hdisk hstart hlimit, deletesSound hdisk hstart⟩

end Walks

/-- A disk with one report. -/
def oneReport : DiskNode :=
  .dir ⟨0, 0⟩ [("reports".toList, .dir ⟨0, 0⟩ [("a.json".toList, .file ⟨1, 5⟩)])]

theorem oneReport_under : oneReport.Under "reports/".toList where
  wf := by
    refine .dir (by decide +kernel) (by decide +kernel) fun entry hentry => ?_
    rw [mem_singleton] at hentry
    subst hentry
    refine .dir (by decide +kernel) (by decide +kernel) fun entry hentry => ?_
    rw [mem_singleton] at hentry
    subst hentry
    exact .file _
  start_dir := by decide +kernel

theorem disk_walks_oneReport : WalkSound (fun _ => oneReport) "reports/".toList 3 ∧
    DeletesSound (fun _ => oneReport) "reports/".toList :=
  disk_walks (fun _ => oneReport_under) ⟨by decide +kernel, by decide +kernel⟩ (by decide)

end Triage.DiskStorage
