import Triage.Managed.DiskStorage

/-!
# Pages of objects in the order of their keys

A directory compares as its name plus a slash, so the entries of a directory, sorted, list their
objects in the order of whole keys. A page takes the first of them after its cursor: a directory
is only passed by where all it has comes before.

## Main results

* `filesUnder_sorted` : the objects of a directory come in the order of their keys.
* `mem_objectsUnder` : the objects below a start are the files of valid keys that begin with it.
* `listFiles_eq` : a page of the tree is a page of its sorted objects.
-/

namespace Triage.DiskStorage

open Paging ListedObject Option List.Pairwise

/-! ### The order of the keys -/

/-- What comes first of two keys that part stays first whatever follows. -/
theorem append_lt_append {a b : Key} (h : a < b) (hpre : ¬ a <+: b) (c d : Key) :
    a ++ c < b ++ d := by
  induction a generalizing b with
  | nil => exact absurd (List.nil_prefix) hpre
  | cons x a ih =>
    cases b with
    | nil => exact absurd h (List.not_lt_nil _)
    | cons y b =>
      rw [List.cons_append, List.cons_append, List.cons_lt_cons_iff]
      rcases List.cons_lt_cons_iff.1 h with hlt | ⟨rfl, hlt⟩
      · exact .inl hlt
      · exact .inr ⟨rfl, ih hlt fun hp => hpre (List.cons_prefix_cons.2 ⟨rfl, hp⟩)⟩

/-- A key stays behind what comes before it when it goes on. -/
theorem lt_append {a b : Key} (h : a < b) (d : Key) : a < b ++ d := by
  by_cases hpre : a <+: b
  · obtain ⟨e, rfl⟩ := hpre
    cases e with
    | nil => simp at h
    | cons x e =>
      have hnil : a ++ [] < a ++ (x :: e ++ d) := List.append_left_lt (List.nil_lt_cons _ _)
      rw [List.append_nil] at hnil
      rwa [List.append_assoc]
  · simpa using append_lt_append h hpre [] d

/-- The keys of an entry begin with its order; a file's is no longer. -/
theorem key_of_mem_entryFiles {entry : Key × DiskNode} (hwf : entry.2.Wf) (hname : '/' ∉ entry.1)
    {key : Key} (hkey : IsFolder key) {object : ListedObject} (h : object ∈ entryFiles key entry) :
    ∃ rest, object.key = key ++ (order entry ++ rest) ∧
      (rest = [] ∨ ∃ i es, entry.2 = .dir i es) := by
  obtain ⟨name, node⟩ := entry
  rw [entryFiles] at h
  split_ifs at h with hvalid
  · cases node with
    | file info =>
      simp only [List.mem_singleton] at h
      exact ⟨[], by simp [h, order], .inl rfl⟩
    | dir i es =>
      obtain ⟨-, rest, j, rfl, -, -⟩ := (mem_filesUnder hwf (hkey.child hname hvalid)).1 h
      exact ⟨rest, by simp [order], .inr ⟨i, es, rfl⟩⟩
    | other i => simp at h
  · cases h

/-- The orders of two entries of a directory are not the same. -/
theorem order_inj {entries : List (Key × DiskNode)} (hnodup : (entries.map Prod.fst).Nodup)
    (hnames : ∀ entry ∈ entries, '/' ∉ entry.1) {a b : Key × DiskNode} (ha : a ∈ entries)
    (hb : b ∈ entries) (h : order a = order b) : a = b := by
  have hfst : a.1 = b.1 := by
    obtain ⟨n, x⟩ := a
    obtain ⟨m, y⟩ := b
    have hn := hnames _ ha
    have hm := hnames _ hb
    cases x <;> cases y <;> simp only [order] at h
    case dir.dir => exact (List.append_inj' h rfl).1
    all_goals first
      | exact h
      | (rw [h] at hn; simp at hn)
      | (rw [← h] at hm; simp at hm)
  exact List.inj_on_of_nodup_map hnodup ha hb hfst

/-- A directory's order begins no other entry's. -/
theorem not_prefix_order {a b : Key × DiskNode} (ha : '/' ∉ a.1) (hb : '/' ∉ b.1)
    (hdir : ∃ i es, a.2 = .dir i es) (hne : order a ≠ order b) : ¬ order a <+: order b := by
  obtain ⟨n, x⟩ := a
  obtain ⟨m, y⟩ := b
  obtain ⟨i, es, rfl⟩ := hdir
  rintro ⟨rest, heq⟩
  have hsplit : ∀ {t : Key}, n ++ ['/'] ++ rest = m ++ t → '/' ∉ t → False := by
    intro t ht hnot
    have hmem : '/' ∈ m ++ t := by
      rw [← ht]
      simp
    rcases List.mem_append.1 hmem with hm | ht
    · exact hb hm
    · exact hnot ht
  cases y with
  | file j => exact hsplit (t := []) (by simpa [order] using heq) List.not_mem_nil
  | other j => exact hsplit (t := []) (by simpa [order] using heq) List.not_mem_nil
  | dir j fs =>
    -- both begin with a part and its slash
    simp only [order, List.append_assoc, List.singleton_append] at heq hne
    have hparts := congrArg (List.splitOn '/') heq
    rw [List.splitOn_append_cons_self_of_not_mem ha,
      List.splitOn_append_cons_self_of_not_mem hb, List.cons.injEq] at hparts
    exact hne (congrArg (· ++ ['/']) hparts.1)

variable {node : DiskNode} {cursor : Option Key} {objects : List ListedObject}

/-- **The objects of a directory come in the order of their keys.** -/
theorem filesUnder_sorted (hwf : node.Wf) {key : Key} (hkey : IsFolder key) :
    (filesUnder node key).Pairwise fun a b => a.key < b.key := by
  induction hwf generalizing key with
  | file info => simp [filesUnder]
  | other info => simp [filesUnder]
  | @dir info entries hnodup hnames hentries ih =>
    rw [filesUnder_dir, List.pairwise_flatMap]
    refine ⟨fun entry hmem => ?_, ?_⟩
    · rw [sortEntries, List.mem_mergeSort] at hmem
      rw [entryFiles]
      split_ifs with hvalid
      · obtain ⟨name, child⟩ := entry
        cases child with
        | file i => exact List.pairwise_singleton _ _
        | dir i es => exact ih _ hmem (hkey.child (hnames _ hmem) hvalid)
        | other i => exact nil
      · exact nil
    · have hsorted : (sortEntries entries).Pairwise fun a b => decide (order a ≤ order b) = true :=
        List.pairwise_mergeSort
          (fun a b c hab hbc => decide_eq_true ((of_decide_eq_true hab).trans
            (of_decide_eq_true hbc)))
          (fun a b => by simp [le_total]) _
      have hn : (sortEntries entries).Nodup :=
        (List.mergeSort_perm _ _).nodup_iff.2 (List.Nodup.of_map _ hnodup)
      refine (hsorted.and hn).imp_of_mem fun {a b} ha hb hab x hx y hy => ?_
      rw [sortEntries, List.mem_mergeSort] at ha hb
      have hlt : order a < order b := lt_of_le_of_ne (of_decide_eq_true hab.1) fun heq =>
        hab.2 (order_inj hnodup hnames ha hb heq)
      obtain ⟨r, hr, hrest⟩ := key_of_mem_entryFiles (hentries a ha) (hnames a ha) hkey hx
      obtain ⟨t, ht, -⟩ := key_of_mem_entryFiles (hentries b hb) (hnames b hb) hkey hy
      rw [hr, ht]
      refine List.append_left_lt ?_
      rcases hrest with rfl | hdir
      · rw [List.append_nil]
        exact lt_append hlt t
      · exact append_lt_append hlt
          (not_prefix_order (hnames a ha) (hnames b hb) hdir hlt.ne) r t

/-! ### A page is a page of the sorted keys -/

/-- A loop that collects no more than so many. -/
theorem foldl_take {β γ : Type*} {f : List γ → β → List γ} {g : β → List γ} {n : ℕ} {xs : List β}
    (hf : ∀ x ∈ xs, ∀ os : List γ, os.length ≤ n → f os x = (os ++ g x).take n) {os : List γ}
    (hos : os.length ≤ n) : xs.foldl f os = (os ++ xs.flatMap g).take n := by
  induction xs generalizing os with
  | nil => simp [List.take_of_length_le hos]
  | cons x xs ih =>
    have htake : ∀ as bs : List γ, (as.take n ++ bs).take n = (as ++ bs).take n := by
      intro as bs
      simp only [List.take_append, List.take_take, List.length_take, min_self]
      rcases Nat.le_total n as.length with hle | hle
      · simp [Nat.min_eq_left hle, Nat.sub_eq_zero_of_le hle]
      · rw [Nat.min_eq_right hle]
    rw [List.foldl_cons, hf x List.mem_cons_self os hos,
      ih (fun y hy => hf y (List.mem_cons_of_mem _ hy)) (by rw [List.length_take]; omega), htake,
      List.flatMap_cons, List.append_assoc]

/-- What is passed by comes before the cursor. -/
theorem after_eq_nil_of_passedBy {folder : Key} (h : passedBy cursor folder = true)
    (hobjects : ∀ object ∈ objects, ∃ rest, object.key = folder ++ rest) :
    after key cursor objects = [] := by
  rw [passedBy, any_eq_true] at h
  obtain ⟨c, rfl, hc⟩ := h
  rw [Bool.and_eq_true, decide_eq_true_iff, Bool.not_eq_true', ← Bool.not_eq_true,
    List.isPrefixOf_iff_prefix] at hc
  rw [after, List.filter_eq_nil_iff]
  intro object hmem
  obtain ⟨rest, hkey⟩ := hobjects object hmem
  rw [decide_eq_true_iff, hkey, past_some]
  have hlt := append_lt_append hc.1 hc.2 rest []
  rw [List.append_nil] at hlt
  exact not_lt.2 hlt.le

/-- **A walk finds the first objects after its cursor**, one more than the limit at most. -/
theorem visit_eq {limit : ℕ} (hwf : node.Wf) {key : Key}
    (hkey : IsFolder key) (hobjects : objects.length ≤ limit + 1) :
    visit cursor limit node key objects =
      (objects ++ after ListedObject.key cursor (filesUnder node key)).take (limit + 1) := by
  induction hwf generalizing key objects with
  | file info => simp [visit, filesUnder, after, List.take_of_length_le hobjects]
  | other info => simp [visit, filesUnder, after, List.take_of_length_le hobjects]
  | @dir info entries hnodup hnames hentries ih =>
    have hflat : after ListedObject.key cursor (filesUnder (.dir info entries) key) =
        (sortEntries entries).flatMap fun entry =>
          after ListedObject.key cursor (entryFiles key entry) := by
      rw [filesUnder_dir, after, List.filter_flatMap]
      rfl
    rw [visit_dir, hflat]
    refine foldl_take (fun entry hmem os hos => ?_) hobjects
    rw [sortEntries, List.mem_mergeSort] at hmem
    obtain ⟨name, child⟩ := entry
    rw [visitEntry]
    by_cases hfull : limit < os.length
    · have hlen : os.length = limit + 1 := by omega
      rw [if_pos hfull, ← hlen, List.take_left]
    rw [if_neg hfull, entryFiles]
    by_cases hvalid : objectPath (key ++ name) = true
    · rw [if_neg (by simp [hvalid]), if_pos hvalid]
      have hone : ∀ o : ListedObject, (os ++ [o]).take (limit + 1) = os ++ [o] := fun o =>
        List.take_of_length_le (by rw [List.length_append, List.length_singleton]; omega)
      cases child with
      | file i =>
        simp only [after, List.filter_cons, List.filter_nil]
        by_cases hpast : Past cursor (key ++ name)
        · simp [hpast, hone]
        · simp [hpast, List.take_of_length_le hos]
      | dir i es =>
        simp only
        by_cases hpass : passedBy cursor (key ++ name ++ ['/']) = true
        · rw [if_pos hpass, after_eq_nil_of_passedBy hpass, List.append_nil,
            List.take_of_length_le hos]
          intro object hobject
          obtain ⟨-, rest, j, rfl, -, -⟩ := (mem_filesUnder (hentries _ hmem)
            (hkey.child (hnames _ hmem) hvalid)).1 hobject
          exact ⟨rest, rfl⟩
        · rw [if_neg hpass]
          exact ih _ hmem (hkey.child (hnames _ hmem) hvalid) hos
      | other i => simp [after, List.take_of_length_le hos]
    · rw [if_pos (by simpa using hvalid), if_neg hvalid]
      simp [after, List.take_of_length_le hos]

theorem lookup_append (node : DiskNode) (path path' : List Key) :
    lookup node (path ++ path') = (lookup node path).bind fun n => lookup n path' := by
  induction path generalizing node with
  | nil => simp [lookup]
  | cons name path ih =>
    cases node with
    | file info => rfl
    | other info => rfl
    | dir info entries =>
      rw [List.cons_append, lookup, lookup, bind_assoc]
      congr 1
      funext entry
      exact ih entry.2

theorem DiskNode.Wf.lookup (h : node.Wf) {path : List Key} {n : DiskNode}
    (hn : DiskStorage.lookup node path = some n) : n.Wf := by
  induction path generalizing node with
  | nil =>
    rw [DiskStorage.lookup, some.injEq] at hn
    exact hn ▸ h
  | cons name path ih =>
    cases h with
    | file info => cases hn
    | other info => cases hn
    | dir hnodup hnames hentries =>
      obtain ⟨child, hmem, hchild⟩ := (lookup_dir hnodup).1 hn
      exact ih (hentries _ hmem) hchild

/-- The start of a listing that is not refused. -/
def ValidStart (start : Key) : Prop :=
  ['/'].isSuffixOf start = true ∧ objectPath (start ++ "validate".toList) = true

variable {start : Key}

theorem ValidStart.exists_base (h : ValidStart start) : ∃ base, start = base ++ ['/'] := by
  obtain ⟨base, rfl⟩ := List.isSuffixOf_iff_suffix.1 h.1
  exact ⟨base, rfl⟩

/-- A listing starts at a directory whose keys are those of valid parts. -/
theorem ValidStart.isFolder (h : ValidStart start) : IsFolder start := by
  obtain ⟨base, rfl⟩ := h.exists_base
  have hvalid := h.2
  intro rest
  rw [objectPath, validateCacheKey, List.append_assoc, List.singleton_append,
    List.splitOn_append_cons_self, List.all_append, Bool.and_eq_true, Bool.and_eq_true,
    List.any_eq_true] at hvalid
  obtain ⟨⟨hbase, -⟩, start, hmem, hstart⟩ := hvalid
  rw [objectPath, validateCacheKey, List.append_assoc, List.singleton_append,
    List.splitOn_append_cons_self, List.all_append, hbase, Bool.true_and]
  suffices hany :
      (storagePrefixes.any fun start => start.isPrefixOf (base ++ '/' :: rest)) = true by
    rw [hany, Bool.and_true]
  refine List.any_eq_true.2 ⟨start, hmem, ?_⟩
  rw [List.isPrefixOf_iff_prefix] at hstart ⊢
  -- a namespace ends with a slash, so it is a start of the directory
  have hlast : start.getLast? = some '/' := by
    have : ∀ start ∈ storagePrefixes, start.getLast? = some '/' := by decide +kernel
    exact this start hmem
  have hbase' : start <+: base ++ ['/'] := by
    have hsplit : base ++ '/' :: "validate".toList = (base ++ ['/']) ++ "validate".toList := by simp
    rw [hsplit] at hstart
    rcases List.prefix_or_prefix_of_prefix hstart (List.prefix_append _ _) with hle | ⟨w, rfl⟩
    · exact hle
    · cases hw : w.getLast? with
      | none =>
        rw [List.getLast?_eq_none_iff] at hw
        rw [hw, List.append_nil]
      | some c =>
        have hc : c = '/' := by
          rw [List.getLast?_append, hw, some_or, some.injEq] at hlast
          exact hlast
        have hin : c ∈ "validate".toList :=
          ((List.prefix_append_right_inj _).1 hstart).subset (List.mem_of_getLast? hw)
        rw [hc] at hin
        exact absurd hin (by decide +kernel)
  rw [← List.singleton_append, ← List.append_assoc]
  exact hbase'.trans (List.prefix_append _ _)

/-- The objects below the start of a listing, in the order of their keys. -/
def objectsUnder (root : DiskNode) (start : Key) : List ListedObject :=
  match lookup root ((start.splitOn '/').dropLast) with
  | none => []
  | some node => filesUnder node start

/-- The file of a key. -/
def objectAt (root : DiskNode) (key : Key) : Option FileInfo :=
  match lookup root (key.splitOn '/') with
  | some (.file info) => some info
  | _ => none

variable {root : DiskNode}

theorem objectAt_eq_some {key : Key} {info : FileInfo} :
    objectAt root key = some info ↔ lookup root (key.splitOn '/') = some (.file info) := by
  rw [objectAt]
  split
  · rename_i i h
    rw [h]
    simp
  · rename_i h
    refine ⟨fun h' => (by cases h'), fun h' => absurd h' ?_⟩
    exact h info

theorem objectsUnder_sorted (hwf : root.Wf) (hstart : ValidStart start) :
    (objectsUnder root start).Pairwise fun a b => a.key < b.key := by
  rw [objectsUnder]
  cases hnode : lookup root ((start.splitOn '/').dropLast) with
  | none => exact nil
  | some node => exact filesUnder_sorted (hwf.lookup hnode) hstart.isFolder

/-- **The objects below the start are the files of valid keys that begin with it.** -/
theorem mem_objectsUnder (hwf : root.Wf) (hstart : ValidStart start)
    {object : ListedObject} : object ∈ objectsUnder root start ↔
      start <+: object.key ∧ objectPath object.key = true ∧
        ∃ info, objectAt root object.key = some info ∧ object.modifiedAt = info.modifiedAt := by
  obtain ⟨base, rfl⟩ := hstart.exists_base
  have hdrop : (((base ++ ['/']).splitOn '/').dropLast) = base.splitOn '/' := by
    rw [List.splitOn_append_cons_self, List.splitOn_nil, List.dropLast_concat]
  have hpath : ∀ rest, lookup root ((base ++ ['/'] ++ rest).splitOn '/') =
      (lookup root (base.splitOn '/')).bind fun n => lookup n (rest.splitOn '/') := by
    intro rest
    rw [List.append_assoc, List.singleton_append, List.splitOn_append_cons_self, lookup_append]
  rw [objectsUnder, hdrop]
  constructor
  · cases hnode : lookup root (base.splitOn '/') with
    | none => exact fun h => absurd h List.not_mem_nil
    | some node =>
      intro hmem
      obtain ⟨-, rest, info, rfl, hall, hlookup⟩ :=
        (mem_filesUnder (hwf.lookup hnode) hstart.isFolder).1 hmem
      refine ⟨List.prefix_append _ _, (hstart.isFolder rest).trans hall, info, ?_, rfl⟩
      rw [objectAt_eq_some, hpath, hnode]
      exact hlookup
  · obtain ⟨key, modifiedAt⟩ := object
    rintro ⟨⟨rest, rfl⟩, hvalid, info, hobject, rfl⟩
    rw [objectAt_eq_some, hpath, bind_eq_some_iff] at hobject
    obtain ⟨node, hnode, hlookup⟩ := hobject
    rw [hnode]
    refine (mem_filesUnder (hwf.lookup hnode) hstart.isFolder).2
      ⟨?_, rest, info, rfl, (hstart.isFolder rest).symm.trans hvalid, hlookup⟩
    have hne : rest.splitOn '/' ≠ [] := List.splitOn_ne_nil _ _
    cases node with
    | file i => exact absurd (lookup_file.1 hlookup).1 hne
    | other i => exact absurd (lookup_other.1 hlookup).1 hne
    | dir i es => exact ⟨i, es, rfl⟩

/-- **A page of the tree is a page of its sorted objects.** -/
theorem listFiles_eq (hroot : root.Under start)
    (hstart : ValidStart start) (hcursor : cursor ≠ some []) {limit : ℕ} (hlimit : 0 < limit) :
    listFiles root start cursor limit = some
      { objects := (page key limit (objectsUnder root start) cursor).1
        cursor := (page key limit (objectsUnder root start) cursor).2 } := by
  have hfilter : (cursor.filter fun c => !c.isEmpty) = cursor := by
    cases cursor with
    | none => rfl
    | some c =>
      cases c with
      | nil => exact absurd rfl hcursor
      | cons x c => rfl
  have hfound : visitStart root start cursor limit =
      (after key cursor (objectsUnder root start)).take (limit + 1) := by
    rw [visitStart, objectsUnder]
    cases hnode : lookup root ((start.splitOn '/').dropLast) with
    | none => simp [after]
    | some node =>
      simp only
      rw [visit_eq (hroot.wf.lookup hnode) hstart.isFolder (by simp), List.nil_append]
  rw [listFiles, if_neg, hroot.start_dir, if_neg Bool.false_ne_true]
  · simp only [hfilter, hfound, page]
  · rw [not_or, not_or, not_not, not_not]
    exact ⟨hstart.1, by omega, hstart.2⟩

end Triage.DiskStorage
