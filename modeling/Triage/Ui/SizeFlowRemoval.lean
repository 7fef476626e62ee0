import Mathlib.Algebra.Group.Prod
import Triage.Data.FlagBatches
import Triage.Data.Spread

/-!
# Removal sizes

The size flow of a bundle shows, for each row of files, what is gone once the row is deleted. The
deletions are simulated 32 at a time: a file's flags are the deletions under which it stays
reachable, and they spread along the imports from the entries. Files that are lost to the same
deletions are counted together.

## Main results

* `removal_exact` : what is counted is what is not reachable any more.
-/

namespace Triage.SizeFlow

open Flags Grouping List Option Function Prod

/-- A file with its size, where it is known; a virtual one has none. -/
structure FlowFile where
  size : Option ℤ
  virtual : Bool
  deriving DecidableEq

def bytes : Option ℤ → ℕ
  | some n => if 0 ≤ n then n.toNat else 0
  | none => 0

/-- A size, and how many sizes are missing. -/
abbrev Total := ℕ × ℕ

def weigh (file : FlowFile) : Total :=
  (bytes file.size, if !file.virtual && file.size.isNone then 1 else 0)

variable {F : Type*} [DecidableEq F]

/-- The simulation of the deletions of so many rows: the files, and by their numbers the row, the
imports and the entries. -/
structure Removal (F : Type*) where
  ids : ℕ
  paths : List F
  groups : ℕ → ℕ
  next : ℕ → List ℕ
  starts : List ℕ

def removalSimulation (links : F → List F) (roots : List F) (rows : List (List F)) : Removal F :=
  have groupOf := newMap (rows.zipIdx.flatMap fun p => p.1.map (·, p.2))
  have paths := groupOf.map Prod.fst
  { ids := rows.length
    paths
    groups := fun i => (groupOf[i]?.map Prod.snd).getD 0
    next := fun i => (paths[i]?.toList.flatMap links).map (paths.idxOf ·)
    starts := roots.map (paths.idxOf ·) }

namespace Removal

variable (r : Removal F)

def mask (base : ℕ) : Word := firsts (batch r.ids base)

/-- The deletions of a batch that a file is not in. -/
def allowed (base i : ℕ) : Word :=
  if base ≤ r.groups i ∧ r.groups i < base + batch r.ids base then
    r.mask base &&& ~~~flag (r.groups i - base)
  else r.mask base

/-- The traversal of a batch, with at most so many steps. -/
def traversal (base bound : ℕ) : Spread ℕ :=
  Spread.settle r.next (r.allowed base) (List.replicate r.paths.length 0) r.starts bound

/-- The deletions of a batch under which a file stays reachable; a step lowers what is left of 33
for each file. -/
def reached (base : ℕ) : ℕ → Word := (r.traversal base (33 * r.paths.length)).reached

/-- The deletions of a batch that a file is lost to. -/
def lost (base i : ℕ) : Word := r.mask base &&& ~~~r.reached base i

/-- The files that a batch loses, by the deletions they are lost to, with what they weigh. -/
def losses (files : F → FlowFile) (base : ℕ) : List (Word × Total) :=
  ((List.range r.paths.length).filter (r.lost base · ≠ 0)).map fun i =>
    (r.lost base i, (r.paths[i]?.map (weigh ∘ files)).getD 0)

/-- The deletions of a batch that all files of a row are lost to. -/
def goneRow (base : ℕ) : ℕ → Word :=
  (List.range r.paths.length).foldl
    (fun lost i => update lost (r.groups i) (lost (r.groups i) &&& ~~~r.reached base i))
    fun _ => r.mask base

def sizes (files : F → FlowFile) : ℕ → Total :=
  (bases r.ids).foldl (fun totals base => addWords base totals (tally (r.losses files base)))
    fun _ => 0

def counts : ℕ → ℕ :=
  (bases r.ids).foldl
    (fun counts base =>
      addWords base counts ((List.range r.ids).map fun group => (r.goneRow base group, 1)))
    fun _ => 0

end Removal

open Removal

/-- What the deletion of each row removes, in bytes. -/
def removalSizes (files : F → FlowFile) (links : F → List F) (roots : List F)
    (rows : List (List F)) : List Total :=
  (List.range rows.length).map ((removalSimulation links roots rows).sizes files)

/-- How many rows the deletion of each row removes. -/
def removalCounts (links : F → List F) (roots : List F) (rows : List (List F)) : List ℕ :=
  (List.range rows.length).map (removalSimulation links roots rows).counts

/-! ### What is to be counted -/

/-- Rows that part the files that are reachable from the entries. -/
structure Partition (links : F → List F) (roots : List F) (rows : List (List F)) : Prop where
  nodup : rows.flatten.Nodup
  reached : ∀ f, f ∈ rows.flatten ↔ Links.ReachedFrom links roots f

/-- A file is lost to the deletion of a row: no path from an entry goes round the row. -/
def Lost (links : F → List F) (roots row : List F) (f : F) : Prop :=
  Links.ReachedFrom links roots f ∧ ¬Links.Stays links roots (fun g => decide (g ∈ row)) f

structure Exact (files : F → FlowFile) (links : F → List F) (roots : List F)
    (rows : List (List F)) : Prop where
  sizes : ∀ (d : ℕ) (row : List F), rows[d]? = some row → ∃ lost : List F, lost.Nodup ∧
    (∀ f, f ∈ lost ↔ Lost links roots row f) ∧
    (removalSizes files links roots rows)[d]? = some (lost.map (weigh ∘ files)).sum
  counts : ∀ (d : ℕ) (row : List F), rows[d]? = some row → ∃ lost : List ℕ, lost.Nodup ∧
    (∀ e, e ∈ lost ↔ ∃ row', rows[e]? = some row' ∧ ∀ f ∈ row', Lost links roots row f) ∧
    (removalCounts links roots rows)[d]? = some lost.length
  ends : ∀ base, Spread.body (removalSimulation links roots rows).next
    ((removalSimulation links roots rows).allowed base)
    ((removalSimulation links roots rows).traversal base (33 * rows.flatten.length)) = none
  queue : ∀ base bound, ∃ waiting : List ℕ, waiting.Nodup ∧
    ((removalSimulation links roots rows).traversal base bound).queue.Holds waiting

/-! ### Files by number -/

variable {links : F → List F} {roots : List F} {rows : List (List F)} {row : List F} {f : F}
  {i d base b : ℕ}

omit [DecidableEq F] in
theorem keys_rows (rows : List (List F)) :
    (rows.zipIdx.flatMap fun p => p.1.map (·, p.2)).map fst = rows.flatten := by
  have hrow : ∀ p : List F × ℕ, (p.1.map (·, p.2)).map fst = p.1 := by
    intro p
    rw [List.map_map]
    exact List.map_id' _
  simp only [map_flatMap, hrow]
  rw [flatMap_def, zipIdx_map_fst]

omit [DecidableEq F] in
theorem mem_rows {p : F × ℕ} : p ∈ (rows.zipIdx.flatMap fun p => p.1.map (·, p.2)) ↔
    ∃ row, rows[p.2]? = some row ∧ p.1 ∈ row := by
  simp only [mem_flatMap, List.mem_map, mem_zipIdx_iff_getElem?]
  constructor
  · rintro ⟨q, hq, f, hf, rfl⟩
    exact ⟨q.1, hq, hf⟩
  · rintro ⟨row, hrow, hp⟩
    exact ⟨(row, p.2), hrow, p.1, hp, rfl⟩

section Numbers

variable (h : rows.flatten.Nodup)
include h

theorem groupOf_eq : newMap (rows.zipIdx.flatMap fun p => p.1.map (·, p.2)) =
    rows.zipIdx.flatMap fun p => p.1.map (·, p.2) :=
  newMap_eq_self (by rwa [keys_rows])

variable (links) (roots)

theorem paths_eq : (removalSimulation links roots rows).paths = rows.flatten := by
  change (newMap _).map fst = _
  rw [groupOf_eq h, keys_rows]

theorem slots_length :
    (List.replicate (removalSimulation links roots rows).paths.length 0).length =
      (List.range rows.flatten.length).length := by
  rw [length_replicate, length_range, paths_eq links roots h]

theorem next_eq (i : ℕ) : (removalSimulation links roots rows).next i =
    (rows.flatten[i]?.toList.flatMap links).map (rows.flatten.idxOf ·) := by
  have hpaths : (newMap _).map fst = rows.flatten := paths_eq links roots h
  change (((newMap _).map fst)[i]?.toList.flatMap links).map _ = _
  rw [hpaths]

theorem starts_eq : (removalSimulation links roots rows).starts =
    roots.map (rows.flatten.idxOf ·) := by
  rw [← paths_eq links roots h]
  rfl

/-- The row of a file is that of its number. -/
theorem mem_row_iff (hi : rows.flatten[i]? = some f) (hd : rows[d]? = some row) :
    f ∈ row ↔ (removalSimulation links roots rows).groups i = d := by
  change _ ↔ ((newMap _)[i]?.map snd).getD 0 = d
  rw [groupOf_eq h]
  rw [← keys_rows, getElem?_map] at hi
  obtain ⟨⟨f', e⟩, hentry, rfl⟩ := map_eq_some_iff.1 hi
  rw [hentry, map_some, getD_some]
  have hkeys : ((rows.zipIdx.flatMap fun p => p.1.map (·, p.2)).map fst).Nodup := by
    rwa [keys_rows]
  have hmem := mem_of_getElem? hentry
  constructor
  · intro hf
    have hmem' : (f', d) ∈ rows.zipIdx.flatMap fun p => p.1.map (·, p.2) := mem_rows.2 ⟨row, hd, hf⟩
    exact congrArg snd (inj_on_of_nodup_map hkeys hmem hmem' rfl)
  · rintro rfl
    obtain ⟨row', hrow', hf⟩ := mem_rows.1 hmem
    rw [hd] at hrow'
    cases hrow'
    exact hf

end Numbers

theorem lt_of_lost (hb : ((removalSimulation links roots rows).lost base i).getLsbD b = true) :
    b < batch rows.length base := by
  rw [lost, BitVec.getLsbD_and, Bool.and_eq_true, mask, getLsbD_firsts batch_le] at hb
  exact of_decide_eq_true hb.1

/-! ### Deletions -/

section Deletions

variable (h : Partition links roots rows)
include h

theorem idxOf_lt (hf : Links.ReachedFrom links roots f) :
    rows.flatten.idxOf f < rows.flatten.length :=
  idxOf_lt_length_iff.2 ((h.reached f).2 hf)

theorem getElem?_idxOf (hf : Links.ReachedFrom links roots f) :
    rows.flatten[rows.flatten.idxOf f]? = some f := by
  rw [getElem?_eq_getElem (idxOf_lt h hf), getElem_idxOf]

omit [DecidableEq F] in
theorem reached_of_getElem? (hi : rows.flatten[i]? = some f) : Links.ReachedFrom links roots f :=
  (h.reached f).1 (mem_of_getElem? hi)

theorem mem_next (hi : rows.flatten[i]? = some f) {j : ℕ} :
    j ∈ (removalSimulation links roots rows).next i ↔ ∃ g ∈ links f, rows.flatten[j]? = some g := by
  rw [next_eq links roots h.nodup, hi, toList_some, flatMap_singleton, List.mem_map]
  constructor
  · rintro ⟨g, hg, rfl⟩
    exact ⟨g, hg, getElem?_idxOf h ((reached_of_getElem? h hi).step hg)⟩
  · rintro ⟨g, hg, hj⟩
    obtain ⟨hlt, rfl⟩ := List.getElem?_eq_some_iff.1 hj
    exact ⟨_, hg, h.nodup.idxOf_getElem j hlt⟩

theorem mem_starts : i ∈ (removalSimulation links roots rows).starts ↔
    ∃ f ∈ roots, rows.flatten[i]? = some f := by
  rw [starts_eq links roots h.nodup, List.mem_map]
  constructor
  · rintro ⟨f, hf, rfl⟩
    exact ⟨f, hf, getElem?_idxOf h (Links.ReachedFrom.start hf)⟩
  · rintro ⟨f, hf, hi⟩
    obtain ⟨hlt, rfl⟩ := List.getElem?_eq_some_iff.1 hi
    exact ⟨_, hf, h.nodup.idxOf_getElem i hlt⟩

theorem spread_over : Spread.Over (removalSimulation links roots rows).next
    (List.range rows.flatten.length) (removalSimulation links roots rows).starts := by
  have hlt : ∀ {i : ℕ} {f : F}, rows.flatten[i]? = some f →
      i ∈ List.range rows.flatten.length :=
    fun hi => mem_range.2 (List.getElem?_eq_some_iff.1 hi).1
  refine ⟨nodup_range, fun i hi => ?_, fun i hi j hj => ?_⟩
  · obtain ⟨f, -, hf⟩ := (mem_starts h).1 hi
    exact hlt hf
  · have hf := getElem?_eq_getElem (mem_range.1 hi)
    obtain ⟨g, -, hg⟩ := (mem_next h hf).1 hj
    exact hlt hg

/-- A file is denied just the flag of its own row's deletion. -/
theorem denies_iff (hb : b < batch rows.length base) (hi : rows.flatten[i]? = some f)
    (hd : rows[base + b]? = some row) :
    Spread.denies ((removalSimulation links roots rows).allowed base) b i = decide (f ∈ row) := by
  have hids : (removalSimulation links roots rows).ids = rows.length := rfl
  have hmask : ((removalSimulation links roots rows).mask base).getLsbD b = true := by
    rw [mask, getLsbD_firsts batch_le, hids]
    exact decide_eq_true hb
  have hb32 : b < 32 := hb.trans_le batch_le
  have hrow := mem_row_iff links roots h.nodup hi hd
  rw [Bool.eq_iff_iff, decide_eq_true_iff, hrow, Spread.denies, Bool.not_eq_true', allowed, hids]
  split
  · rename_i hin
    rw [BitVec.getLsbD_and, hmask, BitVec.getLsbD_not, getLsbD_flag]
    simp only [hb32, decide_true, Bool.true_and, Bool.not_eq_false', decide_eq_true_eq]
    omega
  · rename_i hout
    rw [hmask]
    refine iff_of_false (by decide) fun heq => hout ?_
    omega

theorem stays_iff (hb : b < batch rows.length base) (hi : rows.flatten[i]? = some f)
    (hd : rows[base + b]? = some row) :
    Links.Stays (removalSimulation links roots rows).next
        (removalSimulation links roots rows).starts
        (Spread.denies ((removalSimulation links roots rows).allowed base) b) i ↔
      Links.Stays links roots (fun g => decide (g ∈ row)) f := by
  constructor
  · intro hstays
    have hex : ∃ g, rows.flatten[i]? = some g ∧
        Links.Stays links roots (fun g => decide (g ∈ row)) g := by
      refine hstays.mem (P := fun i => ∃ g, rows.flatten[i]? = some g ∧
        Links.Stays links roots (fun g => decide (g ∈ row)) g) ?_ ?_
      · rintro i ⟨g, hg, hP⟩ j hj hdenies
        obtain ⟨g', hg', hj'⟩ := (mem_next h hg).1 hj
        rw [denies_iff h hb hj' hd] at hdenies
        exact ⟨g', hj', hP.step hg' hdenies⟩
      · intro i hstart hdenies
        obtain ⟨g, hg, hi⟩ := (mem_starts h).1 hstart
        rw [denies_iff h hb hi hd] at hdenies
        exact ⟨g, hi, Links.Stays.start hg hdenies⟩
    obtain ⟨g, hg, hP⟩ := hex
    rw [hi] at hg
    cases hg
    exact hP
  · intro hstays
    have hex : ∃ j, rows.flatten[j]? = some f ∧ Links.Stays
        (removalSimulation links roots rows).next (removalSimulation links roots rows).starts
        (Spread.denies ((removalSimulation links roots rows).allowed base) b) j := by
      refine hstays.mem (P := fun g => ∃ j, rows.flatten[j]? = some g ∧ Links.Stays
        (removalSimulation links roots rows).next (removalSimulation links roots rows).starts
        (Spread.denies ((removalSimulation links roots rows).allowed base) b) j) ?_ ?_
      · rintro g ⟨j, hj, hP⟩ g' hg' hgone
        have hj' := getElem?_idxOf h ((reached_of_getElem? h hj).step hg')
        exact ⟨_, hj', hP.step ((mem_next h hj).2 ⟨g', hg', hj'⟩)
          ((denies_iff h hb hj' hd).trans hgone)⟩
      · intro g hg hgone
        have hj := getElem?_idxOf h (Links.ReachedFrom.start hg)
        exact ⟨_, hj, Links.Stays.start ((mem_starts h).2 ⟨g, hg, hj⟩)
          ((denies_iff h hb hj hd).trans hgone)⟩
    obtain ⟨j, hj, hP⟩ := hex
    have hlt := (List.getElem?_eq_some_iff.1 hj).1
    rwa [← (getElem?_inj hlt h.nodup).1 (hj.trans hi.symm)]

theorem traversal_spec (base : ℕ) :
    Spread.body (removalSimulation links roots rows).next
        ((removalSimulation links roots rows).allowed base)
        ((removalSimulation links roots rows).traversal base (33 * rows.flatten.length)) = none ∧
      ∀ b i, ((removalSimulation links roots rows).reached base i).getLsbD b = true ↔
        Links.Stays (removalSimulation links roots rows).next
          (removalSimulation links roots rows).starts
          (Spread.denies ((removalSimulation links roots rows).allowed base) b) i := by
  have hlength := congrArg List.length (paths_eq links roots h.nodup)
  have hbound : 33 * (List.range rows.flatten.length).length ≤ 33 * rows.flatten.length := by
    rw [length_range]
  have hspec := Spread.settle_spec ((removalSimulation links roots rows).allowed base)
    (spread_over h) (slots_length links roots h.nodup) hbound
  refine ⟨hspec.1, fun b i => ?_⟩
  rw [reached, hlength]
  exact hspec.2 b i

/-- A file has the flag of a deletion, in the deletion's batch, just where it is lost to it. -/
theorem lost_iff (hd : rows[d]? = some row) (hi : rows.flatten[i]? = some f) :
    ((removalSimulation links roots rows).lost (32 * (d / 32)) i).getLsbD (d % 32) = true ↔
      Lost links roots row f := by
  have hlt := (List.getElem?_eq_some_iff.1 hd).1
  have hids : (removalSimulation links roots rows).ids = rows.length := rfl
  have hb : d % 32 < batch rows.length (32 * (d / 32)) := by
    rw [batch]
    omega
  have hmask : ((removalSimulation links roots rows).mask (32 * (d / 32))).getLsbD (d % 32) =
      true := by
    rw [mask, getLsbD_firsts batch_le, hids]
    exact decide_eq_true hb
  have hd' : rows[32 * (d / 32) + d % 32]? = some row := by rwa [Nat.div_add_mod]
  rw [lost, BitVec.getLsbD_and, hmask, Bool.true_and, BitVec.getLsbD_not,
    decide_eq_true (hb.trans_le batch_le), Bool.true_and, Bool.not_eq_true', Lost,
    and_iff_right (reached_of_getElem? h hi), ← stays_iff h hb hi hd',
    ← (traversal_spec h _).2, Bool.not_eq_true]

end Deletions

/-! ### Sums -/

omit [DecidableEq F] in
/-- The files of some numbers, and what they weigh. -/
theorem sum_files {M : Type*} [AddCommMonoid M] (paths : List F) (weight : F → M) {is : List ℕ}
    (his : ∀ i ∈ is, i < paths.length) :
    (is.map fun i => (paths[i]?.map weight).getD 0).sum =
      ((is.filterMap (paths[·]?)).map weight).sum := by
  induction is with
  | nil => rfl
  | cons i is ih =>
    have hi := getElem?_eq_getElem (his i mem_cons_self)
    rw [map_cons, sum_cons, ih fun j hj => his j (mem_cons_of_mem i hj), filterMap_cons, hi]
    rfl

omit [DecidableEq F] in
theorem nodup_files {paths : List F} (hpaths : paths.Nodup) {is : List ℕ} (his : is.Nodup)
    (hlt : ∀ i ∈ is, i < paths.length) : (is.filterMap (paths[·]?)).Nodup := by
  induction is with
  | nil => exact nodup_nil
  | cons i is ih =>
    obtain ⟨hnot, his⟩ := nodup_cons.1 his
    have hi := hlt i mem_cons_self
    rw [filterMap_cons, getElem?_eq_getElem hi]
    refine nodup_cons.2 ⟨fun hmem => hnot ?_, ih his fun j hj => hlt j (by simp [hj])⟩
    obtain ⟨j, hj, heq⟩ := List.mem_filterMap.1 hmem
    rw [← getElem?_eq_getElem hi] at heq
    rwa [(getElem?_inj hi hpaths).1 heq.symm]

theorem removalSizes_spec (files : F → FlowFile) (h : Partition links roots rows)
    (hd : rows[d]? = some row) : ∃ lost : List F, lost.Nodup ∧
      (∀ f, f ∈ lost ↔ Lost links roots row f) ∧
      (removalSizes files links roots rows)[d]? = some (lost.map (weigh ∘ files)).sum := by
  have hlt := (List.getElem?_eq_some_iff.1 hd).1
  have hpaths := paths_eq links roots h.nodup
  set r := removalSimulation links roots rows with hr
  have hids : r.ids = rows.length := rfl
  have his : ∀ i ∈ (List.range r.paths.length).filter
      (fun i => (r.lost (32 * (d / 32)) i).getLsbD (d % 32)), i < rows.flatten.length := by
    intro i hi
    rw [← hpaths]
    exact mem_range.1 (mem_of_mem_filter hi)
  refine ⟨((List.range r.paths.length).filter
    (fun i => (r.lost (32 * (d / 32)) i).getLsbD (d % 32))).filterMap (rows.flatten[·]?),
    nodup_files h.nodup (nodup_range.filter _) his, fun f => ?_, ?_⟩
  · rw [List.mem_filterMap]
    constructor
    · rintro ⟨i, hi, hf⟩
      exact (lost_iff h hd hf).1 (mem_filter.1 hi).2
    · intro hf
      have hi := getElem?_idxOf h hf.1
      refine ⟨_, mem_filter.2 ⟨mem_range.2 ?_, (lost_iff h hd hi).2 hf⟩, hi⟩
      rw [hpaths]
      exact idxOf_lt h hf.1
  · have hes : ∀ base ∈ bases rows.length, ∀ e ∈ r.losses files base,
        ∀ b, e.1.getLsbD b = true → b < batch rows.length base := by
      intro base _ e he b hb
      obtain ⟨i, -, rfl⟩ := List.mem_map.1 he
      exact lt_of_lost hb
    -- what is lost to no deletion of the batch is not counted, and has no flag
    have hfilter : ((List.range r.paths.length).filter (r.lost (32 * (d / 32)) · ≠ 0)).filter
          (fun i => (r.lost (32 * (d / 32)) i).getLsbD (d % 32)) =
        (List.range r.paths.length).filter
          fun i => (r.lost (32 * (d / 32)) i).getLsbD (d % 32) := by
      rw [List.filter_filter]
      refine List.filter_congr fun i _ => ?_
      rw [Bool.and_eq_left_iff_imp, decide_eq_true_iff]
      intro hbit hzero
      rw [hzero] at hbit
      exact absurd hbit (by simp)
    have hsizes : r.sizes files d = 0 + _ := addBatches_tally hlt hes
    rw [removalSizes, getElem?_map, getElem?_range hlt, map_some, hsizes,
      losses, List.filter_map, List.map_map, zero_add,
      ← sum_files rows.flatten (weigh ∘ files) his, ← hpaths, ← hfilter]
    rfl

omit [DecidableEq F] in
theorem goneRow_iff (r : Removal F) {e : ℕ} : (r.goneRow base e).getLsbD b = true ↔
    b < batch r.ids base ∧ ∀ i < r.paths.length, r.groups i = e →
      (r.lost base i).getLsbD b = true := by
  have hmask : (r.mask base).getLsbD b = decide (b < batch r.ids base) := getLsbD_firsts batch_le
  rw [goneRow]
  induction r.paths.length with
  | zero => simp [hmask]
  | succ n ih =>
    have hrange : (∀ i < n + 1, r.groups i = e → (r.lost base i).getLsbD b = true) ↔
        (∀ i < n, r.groups i = e → (r.lost base i).getLsbD b = true) ∧
          (r.groups n = e → (r.lost base n).getLsbD b = true) := by
      simp only [Nat.lt_succ_iff_lt_or_eq, or_imp, forall_and, forall_eq]
    rw [range_succ, foldl_append, foldl_cons, foldl_nil, hrange, ← and_assoc]
    refine Iff.trans ?_ (and_congr_left' ih)
    by_cases he : r.groups n = e
    · subst he
      rw [update_self, BitVec.getLsbD_and, Bool.and_eq_true]
      refine and_congr_right fun hprev => ?_
      have hb := (ih.1 hprev).1
      rw [lost, BitVec.getLsbD_and, hmask, decide_eq_true hb, Bool.true_and]
      exact ⟨fun hbit _ => hbit, fun hall => hall rfl⟩
    · rw [update_of_ne (Ne.symm he)]
      exact (and_iff_left fun heq => absurd heq he).symm

theorem removalCounts_spec (h : Partition links roots rows) (hd : rows[d]? = some row) :
    ∃ lost : List ℕ, lost.Nodup ∧
      (∀ e, e ∈ lost ↔ ∃ row', rows[e]? = some row' ∧ ∀ f ∈ row', Lost links roots row f) ∧
      (removalCounts links roots rows)[d]? = some lost.length := by
  have hlt := (List.getElem?_eq_some_iff.1 hd).1
  have hpaths := paths_eq links roots h.nodup
  have hb : d % 32 < batch rows.length (32 * (d / 32)) := by
    rw [batch]
    omega
  set r := removalSimulation links roots rows with hr
  refine ⟨(List.range rows.length).filter fun e => (r.goneRow (32 * (d / 32)) e).getLsbD (d % 32),
    nodup_range.filter _, fun e => ?_, ?_⟩
  · rw [mem_filter, mem_range, goneRow_iff]
    constructor
    · rintro ⟨he, -, hall⟩
      have hrow' := getElem?_eq_getElem he
      refine ⟨_, hrow', fun f hf => ?_⟩
      have hflat : f ∈ rows.flatten := mem_flatten_of_mem (mem_of_getElem? hrow') hf
      have hi := getElem?_idxOf h ((h.reached f).1 hflat)
      refine (lost_iff h hd hi).1 (hall _ ?_ ?_)
      · rw [hpaths]
        exact idxOf_lt_length_iff.2 hflat
      · exact (mem_row_iff links roots h.nodup hi hrow').1 hf
    · rintro ⟨row', hrow', hall⟩
      refine ⟨(List.getElem?_eq_some_iff.1 hrow').1, hb, fun i hi he => ?_⟩
      rw [hpaths] at hi
      have hi := getElem?_eq_getElem hi
      exact (lost_iff h hd hi).2 (hall _ ((mem_row_iff links roots h.nodup hi hrow').2 he))
  · have hes : ∀ base ∈ bases rows.length,
        ∀ e ∈ (List.range rows.length).map fun group => (r.goneRow base group, 1),
        ∀ b, e.1.getLsbD b = true → b < batch rows.length base := by
      intro base _ e he b hb
      obtain ⟨group, -, rfl⟩ := List.mem_map.1 he
      exact ((goneRow_iff r).1 hb).1
    have hcounts : r.counts d = 0 + _ := addBatches_apply hlt hes
    rw [removalCounts, getElem?_map, getElem?_range hlt, map_some, hcounts,
      List.filter_map, List.map_map, zero_add]
    have hones : ∀ es : List ℕ, (es.map fun _ => 1).sum = es.length := by
      intro es
      simp
    exact congrArg some (hones _)

/-- **What is counted for a row** is what is not reachable any more once its files are deleted; each
traversal ends, and its queue is never overrun. -/
theorem removal_exact (files : F → FlowFile) (h : Partition links roots rows) :
    Exact files links roots rows where
  sizes _ _ hd := removalSizes_spec files h hd
  counts _ _ hd := removalCounts_spec h hd
  ends base := (traversal_spec h base).1
  queue base bound := by
    obtain ⟨xs, hxs⟩ := Spread.settle_holds ((removalSimulation links roots rows).allowed base)
      (spread_over h) (slots_length links roots h.nodup) bound
    exact ⟨xs, hxs.nodup, hxs.holds⟩

/-- Three files, of which the first imports the others and the second the third. -/
def smallLinks : ℕ → List ℕ
  | 0 => [1, 2]
  | 1 => [2]
  | _ => []

def smallFile (f : ℕ) : FlowFile := ⟨some (f + 1), false⟩

theorem removal_exact_small : Exact smallFile smallLinks [0] [[0], [1], [2]] := by
  have hclosed : ∀ f ∈ [[0], [1], [2]].flatten, ∀ g ∈ smallLinks f,
      g ∈ [[0], [1], [2]].flatten := by
    decide
  have hroot : Links.ReachedFrom smallLinks [0] 0 := Links.ReachedFrom.start (by decide)
  refine removal_exact _ ⟨by decide, fun f => ⟨fun hf => ?_, fun hf => ?_⟩⟩
  · have hcases : f = 0 ∨ f = 1 ∨ f = 2 := by simpa using hf
    obtain rfl | rfl | rfl := hcases
    · exact hroot
    · exact hroot.step (by decide)
    · exact hroot.step (by decide)
  · exact hf.mem (P := fun f => f ∈ [[0], [1], [2]].flatten) hclosed (by decide)

-- the third file stays reachable without the second
example : removalSizes smallFile smallLinks [0] [[0], [1], [2]] = [(6, 0), (2, 0), (3, 0)] := by
  decide +kernel

end Triage.SizeFlow
