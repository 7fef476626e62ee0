import Mathlib.Data.List.Sort
import Mathlib.Data.List.MinMax
import Triage.Machine.LinkedLog

/-!
# The revision table of the relay

The relay keeps one row per saved revision in the table `workspace_revision`, keyed by the
workspace tag and a sequence number, with a second unique index on the tag and the
content-addressed id. This file embeds the statements of `db-revision-sql.ts` as functions of the
rows of the table, and `chainFrom` of `db.ts` over them.

## Main results

* `TableInv.chainAll_eq`, `TableInv.headFor_eq`, … : on a table whose rows of a tag are numbered
  `1, 2, …` in the order of insertion, the queries read the list of these rows.
-/

namespace Triage.Relay

open List Option LinkedLog

/-- A row of `workspace_revision` (less its `created_at`, which no query reads). -/
structure WorkspaceRevision where
  workspaceTag : String
  /-- Numbered from one within a workspace, assigned by the insert. -/
  seq : ℕ
  /-- The content-addressed id of the revision. -/
  id : String
  /-- The id of the previous revision; null for the first one. -/
  base : Option String
  /-- `1` for a revision that carries the full state. -/
  keyframe : ℕ
  nonce : String
  ciphertext : String
  signature : String
  deriving DecidableEq, Repr

/-- The columns returned by the chain queries. -/
structure RevisionRow where
  base : Option String
  id : String
  keyframe : ℕ
  nonce : String
  ciphertext : String
  signature : String
  deriving DecidableEq, Repr

/-- The input of `commitRevision`. -/
structure RevisionInsert where
  tag : String
  id : String
  base : Option String
  keyframe : Bool
  nonce : String
  ciphertext : String
  signature : String
  deriving DecidableEq, Repr

/-- `mapRevisionRow`: the keyframe column collapses to `0` or `1`. -/
def mapRevisionRow (r : WorkspaceRevision) : RevisionRow where
  base := r.base
  id := r.id
  keyframe := if r.keyframe = 1 then 1 else 0
  nonce := r.nonce
  ciphertext := r.ciphertext
  signature := r.signature

/-! ### The read queries -/

/-- The rows of a workspace, in the order they were inserted. -/
def rowsOf (db : List WorkspaceRevision) (tag : String) : List WorkspaceRevision :=
  db.filter (·.workspaceTag = tag)

/-- `ORDER BY seq ASC`. -/
def orderBySeq (rows : List WorkspaceRevision) : List WorkspaceRevision :=
  rows.insertionSort (·.seq ≤ ·.seq)

/-- `SELECT id … ORDER BY seq DESC LIMIT 1`. -/
def headFor (db : List WorkspaceRevision) (tag : String) : Option String :=
  ((rowsOf db tag).argmax (·.seq)).map (·.id)

/-- `SELECT seq … WHERE id = …`. -/
def seqOfId (db : List WorkspaceRevision) (tag id : String) : Option ℕ :=
  ((rowsOf db tag).find? (·.id = id)).map (·.seq)

/-- `SELECT MAX(seq)` over the given rows; null when there are none. -/
def maxSeq (rows : List WorkspaceRevision) : Option ℕ :=
  (rows.argmax (·.seq)).map (·.seq)

/-- `SELECT MAX(seq) … WHERE keyframe = 1`. -/
def lastKeyframeSeq (db : List WorkspaceRevision) (tag : String) : Option ℕ :=
  maxSeq ((rowsOf db tag).filter (·.keyframe = 1))

/-- `SELECT … ORDER BY seq ASC`. -/
def chainAll (db : List WorkspaceRevision) (tag : String) : List RevisionRow :=
  (orderBySeq (rowsOf db tag)).map mapRevisionRow

/-- `SELECT … WHERE seq > after ORDER BY seq ASC`. -/
def chainAfterSeq (db : List WorkspaceRevision) (tag : String) (after : ℕ) : List RevisionRow :=
  (orderBySeq ((rowsOf db tag).filter (after < ·.seq))).map mapRevisionRow

/-- `SELECT … WHERE seq >= start ORDER BY seq ASC`. -/
def chainFromSeq (db : List WorkspaceRevision) (tag : String) (start : ℕ) : List RevisionRow :=
  (orderBySeq ((rowsOf db tag).filter (start ≤ ·.seq))).map mapRevisionRow

/-- `SELECT 1 … WHERE id = …`. -/
def revisionExists (db : List WorkspaceRevision) (tag id : String) : Bool :=
  (rowsOf db tag).any (·.id = id)

/-- The chain a subscriber holding `fromId` is sent.  The three queries of the source are separate
statements; here they read one state of the table. -/
def chainFrom (db : List WorkspaceRevision) (tag : String) (fromId : Option String) :
    List RevisionRow :=
  match fromId.bind (seqOfId db tag) with
  | some seq => chainAfterSeq db tag seq
  | none =>
    match lastKeyframeSeq db tag with
    | some s => chainFromSeq db tag s
    | none => chainAll db tag

/-! ### The gated insert -/

/-- The row the gated insert's `SELECT … WHERE` produces when the statement reads `db`: none when
the id is present already or the head is not the proposed base (both compared null-safely). -/
def gatedInsert (db : List WorkspaceRevision) (input : RevisionInsert) :
    Option WorkspaceRevision :=
  if ¬ revisionExists db input.tag input.id ∧ headFor db input.tag = input.base then
    some {
      workspaceTag := input.tag
      seq := (maxSeq (rowsOf db input.tag)).getD 0 + 1
      id := input.id
      base := input.base
      keyframe := if input.keyframe then 1 else 0
      nonce := input.nonce
      ciphertext := input.ciphertext
      signature := input.signature }
  else none

/-- The row violates `PRIMARY KEY (workspace_tag, seq)` or `UNIQUE (workspace_tag, id)`. -/
def uniqueViolation (db : List WorkspaceRevision) (row : WorkspaceRevision) : Bool :=
  (rowsOf db row.workspaceTag).any fun r => r.seq = row.seq || r.id = row.id

/-! ### Numbered tables -/

/-- The rows of each workspace are numbered `1, 2, …` in the order of insertion. -/
structure TableInv (db : List WorkspaceRevision) : Prop where
  seq_eq : ∀ tag i (h : i < (rowsOf db tag).length), (rowsOf db tag)[i].seq = i + 1

theorem rowsOf_append (db : List WorkspaceRevision) (r : WorkspaceRevision) (tag : String) :
    rowsOf (db ++ [r]) tag = rowsOf db tag ++ if r.workspaceTag = tag then [r] else [] := by
  by_cases h : r.workspaceTag = tag <;> simp [rowsOf, filter_append, h]

theorem tableInv_nil : TableInv [] where
  seq_eq tag i h := by simp [rowsOf] at h

variable {db : List WorkspaceRevision}

theorem mem_rowsOf {tag : String} {r : WorkspaceRevision} :
    r ∈ rowsOf db tag ↔ r ∈ db ∧ r.workspaceTag = tag := by
  simp [rowsOf]

theorem revisionExists_iff {tag id : String} :
    revisionExists db tag id ↔ id ∈ (rowsOf db tag).map (·.id) := by
  simp [revisionExists]

/-- On a list whose values increase, the greatest value is at the end. -/
theorem argmax_eq_getLast? {α : Type*} {f : α → ℕ} {l : List α}
    (h : l.Pairwise fun a b => f a < f b) : l.argmax f = l.getLast? := by
  induction l using reverseRecOn with
  | nil => rfl
  | append_singleton l a ih =>
    rw [pairwise_append] at h
    obtain ⟨hl, -, hla⟩ := h
    rw [argmax_concat, ih hl, getLast?_concat]
    cases hc : l.getLast? with
    | none => rfl
    | some c => simp [hla c (mem_of_getLast? hc) a]

namespace TableInv

variable {db : List WorkspaceRevision} (h : TableInv db) (tag : String)
include h

theorem pairwise_seq : (rowsOf db tag).Pairwise fun a b => a.seq < b.seq := by
  rw [pairwise_iff_getElem]
  intro i j hi hj hij
  rw [h.seq_eq tag i hi, h.seq_eq tag j hj]
  omega

theorem orderBySeq_filter (p : WorkspaceRevision → Bool) :
    orderBySeq ((rowsOf db tag).filter p) = (rowsOf db tag).filter p :=
  List.Pairwise.insertionSort_eq
    (((h.pairwise_seq tag).filter p).imp fun hab => Nat.le_of_lt hab)

theorem orderBySeq_eq : orderBySeq (rowsOf db tag) = rowsOf db tag :=
  List.Pairwise.insertionSort_eq ((h.pairwise_seq tag).imp fun hab => Nat.le_of_lt hab)

theorem headFor_eq : headFor db tag = lastKey WorkspaceRevision.id none (rowsOf db tag) := by
  rw [headFor, argmax_eq_getLast? (h.pairwise_seq tag), lastKey_eq_getLast?, or_none]

theorem maxSeq_getD : (maxSeq (rowsOf db tag)).getD 0 = (rowsOf db tag).length := by
  rw [maxSeq, argmax_eq_getLast? (h.pairwise_seq tag), getLast?_eq_getElem?]
  rcases Nat.eq_zero_or_pos (rowsOf db tag).length with hl | hl
  · simp [length_eq_zero_iff.mp hl]
  · rw [getElem?_eq_getElem (by omega), map_some, getD_some, h.seq_eq]
    omega

variable {pre post : List WorkspaceRevision} {r : WorkspaceRevision}

/-- Where a row of a workspace stands, its number splits the chain. -/
theorem filter_seq (hrows : rowsOf db tag = pre ++ r :: post) :
    (rowsOf db tag).filter (r.seq < ·.seq) = post ∧
      (rowsOf db tag).filter (r.seq ≤ ·.seq) = r :: post := by
  have hpair := h.pairwise_seq tag
  rw [hrows, pairwise_append, pairwise_cons] at hpair
  obtain ⟨-, ⟨hpost, -⟩, hpre⟩ := hpair
  have hbefore : ∀ a ∈ pre, a.seq < r.seq := fun a ha => hpre a ha r mem_cons_self
  constructor
  · rw [hrows, filter_append, filter_cons_of_neg (by simp),
      filter_eq_nil_iff.mpr fun a ha => by simpa using Nat.le_of_lt (hbefore a ha),
      List.filter_eq_self.mpr fun a ha => by simpa using hpost a ha, nil_append]
  · rw [hrows, filter_append, filter_cons_of_pos (by simp),
      filter_eq_nil_iff.mpr fun a ha => by simpa using hbefore a ha,
      List.filter_eq_self.mpr fun a ha => by simpa using Nat.le_of_lt (hpost a ha),
      nil_append]

theorem chainAll_eq : chainAll db tag = (rowsOf db tag).map mapRevisionRow := by
  rw [chainAll, h.orderBySeq_eq]

theorem chainAfterSeq_eq (hrows : rowsOf db tag = pre ++ r :: post) :
    chainAfterSeq db tag r.seq = post.map mapRevisionRow := by
  rw [chainAfterSeq, h.orderBySeq_filter, (h.filter_seq tag hrows).1]

theorem chainFromSeq_eq (hrows : rowsOf db tag = pre ++ r :: post) :
    chainFromSeq db tag r.seq = (r :: post).map mapRevisionRow := by
  rw [chainFromSeq, h.orderBySeq_filter, (h.filter_seq tag hrows).2]

omit h in
/-- The newest keyframe is a row of the chain. -/
theorem lastKeyframeSeq_eq {s : ℕ} (hs : lastKeyframeSeq db tag = some s) :
    ∃ pre r post, rowsOf db tag = pre ++ r :: post ∧ r.keyframe = 1 ∧ r.seq = s := by
  rw [lastKeyframeSeq, maxSeq, map_eq_some_iff] at hs
  obtain ⟨r, hr, rfl⟩ := hs
  obtain ⟨hmem, hkey⟩ := mem_filter.mp (argmax_mem hr)
  obtain ⟨pre, post, hrows⟩ := append_of_mem hmem
  exact ⟨pre, r, post, hrows, by simpa using hkey, rfl⟩

end TableInv

/-- A gated insert that produces a row read a table whose chain the row extends. -/
theorem gatedInsert_spec {db : List WorkspaceRevision} (h : TableInv db) {input : RevisionInsert}
    {row : WorkspaceRevision} (hrow : gatedInsert db input = some row) :
    row.workspaceTag = input.tag ∧ row.id = input.id ∧ row.base = input.base ∧
      row.seq = (rowsOf db input.tag).length + 1 ∧
      input.id ∉ (rowsOf db input.tag).map (·.id) ∧
      input.base = lastKey WorkspaceRevision.id none (rowsOf db input.tag) := by
  by_cases hg : ¬ revisionExists db input.tag input.id ∧ headFor db input.tag = input.base
  swap
  · rw [gatedInsert, if_neg hg] at hrow
    cases hrow
  rw [gatedInsert, if_pos hg, Option.some.injEq] at hrow
  obtain ⟨hnew, hhead⟩ := hg
  subst hrow
  refine ⟨rfl, rfl, rfl, ?_, ?_, ?_⟩
  · simp only [h.maxSeq_getD]
  · rwa [revisionExists_iff] at hnew
  · rw [← hhead, h.headFor_eq]

/-- **The unique indexes replace a lock.**  A row computed from an older state of the table, whose
rows are a prefix of the current ones, is admitted by the indexes only if that state had all
current rows of the workspace; the table then stays numbered. -/
theorem TableInv.insert {db snapshot : List WorkspaceRevision} (h : TableInv db)
    (hs : TableInv snapshot) {input : RevisionInsert} {row : WorkspaceRevision}
    (hpre : rowsOf snapshot input.tag <+: rowsOf db input.tag)
    (hrow : gatedInsert snapshot input = some row) (huniq : uniqueViolation db row = false) :
    rowsOf snapshot input.tag = rowsOf db input.tag ∧ TableInv (db ++ [row]) := by
  obtain ⟨htag, -, -, hseq, -, -⟩ := gatedInsert_spec hs hrow
  have hsame : rowsOf snapshot input.tag = rowsOf db input.tag := by
    refine hpre.eq_of_length (le_antisymm hpre.length_le ?_)
    by_contra hlt
    -- the first row the snapshot lacks carries the sequence number the insert computed
    have hlen : (rowsOf snapshot input.tag).length < (rowsOf db input.tag).length := by omega
    have hcol : uniqueViolation db row = true := by
      rw [uniqueViolation, htag, List.any_eq_true]
      refine ⟨_, getElem_mem hlen, ?_⟩
      simp [h.seq_eq input.tag _ hlen, hseq]
    rw [huniq] at hcol
    exact absurd hcol (by simp)
  refine ⟨hsame, ⟨fun tag i hi => ?_⟩⟩
  simp only [rowsOf_append] at hi ⊢
  by_cases ht : row.workspaceTag = tag
  · simp only [ht, if_true, length_append, length_singleton] at hi ⊢
    rcases Nat.lt_or_ge i (rowsOf db tag).length with hlt | hge
    · rw [getElem_append_left hlt]
      exact h.seq_eq tag i hlt
    · have : i = (rowsOf db tag).length := by omega
      subst this
      have htt : tag = input.tag := ht.symm.trans htag
      subst htt
      simp [hseq, hsame]
  · simp only [ht, if_false, append_nil] at hi ⊢
    exact h.seq_eq tag i hi

/-- The number of the row with a given id. -/
theorem seqOfId_eq {db : List WorkspaceRevision} {tag : String}
    {pre post : List WorkspaceRevision} {r : WorkspaceRevision}
    (hnodup : ((rowsOf db tag).map (·.id)).Nodup) (hrows : rowsOf db tag = pre ++ r :: post) :
    seqOfId db tag r.id = some r.seq := by
  rw [hrows, map_append, map_cons, nodup_append] at hnodup
  have hpre : ∀ a ∈ pre, ¬a.id = r.id := fun a ha =>
    hnodup.2.2 _ (List.mem_map_of_mem ha) _ mem_cons_self
  rw [seqOfId, hrows, find?_append, find?_eq_none.mpr (by simpa using hpre),
    find?_cons_of_pos (by simp)]
  rfl

theorem seqOfId_eq_none {db : List WorkspaceRevision} {tag id : String}
    (h : ∀ r ∈ rowsOf db tag, r.id ≠ id) : seqOfId db tag id = none := by
  rw [seqOfId, find?_eq_none.mpr (by simpa using h)]
  rfl

end Triage.Relay
