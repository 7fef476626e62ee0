import Triage.Data.DatedWalk
import Triage.Data.FMap
import Mathlib.Order.WithBot

/-!
# Pages kept of a history read in part

The server reads the commits of a default branch in windows of time and keeps the pages that the
host would list of them. A page is listed by a walk over the commits known, which stops where a
commit that is not known could come next: parents that are not known are counted, and a commit made
before the bound is only listed while that count is zero.

## Main results

* `gitLogPage_eq_log` : a page listed of a part is the page of the whole history.
* `kept_pages_log` : **every page kept is the history's.**
-/

namespace Triage.HistoryWindows

open DatedGraph List Option

variable {T : Type} [LinearOrder T]

def HISTORY_PAGE : ℕ := 100

def MAX_KEPT : ℕ := 500

structure HistoryCommit (T : Type) where
  sha : String
  parents : List String
  committedAt : Option T
deriving DecidableEq

/-- When a commit was made; one without a time before any other. -/
def HistoryCommit.date (commit : HistoryCommit T) : WithBot T := commit.committedAt

/-! ### The whole history -/

/-- A commit graph: every commit has its time, and its parents are commits of it. -/
structure History (T : Type) where
  commits : FMap String (HistoryCommit T)
  named : ∀ {sha commit}, commits sha = some commit → commit.sha = sha
  dated : ∀ {sha commit}, commits sha = some commit → commit.committedAt.isSome
  closed : ∀ {sha commit}, commits sha = some commit → ∀ parent ∈ commit.parents,
    (commits parent).isSome

namespace History

section Graph

variable {T : Type} (H : History T)

/-- The history as a graph of its commits' names. -/
def graph : DatedGraph String (WithBot T) where
  date sha := match H.commits sha with
    | some commit => commit.date
    | none => ⊥
  parents sha := ((H.commits sha).map (·.parents)).getD []

variable {H} {commit : HistoryCommit T} {sha : String}

theorem date_graph (h : H.commits sha = some commit) : H.graph.date sha = commit.date := by
  simp only [graph, h]

theorem parents_graph (h : H.commits sha = some commit) : H.graph.parents sha = commit.parents := by
  simp only [graph, h, map_some, getD_some]

end Graph

variable (H : History T)

/-- The first commits that a walk from `top` lists: the latest made first, of those made together
the first reached. -/
def log (count : ℕ) (top : String) : List (HistoryCommit T) :=
  (H.graph.log count top).filterMap H.commits

variable {H}

end History

open History

/-! ### The page of the commits known -/

/-- What a page is listed from: the commits reached, those of them that wait, and how many were
not known. -/
structure Walk (T : Type) where
  reached : List String := []
  waiting : List (HistoryCommit T) := []
  unknown : ℕ := 0

/-- A commit goes ahead of the first that was made before it. -/
def splice (waiting : List (HistoryCommit T)) (commit : HistoryCommit T) :
    List (HistoryCommit T) :=
  waiting.insertIdx (waiting.findIdx fun other => other.date < commit.date) commit

variable (known : FMap String (HistoryCommit T)) (low : T)

def reach (walk : Walk T) (sha : String) : Walk T :=
  if sha ∈ walk.reached then walk
  else
    match known sha with
    | none => { walk with reached := sha :: walk.reached, unknown := walk.unknown + 1 }
    | some commit =>
      if commit.committedAt.isNone then
        { walk with reached := sha :: walk.reached, unknown := walk.unknown + 1 }
      else
        { walk with reached := sha :: walk.reached, waiting := splice walk.waiting commit }

/-- The page as it grows, as long as it is short and commits wait; `room` is what it is short of.
None where the next commit could come behind one that is not known. -/
def listed : ℕ → List (HistoryCommit T) → Walk T → Option (List (HistoryCommit T) × Walk T)
  | 0, page, walk => some (page, walk)
  | room + 1, page, walk =>
    match walk.waiting with
    | [] => some (page, walk)
    | commit :: waiting =>
      if commit.date < low ∧ 0 < walk.unknown then none
      else listed room (page ++ [commit]) (commit.parents.foldl (reach known) { walk with waiting })

def gitLogPage (top : String) : Option (List (HistoryCommit T)) :=
  if (known top).isNone then none
  else
    match listed known low HISTORY_PAGE [] (reach known {} top) with
    | none => none
    | some (page, walk) => if page.length < HISTORY_PAGE ∧ 0 < walk.unknown then none else some page

/-! ### A page listed is the history's -/

/-- The commits known of a history: commits of it, every one made since `low` among them. -/
structure Part (H : History T) (known : FMap String (HistoryCommit T)) (low : T) : Prop where
  sub : ∀ {sha commit}, known sha = some commit → H.commits sha = some commit
  since : ∀ {sha commit}, H.commits sha = some commit → (low : WithBot T) ≤ commit.date →
    known sha = some commit

/-- What waits, for the walk over the part, is what is known of what waits for the whole walk; and
where nothing reached was unknown, all of it is known. -/
structure Alike (known : FMap String (HistoryCommit T)) (walk : Walk T) (front : Front String) :
    Prop where
  reached : walk.reached = front.reached
  waiting : walk.waiting = front.waiting.filterMap known
  unknown : walk.unknown = 0 → ∀ sha ∈ front.reached, (known sha).isSome

variable {known low}
variable {H : History T}

theorem splice_eq (waiting : List (HistoryCommit T)) (commit : HistoryCommit T) :
    splice waiting commit = enqueue HistoryCommit.date commit waiting := by
  induction waiting with
  | nil => rfl
  | cons other waiting ih =>
    by_cases hlt : other.date < commit.date
    · rw [enqueue_cons_of_lt hlt, splice, findIdx_cons]
      simp [hlt]
    · rw [enqueue_cons_of_not_lt hlt, ← ih, splice, findIdx_cons]
      simp [hlt, splice]

variable {commit : HistoryCommit T}

theorem Part.date (hpart : Part H known low) {sha : String}
    (h : known sha = some commit) : commit.date = H.graph.date sha :=
  (date_graph (hpart.sub h)).symm

/-- A commit that is not known was made before the bound. -/
theorem Part.date_lt (hpart : Part H known low) {sha : String} (h : known sha = none) :
    H.graph.date sha < low := by
  cases hcommit : H.commits sha with
  | none =>
    have hbot : H.graph.date sha = ⊥ := by simp only [graph, hcommit]
    rw [hbot]
    exact WithBot.bot_lt_coe low
  | some commit =>
    rw [date_graph hcommit]
    by_contra hlow
    rw [hpart.since hcommit (not_lt.1 hlow)] at h
    cases h

variable {front : Front String}

section

variable (hpart : Part H known low)
include hpart

section

variable (hok : front.Ok H.graph)
include hok

/-- A commit reached by the walk over the part is reached by the whole walk. -/
theorem Alike.reach {walk : Walk T} (h : Alike known walk front) (sha : String) :
    Alike known (reach known walk sha) (H.graph.reach front sha) := by
  rw [HistoryWindows.reach, DatedGraph.reach, h.reached]
  split_ifs with hmem
  · exact h
  cases hk : known sha with
  | none =>
    refine ⟨by simp, ?_, fun h0 => absurd h0 (Nat.succ_ne_zero _)⟩
    rw [filterMap_enqueue_of_none hk]
    exact h.waiting
  | some commit =>
    have hdated : commit.committedAt.isNone = false := by
      rw [isNone_eq_false_iff]
      exact H.dated (hpart.sub hk)
    simp only [hdated, Bool.false_eq_true, if_false]
    refine ⟨rfl, ?_, ?_⟩
    · have hdate : ∀ s c, known s = some c → HistoryCommit.date c = H.graph.date s :=
        fun s c hs => hpart.date hs
      rw [filterMap_enqueue_of_some hdate hok.sorted hk, splice_eq, h.waiting]
    · intro h0 s hs
      rcases mem_cons.1 hs with rfl | hs
      · rw [hk]
        rfl
      · exact h.unknown h0 s hs

theorem Alike.foldl {walk : Walk T} (h : Alike known walk front) (shas : List String) :
    Alike known (shas.foldl (HistoryWindows.reach known) walk)
      (shas.foldl H.graph.reach front) := by
  induction shas generalizing walk front with
  | nil => exact h
  | cons sha shas ih => exact ih (hok.reach sha) (h.reach hpart hok sha)

/-- The commit that the walk over the part lists next is the one that the whole walk lists next:
one not known that waits was made before the bound, and the commit listed is not older. -/
theorem Alike.next {walk : Walk T} (h : Alike known walk front)
    {waiting : List (HistoryCommit T)} (hw : walk.waiting = commit :: waiting)
    (hnext : ¬ (commit.date < low ∧ 0 < walk.unknown)) :
    ∃ sha shas, front.waiting = sha :: shas ∧ known sha = some commit ∧
      Alike known { walk with waiting } { front with waiting := shas } := by
  have hfront : front.waiting.filterMap known = commit :: waiting := by rw [← h.waiting, hw]
  cases hf : front.waiting with
  | nil =>
    rw [hf] at hfront
    cases hfront
  | cons sha shas =>
    rw [hf] at hfront
    cases hk : known sha with
    | some first =>
      rw [filterMap_cons_some hk] at hfront
      obtain ⟨rfl, rfl⟩ := List.cons.inj hfront
      exact ⟨sha, shas, rfl, hk, h.reached, rfl, h.unknown⟩
    | none =>
      exfalso
      have hreached : sha ∈ front.reached := hok.sub sha (by rw [hf]; exact mem_cons_self)
      have hunknown : 0 < walk.unknown := by
        refine Nat.pos_of_ne_zero fun h0 => ?_
        have hsome := h.unknown h0 sha hreached
        rw [hk] at hsome
        cases hsome
      refine hnext ⟨?_, hunknown⟩
      -- the commit waits behind `sha`, which was made before the bound
      rw [filterMap_cons_none hk] at hfront
      have hcommit : commit ∈ shas.filterMap known := by rw [hfront]; exact mem_cons_self
      obtain ⟨s, hs, hks⟩ := List.mem_filterMap.1 hcommit
      have hsorted := hok.sorted
      rw [hf] at hsorted
      rw [hpart.date hks]
      exact ((pairwise_cons.1 hsorted).1 s hs).trans_lt (hpart.date_lt hk)

/-- A walk over the part that ends short of its room with nothing unknown, or in its room, listed
what the whole walk lists. -/
theorem listed_eq {room : ℕ} {page : List (HistoryCommit T)}
    {walk : Walk T} (h : Alike known walk front) {page' : List (HistoryCommit T)} {walk' : Walk T}
    (hl : listed known low room page walk = some (page', walk'))
    (hend : page'.length < page.length + room → walk'.unknown = 0) :
    page' = page ++ (H.graph.list room front).filterMap H.commits := by
  induction room generalizing page walk front with
  | zero =>
    rw [listed, Option.some.injEq, Prod.mk.injEq] at hl
    simp [DatedGraph.list, hl.1]
  | succ room ih =>
    rw [listed] at hl
    split at hl
    · -- nothing waits for the walk over the part, and nothing unknown was reached
      rename_i hw
      obtain ⟨rfl, rfl⟩ := Prod.mk.inj (some.inj hl)
      have h0 : walk.unknown = 0 := hend (by omega)
      have hfront : front.waiting = [] := by
        rw [eq_nil_iff_forall_not_mem]
        intro sha hsha
        obtain ⟨commit, hcommit⟩ := isSome_iff_exists.1 (h.unknown h0 sha (hok.sub sha hsha))
        have : commit ∈ walk.waiting := by
          rw [h.waiting]
          exact List.mem_filterMap.2 ⟨sha, hsha, hcommit⟩
        rw [hw] at this
        cases this
      rw [DatedGraph.list, hfront]
      simp
    · rename_i commit waiting hw
      split_ifs at hl with hstop
      obtain ⟨sha, shas, hf, hk, halike⟩ := h.next hpart hok hw hstop
      have hcommit := hpart.sub hk
      have hok' := hok.tail hf
      have := ih (hok'.foldl commit.parents) (halike.foldl hpart hok' commit.parents) hl
        (by simpa [Nat.add_assoc, Nat.add_comm] using hend)
      rw [this, DatedGraph.list, hf]
      simp only [filterMap_cons_some hcommit, parents_graph hcommit, append_assoc, singleton_append]

end

/-- **A page listed of a part of a history is the page of the whole history.** -/
theorem gitLogPage_eq_log {top : String}
    {page : List (HistoryCommit T)} (h : gitLogPage known low top = some page) :
    page = H.log HISTORY_PAGE top := by
  rw [gitLogPage] at h
  split_ifs at h with htop
  split at h
  · cases h
  rename_i page' walk hl
  split_ifs at h with hshort
  obtain rfl := some.inj h
  have hstart : Alike known ({} : Walk T) {} := ⟨rfl, rfl, fun _ _ hs => absurd hs not_mem_nil⟩
  have := listed_eq hpart (Front.Ok.start.reach top) (hstart.reach hpart Front.Ok.start top) hl
    fun hlt => Nat.eq_zero_of_not_pos fun hpos => hshort ⟨by simpa using hlt, hpos⟩
  rwa [nil_append] at this

end

/-! ### The pages kept -/

variable (known low)

/-- The tops that wait for their page, the commits that a page was listed of, and the pages kept. -/
structure Keeping (T : Type) where
  covered : List String
  kept : List (String × List (HistoryCommit T)) := []
  waiting : List String

/-- The pages kept of the commits known, from `waiting` on. -/
def keep (state : Keeping T) : List (String × List (HistoryCommit T)) :=
  match _hw : state.waiting with
  | [] => state.kept
  | top :: waiting =>
    if _hk : state.kept.length < MAX_KEPT then
      if top ∈ state.covered then keep { state with waiting }
      else
        match gitLogPage known low top with
        | none => keep { state with waiting }
        | some page =>
          let covered := state.covered ++ page.map (·.sha)
          keep {
            covered
            kept := state.kept ++ [(top, page)]
            waiting := waiting ++ page.flatMap fun commit => commit.parents.filter fun parent =>
              parent ∉ covered ∧ (known parent).isSome }
    else state.kept
termination_by (MAX_KEPT - state.kept.length, state.waiting.length)
decreasing_by
  · rw [_hw]
    exact Prod.Lex.right _ (by simp)
  · rw [_hw]
    exact Prod.Lex.right _ (by simp)
  · refine Prod.Lex.left _ _ ?_
    simp only [length_append, length_singleton]
    omega

/-- The pages that are written, each with its top. -/
def keepPages (tops : List String) (listed : List String) :
    List (String × List (HistoryCommit T)) :=
  keep known low { covered := listed, waiting := tops }

variable {known low}

/-- A page is kept of the state only where the commits known list it. -/
theorem mem_keep (state : Keeping T)
    (hstate : ∀ entry ∈ state.kept, gitLogPage known low entry.1 = some entry.2) :
    ∀ entry ∈ keep known low state, gitLogPage known low entry.1 = some entry.2 := by
  fun_induction keep known low state with
  | case1 state hw => exact hstate
  | case2 state top waiting hw hk hcovered ih => exact ih hstate
  | case3 state top waiting hw hk hcovered hnone ih => exact ih hstate
  | case4 state top waiting hw hk hcovered page hpage covered ih =>
    refine ih ?_
    intro entry hentry
    rcases mem_append.1 hentry with hentry | hentry
    · exact hstate entry hentry
    · rw [mem_singleton] at hentry
      rw [hentry]
      exact hpage
  | case5 state top waiting hw hk => exact hstate

/-- **Pages kept from partial history are the history's pages**: whatever is known of it, as long as
every commit made since the bound is, a page listed of what is known is the first commits of the
whole history's walk, and so is every page written. -/
theorem kept_pages_log {H : History T} {known : FMap String (HistoryCommit T)} {low : T}
    (hpart : Part H known low) :
    (∀ top page, gitLogPage known low top = some page → page = H.log HISTORY_PAGE top) ∧
      ∀ tops listed, ∀ entry ∈ keepPages known low tops listed,
        entry.2 = H.log HISTORY_PAGE entry.1 := by
  refine ⟨fun top page h => gitLogPage_eq_log hpart h, ?_⟩
  intro tops listed entry hentry
  exact gitLogPage_eq_log hpart (mem_keep _ (fun _ h => absurd h not_mem_nil) entry hentry)

/-- Of three commits the oldest, which the walk does not reach, is not known. -/
theorem kept_pages_log_merge :
    ∃ (H : History ℕ) (known : FMap String (HistoryCommit ℕ)) (page : List (HistoryCommit ℕ)),
      (H.commits "c").isSome ∧ known "c" = none ∧ page.map (·.sha) = ["a", "b"] ∧
        gitLogPage known 4 "a" = some page ∧ page = H.log HISTORY_PAGE "a" := by
  let a : HistoryCommit ℕ := ⟨"a", ["b"], some 5⟩
  let b : HistoryCommit ℕ := ⟨"b", [], some 3⟩
  let c : HistoryCommit ℕ := ⟨"c", ["b"], some 2⟩
  let known : FMap String (HistoryCommit ℕ) := ((∅ : FMap _ _).insert "a" a).insert "b" b
  have hcases : ∀ {sha commit}, known.insert "c" c sha = some commit →
      (sha = "a" ∧ commit = a) ∨ (sha = "b" ∧ commit = b) ∨ (sha = "c" ∧ commit = c) := by
    intro sha commit h
    simp only [known, FMap.insert_apply, FMap.get_empty] at h
    split_ifs at h with hc hb ha <;> simp_all
  let H : History ℕ := {
    commits := known.insert "c" c
    named := by
      intro sha commit h
      rcases hcases h with ⟨rfl, rfl⟩ | ⟨rfl, rfl⟩ | ⟨rfl, rfl⟩ <;> rfl
    dated := by
      intro sha commit h
      rcases hcases h with ⟨rfl, rfl⟩ | ⟨rfl, rfl⟩ | ⟨rfl, rfl⟩ <;> rfl
    closed := by
      intro sha commit h
      rcases hcases h with ⟨rfl, rfl⟩ | ⟨rfl, rfl⟩ | ⟨rfl, rfl⟩ <;> simp [a, b, c, known,
        FMap.insert_apply] }
  have hpart : Part H known 4 := by
    constructor
    · intro sha commit h
      have hc : sha ≠ "c" := by
        rintro rfl
        simp [known, FMap.insert_apply] at h
      exact (FMap.insert_of_ne _ hc _).trans h
    · intro sha commit h hlow
      rcases hcases h with ⟨rfl, rfl⟩ | ⟨rfl, rfl⟩ | ⟨rfl, rfl⟩
      · rfl
      · rfl
      · exact absurd (WithBot.coe_le_coe.1 hlow) (by decide)
  have hpage : gitLogPage known 4 "a" = some [a, b] := by decide +kernel
  exact ⟨H, known, [a, b], rfl, rfl, rfl, hpage, (kept_pages_log hpart).1 "a" [a, b] hpage⟩

end Triage.HistoryWindows
