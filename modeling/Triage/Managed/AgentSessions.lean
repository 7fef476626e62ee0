import Triage.Managed.AgentTasks
import Mathlib.Data.List.Dedup
import Mathlib.Order.MinMax

/-!
# The sessions are the connected components

The groups that the joins leave are the connected components of the rules' links, whatever the
order in which the artifacts were read. An app agent's pull request joins its branch alone, but
the branch and another pull request's name may link it to others: exactly then a session that
holds it holds another.

## Main results

* `mem_group_iff` : a group is a connected component.
* `grouped_iff` : **the sessions are grouped as claimed exactly where every app agent's pull
  request is apart.**
-/

namespace Triage.AgentTasks

open List Parents Grouping Relation.EqvGen List.Perm Key

/-! ### The rules -/

/-- What links two keys, by the rules. -/
inductive Linked (art : Artifacts) : Key → Key → Prop where
  | branchSession {b s} : b ∈ art.branches → b.signals.agents = [] → s ∈ b.signals.sessions →
      Linked art (.branch b.name) (.session s)
  | branchTask {b t} : b ∈ art.branches → b.signals.agents = [] → t ∈ b.signals.tasks →
      Linked art (.branch b.name) (.task t)
  | pullSession {p s} : p ∈ art.pulls → p.signals.agents = [] → s ∈ p.signals.sessions →
      Linked art (.pull p.number) (.session s)
  | pullTask {p t} : p ∈ art.pulls → p.signals.agents = [] → t ∈ p.signals.tasks →
      Linked art (.pull p.number) (.task t)
  | commitSession {c s} : c ∈ art.commits → c.signals.agents = [] → s ∈ c.signals.sessions →
      Linked art (.commit c.oid) (.session s)
  | commitTask {c t} : c ∈ art.commits → c.signals.agents = [] → t ∈ c.signals.tasks →
      Linked art (.commit c.oid) (.task t)
  /-- An app agent's pull request, with its branch where none newer is from it. -/
  | appBranch {p h} : p ∈ art.pulls → p.signals.agents ≠ [] → headName p = some h →
      0 < p.number → (∀ q ∈ art.pulls, headName q = some h → q.number ≤ p.number) →
      Linked art (.pull p.number) (.branch h)
  /-- Another's, with its branch: an agent's, or its own, or one read. -/
  | pullBranch {p h} : p ∈ art.pulls → p.signals.agents = [] → headName p = some h → h ≠ "" →
      ((agentBranch p.head).agent.isSome ∨ signalAgents p.signals ≠ [] ∨
        ∃ b ∈ art.branches, b.name = h) → Linked art (.pull p.number) (.branch h)
  /-- Another's, with the pull request its branch is named for. -/
  | pullNamed {p n} : p ∈ art.pulls → p.signals.agents = [] →
      (agentBranch p.head).pull = some n → Linked art (.pull p.number) (.pull n)

/-- What the links connect. -/
def Connected (art : Artifacts) : Key → Key → Prop := Relation.EqvGen (Linked art)

/-- An artifact read, or what one links. -/
def Mentioned (art : Artifacts) (k : Key) : Prop :=
  (∃ b ∈ art.branches, k = .branch b.name) ∨ (∃ p ∈ art.pulls, k = .pull p.number) ∨
    (∃ c ∈ art.commits, k = .commit c.oid) ∨ ∃ k', Linked art k k' ∨ Linked art k' k

/-- An agent's marks are on an artifact. -/
def Marked (art : Artifacts) (k : Key) (agent : String) : Prop :=
  (∃ b ∈ art.branches, k = .branch b.name ∧
    (agent ∈ signalAgents b.signals ∨ (agentBranch (some b.name)).agent = some agent)) ∨
  (∃ p ∈ art.pulls, k = .pull p.number ∧
    (agent ∈ signalAgents p.signals ∨ (agentBranch p.head).agent = some agent)) ∨
  ∃ c ∈ art.commits, k = .commit c.oid ∧ agent ∈ signalAgents c.signals

/-! ### The newest pull request of a branch -/

variable {pulls : List AgentPull} {op : Op} {k : Key} {agent : String} {g : Group} {α : Type}
  {l : List α} {s : AgentSession} {p : AgentPull}

theorem newest_append_of_none (hp : headName p = none) : newest (pulls ++ [p]) = newest pulls := by
  rw [newest, foldl_append, foldl_cons, foldl_nil, hp]
  rfl

theorem newest_append_of_some {head : String} (hp : headName p = some head) (h : String) :
    newest (pulls ++ [p]) h = if h = head ∧ (newest pulls h).getD 0 < p.number then some p.number
      else newest pulls h := by
  have hfold : newest (pulls ++ [p]) = if (newest pulls head).getD 0 < p.number then
      fun h => if h = head then some p.number else newest pulls h else newest pulls := by
    rw [newest, foldl_append, foldl_cons, foldl_nil, hp]
    rfl
  rw [hfold]
  by_cases hhead : h = head
  · subst hhead
    split_ifs <;> simp_all
  · have hother : ¬(h = head ∧ (newest pulls h).getD 0 < p.number) := fun hc => hhead hc.1
    rw [if_neg hother]
    split_ifs
    · exact if_neg hhead
    · rfl

theorem newest_spec (pulls : List AgentPull) (h : String) :
    (∀ q ∈ pulls, headName q = some h → q.number ≤ (newest pulls h).getD 0) ∧
      ∀ n, newest pulls h = some n → 0 < n ∧ ∃ q ∈ pulls, headName q = some h ∧ q.number = n := by
  induction pulls using reverseRecOn with
  | nil => simp [newest]
  | append_singleton pulls p ih =>
    obtain ⟨ihle, ihmem⟩ := ih
    have hold : ∀ n, newest pulls h = some n →
        0 < n ∧ ∃ q ∈ pulls ++ [p], headName q = some h ∧ q.number = n := fun n hn => by
      obtain ⟨hpos, q, hq, hh⟩ := ihmem n hn
      exact ⟨hpos, q, mem_append_left _ hq, hh⟩
    cases hp : headName p with
    | none =>
      rw [newest_append_of_none hp]
      refine ⟨fun q hq hh => ?_, hold⟩
      rcases mem_append.1 hq with hq | hq
      · exact ihle q hq hh
      · obtain rfl : q = p := by simpa using hq
        rw [hp] at hh
        cases hh
    | some head =>
      rw [newest_append_of_some hp]
      split_ifs with hnew
      · obtain ⟨rfl, hlt⟩ := hnew
        refine ⟨fun q hq hh => ?_, fun n hn => ?_⟩
        · rw [Option.getD_some]
          rcases mem_append.1 hq with hq | hq
          · exact (ihle q hq hh).trans hlt.le
          · obtain rfl : q = p := by simpa using hq
            exact le_rfl
        · obtain rfl := Option.some.inj hn
          exact ⟨by omega, p, by simp, hp, rfl⟩
      · refine ⟨fun q hq hh => ?_, hold⟩
        rcases mem_append.1 hq with hq | hq
        · exact ihle q hq hh
        · obtain rfl : q = p := by simpa using hq
          rw [hp] at hh
          obtain rfl := Option.some.inj hh
          exact not_lt.1 fun hlt => hnew ⟨rfl, hlt⟩

theorem newest_eq_iff {h : String} (hp : p ∈ pulls)
    (hh : headName p = some h) : newest pulls h = some p.number ↔
      0 < p.number ∧ ∀ q ∈ pulls, headName q = some h → q.number ≤ p.number := by
  obtain ⟨hle, hmem⟩ := newest_spec pulls h
  constructor
  · intro hn
    rw [hn] at hle
    exact ⟨(hmem _ hn).1, hle⟩
  · rintro ⟨hpos, hmax⟩
    have hlow := hle p hp hh
    cases hn : newest pulls h with
    | none =>
      rw [hn, Option.getD_none] at hlow
      omega
    | some n =>
      rw [hn, Option.getD_some] at hlow
      obtain ⟨-, q, hq, hqh, rfl⟩ := hmem n hn
      rw [le_antisymm (hmax q hq hqh) hlow]

/-! ### What the joins make -/

def opJoin : Op → Option (Key × Key)
  | .join a b => some (a, b)
  | _ => none

def opKeys : Op → List Key
  | .find key => [key]
  | .join a b => [a, b]
  | .mark _ _ => []

def opMarks : Op → List (Key × String)
  | .mark key agents => agents.map fun agent => (key, agent)
  | _ => []

variable (ops : List Op)

/-- The joins of a run make the components of the pairs joined. -/
theorem same_foldl (p : Parents) (i j : Key) :
    (ops.foldl step p).forest.Same i j ↔
      Relation.EqvGen (fun x y => p.forest.Same x y ∨ (x, y) ∈ ops.filterMap opJoin) i j := by
  induction ops generalizing p with
  | nil => exact Forest.same_joinAll p.forest [] i j
  | cons op ops ih =>
    rw [foldl_cons, ih]
    cases op with
    | find key => simp [step, find, Forest.Same, opJoin]
    | join a b =>
      exact (Forest.same_joinAll (p.forest.join a b) (ops.filterMap opJoin) i j).symm.trans
        (Forest.same_joinAll p.forest ((a, b) :: ops.filterMap opJoin) i j)
    | mark key agents => simp [step, opJoin]

theorem find_keys (p : Parents) (key k : Key) : k ∈ (p.find key).keys ↔ k ∈ p.keys ∨ k = key := by
  unfold find
  dsimp only
  split_ifs with h
  · exact ⟨.inl, fun hk => hk.elim id fun hk => hk ▸ h⟩
  · simp

theorem find_nodup {p : Parents} (h : p.keys.Nodup) (key : Key) : (p.find key).keys.Nodup := by
  unfold find
  dsimp only
  split_ifs with hk
  · exact h
  · exact nodup_append.2 ⟨h, by simp, by
      rintro a ha b hb rfl
      exact hk ((mem_singleton.1 hb) ▸ ha)⟩

theorem mem_keys_foldl (p : Parents) (k : Key) :
    k ∈ (ops.foldl step p).keys ↔ k ∈ p.keys ∨ ∃ op ∈ ops, k ∈ opKeys op := by
  induction ops generalizing p with
  | nil => simp
  | cons op ops ih =>
    rw [foldl_cons, ih]
    have hstep : k ∈ (p.step op).keys ↔ k ∈ p.keys ∨ k ∈ opKeys op := by
      cases op with
      | find key =>
        rw [opKeys, mem_singleton]
        exact find_keys p key k
      | join a b =>
        change k ∈ ((p.find a).find b).keys ↔ _
        simp [find_keys, opKeys, or_assoc]
      | mark key agents => simp [step, opKeys]
    rw [hstep, or_assoc, exists_mem_cons_iff]

theorem nodup_keys_foldl {p : Parents} (h : p.keys.Nodup) : (ops.foldl step p).keys.Nodup := by
  induction ops generalizing p with
  | nil => exact h
  | cons op ops ih =>
    refine ih ?_
    cases op with
    | find key => exact find_nodup h key
    | join a b => exact find_nodup (find_nodup h a) b
    | mark key agents => exact h

theorem marks_foldl (p : Parents) : (ops.foldl step p).marks = p.marks ++ ops.flatMap opMarks := by
  induction ops generalizing p with
  | nil => simp
  | cons op ops ih =>
    rw [foldl_cons, ih]
    cases op <;> simp [step, find, join, opMarks]

/-! ### The code's joins are the rules' links -/

theorem mem_linked_join {key : Key} {signals : AgentSignals} {x y : Key} :
    (x, y) ∈ (linked key signals).filterMap opJoin ↔ signals.agents = [] ∧ x = key ∧
      ((∃ s ∈ signals.sessions, y = .session s) ∨ ∃ t ∈ signals.tasks, y = .task t) := by
  by_cases h : signals.agents = []
  · simp only [linked, h, length_nil, if_true, List.mem_filterMap, mem_append,
      mem_map, mem_singleton, true_and]
    constructor
    · rintro ⟨op, ((rfl | ⟨s, hs, rfl⟩) | ⟨t, ht, rfl⟩) | rfl, hop⟩ <;> cases hop
      · exact ⟨rfl, .inl ⟨s, hs, rfl⟩⟩
      · exact ⟨rfl, .inr ⟨t, ht, rfl⟩⟩
    · rintro ⟨rfl, ⟨s, hs, rfl⟩ | ⟨t, ht, rfl⟩⟩
      · exact ⟨_, .inl (.inl (.inr ⟨s, hs, rfl⟩)), rfl⟩
      · exact ⟨_, .inl (.inr ⟨t, ht, rfl⟩), rfl⟩
  · simp [linked, h, opJoin]

theorem mem_headJoin {wanted : String → Bool} :
    op ∈ headJoin p wanted ↔
      ∃ h, headName p = some h ∧ wanted h ∧ op = .join (.pull p.number) (.branch h) := by
  rw [headJoin, Option.mem_toList, Option.map_eq_some_iff]
  simp only [Option.filter_eq_some_iff, and_assoc, eq_comm (b := op)]

theorem agentBranch_pull (name : String) : (agentBranch (some name)).pull =
    if "claude/".toList.isPrefixOf name.toList ∧ "claude/pr-".toList.isPrefixOf name.toList then
      numberBefore (name.toList.drop 10) else none := by
  dsimp only [agentBranch]
  by_cases hc : "claude/".toList.isPrefixOf name.toList
  · rw [if_pos hc]
    simp only [hc, true_and]
  · have hno : ¬ ("claude/".toList.isPrefixOf name.toList ∧
        "claude/pr-".toList.isPrefixOf name.toList) := fun h => hc h.1
    rw [if_neg hc, if_neg hno]
    split <;> rfl

/-- A branch is named for no pull request of number zero. -/
theorem agentBranch_pull_ne_zero {name : Option String} : (agentBranch name).pull ≠ some 0 := by
  have hpos : ∀ (ds : List Char) (n : ℕ), 0 < n →
      0 < ds.foldl (fun n c => n * 10 + (c.toNat - 48)) n := by
    intro ds
    induction ds with
    | nil => exact fun n h => h
    | cons d ds ih => exact fun n h => ih _ (Nat.add_pos_left (Nat.mul_pos h (by decide)) _)
  have hnum : ∀ t, numberBefore t ≠ some 0 := by
    intro t h
    unfold numberBefore at h
    dsimp only at h
    split_ifs at h with hd
    obtain ⟨hne, -, h0, -⟩ := hd
    have h := Option.some.inj h
    cases hds : t.takeWhile Char.isDigit with
    | nil => exact hne hds
    | cons c ds =>
      have hc : c.isDigit = true := all_eq_true.1 all_takeWhile c (hds ▸ mem_cons_self)
      have hc0 : c ≠ '0' := fun hc => h0 (by rw [hds, hc]; rfl)
      have hc48 : 48 < c.toNat := by
        have hge : 48 ≤ c.toNat := by
          simp only [Char.isDigit, Bool.and_eq_true, decide_eq_true_eq] at hc
          exact hc.1
        refine lt_of_le_of_ne hge fun heq => hc0 ?_
        exact Char.ext (UInt32.toNat_inj.1 heq.symm)
      rw [hds, foldl_cons] at h
      exact absurd h (hpos ds _ (by omega)).ne'
  cases name with
  | none => exact nofun
  | some name =>
    rw [agentBranch_pull]
    split_ifs
    · exact hnum _
    · exact nofun

theorem mem_namedJoin : op ∈ namedJoin p ↔
    ∃ n, (agentBranch p.head).pull = some n ∧ op = .join (.pull p.number) (.pull n) := by
  rw [namedJoin, Option.mem_toList, Option.map_eq_some_iff]
  simp only [Option.filter_eq_some_iff, decide_eq_true_eq, eq_comm (b := op)]
  exact exists_congr fun n => and_congr_left fun _ =>
    ⟨And.left, fun h => ⟨h, fun h0 => agentBranch_pull_ne_zero (h0 ▸ h)⟩⟩

variable {art : Artifacts}

/-- What a pull request joins beside what it links is a link of the rules. -/
theorem mem_pullJoins (hp : p ∈ art.pulls) :
    op ∈ pullJoins art p ↔
      (∃ h, p.signals.agents ≠ [] ∧ headName p = some h ∧ 0 < p.number ∧
        (∀ q ∈ art.pulls, headName q = some h → q.number ≤ p.number) ∧
        op = .join (.pull p.number) (.branch h)) ∨
      (∃ h, p.signals.agents = [] ∧ headName p = some h ∧ h ≠ "" ∧
        ((agentBranch p.head).agent.isSome ∨ signalAgents p.signals ≠ [] ∨
          ∃ b ∈ art.branches, b.name = h) ∧ op = .join (.pull p.number) (.branch h)) ∨
      ∃ n, p.signals.agents = [] ∧ (agentBranch p.head).pull = some n ∧
        op = .join (.pull p.number) (.pull n) := by
  unfold pullJoins
  by_cases happ : p.signals.agents = []
  · have hlen : ¬ p.signals.agents.length > 0 := by simp [happ]
    rw [if_neg hlen, mem_append, mem_headJoin, mem_namedJoin]
    simp [happ, and_assoc, or_assoc]
  · rw [if_pos (length_pos_iff.2 happ), mem_headJoin]
    simp only [happ, ne_eq, not_false_eq_true, true_and, false_and, exists_false, or_false]
    refine exists_congr fun h => and_congr_right fun hh => ?_
    rw [decide_eq_true_eq, newest_eq_iff hp hh, and_assoc]

/-- **What the code joins is what the rules link.** -/
theorem mem_artifactJoins {x y : Key} :
    (x, y) ∈ (artifactOps art).filterMap opJoin ↔ Linked art x y := by
  simp only [artifactOps, filterMap_append, mem_append, filterMap_flatMap, mem_flatMap]
  constructor
  · rintro ((⟨b, hb, hx⟩ | ⟨p, hp, hx⟩) | ⟨c, hc, hx⟩)
    · have hx' : (x, y) ∈ (linked (.branch b.name) b.signals).filterMap opJoin := by
        rw [branchOps, filterMap_append, mem_append] at hx
        refine hx.resolve_right ?_
        simp [nameMarks, opJoin]
      obtain ⟨happ, rfl, ⟨s, hs, rfl⟩ | ⟨t, ht, rfl⟩⟩ := mem_linked_join.1 hx'
      · exact .branchSession hb happ hs
      · exact .branchTask hb happ ht
    · rw [pullOps, filterMap_append, filterMap_append, mem_append, mem_append] at hx
      rcases hx with (hx | hx) | hx
      · obtain ⟨happ, rfl, ⟨s, hs, rfl⟩ | ⟨t, ht, rfl⟩⟩ := mem_linked_join.1 hx
        · exact .pullSession hp happ hs
        · exact .pullTask hp happ ht
      · simp [nameMarks, opJoin] at hx
      · obtain ⟨op, hop, hx⟩ := List.mem_filterMap.1 hx
        obtain ⟨h, happ, hh, hpos, hmax, rfl⟩ | ⟨h, happ, hh, hne, hread, rfl⟩ |
          ⟨n, happ, hn, rfl⟩ := (mem_pullJoins hp).1 hop <;> cases hx
        · exact .appBranch hp happ hh hpos hmax
        · exact .pullBranch hp happ hh hne hread
        · exact .pullNamed hp happ hn
    · obtain ⟨happ, rfl, ⟨s, hs, rfl⟩ | ⟨t, ht, rfl⟩⟩ := mem_linked_join.1 hx
      · exact .commitSession hc happ hs
      · exact .commitTask hc happ ht
  · have pull : ∀ {p : AgentPull} {x y : Key},
        (x, y) ∈ (linked (.pull p.number) p.signals).filterMap opJoin ∨
          Op.join x y ∈ pullJoins art p → (x, y) ∈ (pullOps art p).filterMap opJoin := by
      intro p x y h
      rw [pullOps, filterMap_append, filterMap_append, mem_append, mem_append]
      exact h.imp .inl fun h => List.mem_filterMap.2 ⟨_, h, rfl⟩
    intro h
    cases h with
    | branchSession hb happ hs =>
      refine .inl (.inl ⟨_, hb, ?_⟩)
      rw [branchOps, filterMap_append, mem_append]
      exact .inl (mem_linked_join.2 ⟨happ, rfl, .inl ⟨_, hs, rfl⟩⟩)
    | branchTask hb happ ht =>
      refine .inl (.inl ⟨_, hb, ?_⟩)
      rw [branchOps, filterMap_append, mem_append]
      exact .inl (mem_linked_join.2 ⟨happ, rfl, .inr ⟨_, ht, rfl⟩⟩)
    | pullSession hp happ hs =>
      exact .inl (.inr ⟨_, hp, pull (.inl (mem_linked_join.2 ⟨happ, rfl, .inl ⟨_, hs, rfl⟩⟩))⟩)
    | pullTask hp happ ht =>
      exact .inl (.inr ⟨_, hp, pull (.inl (mem_linked_join.2 ⟨happ, rfl, .inr ⟨_, ht, rfl⟩⟩))⟩)
    | commitSession hc happ hs =>
      exact .inr ⟨_, hc, mem_linked_join.2 ⟨happ, rfl, .inl ⟨_, hs, rfl⟩⟩⟩
    | commitTask hc happ ht =>
      exact .inr ⟨_, hc, mem_linked_join.2 ⟨happ, rfl, .inr ⟨_, ht, rfl⟩⟩⟩
    | appBranch hp happ hh hpos hmax =>
      exact .inl (.inr ⟨_, hp, pull (.inr ((mem_pullJoins hp).2
        (.inl ⟨_, happ, hh, hpos, hmax, rfl⟩)))⟩)
    | pullBranch hp happ hh hne hread =>
      exact .inl (.inr ⟨_, hp, pull (.inr ((mem_pullJoins hp).2
        (.inr (.inl ⟨_, happ, hh, hne, hread, rfl⟩))))⟩)
    | pullNamed hp happ hn =>
      exact .inl (.inr ⟨_, hp, pull (.inr ((mem_pullJoins hp).2
        (.inr (.inr ⟨_, happ, hn, rfl⟩))))⟩)

/-- The keys are what is mentioned. -/
theorem mem_opKeys : (∃ op ∈ artifactOps art, k ∈ opKeys op) ↔ Mentioned art k := by
  constructor
  · rintro ⟨op, hop, hk⟩
    cases op with
    | mark key agents => simp [opKeys] at hk
    | join a b =>
      have hlink : Linked art a b := mem_artifactJoins.1 (List.mem_filterMap.2 ⟨_, hop, rfl⟩)
      rcases mem_cons.1 hk with rfl | hk
      · exact .inr (.inr (.inr ⟨b, .inl hlink⟩))
      · obtain rfl : k = b := by simpa using hk
        exact .inr (.inr (.inr ⟨a, .inr hlink⟩))
    | find key =>
      obtain rfl : k = key := by simpa [opKeys] using hk
      have hfind : ∀ {key : Key} {signals : AgentSignals}, Op.find k ∈ linked key signals →
          k = key := by
        intro key signals h
        simp only [linked, mem_append, mem_singleton] at h
        rcases h with ((h | h) | h) | h
        · cases h
          rfl
        · split_ifs at h <;> simp at h
        · split_ifs at h <;> simp at h
        · cases h
      simp only [artifactOps, mem_append, mem_flatMap] at hop
      rcases hop with (⟨b, hb, hop⟩ | ⟨p, hp, hop⟩) | ⟨c, hc, hop⟩
      · rw [branchOps, mem_append] at hop
        rcases hop with hop | hop
        · exact .inl ⟨b, hb, hfind hop⟩
        · simp [nameMarks] at hop
      · rw [pullOps, mem_append, mem_append] at hop
        rcases hop with (hop | hop) | hop
        · exact .inr (.inl ⟨p, hp, hfind hop⟩)
        · simp [nameMarks] at hop
        · simp [mem_pullJoins hp] at hop
      · exact .inr (.inr (.inl ⟨c, hc, hfind hop⟩))
  · have hfind : ∀ {key : Key} {signals : AgentSignals}, Op.find key ∈ linked key signals := by
      intro key signals
      simp [linked]
    rintro (⟨b, hb, rfl⟩ | ⟨p, hp, rfl⟩ | ⟨c, hc, rfl⟩ | ⟨k', hlink⟩)
    · refine ⟨.find (.branch b.name), ?_, by simp [opKeys]⟩
      simp only [artifactOps, mem_append, mem_flatMap]
      exact .inl (.inl ⟨b, hb, mem_append_left _ hfind⟩)
    · refine ⟨.find (.pull p.number), ?_, by simp [opKeys]⟩
      simp only [artifactOps, mem_append, mem_flatMap]
      exact .inl (.inr ⟨p, hp, mem_append_left _ (mem_append_left _ hfind)⟩)
    · refine ⟨.find (.commit c.oid), ?_, by simp [opKeys]⟩
      simp only [artifactOps, mem_append, mem_flatMap]
      exact .inr ⟨c, hc, hfind⟩
    · rcases hlink with hlink | hlink
      all_goals
        obtain ⟨op, hop, hj⟩ := List.mem_filterMap.1 (mem_artifactJoins.2 hlink)
        cases op <;> cases hj
        exact ⟨_, hop, by simp [opKeys]⟩

/-- The marks are the agents' on the artifacts. -/
theorem mem_opMarks : (k, agent) ∈ (artifactOps art).flatMap opMarks ↔ Marked art k agent := by
  have hlinked : ∀ {key : Key} {signals : AgentSignals},
      (k, agent) ∈ (linked key signals).flatMap opMarks ↔
        k = key ∧ agent ∈ signalAgents signals := by
    intro key signals
    simp only [linked, flatMap_append, mem_append, mem_flatMap, mem_singleton]
    constructor
    · rintro (((⟨op, rfl, h⟩ | ⟨op, hop, h⟩) | ⟨op, hop, h⟩) | ⟨op, rfl, h⟩)
      · simp [opMarks] at h
      · split_ifs at hop
        · obtain ⟨s, -, rfl⟩ := mem_map.1 hop
          simp [opMarks] at h
        · simp at hop
      · split_ifs at hop
        · obtain ⟨t, -, rfl⟩ := mem_map.1 hop
          simp [opMarks] at h
        · simp at hop
      · obtain ⟨a, ha, heq⟩ := mem_map.1 h
        cases heq
        exact ⟨rfl, ha⟩
    · rintro ⟨rfl, ha⟩
      exact .inr ⟨_, rfl, mem_map.2 ⟨agent, ha, rfl⟩⟩
  have hnamed : ∀ {key : Key} {name : Option String},
      (k, agent) ∈ (nameMarks key name).flatMap opMarks ↔
        k = key ∧ (agentBranch name).agent = some agent := by
    intro key name
    cases h : (agentBranch name).agent <;> simp [nameMarks, h, opMarks, eq_comm]
  have hjoins : ∀ p ∈ art.pulls, (k, agent) ∉ (pullJoins art p).flatMap opMarks := by
    intro p hp h
    obtain ⟨op, hop, h⟩ := mem_flatMap.1 h
    obtain ⟨_, _, _, _, _, rfl⟩ | ⟨_, _, _, _, _, rfl⟩ | ⟨_, _, _, rfl⟩ :=
      (mem_pullJoins hp).1 hop <;> simp [opMarks] at h
  rw [artifactOps, flatMap_append, flatMap_append, mem_append, mem_append,
    flatMap_assoc, flatMap_assoc, flatMap_assoc, mem_flatMap, mem_flatMap,
    mem_flatMap, or_assoc]
  unfold Marked
  refine or_congr (exists_congr fun b => and_congr_right fun _ => ?_) (or_congr
    (exists_congr fun p => and_congr_right fun hp => ?_) (exists_congr fun c =>
      and_congr_right fun _ => hlinked))
  · rw [branchOps, flatMap_append, mem_append, hlinked, hnamed, ← and_or_left]
  · rw [pullOps, flatMap_append, flatMap_append, mem_append, mem_append,
      hlinked, hnamed, or_iff_left (hjoins p hp), ← and_or_left]

/-! ### Groups -/

/-- The parents as the code leaves them. -/
def parents (art : Artifacts) : Parents := (artifactOps art).foldl Parents.step {}

theorem mem_parents_keys : k ∈ (parents art).keys ↔ Mentioned art k := by
  rw [parents, mem_keys_foldl, mem_opKeys]
  simp

theorem parents_nodup (art : Artifacts) : (parents art).keys.Nodup :=
  nodup_keys_foldl _ nodup_nil

theorem same_parents {i j : Key} : (parents art).forest.Same i j ↔ Connected art i j := by
  rw [parents, same_foldl]
  constructor
  · intro h
    induction h with
    | rel x y h =>
      rcases h with h | h
      · rw [Forest.same_new.1 h]
        exact .refl y
      · exact .rel _ _ (mem_artifactJoins.1 h)
    | refl x => exact .refl x
    | symm x y _ ih => exact ih.symm _ _
    | trans x y z _ _ ih ih' => exact ih.trans _ _ _ ih'
  · exact mono (fun x y h => Or.inr (mem_artifactJoins.2 h)) i j

section

variable (h : g ∈ artifactGroups art)
include h

theorem mem_artifactGroups :
    ∃ r, (r, g.keys) ∈ groupBy (parents art).forest.root (parents art).keys ∧
      g.agents = distinct (g.keys.flatMap fun key =>
        ((parents art).marks.filter (·.1 = key)).map Prod.snd) := by
  obtain ⟨⟨r, keys⟩, hr, rfl⟩ := mem_map.1 h
  exact ⟨r, hr, rfl⟩

/-- **A group is a connected component** of what is mentioned. -/
theorem mem_group_iff (hk : k ∈ g.keys) (k' : Key) :
    k' ∈ g.keys ↔ Mentioned art k' ∧ Connected art k k' := by
  obtain ⟨r, hr, -⟩ := mem_artifactGroups h
  obtain ⟨hkeys, -⟩ := eq_filter_of_mem hr
  rw [hkeys, mem_filter, decide_eq_true_eq] at hk
  rw [hkeys, mem_filter, decide_eq_true_eq, mem_parents_keys, ← same_parents, Forest.Same, hk.2]
  exact and_congr_right fun _ => eq_comm

theorem group_nonempty : ∃ k ∈ g.keys, Mentioned art k := by
  obtain ⟨r, hr, -⟩ := mem_artifactGroups h
  obtain ⟨hkeys, hne⟩ := eq_filter_of_mem hr
  obtain ⟨k, hk⟩ := exists_mem_of_ne_nil _ hne
  refine ⟨k, hk, ?_⟩
  rw [hkeys, mem_filter] at hk
  exact mem_parents_keys.1 hk.1

theorem group_nodup : g.keys.Nodup := by
  obtain ⟨r, hr, -⟩ := mem_artifactGroups h
  rw [(eq_filter_of_mem hr).1]
  exact (parents_nodup art).filter _

end

theorem exists_group (h : Mentioned art k) : ∃ g ∈ artifactGroups art, k ∈ g.keys := by
  have hk := mem_parents_keys.2 h
  have hroot : (parents art).forest.root k ∈
      (groupBy (parents art).forest.root (parents art).keys).map Prod.fst :=
    mem_keys_collect.2 ⟨k, hk, rfl⟩
  obtain ⟨⟨r, keys⟩, hr, rfl⟩ := mem_map.1 hroot
  refine ⟨_, mem_map.2 ⟨_, hr, rfl⟩, ?_⟩
  rw [(eq_filter_of_mem hr).1]
  simpa using hk

theorem groups_pairwise (art : Artifacts) :
    (artifactGroups art).Pairwise fun g g' => ∀ k ∈ g.keys, k ∉ g'.keys := by
  rw [artifactGroups, grouped, pairwise_map]
  have hnodup := @Grouping.nodup_keys_collect _ _ _ _ (parents art).forest.root
    (fun p => [p]) (fun p group => group ++ [p]) (parents art).keys
  refine (pairwise_map.1 hnodup).imp_of_mem fun {p q} hp hq hne k hk hk' => hne ?_
  rw [(eq_filter_of_mem hp).1, mem_filter, decide_eq_true_eq] at hk
  rw [(eq_filter_of_mem hq).1, mem_filter, decide_eq_true_eq] at hk'
  exact hk.2.symm.trans hk'.2

theorem mem_distinct [DecidableEq α] {x : α} : x ∈ distinct l ↔ x ∈ l := by
  simp [distinct]

theorem nodup_distinct [DecidableEq α] (l : List α) : (distinct l).Nodup := by
  simp [distinct, nodup_dedup]

/-- The agents of a group are those whose marks are on what it holds. -/
theorem group_agents (h : g ∈ artifactGroups art) :
    agent ∈ g.agents ↔ ∃ k ∈ g.keys, Marked art k agent := by
  obtain ⟨r, -, hagents⟩ := mem_artifactGroups h
  rw [hagents, mem_distinct, mem_flatMap]
  refine exists_congr fun k => and_congr_right fun _ => ?_
  rw [← mem_opMarks, parents, marks_foldl]
  simp

/-! ### What a session holds -/

theorem find?_eq_some_iff {β : Type} [DecidableEq β] {f : α → β}
    (h : (l.map f).Nodup) {a : α} {b : β} :
    l.find? (fun x => f x = b) = some a ↔ a ∈ l ∧ f a = b := by
  constructor
  · intro hf
    exact ⟨mem_of_find?_eq_some hf, by simpa using find?_some hf⟩
  · rintro ⟨ha, rfl⟩
    cases hf : l.find? (fun x => f x = f a) with
    | none =>
      have := find?_eq_none.1 hf a ha
      simp at this
    | some a' =>
      have ha' := mem_of_find?_eq_some hf
      have heq : f a' = f a := by simpa using find?_some hf
      rw [inj_on_of_nodup_map h ha' ha heq]

theorem mem_byTime {time : α → Option ℤ} {x : α} : x ∈ byTime time l ↔ x ∈ l := mem_insertionSort _

theorem keyPull_eq_some {n : ℕ} : keyPull k = some n ↔ k = .pull n := by
  cases k <;> simp [keyPull]

theorem keyCommit_eq_some {oid : String} : keyCommit k = some oid ↔ k = .commit oid := by
  cases k <;> simp [keyCommit]

theorem mem_taskPulls {keys : List Key} :
    p ∈ taskPulls art keys ↔ p ∈ art.pulls ∧ .pull p.number ∈ keys := by
  simp only [taskPulls, mem_byTime, List.mem_filterMap, keyPull_eq_some,
    find?_eq_some_iff art.pulls_nodup]
  constructor
  · rintro ⟨n, ⟨k, hk, rfl⟩, hp, rfl⟩
    exact ⟨hp, hk⟩
  · rintro ⟨hp, hk⟩
    exact ⟨p.number, ⟨_, hk, rfl⟩, hp, rfl⟩

theorem mem_taskCommits {keys : List Key} {c : AgentCommit} :
    c ∈ taskCommits art keys ↔ c ∈ art.commits ∧ .commit c.oid ∈ keys := by
  simp only [taskCommits, mem_byTime, List.mem_filterMap, keyCommit_eq_some,
    find?_eq_some_iff art.commits_nodup]
  constructor
  · rintro ⟨oid, ⟨k, hk, rfl⟩, hc, rfl⟩
    exact ⟨hc, hk⟩
  · rintro ⟨hc, hk⟩
    exact ⟨c.oid, ⟨_, hk, rfl⟩, hc, rfl⟩

/-- The pull requests, commits and branches of a session. -/
def AgentSession.numbers (s : AgentSession) : List ℕ := s.pulls.map Prod.fst
def AgentSession.oids (s : AgentSession) : List String := s.commits.map Prod.fst

/-- A session is made of a group with an agent's mark that holds something read. -/
theorem sessionOf_isSome :
    (∃ s, sessionOf art g = some s) ↔ g.agents ≠ [] ∧ sessionItems art g.keys ≠ [] := by
  unfold sessionOf
  simp only [length_eq_zero_iff]
  split_ifs with ha hi <;> simp [*]

theorem sessionOf_eq_some (h : sessionOf art g = some s) :
    (∀ n, n ∈ s.numbers ↔ .pull n ∈ g.keys ∧ ∃ p ∈ art.pulls, p.number = n) ∧
    (∀ oid, oid ∈ s.oids ↔ .commit oid ∈ g.keys ∧ ∃ c ∈ art.commits, c.oid = oid) ∧
    s.branches = branchNames art g.keys ∧
    s.updatedAt = latest ((sessionItems art g.keys).filterMap (·.updated)) := by
  unfold sessionOf at h
  split_ifs at h
  cases h
  refine ⟨fun n => ?_, fun oid => ?_, rfl, rfl⟩
  · simp only [AgentSession.numbers, sessionMade, map_reverse, mem_reverse, map_map,
      mem_map, mem_taskPulls, Function.comp_def]
    constructor
    · rintro ⟨p, ⟨hp, hk⟩, rfl⟩
      exact ⟨hk, p, hp, rfl⟩
    · rintro ⟨hk, p, hp, rfl⟩
      exact ⟨p, ⟨hp, hk⟩, rfl⟩
  · simp only [AgentSession.oids, sessionMade, map_reverse, mem_reverse, map_map,
      mem_map, mem_taskCommits, Function.comp_def]
    constructor
    · rintro ⟨c, ⟨hc, hk⟩, rfl⟩
      exact ⟨hk, c, hc, rfl⟩
    · rintro ⟨hk, c, hc, rfl⟩
      exact ⟨c, ⟨hc, hk⟩, rfl⟩

theorem mem_agentSessions {since : Option ℤ} :
    s ∈ agentSessions art since ↔
      (∃ g ∈ artifactGroups art, sessionOf art g = some s) ∧ waiting since s = false := by
  simp [agentSessions, mem_byTime]

/-- Sessions are made of groups apart, so they share no pull request and no commit. -/
theorem sessions_apart (art : Artifacts) (since : Option ℤ) :
    (agentSessions art since).Pairwise fun s s' =>
      (∀ n ∈ s.numbers, n ∉ s'.numbers) ∧ ∀ oid ∈ s.oids, oid ∉ s'.oids := by
  have hgroups : ((artifactGroups art).filterMap (sessionOf art)).Pairwise fun s s' =>
      (∀ n ∈ s.numbers, n ∉ s'.numbers) ∧ ∀ oid ∈ s.oids, oid ∉ s'.oids := by
    refine List.Pairwise.filterMap _ ?_ (groups_pairwise art)
    intro g g' hgg s hs s' hs'
    obtain ⟨hn, ho, -⟩ := sessionOf_eq_some hs
    obtain ⟨hn', ho', -⟩ := sessionOf_eq_some hs'
    exact ⟨fun n h h' => hgg _ ((hn n).1 h).1 ((hn' n).1 h').1,
      fun oid h h' => hgg _ ((ho oid).1 h).1 ((ho' oid).1 h').1⟩
  rw [agentSessions, pairwise_reverse]
  refine (perm_insertionSort _ _).symm.pairwise (List.Pairwise.imp (fun h => ?_)
    (hgroups.filter _)) fun h => ?_
  · exact ⟨fun n h₁ h₂ => h.1 n h₂ h₁, fun oid h₁ h₂ => h.2 oid h₂ h₁⟩
  · exact ⟨fun n h₁ h₂ => h.1 n h₂ h₁, fun oid h₁ h₂ => h.2 oid h₂ h₁⟩

/-! ### The order of what is read -/

/-- The same artifacts in other orders. -/
structure Reordered (art art' : Artifacts) : Prop where
  pulls : art.pulls.Perm art'.pulls
  commits : art.commits.Perm art'.commits
  issues : art.issues.Perm art'.issues
  branches : art.branches.Perm art'.branches

section Order

variable {art art' : Artifacts}

theorem Reordered.symm (h : Reordered art art') : Reordered art' art :=
  ⟨h.pulls.symm, h.commits.symm, h.issues.symm, h.branches.symm⟩

variable {x y : Key} {α : Type} {l l' : List α}

section

variable (h : Reordered art art')
include h

theorem Linked.reordered (hl : Linked art x y) : Linked art' x y := by
  cases hl with
  | branchSession hb happ hs => exact .branchSession (h.branches.mem_iff.1 hb) happ hs
  | branchTask hb happ ht => exact .branchTask (h.branches.mem_iff.1 hb) happ ht
  | pullSession hp happ hs => exact .pullSession (h.pulls.mem_iff.1 hp) happ hs
  | pullTask hp happ ht => exact .pullTask (h.pulls.mem_iff.1 hp) happ ht
  | commitSession hc happ hs => exact .commitSession (h.commits.mem_iff.1 hc) happ hs
  | commitTask hc happ ht => exact .commitTask (h.commits.mem_iff.1 hc) happ ht
  | appBranch hp happ hh hpos hmax =>
    exact .appBranch (h.pulls.mem_iff.1 hp) happ hh hpos fun q hq => hmax q (h.pulls.mem_iff.2 hq)
  | pullBranch hp happ hh hne hread =>
    refine .pullBranch (h.pulls.mem_iff.1 hp) happ hh hne (hread.imp_right (Or.imp_right ?_))
    rintro ⟨b, hb, rfl⟩
    exact ⟨b, h.branches.mem_iff.1 hb, rfl⟩
  | pullNamed hp happ hn => exact .pullNamed (h.pulls.mem_iff.1 hp) happ hn

theorem Reordered.linked :
    Linked art x y ↔ Linked art' x y := ⟨Linked.reordered h, Linked.reordered h.symm⟩

theorem Reordered.connected : Connected art x y ↔ Connected art' x y :=
  ⟨mono (fun _ _ => h.linked.1) x y, mono (fun _ _ => h.linked.2) x y⟩

theorem Reordered.mentioned {k : Key} : Mentioned art k ↔ Mentioned art' k := by
  simp only [Mentioned, h.branches.mem_iff, h.pulls.mem_iff, h.commits.mem_iff, h.linked]

theorem Reordered.marked {k : Key} {agent : String} : Marked art k agent ↔ Marked art' k agent := by
  simp only [Marked, h.branches.mem_iff, h.pulls.mem_iff, h.commits.mem_iff]

end

theorem find?_perm {β : Type} [DecidableEq β] {f : α → β} (h : (l.map f).Nodup)
    (h' : (l'.map f).Nodup) (hp : l.Perm l') (b : β) :
    l.find? (fun x => f x = b) = l'.find? (fun x => f x = b) := by
  ext a
  rw [find?_eq_some_iff h, find?_eq_some_iff h', hp.mem_iff]

theorem byTime_perm {time : α → Option ℤ} (h : l.Perm l') : (byTime time l).Perm (byTime time l') :=
  (perm_insertionSort _ l).trans (h.trans (perm_insertionSort _ l').symm)

theorem distinct_perm [DecidableEq α] (h : ∀ x, x ∈ l ↔ x ∈ l') :
    (distinct l).Perm (distinct l') := by
  rw [perm_ext_iff_of_nodup (nodup_distinct l) (nodup_distinct l')]
  simpa [mem_distinct] using h

section Keys

variable {keys keys' : List Key}

section

variable (h : Reordered art art')
include h

section

variable (hk : keys.Perm keys')
include hk

theorem Reordered.taskPulls : (taskPulls art keys).Perm (taskPulls art' keys') := by
  refine byTime_perm ?_
  simp only [find?_perm art.pulls_nodup art'.pulls_nodup h.pulls]
  exact (hk.filterMap _).filterMap _

theorem Reordered.taskCommits : (taskCommits art keys).Perm (taskCommits art' keys') := by
  refine byTime_perm ?_
  simp only [find?_perm art.commits_nodup art'.commits_nodup h.commits]
  exact (hk.filterMap _).filterMap _

theorem Reordered.branchNames : (branchNames art keys).Perm (branchNames art' keys') := by
  refine distinct_perm fun x => mem_iff ?_
  exact (hk.filterMap _).append ((h.taskPulls hk).filterMap _)

theorem Reordered.taskIssues : (taskIssues art keys).Perm (taskIssues art' keys') := by
  refine byTime_perm ?_
  simp only [find?_perm art.issues_nodup art'.issues_nodup h.issues]
  refine filterMap _ (distinct_perm fun x => mem_iff ?_)
  exact (((h.taskPulls hk).flatMap_right _).append ((h.taskPulls hk).filterMap _)).append
    ((hk.filterMap _).filterMap _)

theorem Reordered.taskBranches : (taskBranches art keys).Perm (taskBranches art' keys') := by
  unfold AgentTasks.taskBranches
  simp only [find?_perm art.branches_nodup art'.branches_nodup h.branches]
  exact (h.branchNames hk).filterMap _

theorem Reordered.sessionItems : (sessionItems art keys).Perm (sessionItems art' keys') :=
  ((((h.taskPulls hk).map _).append ((h.taskCommits hk).map _)).append
    ((h.taskIssues hk).map _)).append ((h.taskBranches hk).map _)

end

end

end Keys

theorem foldl_max (l : List ℤ) (t : ℤ) :
    t ≤ l.foldl max t ∧ (∀ x ∈ l, x ≤ l.foldl max t) ∧ (l.foldl max t = t ∨ l.foldl max t ∈ l) := by
  induction l generalizing t with
  | nil => simp
  | cons x l ih =>
    obtain ⟨hle, hall, hmem⟩ := ih (max t x)
    rw [foldl_cons]
    refine ⟨(le_max_left _ _).trans hle, ?_, ?_⟩
    · intro y hy
      rcases mem_cons.1 hy with rfl | hy
      · exact (le_max_right _ _).trans hle
      · exact hall y hy
    · rcases hmem with hmem | hmem
      · rw [hmem]
        rcases max_choice t x with hm | hm
        · exact .inl hm
        · exact .inr (hm ▸ by simp)
      · exact .inr (mem_cons_of_mem _ hmem)

theorem latest_eq_some {l : List ℤ} {m : ℤ} : latest l = some m ↔ m ∈ l ∧ ∀ x ∈ l, x ≤ m := by
  cases l with
  | nil => simp [latest]
  | cons t l =>
    obtain ⟨hle, hall, hmem⟩ := foldl_max l t
    have hin : l.foldl max t ∈ t :: l := mem_cons.2 hmem
    have hup : ∀ x ∈ t :: l, x ≤ l.foldl max t := by
      intro x hx
      rcases mem_cons.1 hx with rfl | hx
      · exact hle
      · exact hall x hx
    rw [latest, Option.some.injEq]
    constructor
    · rintro rfl
      exact ⟨hin, hup⟩
    · rintro ⟨hm, hmax⟩
      exact le_antisymm (hmax _ hin) (hup m hm)

theorem latest_perm {l l' : List ℤ} (h : l.Perm l') : latest l = latest l' := by
  ext m
  simp only [latest_eq_some, h.mem_iff]

/-- The sessions hold the same whatever the order in which the artifacts were read. -/
theorem sessions_unordered (h : Reordered art art') {since : Option ℤ} {s : AgentSession}
    (hs : s ∈ agentSessions art since) : ∃ s' ∈ agentSessions art' since,
      (∀ n, n ∈ s.numbers ↔ n ∈ s'.numbers) ∧ (∀ oid, oid ∈ s.oids ↔ oid ∈ s'.oids) ∧
        ∀ name, name ∈ s.branches ↔ name ∈ s'.branches := by
  obtain ⟨⟨g, hg, hsg⟩, hwait⟩ := mem_agentSessions.1 hs
  obtain ⟨k, hk, hmk⟩ := group_nonempty hg
  obtain ⟨g', hg', hk'⟩ := exists_group (h.mentioned.1 hmk)
  have hkeys : ∀ x, x ∈ g.keys ↔ x ∈ g'.keys := fun x => by
    rw [mem_group_iff hg hk, mem_group_iff hg' hk', h.mentioned, h.connected]
  have hperm : g.keys.Perm g'.keys :=
    (perm_ext_iff_of_nodup (group_nodup hg) (group_nodup hg')).2 hkeys
  have hitems := h.sessionItems hperm
  obtain ⟨hagents, hne⟩ := sessionOf_isSome.1 ⟨s, hsg⟩
  obtain ⟨agent, hagent⟩ := exists_mem_of_ne_nil _ hagents
  obtain ⟨x, hx, hmark⟩ := (group_agents hg).1 hagent
  have hagents' : g'.agents ≠ [] := ne_nil_of_mem
    ((group_agents hg').2 ⟨x, (hkeys x).1 hx, h.marked.1 hmark⟩)
  obtain ⟨s', hsg'⟩ := sessionOf_isSome.2
    ⟨hagents', fun hnil => hne (hitems.trans (by rw [hnil])).eq_nil⟩
  obtain ⟨hn, ho, hb, hu⟩ := sessionOf_eq_some hsg
  obtain ⟨hn', ho', hb', hu'⟩ := sessionOf_eq_some hsg'
  have hnum : ∀ n, n ∈ s.numbers ↔ n ∈ s'.numbers := fun n => by
    rw [hn, hn', hkeys]
    simp only [h.pulls.mem_iff]
  have hoid : ∀ oid, oid ∈ s.oids ↔ oid ∈ s'.oids := fun oid => by
    rw [ho, ho', hkeys]
    simp only [h.commits.mem_iff]
  have hupd : s.updatedAt = s'.updatedAt := by
    rw [hu, hu', latest_perm (hitems.filterMap _)]
  have hempty : s.pulls.length = 0 ↔ s'.pulls.length = 0 := by
    simp only [length_eq_zero_iff, ← map_eq_nil_iff (f := Prod.fst)]
    rw [eq_nil_iff_forall_not_mem, eq_nil_iff_forall_not_mem]
    exact forall_congr' fun n => not_congr (hnum n)
  have hempty' : s.commits.length = 0 ↔ s'.commits.length = 0 := by
    simp only [length_eq_zero_iff, ← map_eq_nil_iff (f := Prod.fst)]
    rw [eq_nil_iff_forall_not_mem, eq_nil_iff_forall_not_mem]
    exact forall_congr' fun oid => not_congr (hoid oid)
  refine ⟨s', mem_agentSessions.2 ⟨⟨g', hg', hsg'⟩, ?_⟩, hnum, hoid, fun name => ?_⟩
  · rw [← hwait]
    unfold waiting
    simp only [hempty, hempty', hupd]
  · rw [hb, hb']
    exact (h.branchNames hperm).mem_iff

end Order

/-! ### App agents' pull requests -/

/-- A link that isn't an app agent's pull request's own. -/
def LinkedBeside (art : Artifacts) (p : AgentPull) (x y : Key) : Prop :=
  Linked art x y ∧ x ≠ .pull p.number ∧ y ≠ .pull p.number

/-- An app agent's pull request is apart: no other's branch is named for it, and its branch, where
it is the newest from it, is linked to no other by the others' links. -/
structure PullApart (art : Artifacts) (p : AgentPull) : Prop where
  unnamed : ∀ q ∈ art.pulls, q.signals.agents = [] → (agentBranch q.head).pull ≠ some p.number
  own : ∀ h, headName p = some h → 0 < p.number →
    (∀ q ∈ art.pulls, headName q = some h → q.number ≤ p.number) →
    ∀ q ∈ art.pulls, ¬ Relation.EqvGen (LinkedBeside art p) (.branch h) (.pull q.number)

section Apart

variable {art : Artifacts} {p : AgentPull}

theorem eq_of_number {q : AgentPull} (hp : p ∈ art.pulls) (hq : q ∈ art.pulls)
    (h : p.number = q.number) : p = q := inj_on_of_nodup_map art.pulls_nodup hp hq h

/-- Beside its own links nothing reaches a pull request. -/
theorem eqvGen_beside_iff {x y : Key} (h : Relation.EqvGen (LinkedBeside art p) x y) :
    x = .pull p.number ↔ y = .pull p.number := by
  induction h with
  | rel x y h => exact ⟨fun hx => absurd hx h.2.1, fun hy => absurd hy h.2.2⟩
  | refl x => rfl
  | symm x y _ ih => exact ih.symm
  | trans x y z _ _ ih ih' => exact ih.trans ih'

/-- What an unnamed app agent's pull request reaches, it reaches through its branch. -/
def Reaches (art : Artifacts) (p : AgentPull) (x : Key) : Prop :=
  x = .pull p.number ∨ ∃ h, headName p = some h ∧ 0 < p.number ∧
    (∀ q ∈ art.pulls, headName q = some h → q.number ≤ p.number) ∧
    Relation.EqvGen (LinkedBeside art p) (.branch h) x

theorem reaches_iff (hp : p ∈ art.pulls) (happ : p.signals.agents ≠ [])
    (hnamed : ∀ q ∈ art.pulls, q.signals.agents = [] →
      (agentBranch q.head).pull ≠ some p.number) {x y : Key} (hl : Linked art x y) :
    Reaches art p x ↔ Reaches art p y := by
  -- the links of the pull request itself: its branch's alone
  have hown : x = .pull p.number → Reaches art p y := by
    intro hx
    cases hl with
    | branchSession => cases hx
    | branchTask => cases hx
    | commitSession => cases hx
    | commitTask => cases hx
    | pullSession hq hno =>
      cases eq_of_number hp hq (pull.inj hx).symm
      exact absurd hno happ
    | pullTask hq hno =>
      cases eq_of_number hp hq (pull.inj hx).symm
      exact absurd hno happ
    | pullBranch hq hno =>
      cases eq_of_number hp hq (pull.inj hx).symm
      exact absurd hno happ
    | pullNamed hq hno =>
      cases eq_of_number hp hq (pull.inj hx).symm
      exact absurd hno happ
    | appBranch hq _ hh hpos hmax =>
      cases eq_of_number hp hq (pull.inj hx).symm
      exact .inr ⟨_, hh, hpos, hmax, .refl _⟩
  have hnot : y ≠ .pull p.number := by
    rintro rfl
    cases hl with
    | pullNamed hq hno hn => exact hnamed _ hq hno hn
  by_cases hx : x = .pull p.number
  · exact ⟨fun _ => hown hx, fun _ => .inl hx⟩
  · have hbeside : LinkedBeside art p x y := ⟨hl, hx, hnot⟩
    unfold Reaches
    rw [or_iff_right hx, or_iff_right hnot]
    constructor
    · rintro ⟨h, hh, hpos, hmax, hr⟩
      exact ⟨h, hh, hpos, hmax, hr.trans _ _ _ (.rel _ _ hbeside)⟩
    · rintro ⟨h, hh, hpos, hmax, hr⟩
      exact ⟨h, hh, hpos, hmax, hr.trans _ _ _ ((rel _ _ hbeside).symm _ _)⟩

theorem reaches_of_connected (hp : p ∈ art.pulls) (happ : p.signals.agents ≠ [])
    (hnamed : ∀ q ∈ art.pulls, q.signals.agents = [] →
      (agentBranch q.head).pull ≠ some p.number) {x y : Key} (hc : Connected art x y) :
    Reaches art p x ↔ Reaches art p y := by
  induction hc with
  | rel x y hl => exact reaches_iff hp happ hnamed hl
  | refl x => rfl
  | symm x y _ ih => exact ih.symm
  | trans x y z _ _ ih ih' => exact ih.trans ih'

/-- A pull request apart is connected with no other. -/
theorem PullApart.alone (h : PullApart art p) (hp : p ∈ art.pulls)
    (happ : p.signals.agents ≠ []) {q : AgentPull} (hq : q ∈ art.pulls)
    (hc : Connected art (.pull p.number) (.pull q.number)) : q.number = p.number := by
  rcases (reaches_of_connected hp happ h.unnamed hc).1 (.inl rfl) with
    heq | ⟨head, hh, hpos, hmax, hr⟩
  · exact pull.inj heq
  · exact absurd hr (h.own head hh hpos hmax q hq)

/-- The session that an app agent's pull request is in. -/
theorem exists_session (hp : p ∈ art.pulls) (happ : p.signals.agents ≠ []) :
    ∃ s ∈ agentSessions art none, ∀ q ∈ art.pulls,
      Connected art (.pull p.number) (.pull q.number) → q.number ∈ s.numbers := by
  have hmention : ∀ q ∈ art.pulls, Mentioned art (.pull q.number) :=
    fun q hq => .inr (.inl ⟨q, hq, rfl⟩)
  obtain ⟨g, hg, hk⟩ := exists_group (hmention p hp)
  have hagents : g.agents ≠ [] := by
    obtain ⟨agent, ha⟩ := exists_mem_of_ne_nil _ happ
    have hmark : Marked art (.pull p.number) agent :=
      .inr (.inl ⟨p, hp, rfl, .inl (mem_append_left _ (mem_append_left _ ha))⟩)
    exact ne_nil_of_mem ((group_agents hg).2 ⟨_, hk, hmark⟩)
  have hitems : sessionItems art g.keys ≠ [] := by
    refine ne_nil_of_mem (a := pullItem p) ?_
    simp only [sessionItems, mem_append, mem_map]
    exact .inl (.inl (.inl ⟨p, mem_taskPulls.2 ⟨hp, hk⟩, rfl⟩))
  obtain ⟨s, hs⟩ := sessionOf_isSome.2 ⟨hagents, hitems⟩
  obtain ⟨hn, -⟩ := sessionOf_eq_some hs
  refine ⟨s, mem_agentSessions.2 ⟨⟨g, hg, hs⟩, rfl⟩, fun q hq hc => ?_⟩
  exact (hn q.number).2 ⟨(mem_group_iff hg hk _).2 ⟨hmention q hq, hc⟩, q, hq, rfl⟩

end Apart

/-- What is claimed of the sessions of a repository's artifacts. -/
structure Grouped (art : Artifacts) : Prop where
  /-- The groups are the connected components of the rules' links. -/
  components : (∀ g ∈ artifactGroups art, ∃ k ∈ g.keys, Mentioned art k ∧
      ∀ k', k' ∈ g.keys ↔ Mentioned art k' ∧ Connected art k k') ∧
    (∀ k, Mentioned art k → ∃ g ∈ artifactGroups art, k ∈ g.keys) ∧
    (artifactGroups art).Pairwise fun g g' => ∀ k ∈ g.keys, k ∉ g'.keys
  /-- No pull request and no commit is in two sessions. -/
  apart : ∀ since, (agentSessions art since).Pairwise fun s s' =>
    (∀ n ∈ s.numbers, n ∉ s'.numbers) ∧ ∀ oid ∈ s.oids, oid ∉ s'.oids
  /-- What the sessions hold rests on no order. -/
  unordered : ∀ art', Reordered art art' → ∀ since, ∀ s ∈ agentSessions art since,
    ∃ s' ∈ agentSessions art' since, (∀ n, n ∈ s.numbers ↔ n ∈ s'.numbers) ∧
      (∀ oid, oid ∈ s.oids ↔ oid ∈ s'.oids) ∧ ∀ name, name ∈ s.branches ↔ name ∈ s'.branches
  /-- An app agent's pull request is the one of its session. -/
  alone : ∀ since, ∀ s ∈ agentSessions art since, ∀ p ∈ art.pulls, p.signals.agents ≠ [] →
    p.number ∈ s.numbers → ∀ n ∈ s.numbers, n = p.number

/-- **The sessions are grouped as claimed exactly where every app agent's pull request is apart
from the others.**  The components, one session for each pull request and commit and the order
hold of all artifacts; alone is an app agent's pull request where none is named for it and its
branch is linked to none. -/
theorem grouped_iff (art : Artifacts) :
    Grouped art ↔ ∀ p ∈ art.pulls, p.signals.agents ≠ [] → PullApart art p := by
  constructor
  · intro h p hp happ
    obtain ⟨s, hs, hin⟩ := exists_session hp happ
    have honly : ∀ q ∈ art.pulls, Connected art (.pull p.number) (.pull q.number) →
        q.number = p.number := fun q hq hc =>
      h.alone none s hs p hp happ (hin p hp (.refl _)) _ (hin q hq hc)
    refine ⟨fun q hq hno hn => ?_, fun head hh hpos hmax q hq hr => ?_⟩
    · have hlink : Linked art (.pull q.number) (.pull p.number) := .pullNamed hq hno hn
      have heq := honly q hq ((Relation.EqvGen.rel _ _ hlink).symm _ _)
      cases eq_of_number hp hq heq.symm
      exact happ hno
    · have hown : Linked art (.pull p.number) (.branch head) :=
        .appBranch hp happ hh hpos hmax
      have hc := Relation.EqvGen.mono (fun _ _ (h : LinkedBeside art p _ _) => h.1) _ _ hr
      have heq := honly q hq ((Relation.EqvGen.rel _ _ hown).trans _ _ _ hc)
      cases (eqvGen_beside_iff hr).2 (congrArg Key.pull heq)
  · intro h
    refine ⟨⟨fun g hg => ?_, fun k => exists_group, groups_pairwise art⟩,
      sessions_apart art, fun art' hre since s hs => sessions_unordered hre hs, ?_⟩
    · obtain ⟨k, hk, hm⟩ := group_nonempty hg
      exact ⟨k, hk, hm, mem_group_iff hg hk⟩
    · intro since s hs p hp happ hps n hn
      obtain ⟨⟨g, hg, hsg⟩, -⟩ := mem_agentSessions.1 hs
      obtain ⟨hnum, -⟩ := sessionOf_eq_some hsg
      obtain ⟨hkp, -⟩ := (hnum _).1 hps
      obtain ⟨hkn, q, hq, rfl⟩ := (hnum n).1 hn
      exact (h p hp happ).alone hp happ hq ((mem_group_iff hg hkp _).1 hkn).2

/-- A pull request as one is read from a branch, at a time. -/
def pullFrom (number : ℕ) (head : String) (at' : ℤ) (signals : AgentSignals) : AgentPull :=
  { number, title := "t", state := .isOpen, draft := false, author := none,
    createdAt := some at', updatedAt := some at', head := some head, fork := none,
    additions := 0, deletions := 0, commits := 1, closes := [], signals }

/-- An app agent's pull request, the newest from a branch another pull request is from. -/
def sharedBranch : Artifacts where
  pulls := [pullFrom 5 "fix" 1 { claude := true }, pullFrom 8 "fix" 2 { agents := ["neo"] }]

/-- Both are in one session. -/
theorem sharedBranch_not_grouped : ¬ Grouped sharedBranch ∧
    (agentSessions sharedBranch none).map (·.numbers) = [[8, 5]] := by
  have hsessions : (agentSessions sharedBranch none).map (·.numbers) = [[8, 5]] := by
    decide +kernel
  refine ⟨fun h => ?_, hsessions⟩
  obtain ⟨s, hs, hnum⟩ := mem_map.1 (hsessions ▸ mem_singleton.2 rfl :
    [8, 5] ∈ (agentSessions sharedBranch none).map (·.numbers))
  have := h.alone none s hs (pullFrom 8 "fix" 2 { agents := ["neo"] }) (by simp [sharedBranch])
    (by simp [pullFrom]) (by rw [hnum]; decide) 5 (by rw [hnum]; decide)
  exact absurd this (by decide)

end Triage.AgentTasks
