import Triage.Data.Grouping
import Triage.Data.UnionFind
import Mathlib.Data.List.Sort

/-!
# Agents' sessions and their tasks

What agents leave on GitHub, grouped into sessions: pull requests, commits and branches are joined
by the sessions and tasks they link, a pull request with its branch and with the pull request its
branch is named for. An app agent's artifacts join by no link; a pull request of its joins its
branch alone, where none newer is from it.
-/

namespace Triage.AgentTasks

/-- What an artifact's texts say of the agents that made it. -/
structure AgentSignals where
  sessions : List String := []
  tasks : List String := []
  claude : Bool := false
  codex : Bool := false
  agents : List String := []
deriving DecidableEq

inductive PullState where
  | isOpen
  | merged
  | closed
deriving DecidableEq, Repr

structure AgentPull where
  number : ℕ
  title : String
  state : PullState
  draft : Bool
  author : Option String
  createdAt : Option ℤ
  updatedAt : Option ℤ
  head : Option String
  fork : Option String
  additions : ℕ
  deletions : ℕ
  commits : ℕ
  closes : List ℕ
  signals : AgentSignals
deriving DecidableEq

structure AgentIssue where
  number : ℕ
  title : String
  isOpen : Bool
  author : Option String
  createdAt : Option ℤ
  updatedAt : Option ℤ
deriving DecidableEq

structure AgentBranch where
  name : String
  at' : Option ℤ
  author : Option String
  signals : AgentSignals
deriving DecidableEq

structure AgentCommit where
  oid : String
  title : String
  at' : Option ℤ
  author : Option String
  additions : ℕ
  deletions : ℕ
  signals : AgentSignals
deriving DecidableEq

/-- What is read of a repository, each artifact once. -/
structure Artifacts where
  pulls : List AgentPull := []
  commits : List AgentCommit := []
  issues : List AgentIssue := []
  branches : List AgentBranch := []
  pulls_nodup : (pulls.map (·.number)).Nodup := by decide
  commits_nodup : (commits.map (·.oid)).Nodup := by decide
  issues_nodup : (issues.map (·.number)).Nodup := by decide
  branches_nodup : (branches.map (·.name)).Nodup := by decide

/-! ### Marks and names -/

def signalAgents (signals : AgentSignals) : List String :=
  signals.agents ++ (if signals.sessions ≠ [] ∨ signals.claude then ["claude"] else []) ++
    if signals.tasks ≠ [] ∨ signals.codex then ["codex"] else []

/-- The number at the start of a text, before a hyphen: up to ten digits, the first not zero. -/
def numberBefore (t : List Char) : Option ℕ :=
  let digits := t.takeWhile Char.isDigit
  if digits ≠ [] ∧ digits.length ≤ 10 ∧ digits.head? ≠ some '0' ∧
      (t.drop digits.length).head? = some '-' then
    some (digits.foldl (fun n c => n * 10 + (c.toNat - 48)) 0)
  else none

structure BranchName where
  agent : Option String
  issue : Option ℕ
  pull : Option ℕ

/-- The agent a branch's name says made it, and the issue or pull request it is named for. -/
def agentBranch (name : Option String) : BranchName :=
  match name with
  | none => ⟨none, none, none⟩
  | some name =>
    if "claude/".toList.isPrefixOf name.toList then
      ⟨some "claude",
        if "claude/issue-".toList.isPrefixOf name.toList then numberBefore (name.toList.drop 13)
        else none,
        if "claude/pr-".toList.isPrefixOf name.toList then numberBefore (name.toList.drop 10)
        else none⟩
    else if "codex/".toList.isPrefixOf name.toList then ⟨some "codex", none, none⟩
    else ⟨none, none, none⟩

/-- A pull request's branch: in a fork, with its owner's name before it. -/
def headName (pull : AgentPull) : Option String :=
  match pull.head, pull.fork with
  | some head, some fork => if head ≠ "" ∧ fork ≠ "" then some (fork ++ ":" ++ head) else some head
  | head, _ => head

/-! ### What is joined -/

/-- What is joined: the artifacts, and the sessions and tasks they link. -/
inductive Key where
  | pull (number : ℕ)
  | commit (oid : String)
  | branch (name : String)
  | session (id : String)
  | task (id : String)
deriving DecidableEq

/-- What is done to the groups, one after another. -/
inductive Op where
  | find (key : Key)
  | join (a b : Key)
  | mark (key : Key) (agents : List String)

/-- An artifact joined with the sessions and tasks it links, an app agent's with none. -/
def linked (key : Key) (signals : AgentSignals) : List Op :=
  [.find key] ++
    (if signals.agents.length = 0 then
      signals.sessions.map fun s => .join key (.session s) else []) ++
    (if signals.agents.length = 0 then signals.tasks.map fun t => .join key (.task t) else []) ++
    [.mark key (signalAgents signals)]

/-- A branch's name may mark it an agent's. -/
def nameMarks (key : Key) (name : Option String) : List Op :=
  ((agentBranch name).agent.map fun agent => Op.mark key [agent]).toList

def branchOps (branch : AgentBranch) : List Op :=
  linked (.branch branch.name) branch.signals ++ nameMarks (.branch branch.name) (some branch.name)

/-- The newest pull request read from each branch, by its number. -/
def newest (pulls : List AgentPull) : String → Option ℕ :=
  pulls.foldl (fun newest pull =>
    match headName pull with
    | some head =>
      if (newest head).getD 0 < pull.number then
        fun h => if h = head then some pull.number else newest h
      else newest
    | none => newest) fun _ => none

/-- A pull request joined with its branch, where that is wanted. -/
def headJoin (pull : AgentPull) (wanted : String → Bool) : List Op :=
  (((headName pull).filter wanted).map fun head =>
    Op.join (.pull pull.number) (.branch head)).toList

/-- A pull request joined with the one its branch is named for. -/
def namedJoin (pull : AgentPull) : List Op :=
  (((agentBranch pull.head).pull.filter (· ≠ 0)).map fun named =>
    Op.join (.pull pull.number) (.pull named)).toList

/-- What a pull request joins beside what it links: an app agent's its branch where it is the
newest, another its branch and the pull request its branch is named for. -/
def pullJoins (art : Artifacts) (pull : AgentPull) : List Op :=
  if pull.signals.agents.length > 0 then
    headJoin pull fun head => newest art.pulls head = some pull.number
  else
    (headJoin pull fun head => head ≠ "" && ((agentBranch pull.head).agent.isSome ||
      signalAgents pull.signals ≠ [] || head ∈ art.branches.map (·.name))) ++ namedJoin pull

def pullOps (art : Artifacts) (pull : AgentPull) : List Op :=
  linked (.pull pull.number) pull.signals ++ nameMarks (.pull pull.number) pull.head ++
    pullJoins art pull

def commitOps (commit : AgentCommit) : List Op := linked (.commit commit.oid) commit.signals

def artifactOps (art : Artifacts) : List Op :=
  art.branches.flatMap branchOps ++ art.pulls.flatMap (pullOps art) ++ art.commits.flatMap commitOps

/-! ### Groups -/

/-- The elements of a list, each once, in the order they are first in. -/
def distinct {α : Type} [DecidableEq α] (l : List α) : List α := l.reverse.dedup.reverse

/-- The map of parents, with its keys in their order, and the agents' marks.  Every root is a key:
linking its tree adds none. -/
structure Parents where
  forest : Forest Key := Forest.new
  keys : List Key := []
  marks : List (Key × String) := []

def Parents.find (p : Parents) (key : Key) : Parents :=
  { p with
    forest := p.forest.compress key
    keys := if key ∈ p.keys then p.keys else p.keys ++ [key] }

def Parents.join (p : Parents) (a b : Key) : Parents :=
  { (p.find a).find b with forest := p.forest.join a b }

def Parents.step (p : Parents) : Op → Parents
  | .find key => p.find key
  | .join a b => p.join a b
  | .mark key agents => { p with marks := p.marks ++ agents.map fun agent => (key, agent) }

structure Group where
  agents : List String
  keys : List Key

def grouped (p : Parents) : List Group :=
  (Grouping.groupBy p.forest.root p.keys).map fun g =>
    ⟨distinct (g.2.flatMap fun key => (p.marks.filter (·.1 = key)).map Prod.snd), g.2⟩

def artifactGroups (art : Artifacts) : List Group :=
  grouped ((artifactOps art).foldl Parents.step {})

/-! ### Sessions -/

inductive SessionState where
  | isOpen
  | merged
  | closed
  | branch
deriving DecidableEq, Repr

structure AgentSession where
  id : String
  agents : List String
  sessions : List String
  tasks : List String
  title : String
  authors : List String
  startedAt : Option ℤ
  updatedAt : Option ℤ
  state : SessionState
  pulls : List (ℕ × String × PullState × Bool)
  commits : List (String × String)
  issues : List (ℕ × String × Bool)
  branches : List String
  commitCount : ℕ
  additions : ℕ
  deletions : ℕ

/-- `toSorted(byTime(…))` : by a time, none as the start of time. -/
def byTime {α : Type} (time : α → Option ℤ) (l : List α) : List α :=
  l.insertionSort fun a b => (time a).getD 0 ≤ (time b).getD 0

/-- An artifact of a session, by whom and when. -/
structure Item where
  author : Option String
  started : Option ℤ
  updated : Option ℤ

def pullItem (pull : AgentPull) : Item := ⟨pull.author, pull.createdAt, pull.updatedAt⟩
def commitItem (commit : AgentCommit) : Item := ⟨commit.author, commit.at', commit.at'⟩
def issueItem (issue : AgentIssue) : Item := ⟨issue.author, issue.createdAt, issue.updatedAt⟩
def branchItem (branch : AgentBranch) : Item := ⟨branch.author, branch.at', branch.at'⟩

/-- The largest of a list of times. -/
def latest : List ℤ → Option ℤ
  | [] => none
  | t :: ts => some (ts.foldl max t)

def earliest : List ℤ → Option ℤ
  | [] => none
  | t :: ts => some (ts.foldl min t)

def keyPull : Key → Option ℕ
  | .pull number => some number
  | _ => none

def keyCommit : Key → Option String
  | .commit oid => some oid
  | _ => none

def keyBranch : Key → Option String
  | .branch name => some name
  | _ => none

def keySession : Key → Option String
  | .session id => some id
  | _ => none

def keyTask : Key → Option String
  | .task id => some id
  | _ => none

/-- What a group of artifacts touched: its pull requests and commits by time, the branches it is
on, and the issues it works on. -/
def taskPulls (art : Artifacts) (keys : List Key) : List AgentPull :=
  byTime (·.createdAt) ((keys.filterMap keyPull).filterMap fun n =>
    art.pulls.find? fun pull => pull.number = n)

def taskCommits (art : Artifacts) (keys : List Key) : List AgentCommit :=
  byTime (·.at') ((keys.filterMap keyCommit).filterMap fun oid =>
    art.commits.find? fun commit => commit.oid = oid)

def branchNames (art : Artifacts) (keys : List Key) : List String :=
  distinct (keys.filterMap keyBranch ++ (taskPulls art keys).filterMap headName)

def issueNumbers (art : Artifacts) (keys : List Key) : List ℕ :=
  distinct ((taskPulls art keys).flatMap (·.closes) ++
    (taskPulls art keys).filterMap (fun pull => (agentBranch pull.head).issue) ++
    (keys.filterMap keyBranch).filterMap fun name => (agentBranch (some name)).issue)

def taskIssues (art : Artifacts) (keys : List Key) : List AgentIssue :=
  byTime (·.createdAt) ((issueNumbers art keys).filterMap fun n =>
    art.issues.find? fun issue => issue.number = n)

def taskBranches (art : Artifacts) (keys : List Key) : List AgentBranch :=
  (branchNames art keys).filterMap fun name => art.branches.find? fun branch => branch.name = name

def sessionItems (art : Artifacts) (keys : List Key) : List Item :=
  (taskPulls art keys).map pullItem ++ (taskCommits art keys).map commitItem ++
    (taskIssues art keys).map issueItem ++ (taskBranches art keys).map branchItem

def stateOf (pulls : List AgentPull) (commits : List AgentCommit) : SessionState :=
  if .isOpen ∈ pulls.map (·.state) then .isOpen
  else if .merged ∈ pulls.map (·.state) ∨ commits.length > 0 then .merged
  else if .closed ∈ pulls.map (·.state) then .closed
  else .branch

/-- What names a session: the earliest of its pull requests and commits. -/
def firstTitle (pulls : List AgentPull) (commits : List AgentCommit) : Option String :=
  ((byTime Prod.fst (pulls.map (fun p => (p.createdAt, p.title)) ++
    commits.map fun c => (c.at', c.title))).head?).map Prod.snd

def sessionId (sessions tasks : List String) (pulls : List AgentPull) (commits : List AgentCommit)
    (names : List String) : String :=
  match sessions.head?, tasks.head?, pulls.head? with
  | some id, _, _ => id
  | none, some id, _ => id
  | none, none, some pull => "pull-" ++ toString pull.number
  | none, none, none =>
    match commits.head? with
    | some commit => commit.oid
    | none => names.head?.getD ""

/-- The session a group makes. -/
def sessionMade (art : Artifacts) (group : Group) : AgentSession :=
  let keys := group.keys
  let pulls := taskPulls art keys
  let commits := taskCommits art keys
  let issues := taskIssues art keys
  let names := branchNames art keys
  let items := sessionItems art keys
  let sessions := keys.filterMap keySession
  let tasks := keys.filterMap keyTask
  { id := sessionId sessions tasks pulls commits names
    agents := group.agents.filter (· ∉ ["claude", "codex"]) ++
      ["claude", "codex"].filter (· ∈ group.agents)
    sessions := sessions
    tasks := tasks
    title := (firstTitle pulls commits).getD
      ((issues.head?.map (·.title)).getD (names.head?.getD ""))
    authors := distinct (items.filterMap (·.author))
    startedAt := earliest (items.filterMap (·.started))
    updatedAt := latest (items.filterMap (·.updated))
    state := stateOf pulls commits
    pulls := (pulls.map fun p => (p.number, p.title, p.state, p.draft)).reverse
    commits := (commits.map fun c => (c.oid, c.title)).reverse
    issues := issues.map fun i => (i.number, i.title, i.isOpen)
    branches := names
    commitCount := pulls.foldl (fun n p => n + p.commits) 0 + commits.length
    additions := commits.foldl (fun n c => n + c.additions)
      (pulls.foldl (fun n p => n + p.additions) 0)
    deletions := commits.foldl (fun n c => n + c.deletions)
      (pulls.foldl (fun n p => n + p.deletions) 0) }

/-- The session a group is; none for one no agent left marks on, or holding nothing read. -/
def sessionOf (art : Artifacts) (group : Group) : Option AgentSession :=
  if group.agents.length = 0 then none
  else if (sessionItems art group.keys).length = 0 then none
  else some (sessionMade art group)

/-- A session of branches alone, older than the pull requests read. -/
def waiting (branchesSince : Option ℤ) (session : AgentSession) : Bool :=
  match branchesSince with
  | some since => session.pulls.length = 0 && session.commits.length = 0 &&
      session.updatedAt.getD 0 < since
  | none => false

def agentSessions (art : Artifacts) (branchesSince : Option ℤ) : List AgentSession :=
  (byTime (·.updatedAt) (((artifactGroups art).filterMap (sessionOf art)).filter
    fun session => !waiting branchesSince session)).reverse

end Triage.AgentTasks
