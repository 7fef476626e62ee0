import Triage.Machine.Basic

/-!
# Workspaces

The workspaces of a browser are a list in its storage, which all its tabs write under one lock. A
tab reads the list through a cache, remembers what its listeners have observed of it, and tells them
what its own operations and its siblings changed.
-/

namespace Triage.Client

structure Workspace where
  id : String
  name : String
  privateKey : String
  reports : List String
  bundles : List String
  createdAt : ℕ
  deriving DecidableEq

/-- What is observed of a workspace. -/
structure Snapshot where
  id : String
  privateKey : String
  reports : List String
  bundles : List String
  deriving DecidableEq

def snapshotForCache (w : Workspace) : Snapshot := ⟨w.id, w.privateKey, w.reports, w.bundles⟩

/-! ### Lists -/

/-- The list that a workspace is a member of. -/
inductive Field
  | reports
  | bundles
  deriving DecidableEq

namespace Field

def get : Field → Workspace → List String
  | .reports, w => w.reports
  | .bundles, w => w.bundles

def set : Field → List String → Workspace → Workspace
  | .reports, l, w => { w with reports := l }
  | .bundles, l, w => { w with bundles := l }

def setSnapshot : Field → List String → Snapshot → Snapshot
  | .reports, l, w => { w with reports := l }
  | .bundles, l, w => { w with bundles := l }

end Field

def MAX_WORKSPACE_NAME_LEN : ℕ := 200

def isTrimmed (c : Char) : Bool :=
  (9 ≤ c.toNat && c.toNat ≤ 13) || c.toNat = 0x20 || c.toNat = 0xA0 || c.toNat = 0x1680 ||
    (0x2000 ≤ c.toNat && c.toNat ≤ 0x200A) || c.toNat = 0x2028 || c.toNat = 0x2029 ||
    c.toNat = 0x202F || c.toNat = 0x205F || c.toNat = 0x3000 || c.toNat = 0xFEFF

/-- `slice` : what fits into a number of code units. -/
def takeUnits : ℕ → List Char → List Char
  | _, [] => []
  | n, c :: cs =>
    have units := bif c.toNat.blt 0x10000 then 1 else 2
    if units ≤ n then c :: takeUnits (n - units) cs else []

def sanitizeWorkspaceName (raw : String) : Option String :=
  have trimmed := (((raw.toList.dropWhile isTrimmed).reverse.dropWhile isTrimmed)).reverse
  have cleaned := trimmed.filter fun c => !(c.toNat ≤ 0x1F || c.toNat = 0x7F)
  if trimmed = [] then none
  else some (String.ofList (takeUnits MAX_WORKSPACE_NAME_LEN cleaned)) |>.filter (· ≠ "")

def find (list : List Workspace) (id : String) : Option Workspace := list.find? (·.id = id)

/-- A workspace to be inserted or replaced; `preserveBundles` leaves the bundles as they are. -/
structure Upsert where
  id : String
  name : String
  privateKey : String
  reports : List String
  bundles : List String
  createdAt : ℕ
  preserveBundles : Bool

/-- What an upsert makes of the workspace that is there. -/
def Upsert.next (u : Upsert) (previous : Option Workspace) : Workspace where
  id := u.id
  name := ((sanitizeWorkspaceName u.name).or (previous.map (·.name))).getD "Workspace"
  privateKey := u.privateKey
  reports := u.reports.eraseDups
  bundles := (if u.preserveBundles then (previous.map (·.bundles)).getD []
    else u.bundles).eraseDups
  createdAt := u.createdAt

/-- A workspace of the list is replaced, or put at its end. -/
def put (list : List Workspace) (next : Workspace) : List Workspace :=
  if list.any (·.id = next.id) then list.map fun w => if w.id = next.id then next else w
  else list ++ [next]

/-- A change of a membership: `workspaceId` takes the identifier, and the others lose it, or only
`origin`, or, where it is added, none. -/
structure Membership where
  field : Field
  identifier : String
  workspaceId : Option String
  additive : Bool
  origin : Option String

namespace Membership

variable (m : Membership)

/-- A workspace that loses the identifier. -/
def detaches (w : Workspace) : Bool :=
  !m.additive && (m.origin.all (w.id = ·)) && (m.field.get w).contains m.identifier

def detach (w : Workspace) : Workspace :=
  if m.detaches w then m.field.set ((m.field.get w).filter (· ≠ m.identifier)) w else w

/-- The workspace that takes the identifier, which it does not have. -/
def attaches (w : Workspace) : Bool :=
  m.workspaceId = some w.id && !(m.field.get w).contains m.identifier

def attach (w : Workspace) : Workspace :=
  if m.attaches w then m.field.set (m.field.get w ++ [m.identifier]) w else w

/-- The list after a workspace lost or took the identifier, with those that did. -/
def apply (list : List Workspace) : Option (List Workspace × List Workspace) :=
  have owner := (list.find? fun w => (m.field.get w).contains m.identifier).map (·.id)
  if owner = m.workspaceId then none
  else if m.workspaceId.any fun id => !list.any (·.id = id) then none
  else
    have list' := list.map fun w => m.attach (m.detach w)
    have affected := (list.filter m.detaches ++
        list.filter fun w => !m.detaches w && m.attaches (m.detach w)).map
      fun w => m.attach (m.detach w)
    if affected = [] then none else some (list', affected)

end Membership

/-! ### The tab -/

/-- What a listener is told; `made` is told to none: its caller made the workspace itself. -/
inductive Told
  | created (id : String)
  | deleted (id : String)
  | privateKeyChanged (id : String)
  | membershipChanged (field : Field) (id : String)
  | made (id : String)
  deriving DecidableEq

/-- What an operation has left to do once it released the lock. -/
inductive Marking
  | created (w : Workspace)
  | deleted (id : String)
  | upserted (next : Workspace)
  | attached (w : Workspace)
  | membership (field : Field) (affected : List Workspace)
  deriving DecidableEq

/-- The storage that the tabs share, and the variables of one of them.  `after` are its operations
that are past their locks, in order, and `told`, which no code reads, what its listeners were
told. -/
structure WorkspacesTab where
  stored : List Workspace
  cache : List Workspace
  lastSeen : List Snapshot
  after : List Marking
  told : List Told
  deriving DecidableEq

def filesSetEqual (a b : List String) : Bool := a.all b.contains && b.all a.contains

def seen (list : List Snapshot) (id : String) : Option Snapshot := list.find? (·.id = id)

def markObservedFor (w : Workspace) (lastSeen : List Snapshot) : List Snapshot :=
  lastSeen.filter (·.id ≠ w.id) ++ [snapshotForCache w]

def markObservedFieldFor (field : Field) (w : Workspace) (lastSeen : List Snapshot) :
    List Snapshot :=
  if lastSeen.any (·.id = w.id) then
    lastSeen.map fun s => if s.id = w.id then field.setSnapshot (field.get w) s else s
  else lastSeen ++ [snapshotForCache w]

def markObservedDeleted (id : String) (lastSeen : List Snapshot) : List Snapshot :=
  lastSeen.filter (·.id ≠ id)

/-- What changed of a workspace that was observed. -/
def changes (p w : Snapshot) : List Told :=
  (if p.privateKey ≠ w.privateKey then [.privateKeyChanged w.id] else []) ++
    (if !filesSetEqual p.reports w.reports then [.membershipChanged .reports w.id] else []) ++
    if !filesSetEqual p.bundles w.bundles then [.membershipChanged .bundles w.id] else []

/-- What `propagateWorkspaceChangesFromStorage` tells. -/
def propagated (prev next : List Snapshot) : List Told :=
  (prev.filter fun p => !next.any (·.id = p.id)).map (Told.deleted ·.id) ++
    next.flatMap fun w =>
      match seen prev w.id with
      | none => [Told.created w.id]
      | some p => changes p w

namespace WorkspacesTab

variable (s : WorkspacesTab)

/-- The cache is read of the storage, and what it tells is propagated. -/
def hydrate : WorkspacesTab :=
  have next := s.stored.map snapshotForCache
  { s with cache := s.stored, lastSeen := next, told := s.told ++ propagated s.lastSeen next }

/-- `mutateWorkspaces`, up to the release of its lock. -/
def mutate (mutator : List Workspace → Option (List Workspace × Marking)) : WorkspacesTab :=
  have s' := s.hydrate
  match mutator s'.cache with
  | none => s'
  | some (list, marking) =>
    { s' with stored := list, cache := list, after := s'.after ++ [marking] }

/-- `renameWorkspace`, which has nothing to mark. -/
def rename (id cleaned : String) : WorkspacesTab :=
  have s' := s.hydrate
  if (find s'.cache id).any (·.name ≠ cleaned) then
    have list := s'.cache.map fun w => if w.id = id then { w with name := cleaned } else w
    { s' with stored := list, cache := list }
  else s'

/-- An operation goes on after its lock. -/
def mark : Marking → WorkspacesTab
  | .created w =>
    { s with lastSeen := markObservedFor w s.lastSeen, told := s.told ++ [.made w.id] }
  | .deleted id =>
    { s with lastSeen := markObservedDeleted id s.lastSeen, told := s.told ++ [.deleted id] }
  | .upserted next =>
    { s with
      lastSeen := markObservedFor next s.lastSeen
      told := s.told ++
        match seen s.lastSeen next.id with
        | none => [.created next.id]
        | some observed => changes observed (snapshotForCache next) }
  | .attached w =>
    { s with lastSeen := markObservedFor w s.lastSeen, told := s.told ++ [.created w.id] }
  | .membership field affected =>
    { s with
      lastSeen := affected.foldl (fun l w => markObservedFieldFor field w l) s.lastSeen
      told := s.told ++ affected.map fun w => .membershipChanged field w.id }

def resume : Option WorkspacesTab :=
  match s.after with
  | [] => none
  | marking :: rest => some ({ s with after := rest }.mark marking)

end WorkspacesTab

/-- The mutator of `createWorkspace`. -/
def createMutator (w : Workspace) (list : List Workspace) :
    Option (List Workspace × Marking) :=
  if list.any (·.id = w.id) then none else some (list ++ [w], .created w)

def deleteMutator (id : String) (list : List Workspace) : Option (List Workspace × Marking) :=
  if list.any (·.id = id) then some (list.filter (·.id ≠ id), .deleted id) else none

def upsertMutator (u : Upsert) (list : List Workspace) : Option (List Workspace × Marking) :=
  have next := u.next (find list u.id)
  some (put list next, .upserted next)

/-- The mutator of `attachSharedWorkspace`. -/
def attachMutator (id name privateKey : String) (createdAt : ℕ) (list : List Workspace) :
    Option (List Workspace × Marking) :=
  (sanitizeWorkspaceName name).bind fun sanitised =>
    if list.any (·.id = id) ||
        list.any fun w => sanitizeWorkspaceName w.name = some sanitised then none
    else
      have w : Workspace := ⟨id, sanitised, privateKey, [], [], createdAt⟩
      some (list ++ [w], .attached w)

def membershipMutator (m : Membership) (list : List Workspace) :
    Option (List Workspace × Marking) :=
  (m.apply list).map fun p => (p.1, .membership m.field p.2)

/-- A lock of a sibling, a hydration, the lock of an operation here, or what comes after it. -/
inductive WorkspacesLabel
  | sibling (list : List Workspace)
  | hydrate
  | create (id name privateKey : String) (createdAt : ℕ)
  | delete (id : String)
  | rename (id name : String)
  | upsert (u : Upsert)
  | attach (id name privateKey : String) (createdAt : ℕ)
  | membership (m : Membership)
  | resume

/-- The workspaces of a tab; a sibling leaves a list whose ids are distinct. -/
def workspaces : Machine WorkspacesTab WorkspacesLabel where
  step s
    | .sibling list => if (list.map (·.id)).Nodup then some { s with stored := list } else none
    | .hydrate => some s.hydrate
    | .create id name privateKey createdAt =>
      (sanitizeWorkspaceName name).map fun cleaned =>
        s.mutate (createMutator ⟨id, cleaned, privateKey, [], [], createdAt⟩)
    | .delete id => some (s.mutate (deleteMutator id))
    | .rename id name => (sanitizeWorkspaceName name).map (s.rename id)
    | .upsert u => some (s.mutate (upsertMutator u))
    | .attach id name privateKey createdAt =>
      some (s.mutate (attachMutator id name privateKey createdAt))
    | .membership m => some (s.mutate (membershipMutator m))
    | .resume => s.resume

end Triage.Client
