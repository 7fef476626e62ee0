import Triage.Machine.Basic
import Triage.Data.FMap
import Triage.Managed.Access

/-!
# Sessions and views

Users sign in to sessions of their own, and an administrator's session can open a view, which is a
session of another user. Own sessions and views are rows of one table; a view names the session it
was opened by. Every method of the database is one transaction, at a time that its caller tells.
-/

namespace Triage.Managed

/-- The identity that a sign-in brings. -/
structure GithubIdentity where
  githubUserId : ℕ
  login : String
  name : Option String
  avatarUrl : String

/-- A row of `managed_user`. -/
structure UserRow where
  githubUserId : ℕ
  login : String
  name : Option String
  githubName : Option String
  nameLink : Option String
  avatarUrl : String
  role : Role
  lastSeenAt : Option ℕ
  deriving DecidableEq

/-- A row of `managed_session`; the key is the hash of its token. -/
structure SessionRow (Token User : Type) where
  userId : User
  csrfToken : String
  createdAt : ℕ
  expiresAt : ℕ
  uploadKey : Option String
  viewerSession : Option Token
  deriving DecidableEq

structure StoredUser (User : Type) where
  id : User
  login : String
  name : Option String
  avatarUrl : String
  role : Role
  deriving DecidableEq

/-- The administrator who views. -/
structure SessionViewer (User : Type) where
  id : User
  login : String
  name : Option String
  deriving DecidableEq

structure ManagedSession (Token User : Type) where
  id : Token
  userId : User
  csrfToken : String
  expiresAt : ℕ
  uploadKey : Option String
  viewer : Option (SessionViewer User)
  deriving DecidableEq

/-- A session with its user. -/
structure SessionRead (Token User : Type) where
  session : ManagedSession Token User
  user : StoredUser User
  deriving DecidableEq

/-- What a view is opened with. -/
structure ViewRequest (Token User : Type) where
  id : Token
  viewerSessionId : Token
  userId : User
  csrfToken : String

/-- The users and the sessions.  `linked` are the accounts that users linked to theirs.  `drawn` is
not stored: the tokens that were ever made. -/
structure SessionsDb (Token User : Type) where
  users : FMap User UserRow
  sessions : FMap Token (SessionRow Token User)
  linked : Finset ℕ
  drawn : Finset Token

namespace SessionsDb

variable {Token User : Type} [DecidableEq Token] [DecidableEq User] (db : SessionsDb Token User)

/-! ### Users -/

/-- The user of a GitHub account, of whom there is one at most. -/
def HasAccount (githubUserId : ℕ) (id : User) : Bool :=
  (db.users id).any fun row => row.githubUserId = githubUserId

/-- `upsertUserStmt`, for an account whose user is `id`, or will be. -/
def upsertUser (identity : GithubIdentity) (id : User) : SessionsDb Token User :=
  { db with users := db.users.insert id <|
      match db.users id with
      | none => ⟨identity.githubUserId, identity.login, identity.name, identity.name, none,
          identity.avatarUrl, .none, none⟩
      | some row => { row with
          login := identity.login
          githubName := identity.name
          name := if row.nameLink = none then identity.name else row.name
          avatarUrl := identity.avatarUrl } }

/-- `promoteInitialAdminStmt` -/
def promoteInitialAdmin (id : User) : SessionsDb Token User :=
  match db.users id with
  | none => db
  | some row =>
    if row.role = .none ∧ db.users.keys = {id} then
      { db with users := db.users.insert id { row with role := .admin } }
    else db

/-- `touchUserSeenStmt` -/
def touchUserSeen (id : User) (now : ℕ) : SessionsDb Token User :=
  match db.users id with
  | none => db
  | some row =>
    if row.lastSeenAt.all (· < now) then
      { db with users := db.users.insert id { row with lastSeenAt := some now } }
    else db

/-- `updateRoleStmt` -/
def updateRole (id : User) (role : Role) : SessionsDb Token User :=
  match db.users id with
  | none => db
  | some row => { db with users := db.users.insert id { row with role } }

/-! ### Sessions -/

/-- `DELETE FROM managed_session`, with the views of what is deleted.  No view is of a view, so the
cascade has one level. -/
def deleteWhere (p : Token → SessionRow Token User → Bool) : SessionsDb Token User :=
  { db with sessions := FMap.ofKeys db.sessions.keys fun id =>
      (db.sessions id).filter fun row => !p id row && !row.viewerSession.any fun viewer =>
        (db.sessions viewer).any (p viewer) }

/-- A session is inserted. -/
def insertSession (id : Token) (row : SessionRow Token User) : SessionsDb Token User :=
  { db with sessions := db.sessions.insert id row }

/-- The token of an id was drawn. -/
def draw (id : Token) : SessionsDb Token User := { db with drawn := insert id db.drawn }

def storedUser (id : User) (row : UserRow) : StoredUser User :=
  ⟨id, row.login, row.name, row.avatarUrl, row.role⟩

/-- `selectOwnSessionStmt` -/
def getSessionWithUser (id : Token) (now : ℕ) : Option (SessionRead Token User) := do
  let s ← db.sessions id
  let u ← db.users s.userId
  if s.expiresAt > now ∧ s.viewerSession = none then
    some ⟨⟨id, s.userId, s.csrfToken, s.expiresAt, s.uploadKey, none⟩, storedUser s.userId u⟩
  else none

/-- `touchOwnSessionStmt` : the user of a live own session is seen, and returned with it. -/
def sessionWithUser (id : Token) (now : ℕ) :
    SessionsDb Token User × Option (SessionRead Token User) :=
  match db.sessions id with
  | none => (db, none)
  | some s =>
    if s.expiresAt > now ∧ s.viewerSession = none then
      match db.users s.userId with
      | none => (db, none)
      | some u =>
        (db.touchUserSeen s.userId now,
          some ⟨⟨id, s.userId, s.csrfToken, s.expiresAt, s.uploadKey, none⟩,
            storedUser s.userId u⟩)
    else (db, none)

/-- `selectViewSessionStmt` -/
def getViewSessionWithUser (id viewerSessionId : Token) (now : ℕ) :
    Option (SessionRead Token User) := do
  let s ← db.sessions id
  let u ← db.users s.userId
  let viewer ← s.viewerSession
  let p ← db.sessions viewer
  let a ← db.users p.userId
  if viewer = viewerSessionId ∧ s.expiresAt > now ∧ p.expiresAt > now ∧ p.viewerSession = none ∧
      a.role = .admin then
    some ⟨⟨id, s.userId, s.csrfToken, s.expiresAt, s.uploadKey, some ⟨p.userId, a.login, a.name⟩⟩,
      storedUser s.userId u⟩
  else none

/-- The same, and the presence of the administrator is recorded. -/
def viewSessionWithUser (id viewerSessionId : Token) (now : ℕ) :
    SessionsDb Token User × Option (SessionRead Token User) :=
  match db.getViewSessionWithUser id viewerSessionId now with
  | none => (db, none)
  | some read => ((read.session.viewer.map fun viewer =>
      db.touchUserSeen viewer.id now).getD db, some read)

/-- `insertViewSessionStmt` : the row that it inserts. -/
def viewRow (view : ViewRequest Token User) (now : ℕ) : Option (SessionRow Token User) := do
  let p ← db.sessions view.viewerSessionId
  let a ← db.users p.userId
  let _ ← db.users view.userId
  if p.expiresAt > now ∧ p.viewerSession = none ∧ a.role = .admin ∧ view.userId ≠ p.userId then
    some ⟨view.userId, view.csrfToken, now, p.expiresAt, none, some view.viewerSessionId⟩
  else none

/-- `createViewSession` replaces the view of a session. -/
def createViewSession (view : ViewRequest Token User) (now : ℕ) : SessionsDb Token User × Bool :=
  match db.viewRow view now with
  | none => (db, false)
  | some row =>
    ((db.insertSession view.id row).deleteWhere fun id row =>
      row.viewerSession = some view.viewerSessionId && id ≠ view.id, true)

/-- `setUserRole` : a former administrator's views end with the role. -/
def setUserRole (id : User) (role : Role) : SessionsDb Token User :=
  (if role ≠ .admin then
    db.deleteWhere fun _ row => row.viewerSession.any fun viewer =>
      (db.sessions viewer).any fun p => p.userId = id
  else db).updateRole id role

def deleteSession (id : Token) : SessionsDb Token User := db.deleteWhere fun id' _ => id' = id

def deleteExpiredSessions (now : ℕ) : SessionsDb Token User :=
  db.deleteWhere fun _ row => row.expiresAt ≤ now

/-- `ensureUploadKeyStmt` -/
def ensureSessionUploadKey (id : Token) (candidate : String) : SessionsDb Token User :=
  match db.sessions id with
  | none => db
  | some row => db.insertSession id { row with uploadKey := some (row.uploadKey.getD candidate) }

/-! ### Requests -/

/-- `readSession`, for the tokens in the cookies of a request; `own` skips the view, and a request
that was seen before records no presence. -/
def readSession (token view : Option Token) (own seen : Bool) (now : ℕ) :
    SessionsDb Token User × Option (SessionRead Token User) :=
  match token with
  | none => (db, none)
  | some id =>
    match (if own then none else view) with
    | none => if seen then (db, db.getSessionWithUser id now) else db.sessionWithUser id now
    | some view =>
      if seen then (db, db.getViewSessionWithUser view id now)
      else db.viewSessionWithUser view id now

end SessionsDb

/-- A call of one of the methods.  Ids of users and of sessions are drawn when they are made. -/
inductive SessionLabel (Token User : Type)
  | upsertUser (identity : GithubIdentity) (id : User) (initialAdminGithubId : Option ℕ)
  | link (githubUserId : ℕ) (linked : Bool)
  | createSession (id : Token) (userId : User) (csrfToken : String) (expiresAt now : ℕ)
  | createViewSession (view : ViewRequest Token User) (now : ℕ)
  | readSession (token view : Option Token) (own seen : Bool) (now : ℕ)
  | ensureSessionUploadKey (id : Token) (candidate : String)
  | setUserRole (id : User) (role : Role)
  | deleteSession (id : Token)
  | deleteExpiredSessions (now : ℕ)

/-- The database under its methods. -/
def managedSessions {Token User : Type} [DecidableEq Token] [DecidableEq User] :
    Machine (SessionsDb Token User) (SessionLabel Token User) where
  step db
    | .upsertUser identity id initialAdminGithubId =>
      if identity.githubUserId ∈ db.linked then some db
      -- the id is that of the account's user, or a new one if it has none
      else if db.HasAccount identity.githubUserId id ∨ db.users id = none ∧
          ∀ other ∈ db.users.keys, db.HasAccount identity.githubUserId other = false then
        have db' := db.upsertUser identity id
        some (if initialAdminGithubId = some identity.githubUserId ∧ 0 < identity.githubUserId then
          db'.promoteInitialAdmin id else db')
      else none
    | .link githubUserId linked => some { db with
        linked := if linked then insert githubUserId db.linked else db.linked.erase githubUserId }
    | .createSession id userId csrfToken expiresAt now =>
      if id ∉ db.drawn ∧ (db.users userId).isSome then
        some (((db.draw id).insertSession id ⟨userId, csrfToken, now, expiresAt, none, none⟩)
          |>.touchUserSeen userId now)
      else none
    | .createViewSession view now =>
      if view.id ∉ db.drawn then some ((db.draw view.id).createViewSession view now).1 else none
    | .readSession token view own seen now => some (db.readSession token view own seen now).1
    | .ensureSessionUploadKey id candidate => some (db.ensureSessionUploadKey id candidate)
    | .setUserRole id role => some (db.setUserRole id role)
    | .deleteSession id => some (db.deleteSession id)
    | .deleteExpiredSessions now => some (db.deleteExpiredSessions now)

/-- The database when it is made. -/
def SessionsDb.start {Token User : Type} : SessionsDb Token User := ⟨∅, ∅, ∅, ∅⟩

end Triage.Managed
