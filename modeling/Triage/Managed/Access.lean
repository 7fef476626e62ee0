import Mathlib.Data.List.Dedup

/-!
# The read paths of reports

A team holds directories of repositories, and its members read the reports that lie in them. The
listing, the checks of one report, the snapshots of a session and the permissions are statements of
their own, each with its own joins. The order of the rows is left out.
-/

namespace Triage.Managed

inductive Role
  | admin | manage | triage | view | none
  deriving DecidableEq

structure AccessUser where
  login : String
  role : Role
  deriving DecidableEq

structure AccessSession where
  userId : String
  expiresAt : ℕ
  deriving DecidableEq

structure AccessTeam where
  name : String
  hidden : Bool
  deriving DecidableEq

/-- A row of `managed_team_repo`. -/
structure TeamRepo where
  teamId : String
  repoId : ℕ
  path : Option String
  deriving DecidableEq

/-- A row of `managed_team_user`. -/
structure TeamUser where
  teamId : String
  userId : String
  viewDependencies : Bool
  viewSecurity : Bool
  deriving DecidableEq

/-- A row of `managed_report`. -/
structure ReportRow where
  id : String
  filename : String
  byteSize : ℕ
  sha256 : String
  uploadedBy : Option String
  repoId : Option ℕ
  repoDirectory : String
  visible : Bool
  deriving DecidableEq

/-- The tables.  Those read by their primary key are maps. -/
structure AccessDb where
  users : String → Option AccessUser
  sessions : String → Option AccessSession
  teams : String → Option AccessTeam
  selectedRepos : ℕ → Option String
  teamUsers : List TeamUser
  teamRepos : List TeamRepo
  reports : List ReportRow
  /-- A report has an id of its own. -/
  nodup_reports : (reports.map ReportRow.id).Nodup

/-- What a team lets its member see. -/
structure TeamUserPermissions where
  dependencies : Bool
  security : Bool
  deriving DecidableEq

/-- `REPORT_IN_TEAM_PATH_SQL` : the path is empty, the directory, or above it. -/
def inTeamPath (tr : TeamRepo) (r : ReportRow) : Bool :=
  match tr.path with
  | none => true
  | some path => path = "" || r.repoDirectory = path ||
      r.repoDirectory.toList.take (path.toList.length + 1) = path.toList ++ ['/']

namespace AccessDb

variable (db : AccessDb)

/-- `JOIN managed_team t ON t.id = tu.team_id AND t.hidden = 0`. -/
def shown (teamId : String) : Bool := (db.teams teamId).any fun team => !team.hidden

/-- `JOIN managed_team_repo tr ON tr.repo_id = r.repo_id`, within the path. -/
def attached (tr : TeamRepo) (r : ReportRow) : Bool := r.repoId = some tr.repoId && inTeamPath tr r

/-- The role of a user, `IN ('admin', 'manage')`. -/
def whole (role : Role) : Bool := role = .admin || role = .manage

/-- `(SELECT role FROM managed_user WHERE id = tu.user_id) IN ('admin', 'manage')`. -/
def wholeUser (userId : String) : Bool := (db.users userId).any fun user => whole user.role

/-! ### The listing -/

structure UserTeamRow where
  id : String
  name : String
  dependencies : Bool
  security : Bool
  deriving DecidableEq

/-- `USER_TEAMS_SQL`. -/
def userTeamRows (userId : String) : List UserTeamRow :=
  db.teamUsers.filterMap fun tu =>
    if tu.userId = userId ∧ (db.users tu.userId).isSome then
      (db.teams tu.teamId).bind fun t =>
        if t.hidden then none
        else some ⟨tu.teamId, t.name, tu.viewDependencies, tu.viewSecurity⟩
    else none

structure UserTeamReportRow where
  teamId : String
  report : ReportRow
  repoFullName : Option String
  dependencies : Bool
  security : Bool
  deriving DecidableEq

/-- `LEFT JOIN managed_selected_repo`. -/
def repoFullName (r : ReportRow) : Option String := r.repoId.bind db.selectedRepos

/-- `USER_TEAM_REPORTS_SQL`. -/
def userTeamReportRows (userId : String) : List UserTeamReportRow :=
  (db.teamUsers.flatMap fun tu =>
    if db.shown tu.teamId ∧ tu.userId = userId then
      (db.teamRepos.filter fun tr => tr.teamId = tu.teamId).flatMap fun tr =>
        (db.reports.filter fun r =>
          attached tr r && (r.visible || db.wholeUser tu.userId)).map fun r =>
            ⟨tr.teamId, r, db.repoFullName r, tu.viewDependencies, tu.viewSecurity⟩
    else []).dedup

structure UserTeamReport where
  id : String
  filename : String
  visible : Bool
  repoFullName : Option String
  repoDirectory : String
  deriving DecidableEq

structure UserTeam where
  id : String
  name : String
  permissions : TeamUserPermissions
  reports : List UserTeamReport

/-- `userTeams` : the reports are grouped by their teams. -/
def userTeams (teams : List UserTeamRow) (reports : List UserTeamReportRow) : List UserTeam :=
  teams.map fun t => ⟨t.id, t.name, ⟨t.dependencies, t.security⟩,
    (reports.filter fun x => x.teamId = t.id).map fun x => ⟨x.report.id, x.report.filename,
      x.report.visible, x.repoFullName, x.report.repoDirectory⟩⟩

/-- `listTeamsForUser`. -/
def listTeamsForUser (userId : String) : List UserTeam :=
  userTeams (db.userTeamRows userId) (db.userTeamReportRows userId)

/-! ### One report -/

/-- `selectReportReadableStmt`. -/
def userCanReadReport (userId reportId : String) : Bool :=
  db.reports.any fun r => db.teamRepos.any fun tr => attached tr r && db.teamUsers.any fun tu =>
    tu.teamId = tr.teamId && db.shown tu.teamId && r.id = reportId && tu.userId = userId

structure ReportView where
  uploadedBy : Option String
  visible : Bool
  readable : Bool
  deriving DecidableEq

/-- `selectReportViewStmt`. -/
def getReportView (userId reportId : String) : Option ReportView :=
  (db.reports.find? fun r => r.id = reportId).map fun r => ⟨r.uploadedBy, r.visible,
    db.teamRepos.any fun tr => db.teamUsers.any fun tu => tu.teamId = tr.teamId &&
      db.shown tu.teamId && attached tr r && tu.userId = userId⟩

/-- `selectReportPermsStmt`; the highest of no rows is null. -/
def reportPermissionsFor (userId reportId : String) : TeamUserPermissions :=
  have rows := (db.reports.filter fun r => r.id = reportId).flatMap fun r =>
    (db.teamRepos.filter fun tr => attached tr r).flatMap fun tr =>
      db.teamUsers.filter fun tu =>
        tu.teamId = tr.teamId ∧ tu.userId = userId ∧ db.shown tu.teamId
  ⟨rows.any TeamUser.viewDependencies, rows.any TeamUser.viewSecurity⟩

/-! ### Snapshots of a session -/

/-- The session's user: `viewer`. -/
def viewer (sessionId : String) (now : ℕ) : Option (String × AccessUser) :=
  (db.sessions sessionId).bind fun s =>
    if now < s.expiresAt then (db.users s.userId).map fun user => (s.userId, user) else none

structure SnapshotReport where
  id : String
  filename : String
  byteSize : ℕ
  sha256 : String
  github : Option String
  directory : String
  permissions : TeamUserPermissions
  deriving DecidableEq

/-- `report_grants` : the rows of one report, none if it is not in the table. -/
def reportGrants (userId : String) (r : ReportRow) : List TeamUser :=
  (db.teamRepos.filter fun tr => attached tr r).flatMap fun tr =>
    db.teamUsers.filter fun tu => tu.teamId = tr.teamId ∧ tu.userId = userId ∧ db.shown tu.teamId

/-- `getReportAccessSnapshot` : the user of the session, and the requested reports they may read. -/
def getReportAccessSnapshot (sessionId : String) (now : ℕ) (ids : List String) :
    Option ((String × AccessUser) × List SnapshotReport) :=
  (db.viewer sessionId now).map fun v =>
    if v.2.role = .none ∨ ids = [] then (v, [])
    else (v, (db.reports.filter fun r => r.id ∈ ids ∧ (v.2.role = .admin ∨
        (v.2.role = .manage ∧ r.uploadedBy = some v.1) ∨
        (db.reportGrants v.1 r ≠ [] ∧ (v.2.role = .manage ∨ r.visible)))).map fun r =>
      ⟨r.id, r.filename, r.byteSize, r.sha256, db.repoFullName r, r.repoDirectory,
        whole v.2.role || (db.reportGrants v.1 r).any TeamUser.viewDependencies,
        whole v.2.role || (db.reportGrants v.1 r).any TeamUser.viewSecurity⟩)

structure TeamSnapshot where
  user : String × AccessUser
  teamId : Option String
  hiddenReportId : Option String
  reports : List SnapshotReport

/-- The reports of `selectTeamSnapshotStmt`. -/
def teamSnapshotRows (v : String × AccessUser) (teamId : String) (reportId : Option String) :
    List UserTeamReportRow :=
  (db.teamUsers.flatMap fun tu =>
    if db.shown tu.teamId ∧ tu.userId = v.1 ∧ tu.teamId = teamId then
      (db.teamRepos.filter fun tr => tr.teamId = tu.teamId).flatMap fun tr =>
        (db.reports.filter fun r => attached tr r &&
          (r.visible || (whole v.2.role && some r.id = reportId))).map fun r =>
            ⟨tr.teamId, r, db.repoFullName r, tu.viewDependencies, tu.viewSecurity⟩
    else []).dedup

/-- `getTeamReportAccessSnapshot` : a hidden report that is asked for is previewed by itself. -/
def getTeamReportAccessSnapshot (sessionId : String) (now : ℕ) (teamId : String)
    (reportId : Option String) : Option TeamSnapshot :=
  (db.viewer sessionId now).map fun v =>
    if v.2.role = .none ∨ ¬(db.teamUsers.any fun tu =>
        tu.userId = v.1 && tu.teamId = teamId && db.shown tu.teamId) then ⟨v, none, none, []⟩
    else
      have rows := db.teamSnapshotRows v teamId reportId
      have hidden := rows.find? fun x => some x.report.id = reportId && !x.report.visible
      ⟨v, some teamId, hidden.map fun x => x.report.id,
        (hidden.elim rows fun x => [x]).map fun x => ⟨x.report.id, x.report.filename,
          x.report.byteSize, x.report.sha256, x.repoFullName, x.report.repoDirectory,
          whole v.2.role || x.dependencies, whole v.2.role || x.security⟩⟩

end AccessDb

end Triage.Managed
