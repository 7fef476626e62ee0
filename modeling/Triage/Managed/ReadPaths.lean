import Triage.Managed.Access

/-!
# The read paths agree

Every read path of a report comes down to one relation: a team of the user that is not hidden holds
the directory of the report.

## Main results

* `AccessDb.listedUnder_iff` : the listing.
* `AccessDb.read_paths_agree` : all read paths.
-/

namespace Triage.Managed

open List Option TeamUser

/-- A directory is a path or lies below it; an empty path is the whole repository. -/
def Within (path : Option String) (directory : String) : Prop :=
  ∀ p ∈ path, p ≠ "" → directory = p ∨ ∃ rest, directory = p ++ "/" ++ rest

namespace AccessDb

variable (db : AccessDb)

/-- By `tu` the user is in a team that is not hidden and that holds the directory of a report. -/
structure Holds (userId : String) (tu : TeamUser) (r : ReportRow) : Prop where
  mem : tu ∈ db.teamUsers
  userId : tu.userId = userId
  shown : db.shown tu.teamId
  scope : ∃ tr ∈ db.teamRepos, tr.teamId = tu.teamId ∧ r.repoId = some tr.repoId ∧
    Within tr.path r.repoDirectory

/-- A report is listed under a team. -/
def ListedUnder (userId teamId : String) (r : ReportRow) : Prop :=
  ∃ team ∈ db.listTeamsForUser userId, team.id = teamId ∧ ∃ x ∈ team.reports, x.id = r.id

variable {db} {userId : String} {tu : TeamUser} {r : ReportRow}

/-- The comparison of a substring is one with a path and a border. -/
theorem take_eq_iff {directory path : String} :
    directory.toList.take (path.toList.length + 1) = path.toList ++ ['/'] ↔
      ∃ rest, directory = path ++ "/" ++ rest := by
  constructor
  · intro h
    refine ⟨String.ofList (directory.toList.drop (path.toList.length + 1)), ?_⟩
    rw [← String.toList_inj, String.toList_append, String.toList_append, String.toList_ofList,
      String.toList_ofList, ← h, take_append_drop]
  · rintro ⟨rest, rfl⟩
    rw [String.toList_append, String.toList_append, take_left' (by rw [length_append]; rfl)]
    rfl

variable {tr : TeamRepo} {teamId : String} {user : AccessUser}

theorem inTeamPath_iff : inTeamPath tr r = true ↔ Within tr.path r.repoDirectory := by
  unfold inTeamPath Within
  cases hpath : tr.path with
  | none => simp
  | some path =>
    simp only [Bool.or_eq_true, decide_eq_true_eq, take_eq_iff, mem_def, Option.some.injEq,
      forall_eq']
    tauto

theorem attached_iff :
    attached tr r = true ↔ r.repoId = some tr.repoId ∧ Within tr.path r.repoDirectory := by
  rw [attached, Bool.and_eq_true, decide_eq_true_eq, inTeamPath_iff]

theorem eq_of_id {r' : ReportRow} (h : r ∈ db.reports) (h' : r' ∈ db.reports)
    (hid : r'.id = r.id) : r' = r :=
  inj_on_of_nodup_map db.nodup_reports h' h hid

/-- The rows of the listing: a report under each team that holds it. -/
theorem mem_userTeamReportRows {x : UserTeamReportRow} : x ∈ db.userTeamReportRows userId ↔
    ∃ tu, db.Holds userId tu x.report ∧ x.report ∈ db.reports ∧
      (x.report.visible ∨ db.wholeUser userId) ∧ x = ⟨tu.teamId, x.report,
        db.repoFullName x.report, tu.viewDependencies, tu.viewSecurity⟩ := by
  unfold userTeamReportRows
  simp only [mem_dedup, mem_flatMap, mem_ite_nil_right, List.mem_map,
    mem_filter, Bool.and_eq_true, Bool.or_eq_true, decide_eq_true_eq, attached_iff]
  constructor
  · rintro ⟨tu, htu, ⟨hshown, rfl⟩, tr, ⟨htr, hteam⟩, r, ⟨hr, hattached, hvisible⟩, rfl⟩
    exact ⟨tu, ⟨htu, rfl, hshown, tr, htr, hteam, hattached⟩, hr, hvisible, by rw [hteam]⟩
  · rintro ⟨tu, ⟨htu, rfl, hshown, tr, htr, hteam, hattached⟩, hr, hvisible, hx⟩
    exact ⟨tu, htu, ⟨hshown, rfl⟩, tr, ⟨htr, hteam⟩, x.report, ⟨hr, hattached, hvisible⟩,
      by rw [hx, hteam]⟩

theorem mem_userTeamRows {t : UserTeamRow} : t ∈ db.userTeamRows userId ↔
    (db.users userId).isSome ∧ ∃ tu ∈ db.teamUsers, tu.userId = userId ∧
      ∃ team, db.teams tu.teamId = some team ∧ team.hidden = false ∧
        t = ⟨tu.teamId, team.name, tu.viewDependencies, tu.viewSecurity⟩ := by
  unfold userTeamRows
  rw [List.mem_filterMap]
  constructor
  · rintro ⟨tu, htu, h⟩
    split_ifs at h with huser
    obtain ⟨rfl, huser⟩ := huser
    obtain ⟨team, hteam, h⟩ := bind_eq_some_iff.1 h
    split_ifs at h with hhidden
    exact ⟨huser, tu, htu, rfl, team, hteam, by simpa using hhidden, (some.inj h).symm⟩
  · rintro ⟨huser, tu, htu, rfl, team, hteam, hhidden, rfl⟩
    exact ⟨tu, htu, by simp [huser, hteam, hhidden]⟩

theorem shown_iff :
    db.shown teamId = true ↔ ∃ team, db.teams teamId = some team ∧ team.hidden = false := by
  rw [shown, Option.any_eq_true]
  simp

/-- **The listing**: a report is listed under the teams that hold it, if it is visible or the user
sees everything in a team. -/
theorem listedUnder_iff (huser : (db.users userId).isSome) (hr : r ∈ db.reports)
    (teamId : String) : db.ListedUnder userId teamId r ↔
      (∃ tu, db.Holds userId tu r ∧ tu.teamId = teamId) ∧ (r.visible ∨ db.wholeUser userId) := by
  unfold ListedUnder listTeamsForUser userTeams
  constructor
  · rintro ⟨team, hteam, rfl, x, hx, hid⟩
    obtain ⟨t, ht, rfl⟩ := List.mem_map.1 hteam
    obtain ⟨row, hrow, rfl⟩ := List.mem_map.1 hx
    obtain ⟨hrow, hsame⟩ := mem_filter.1 hrow
    obtain ⟨tu, hholds, hmem, hvisible, heq⟩ := mem_userTeamReportRows.1 hrow
    obtain rfl := eq_of_id hr hmem hid
    have hteam : row.teamId = tu.teamId := congrArg UserTeamReportRow.teamId heq
    exact ⟨⟨tu, hholds, hteam ▸ of_decide_eq_true hsame⟩, hvisible⟩
  · rintro ⟨⟨tu, hholds, rfl⟩, hvisible⟩
    obtain ⟨team, hteam, hhidden⟩ := shown_iff.1 hholds.shown
    refine ⟨_, List.mem_map_of_mem (mem_userTeamRows.2
      ⟨huser, tu, hholds.mem, hholds.userId, team, hteam, hhidden, rfl⟩), rfl, ?_⟩
    have hrow : (⟨tu.teamId, r, db.repoFullName r, tu.viewDependencies, tu.viewSecurity⟩ :
        UserTeamReportRow) ∈ db.userTeamReportRows userId :=
      mem_userTeamReportRows.2 ⟨tu, hholds, hr, hvisible, rfl⟩
    exact ⟨_, List.mem_map_of_mem (mem_filter.2 ⟨hrow, decide_eq_true rfl⟩), rfl⟩

/-! ### The other read paths -/

theorem userCanReadReport_iff (hr : r ∈ db.reports) :
    db.userCanReadReport userId r.id = true ↔ ∃ tu, db.Holds userId tu r := by
  simp only [userCanReadReport, List.any_eq_true, Bool.and_eq_true, decide_eq_true_eq, attached_iff]
  constructor
  · rintro ⟨r', hr', tr, htr, hattached, tu, htu, ⟨⟨hteam, hshown⟩, hid⟩, huser⟩
    obtain rfl := eq_of_id hr hr' hid
    exact ⟨tu, htu, huser, hshown, tr, htr, hteam.symm, hattached⟩
  · rintro ⟨tu, htu, huser, hshown, tr, htr, hteam, hattached⟩
    exact ⟨r, hr, tr, htr, hattached, tu, htu, ⟨⟨hteam.symm, hshown⟩, rfl⟩, huser⟩

theorem getReportView_eq (hr : r ∈ db.reports) : ∃ view, db.getReportView userId r.id = some view ∧
    (view.readable = true ↔ ∃ tu, db.Holds userId tu r) := by
  have hfind : db.reports.find? (fun r' => r'.id = r.id) = some r := by
    cases hfound : db.reports.find? (fun r' => r'.id = r.id) with
    | none => exact absurd (decide_eq_true rfl) (find?_eq_none.1 hfound r hr)
    | some r' =>
      rw [eq_of_id hr (mem_of_find?_eq_some hfound) (by simpa using find?_some hfound)]
  refine ⟨_, by rw [getReportView, hfind, map_some], ?_⟩
  simp only [List.any_eq_true, Bool.and_eq_true, decide_eq_true_eq, attached_iff]
  constructor
  · rintro ⟨tr, htr, tu, htu, ⟨⟨hteam, hshown⟩, hattached⟩, huser⟩
    exact ⟨tu, htu, huser, hshown, tr, htr, hteam.symm, hattached⟩
  · rintro ⟨tu, htu, huser, hshown, tr, htr, hteam, hattached⟩
    exact ⟨tr, htr, tu, htu, ⟨⟨hteam.symm, hshown⟩, hattached⟩, huser⟩

/-- The rows a permission is the highest of. -/
theorem mem_reportGrants : tu ∈ db.reportGrants userId r ↔ db.Holds userId tu r := by
  simp only [reportGrants, mem_flatMap, mem_filter, decide_eq_true_eq, attached_iff]
  constructor
  · rintro ⟨tr, ⟨htr, hattached⟩, htu, hteam, huser, hshown⟩
    exact ⟨htu, huser, hshown, tr, htr, hteam.symm, hattached⟩
  · rintro ⟨htu, huser, hshown, tr, htr, hteam, hattached⟩
    exact ⟨tr, ⟨htr, hattached⟩, htu, hteam.symm, huser, hshown⟩

theorem reportGrants_any (p : TeamUser → Bool) :
    (db.reportGrants userId r).any p = true ↔ ∃ tu, db.Holds userId tu r ∧ p tu = true := by
  simp only [List.any_eq_true, mem_reportGrants]

theorem reportPermissionsFor_eq (hr : r ∈ db.reports) : db.reportPermissionsFor userId r.id =
    ⟨(db.reportGrants userId r).any viewDependencies,
      (db.reportGrants userId r).any viewSecurity⟩ := by
  have hrows : ∀ tu, (∃ r' ∈ db.reports.filter fun r' => r'.id = r.id,
      tu ∈ db.reportGrants userId r') ↔ tu ∈ db.reportGrants userId r := by
    intro tu
    constructor
    · rintro ⟨r', hr', htu⟩
      obtain ⟨hmem, hid⟩ := mem_filter.1 hr'
      rwa [← eq_of_id hr hmem (of_decide_eq_true hid)]
    · intro htu
      exact ⟨r, mem_filter.2 ⟨hr, decide_eq_true rfl⟩, htu⟩
  have hany : ∀ p : TeamUser → Bool, ((db.reports.filter fun r' => r'.id = r.id).flatMap
      fun r' => db.reportGrants userId r').any p = (db.reportGrants userId r).any p := by
    intro p
    rw [Bool.eq_iff_iff, List.any_eq_true, List.any_eq_true]
    simp only [mem_flatMap, hrows]
  show TeamUserPermissions.mk _ _ = _
  rw [← hany, ← hany]
  rfl

variable {sessionId : String}

/-- A snapshot has what is listed, everything for an admin, and a manager's own uploads. -/
theorem getReportAccessSnapshot_eq {now : ℕ}
    {ids : List String} (hviewer : db.viewer sessionId now = some (userId, user))
    (hrole : user.role ≠ .none) (hr : r ∈ db.reports) (hids : r.id ∈ ids) :
    ∃ out, db.getReportAccessSnapshot sessionId now ids = some ((userId, user), out) ∧
      ∀ x, (x ∈ out ∧ x.id = r.id) ↔ x = ⟨r.id, r.filename, r.byteSize, r.sha256,
          db.repoFullName r, r.repoDirectory,
          whole user.role || (db.reportGrants userId r).any viewDependencies,
          whole user.role || (db.reportGrants userId r).any viewSecurity⟩ ∧
        (user.role = .admin ∨ (user.role = .manage ∧ r.uploadedBy = some userId) ∨
          ((∃ tu, db.Holds userId tu r) ∧ (user.role = .manage ∨ r.visible = true))) := by
  have hne : ids ≠ [] := ne_nil_of_mem hids
  have hgrants : db.reportGrants userId r ≠ [] ↔ ∃ tu, db.Holds userId tu r := by
    constructor
    · intro hne
      obtain ⟨tu, htu⟩ := exists_mem_of_ne_nil _ hne
      exact ⟨tu, mem_reportGrants.1 htu⟩
    · rintro ⟨tu, htu⟩
      exact ne_nil_of_mem (mem_reportGrants.2 htu)
  refine ⟨_, by rw [getReportAccessSnapshot, hviewer, map_some,
    if_neg (by simp [hrole, hne])], fun x => ?_⟩
  simp only [List.mem_map, mem_filter, decide_eq_true_eq]
  rw [← hgrants]
  constructor
  · rintro ⟨⟨r', ⟨hr', -, hmay⟩, rfl⟩, hid⟩
    obtain rfl := eq_of_id hr hr' hid
    exact ⟨rfl, hmay⟩
  · rintro ⟨rfl, hmay⟩
    exact ⟨⟨r, ⟨hr, hids, hmay⟩, rfl⟩, rfl⟩

theorem viewer_eq {now : ℕ}
    (h : db.viewer sessionId now = some (userId, user)) : db.users userId = some user := by
  obtain ⟨session, -, h⟩ := bind_eq_some_iff.1 h
  split_ifs at h
  obtain ⟨user', huser, heq⟩ := map_eq_some_iff.1 h
  cases heq
  exact huser

theorem wholeUser_eq (h : db.users userId = some user) : db.wholeUser userId = whole user.role := by
  rw [wholeUser, h, any_some]

/-- What a team's snapshot has is listed under the team. -/
theorem listedUnder_of_mem_snapshot {now : ℕ}
    {reportId : Option String} (hviewer : db.viewer sessionId now = some (userId, user))
    {snapshot : TeamSnapshot}
    (hsnapshot : db.getTeamReportAccessSnapshot sessionId now teamId reportId = some snapshot)
    {x : SnapshotReport} (hx : x ∈ snapshot.reports) :
    ∃ r ∈ db.reports, r.id = x.id ∧ db.ListedUnder userId teamId r := by
  have huser := viewer_eq hviewer
  rw [getTeamReportAccessSnapshot, hviewer, map_some] at hsnapshot
  obtain rfl := some.inj hsnapshot
  split_ifs at hx
  · cases hx
  · obtain ⟨row, hrow, rfl⟩ := List.mem_map.1 hx
    have hrows : row ∈ db.teamSnapshotRows (userId, user) teamId reportId := by
      cases hhidden : (db.teamSnapshotRows (userId, user) teamId reportId).find?
          fun x => some x.report.id = reportId && !x.report.visible with
      | none =>
        rw [hhidden] at hrow
        exact hrow
      | some y =>
        rw [hhidden] at hrow
        rw [mem_singleton.1 hrow]
        exact mem_of_find?_eq_some hhidden
    simp only [teamSnapshotRows, mem_dedup, mem_flatMap, mem_ite_nil_right,
      List.mem_map, mem_filter, Bool.and_eq_true, Bool.or_eq_true, decide_eq_true_eq,
      attached_iff] at hrows
    obtain ⟨tu, htu, ⟨hshown, hself, rfl⟩, tr, ⟨htr, hteam⟩, r, ⟨hr, hattached, hvisible⟩, rfl⟩ :=
      hrows
    have hholds : db.Holds userId tu r := ⟨htu, hself, hshown, tr, htr, hteam, hattached⟩
    refine ⟨r, hr, rfl, (listedUnder_iff (by rw [huser]; rfl) hr _).2 ⟨⟨tu, hholds, rfl⟩, ?_⟩⟩
    rw [wholeUser_eq huser]
    exact hvisible.imp_right And.left

/-- **The read paths agree.**  For a user with a role, and a report: the listing has it under the
teams that hold it, if it is visible or the user manages; a snapshot has it if it is listed, and for
an admin, and for a manager who has uploaded it; a team's snapshot has what is listed under the team
only; the two checks of one report tell whether a team holds it; and a permission is granted by one
of these teams, or to an admin or manager in a snapshot. -/
theorem read_paths_agree (db : AccessDb) {userId : String} {user : AccessUser}
    (huser : db.users userId = some user) (hrole : user.role ≠ .none) {r : ReportRow}
    (hr : r ∈ db.reports) :
    (∀ teamId, db.ListedUnder userId teamId r ↔
      (∃ tu, db.Holds userId tu r ∧ tu.teamId = teamId) ∧
        (r.visible ∨ user.role = .manage ∨ user.role = .admin)) ∧
    (∀ sessionId now ids, db.viewer sessionId now = some (userId, user) → r.id ∈ ids →
      ∃ out, db.getReportAccessSnapshot sessionId now ids = some ((userId, user), out) ∧
        ((∃ x ∈ out, x.id = r.id) ↔ (∃ teamId, db.ListedUnder userId teamId r) ∨
          user.role = .admin ∨ (user.role = .manage ∧ r.uploadedBy = some userId)) ∧
        ∀ x ∈ out, x.id = r.id →
          (x.permissions.dependencies ↔ (user.role = .admin ∨ user.role = .manage) ∨
            ∃ tu, db.Holds userId tu r ∧ tu.viewDependencies) ∧
          (x.permissions.security ↔ (user.role = .admin ∨ user.role = .manage) ∨
            ∃ tu, db.Holds userId tu r ∧ tu.viewSecurity)) ∧
    (∀ sessionId now teamId reportId snapshot, db.viewer sessionId now = some (userId, user) →
      db.getTeamReportAccessSnapshot sessionId now teamId reportId = some snapshot →
        ∀ x ∈ snapshot.reports, ∃ r ∈ db.reports, r.id = x.id ∧ db.ListedUnder userId teamId r) ∧
    (db.userCanReadReport userId r.id ↔ ∃ tu, db.Holds userId tu r) ∧
    (∃ view, db.getReportView userId r.id = some view ∧
      (view.readable ↔ ∃ tu, db.Holds userId tu r)) ∧
    ((db.reportPermissionsFor userId r.id).dependencies ↔
      ∃ tu, db.Holds userId tu r ∧ tu.viewDependencies) ∧
    ((db.reportPermissionsFor userId r.id).security ↔
      ∃ tu, db.Holds userId tu r ∧ tu.viewSecurity) := by
  have hwhole : ∀ role, whole role = true ↔ role = .admin ∨ role = .manage := by
    intro role
    cases role <;> simp [whole]
  -- a report is listed under the teams that hold it, if it may be seen:
  have hlisted : ∀ teamId, db.ListedUnder userId teamId r ↔
      (∃ tu, db.Holds userId tu r ∧ tu.teamId = teamId) ∧
        (r.visible ∨ user.role = .manage ∨ user.role = .admin) := by
    intro teamId
    rw [listedUnder_iff (by rw [huser]; rfl) hr, wholeUser_eq huser, hwhole,
      or_comm (a := user.role = .admin)]
  refine ⟨hlisted, fun sessionId now ids hviewer hids => ?_,
    fun sessionId now teamId reportId snapshot hviewer hsnapshot x hx =>
      listedUnder_of_mem_snapshot hviewer hsnapshot hx,
    userCanReadReport_iff hr, getReportView_eq hr, ?_, ?_⟩
  · obtain ⟨out, hout, hmem⟩ := getReportAccessSnapshot_eq hviewer hrole hr hids
    refine ⟨out, hout, ?_, fun x hx hid => ?_⟩
    · constructor
      · rintro ⟨x, hx, hid⟩
        obtain ⟨-, hmay⟩ := (hmem x).1 ⟨hx, hid⟩
        rcases hmay with hadmin | hmanage | ⟨⟨tu, hholds⟩, hmay⟩
        · exact .inr (.inl hadmin)
        · exact .inr (.inr hmanage)
        · refine .inl ⟨tu.teamId, (hlisted _).2 ⟨⟨tu, hholds, rfl⟩, ?_⟩⟩
          rcases hmay with hmanage | hvisible
          · exact .inr (.inl hmanage)
          · exact .inl hvisible
      · intro hmay
        refine ⟨_, (hmem _).2 ⟨rfl, ?_⟩⟩
        rcases hmay with ⟨teamId, hlist⟩ | hadmin | hmanage
        · obtain ⟨⟨tu, hholds, -⟩, hvisible | hmanage | hadmin⟩ := (hlisted _).1 hlist
          · exact .inr (.inr ⟨⟨tu, hholds⟩, .inr hvisible⟩)
          · exact .inr (.inr ⟨⟨tu, hholds⟩, .inl hmanage⟩)
          · exact .inl hadmin
        · exact .inl hadmin
        · exact .inr (.inl hmanage)
    · obtain ⟨rfl, -⟩ := (hmem x).1 ⟨hx, hid⟩
      simp only [Bool.or_eq_true, hwhole, reportGrants_any, and_self]
  · rw [reportPermissionsFor_eq hr, reportGrants_any]
  · rw [reportPermissionsFor_eq hr, reportGrants_any]

/-! ### Two users -/

/-- A report below `lib` that a manager has uploaded, and a team of a viewer that holds `lib`. -/
def smallDb : AccessDb where
  users id := if id = "m" then some ⟨"mia", .manage⟩ else if id = "v" then some ⟨"vic", .view⟩
    else none
  sessions id := if id = "s" then some ⟨"m", 10⟩ else none
  teams id := if id = "t" then some ⟨"team", false⟩ else none
  selectedRepos _ := none
  teamUsers := [⟨"t", "v", true, false⟩]
  teamRepos := [⟨"t", 1, some "lib"⟩]
  reports := [⟨"r", "r.json", 0, "", some "m", some 1, "lib/a", true⟩]
  nodup_reports := by simp

/-- The viewer's team grants the dependencies, and not the security findings. -/
theorem read_paths_agree_small : (smallDb.reportPermissionsFor "v" "r").dependencies = true ∧
    (smallDb.reportPermissionsFor "v" "r").security = false := by
  obtain ⟨-, -, -, -, -, hdependencies, hsecurity⟩ :=
    @read_paths_agree smallDb "v" _ rfl (by decide) _ (mem_singleton.2 rfl)
  constructor
  · refine hdependencies.2 ⟨⟨"t", "v", true, false⟩, ⟨mem_singleton.2 rfl, rfl, rfl, ?_⟩, rfl⟩
    refine ⟨_, mem_singleton.2 rfl, rfl, rfl, fun path hpath _ => .inr ⟨"a", ?_⟩⟩
    obtain rfl := some.inj hpath
    rfl
  · refine Bool.eq_false_iff.2 fun h => ?_
    obtain ⟨tu, hholds, hgrants⟩ := hsecurity.1 h
    rw [mem_singleton.1 hholds.mem] at hgrants
    cases hgrants

/-- A manager sees everything of an upload that no team grants. -/
theorem manager_sees_upload : ∃ x : SnapshotReport,
    smallDb.getReportAccessSnapshot "s" 0 ["r"] = some (("m", ⟨"mia", .manage⟩), [x]) ∧
      x.permissions.security = true ∧
      ∀ r ∈ smallDb.reports, ¬∃ tu, smallDb.Holds "m" tu r ∧ tu.viewSecurity = true := by
  refine ⟨⟨"r", "r.json", 0, "", none, "lib/a", true, true⟩, by decide, rfl, ?_⟩
  rintro r - ⟨tu, hholds, hgrants⟩
  rw [mem_singleton.1 hholds.mem] at hgrants
  cases hgrants

end AccessDb

end Triage.Managed
