import Triage.Data.Grouping

/-!
# Reports filtered by permission

Report permissions are applied before a report is served: without security access a row with a
security member is removed whole, and without dependency access a dependency's findings are removed
from the rows, but for those of the report's own organisations.

## Main results

* `filterReportData_obj` : the report as it is served holds what is kept.
* `filterReportData_spec` : **what is kept grows with the permissions and keeps the secrets.**
-/

namespace Triage.ReportFilter

open List Option Function Prod

/-- A parsed value; a number by the text it prints as. -/
inductive Json where
  | null
  | bool (b : Bool)
  | num (text : String)
  | str (s : String)
  | arr (items : List Json)
  | obj (fields : List (String × Json))

/-- An object by its fields. -/
abbrev Fields := List (String × Json)

def object : Json → Option Fields
  | .obj fields => some fields
  | _ => none

def get (k : String) (o : Fields) : Option Json := Grouping.get k o

def set (k : String) (v : Json) (o : Fields) : Fields := Grouping.alter k (fun _ => v) o

mutual

/-- `String` of a value. -/
def stringOf : Json → String
  | .null => "null"
  | .bool true => "true"
  | .bool false => "false"
  | .num text => text
  | .str s => s
  | .arr items => ",".intercalate (stringsOf items)
  | .obj _ => "[object Object]"

/-- The items of an array as it prints them: nothing for null. -/
def stringsOf : List Json → List String
  | [] => []
  | .null :: items => "" :: stringsOf items
  | item :: items => stringOf item :: stringsOf items

end

/-- What the report package answers. -/
structure ReportPackage where
  /-- The GitHub repository that a report or a finding names. -/
  reportRepoGithub : Fields → Option String
  /-- A finding with its run's metadata. -/
  inheritReportMeta : Fields → Fields → Fields
  isAppFinding : Fields → Json → Bool
  /-- The security stamps of rows whose findings are linked: by row and by place. -/
  stampSecurity : List (List Fields) → (String → List String) → ℕ → ℕ → Bool
  toLowerCase : String → String
  /-- The repository is read from no stamp. -/
  reportRepoGithub_stamp : ∀ o v, reportRepoGithub (set "isSecurity" v o) = reportRepoGithub o

structure ViewerPermissions where
  dependencies : Bool
  security : Bool
deriving DecidableEq

/-- One set of permissions holds another. -/
def ViewerPermissions.le (p q : ViewerPermissions) : Prop :=
  (p.dependencies → q.dependencies) ∧ (p.security → q.security)

/-! ### Findings -/

def pathOf (finding : Fields) : String :=
  match get "file" finding with
  | some (.str file) => String.ofList (file.toList.map fun c => if c = '\\' then '/' else c)
  | _ => ""

def markers : List String := ["node_modules", "vendor", "dependencies"]

def pathParts (finding : Fields) : List String :=
  ((pathOf finding).toList.splitOn '/').map String.ofList

/-- A path with a dependency directory among its parts. -/
def isDependency (finding : Fields) : Bool := (pathParts finding).any (· ∈ markers)

def isSpace (c : Char) : Bool :=
  (9 ≤ c.toNat && c.toNat ≤ 13) || (0x2000 ≤ c.toNat && c.toNat ≤ 0x200A) ||
    c.toNat ∈ [0x20, 0xA0, 0x1680, 0x2028, 0x2029, 0x202F, 0x205F, 0x3000, 0xFEFF]

/-- The scope of a package name: `@scope/name`, neither with a slash nor a space in it. -/
def scopeOf (name : String) : Option String :=
  match name.toList.splitOn '/' with
  | [scope, rest] =>
    if scope.head? = some '@' ∧ 2 ≤ scope.length ∧ scope.all (fun c => !isSpace c) ∧ rest ≠ [] ∧
        rest.all (fun c => !isSpace c) then some (String.ofList scope) else none
  | _ => none

/-- The name the last dependency directory of a path holds, with its scope before it. -/
def nameFromPath : List String → Option String
  | marker :: scope :: name :: rest =>
    match nameFromPath (scope :: name :: rest) with
    | some found => some found
    | none => if marker ∈ markers then some (scope ++ "/" ++ name) else none
  | _ => none

def npmName (finding : Fields) : Option String :=
  match (get "package" finding).bind object with
  | some package =>
    match (get "npm" package).bind object with
    | some npm =>
      match get "name" npm with
      | some (.str name) => some name
      | _ => none
    | none => none
  | none => none

def npmScope (finding : Fields) (fromPath : Bool) : Option String :=
  match npmName finding with
  | some name => scopeOf name
  | none => if fromPath then (nameFromPath (pathParts finding)).bind scopeOf else none

def isTrue : Option Json → Bool
  | some (.bool true) => true
  | _ => false

/-- `revalidationLinks` : each App finding with the findings it names as its inputs. -/
def revalidationLinks (findings : List Fields) : List (List String) :=
  findings.filterMap fun finding =>
    match isTrue (get "isApp" finding), get "id" finding, get "revalidateInputs" finding with
    | true, some (.str id), some (.arr inputs) =>
      some (id :: inputs.filterMap fun input =>
        match input with
        | .str s => if s ≠ "" then some s else none
        | _ => none)
    | _, _, _ => none

/-- `securityLinks` : what each link joins an id with, its first id with the others. -/
def linkedIds (links : List (List String)) (id : String) : List String :=
  links.foldl (fun ids link =>
    match link with
    | first :: rest => rest.foldl (fun ids other =>
        let ids := if id = first ∧ other ∉ ids then ids ++ [other] else ids
        if id = other ∧ first ∉ ids then ids ++ [first] else ids) ids
    | [] => ids) []

section Filter

variable (pkg : ReportPackage)

/-- A finding with what its run gives it, the layer it is in and its known security stamp. -/
def projectFinding (value : Json) (report : Fields) : Option Fields :=
  match object value with
  | none => none
  | some original =>
    let finding := pkg.inheritReportMeta original report
    let present : Option Json → Option Json := fun v =>
      match v with
      | some .null => none
      | v => v
    let source := ((present (get "source" finding)).or (present (get "source" report))).getD .null
    let finding := set "_source" source finding
    let finding := if (get "isApp" finding).isSome then finding
      else set "isApp" (.bool (pkg.isAppFinding finding source)) finding
    some (if isTrue (get "isSecurity" finding) then set "security" (.bool true) finding
      else finding)

/-- A member of a row, with its finding where it is one. -/
structure Member where
  original : Json
  finding : Option Fields

/-- An entry of a report is a row of members, or one. -/
def entryMembers : Json → List Json
  | .arr items => items
  | value => [value]

def projected (report : Fields) (entry : Json) : List Member :=
  (entryMembers entry).map fun original => ⟨original, projectFinding pkg original report⟩

/-- The findings of a row's members, each stamped by its place among them. -/
def stampRow (stamp : ℕ → Bool) : ℕ → List Member → List Member
  | _, [] => []
  | j, member :: members =>
    match member.finding with
    | some finding =>
      { member with finding := some (set "isSecurity" (.bool (stamp j)) finding) } ::
        stampRow stamp (j + 1) members
    | none => member :: stampRow stamp j members

def rowFindings (members : List Member) : List Fields := members.filterMap Member.finding

/-- The rows of a report, stamped where security is to be told. -/
def stampedRows (report : Fields) (entries : List Json) (perms : ViewerPermissions) :
    List (Json × List Member) :=
  let rows := entries.map fun entry => (entry, projected pkg report entry)
  if perms.security then rows
  else
    let groups := rows.map fun row => rowFindings row.2
    let stamp := pkg.stampSecurity groups (linkedIds (revalidationLinks groups.flatten))
    rows.mapIdx fun i row => (row.1, stampRow (stamp i) 0 row.2)

def githubOrg (value : Fields) : Option String :=
  (pkg.reportRepoGithub value).bind fun repo =>
    ((repo.toList.splitOn '/').head?).map fun org => pkg.toLowerCase (String.ofList org)

/-- The organisations of some findings and of a report, but for empty ones. -/
def orgsOf (org : Fields → Option String) (anchors : List Fields) : List String :=
  (anchors.filterMap org).filter (· ≠ "")

/-- What names the own organisations: the report, under the repository it is assigned to, and the
findings of its own source. -/
def anchors (report : Fields) (repo : Option Json) (rows : List (Json × List Member)) :
    List Fields :=
  (match repo with
  | some repo => set "repo" repo report
  | none => report) ::
    ((rows.map fun row => rowFindings row.2).flatten).filter fun finding =>
      !isTrue (get "isApp" finding) && !isDependency finding

/-- The organisation rule: a finding of an own organisation's repository or package. -/
def ownOrganisation (anchors : List Fields) (finding : Fields) : Bool :=
  (githubOrg pkg finding).getD "" ∈ orgsOf (githubOrg pkg) anchors ||
    (npmScope finding true).getD "" ∈ orgsOf (npmScope · false) anchors

def isVisible (perms : ViewerPermissions) (anchors : List Fields) (member : Member) : Bool :=
  match member.finding with
  | none => true
  | some finding => perms.dependencies || isTrue (get "isApp" finding) || !isDependency finding ||
      ownOrganisation pkg anchors finding

def isSecret (securityIds : List String) (member : Member) : Bool :=
  match member.finding with
  | none => "undefined" ∈ securityIds
  | some finding => isTrue (get "isSecurity" finding) ||
      ((get "id" finding).map stringOf).getD "undefined" ∈ securityIds

/-- What is kept of an entry: the places of its members, none where it is removed. -/
def keptPlaces (perms : ViewerPermissions) (securityIds : List String) (anchors : List Fields)
    (members : List Member) : Option (List ℕ) :=
  if !perms.security && members.any (isSecret securityIds) then none
  else
    let visible := (List.range members.length).filter fun j =>
      (members[j]?).any (isVisible pkg perms anchors)
    if visible.length = members.length then some visible
    else if visible.length > 0 then some visible else none

/-- An entry with the members at some places alone. -/
def rebuilt (entry : Json) (members : List Member) (places : List ℕ) : Json :=
  if places.length = members.length then entry
  else
    let originals := places.filterMap fun j => (members[j]?).map Member.original
    match entry with
    | .arr _ => .arr originals
    | _ => originals.head?.getD .null

/-- The key of a report's rows, and the rows. -/
def entriesOf (report : Fields) : Option (String × List Json) :=
  match get "findings" report, get "groups" report with
  | some (.arr entries), _ => some ("findings", entries)
  | _, some (.arr entries) => some ("groups", entries)
  | _, _ => none

variable (repo : Option Json) (securityIds : List String)

/-- The rows kept of a report, each with its members, and the places kept of them. -/
def keptRows (report : Fields) (entries : List Json) (perms : ViewerPermissions) :
    List ((Json × List Member) × Option (List ℕ)) :=
  let rows := stampedRows pkg report entries perms
  rows.map fun row =>
    (row, keptPlaces pkg perms securityIds (anchors report repo rows) row.2)

def filterReportData (data : Json) (perms : ViewerPermissions) : Json :=
  if perms.dependencies && perms.security then data
  else
    match object data with
    | none => data
    | some report =>
      match entriesOf report with
      | none => data
      | some (key, entries) =>
        let rows := keptRows pkg repo securityIds report entries perms
        let changed := rows.any fun row => row.2.map List.length ≠ some row.1.2.length
        if changed then
          .obj (set key (.arr (rows.filterMap fun row =>
            row.2.map fun places => rebuilt row.1.1 row.1.2 places)) report)
        else data

end Filter

/-! ### What no stamp changes -/

/-- What is read of a finding whatever its stamp. -/
def Blind {β : Type*} (f : Fields → β) : Prop := ∀ o v, f (set "isSecurity" v o) = f o

theorem get_set {k k' : String} {v : Json} {o : Fields} :
    get k' (set k v o) = if k' = k then some v else get k' o := Grouping.get_alter

theorem blind_get {k : String} (h : k ≠ "isSecurity") : Blind (get k) := by
  intro o v
  rw [get_set, if_neg h]

theorem blind_pathParts : Blind pathParts := by
  intro o v
  simp only [pathParts, pathOf, blind_get (k := "file") (by decide) o v]

theorem blind_isDependency : Blind isDependency := by
  intro o v
  rw [isDependency, isDependency, blind_pathParts o v]

theorem blind_npmScope (fromPath : Bool) : Blind (npmScope · fromPath) := by
  intro o v
  simp only [npmScope, npmName, blind_get (k := "package") (by decide) o v, blind_pathParts o v]

section Spec

variable {pkg : ReportPackage}

theorem blind_githubOrg : Blind (githubOrg pkg) := by
  intro o v
  rw [githubOrg, githubOrg, pkg.reportRepoGithub_stamp]

theorem blind_ownOrganisation (anchors : List Fields) : Blind (ownOrganisation pkg anchors) := by
  intro o v
  have hscope : npmScope (set "isSecurity" v o) true = npmScope o true := blind_npmScope true o v
  simp only [ownOrganisation, blind_githubOrg o v, hscope]

variable {β : Type*} {f : Fields → β} {perms p q : ViewerPermissions} {places : List ℕ} {i : ℕ}

/-- A stamped row reads as before, but for its stamps. -/
theorem map_stampRow (hf : Blind f) (stamp : ℕ → Bool) (members : List Member) (j : ℕ) :
    (stampRow stamp j members).map (fun m => (m.original, m.finding.map f)) =
      members.map fun m => (m.original, m.finding.map f) := by
  induction members generalizing j with
  | nil => rfl
  | cons member members ih =>
    rw [stampRow]
    split
    · rename_i finding hfinding
      rw [map_cons, map_cons, ih, hfinding, map_some, map_some, hf]
    · rw [map_cons, map_cons, ih]

variable (pkg) in
/-- The rows of a report as they are before they are stamped. -/
def plainRows (report : Fields) (entries : List Json) : List (Json × List Member) :=
  entries.map fun entry => (entry, projected pkg report entry)

/-- A row read whatever its stamps. -/
def readRow {β : Type*} (f : Fields → β) (row : Json × List Member) :
    Json × List (Json × Option β) :=
  (row.1, row.2.map fun m => (m.original, m.finding.map f))

variable {repo : Option Json} {securityIds : List String} {report : Fields} {entries : List Json}

variable (pkg report entries) in
theorem map_stampedRows (hf : Blind f) (perms : ViewerPermissions) :
    (stampedRows pkg report entries perms).map (readRow f) =
      (plainRows pkg report entries).map (readRow f) := by
  rw [stampedRows, plainRows]
  split
  · rfl
  · refine ext_getElem? fun i => ?_
    simp only [getElem?_map, getElem?_mapIdx, Option.map_map]
    cases entries[i]? with
    | none => rfl
    | some entry => simp [readRow, map_stampRow hf]

/-- What the findings of some rows give, whatever their stamps. -/
theorem filterMap_rowFindings (f : Fields → Option β) (rows : List (Json × List Member)) :
    ((rows.map fun row => rowFindings row.2).flatten).filterMap f =
      ((rows.map (readRow f)).flatMap fun row => row.2.filterMap fun m => m.2.join) := by
  induction rows with
  | nil => rfl
  | cons row rows ih =>
    rw [map_cons, flatten_cons, filterMap_append, ih, map_cons, flatMap_cons]
    congr 1
    rw [rowFindings, filterMap_filterMap, readRow, filterMap_map]
    refine filterMap_congr fun m _ => ?_
    cases hm : m.finding <;> simp [hm]

/-- The own organisations are those of the findings as they are before they are stamped. -/
theorem orgsOf_anchors {org : Fields → Option String} (horg : Blind org)
    (perms : ViewerPermissions) :
    orgsOf org (anchors report repo (stampedRows pkg report entries perms)) =
      orgsOf org (anchors report repo (plainRows pkg report entries)) := by
  have hblind : Blind fun finding =>
      if !isTrue (get "isApp" finding) && !isDependency finding then org finding else none := by
    intro o v
    simp only [blind_get (k := "isApp") (by decide) o v, blind_isDependency o v, horg o v]
  simp only [orgsOf, anchors, filterMap_cons, filterMap_filter, filterMap_rowFindings,
    map_stampedRows _ _ _ hblind]

theorem ownOrganisation_anchors (perms : ViewerPermissions) :
    ownOrganisation pkg (anchors report repo (stampedRows pkg report entries perms)) =
      ownOrganisation pkg (anchors report repo (plainRows pkg report entries)) := by
  funext finding
  simp only [ownOrganisation, orgsOf_anchors blind_githubOrg, orgsOf_anchors (blind_npmScope false)]

/-! ### What is kept -/

/-- Whether a member is shown is read whatever its stamp. -/
theorem isVisible_eq (perms : ViewerPermissions) (anchors : List Fields) (m : Member) :
    isVisible pkg perms anchors m =
      ((m.finding.map fun finding => perms.dependencies || isTrue (get "isApp" finding) ||
        !isDependency finding || ownOrganisation pkg anchors finding).getD true) := by
  rw [isVisible]
  cases m.finding <;> rfl

theorem blind_visible (perms : ViewerPermissions) (anchors : List Fields) :
    Blind fun finding => perms.dependencies || isTrue (get "isApp" finding) ||
      !isDependency finding || ownOrganisation pkg anchors finding := by
  intro o v
  simp only [blind_get (k := "isApp") (by decide) o v, blind_isDependency o v,
    blind_ownOrganisation anchors o v]

variable (pkg) in
/-- The places of the members that are shown. -/
def visiblePlaces (perms : ViewerPermissions) (anchors : List Fields) (members : List Member) :
    List ℕ :=
  (List.range members.length).filter fun j => (members[j]?).any (isVisible pkg perms anchors)

theorem mem_visiblePlaces {anchors : List Fields} {members : List Member} {j : ℕ} :
    j ∈ visiblePlaces pkg perms anchors members ↔
      ∃ m, members[j]? = some m ∧ isVisible pkg perms anchors m = true := by
  rw [visiblePlaces, mem_filter, mem_range, Option.any_eq_true]
  constructor
  · rintro ⟨-, m, hm, hv⟩
    exact ⟨m, hm, hv⟩
  · rintro ⟨m, hm, hv⟩
    exact ⟨(List.getElem?_eq_some_iff.1 hm).1, m, hm, hv⟩

theorem keptPlaces_eq_some {anchors : List Fields} {members : List Member} :
    keptPlaces pkg perms securityIds anchors members = some places ↔
      (perms.security = false → ∀ m ∈ members, isSecret securityIds m = false) ∧
        places = visiblePlaces pkg perms anchors members ∧ (members ≠ [] → places ≠ []) := by
  have hsecret : (!perms.security && members.any (isSecret securityIds)) = true ↔
      ¬ (perms.security = false → ∀ m ∈ members, isSecret securityIds m = false) := by
    simp
  rw [keptPlaces, ← visiblePlaces]
  by_cases hs : (!perms.security && members.any (isSecret securityIds)) = true
  · rw [if_pos hs]
    simp [hsecret.1 hs]
  · rw [if_neg hs]
    have hpublic := not_not.1 (mt hsecret.2 hs)
    rw [and_iff_right hpublic]
    cases members with
    | nil => simp [visiblePlaces, eq_comm]
    | cons m members =>
      -- a row with a member is kept if any of its members is shown
      dsimp only
      split
      · rename_i hlength
        have hne : visiblePlaces pkg perms anchors (m :: members) ≠ [] := by
          intro h
          simp [h] at hlength
        constructor
        · rintro h
          exact ⟨(some.inj h).symm, fun _ => some.inj h ▸ hne⟩
        · rintro ⟨rfl, -⟩
          rfl
      · split
        · rename_i hpos
          have hne := ne_nil_of_length_pos hpos
          constructor
          · rintro h
            exact ⟨(some.inj h).symm, fun _ => some.inj h ▸ hne⟩
          · rintro ⟨rfl, -⟩
            rfl
        · rename_i hpos
          constructor
          · intro h
            exact absurd h (by simp)
          · rintro ⟨rfl, h⟩
            exact absurd (length_pos_of_ne_nil (h (by simp))) hpos

variable (pkg repo securityIds) in
/-- The places kept of the members of the row at a place, none where it is removed. -/
def keptAt (report : Fields) (entries : List Json) (perms : ViewerPermissions) (i : ℕ) :
    Option (List ℕ) :=
  ((keptRows pkg repo securityIds report entries perms)[i]?).bind Prod.snd

theorem keptRows_getElem? (perms : ViewerPermissions) (i : ℕ) :
    (keptRows pkg repo securityIds report entries perms)[i]? =
      ((stampedRows pkg report entries perms)[i]?).map fun row =>
        (row, keptPlaces pkg perms securityIds
          (anchors report repo (stampedRows pkg report entries perms)) row.2) := by
  rw [keptRows, getElem?_map]

/-- A row that is kept: no member of it is secret, and the places kept are those shown. -/
theorem keptAt_eq_some :
    keptAt pkg repo securityIds report entries perms i = some places ↔
      ∃ row, (stampedRows pkg report entries perms)[i]? = some row ∧
        (perms.security = false → ∀ m ∈ row.2, isSecret securityIds m = false) ∧
        places = visiblePlaces pkg perms
          (anchors report repo (stampedRows pkg report entries perms)) row.2 ∧
        (row.2 ≠ [] → places ≠ []) := by
  rw [keptAt, keptRows_getElem?]
  cases (stampedRows pkg report entries perms)[i]? with
  | none => simp
  | some row => simp [keptPlaces_eq_some]

variable {row : Json × List Member}

/-- A stamped row and the entry it is of. -/
theorem stampedRows_getElem? (h : (stampedRows pkg report entries perms)[i]? = some row) :
    ∃ entry, entries[i]? = some entry ∧ row.1 = entry ∧
      ∀ {β : Type} {f : Fields → β}, Blind f →
        row.2.map (fun m => (m.original, m.finding.map f)) =
          (projected pkg report entry).map fun m => (m.original, m.finding.map f) := by
  have hread : ∀ {β : Type} {f : Fields → β}, Blind f →
      some (readRow f row) = (entries[i]?).map fun entry =>
        readRow f (entry, projected pkg report entry) := by
    intro β f hf
    have hmap := congrArg (·[i]?) (map_stampedRows pkg report entries hf perms)
    simpa [getElem?_map, plainRows, h, comp_def] using hmap
  cases hi : entries[i]? with
  | none =>
    have hnone := hread (f := fun _ => ()) fun _ _ => rfl
    rw [hi] at hnone
    exact absurd hnone (by simp)
  | some entry =>
    refine ⟨entry, rfl, ?_, fun {β f} hf => ?_⟩
    · have hfst := hread (f := fun _ => ()) fun _ _ => rfl
      rw [hi] at hfst
      exact congrArg fst (some.inj hfst)
    · have hsnd := hread hf
      rw [hi] at hsnd
      exact congrArg snd (some.inj hsnd)

/-- The places shown are told by the members as they are before they are stamped. -/
theorem visiblePlaces_stamped (anchors : List Fields) {entry : Json}
    (h : (stampedRows pkg report entries perms)[i]? = some row) (hi : entries[i]? = some entry) :
    row.2.length = (projected pkg report entry).length ∧
      visiblePlaces pkg perms anchors row.2 =
        visiblePlaces pkg perms anchors (projected pkg report entry) := by
  obtain ⟨entry', hi', -, hread⟩ := stampedRows_getElem? h
  rw [hi] at hi'
  obtain rfl := some.inj hi'
  have hvisible := congrArg (List.map fun m : Json × Option Bool => m.2.getD true)
    (hread (@blind_visible pkg perms anchors))
  simp only [List.map_map, comp_def, ← isVisible_eq] at hvisible
  have hlength : row.2.length = (projected pkg report entry).length := by
    simpa using congrArg List.length hvisible
  refine ⟨hlength, ?_⟩
  rw [visiblePlaces, visiblePlaces, hlength]
  refine List.filter_congr fun j _ => ?_
  have hj := congrArg (·[j]?) hvisible
  simp only [getElem?_map] at hj
  have hany : ∀ o : Option Member, o.any (isVisible pkg perms anchors) =
      (o.map (isVisible pkg perms anchors)).getD false := by
    rintro (_ | m) <;> rfl
  rw [hany, hany, hj]

/-- A row that is kept, by the entry it is of and the members as they are before they are
stamped. -/
theorem keptAt_spec :
    keptAt pkg repo securityIds report entries perms i = some places ↔
      ∃ row entry, (stampedRows pkg report entries perms)[i]? = some row ∧
        entries[i]? = some entry ∧
        (perms.security = false → ∀ m ∈ row.2, isSecret securityIds m = false) ∧
        places = visiblePlaces pkg perms (anchors report repo (plainRows pkg report entries))
          (projected pkg report entry) ∧ (projected pkg report entry ≠ [] → places ≠ []) := by
  have hanchors : ∀ members, visiblePlaces pkg perms
      (anchors report repo (stampedRows pkg report entries perms)) members =
        visiblePlaces pkg perms (anchors report repo (plainRows pkg report entries)) members := by
    intro members
    have hvisible : isVisible pkg perms
        (anchors report repo (stampedRows pkg report entries perms)) =
          isVisible pkg perms (anchors report repo (plainRows pkg report entries)) := by
      funext m
      rw [isVisible_eq, isVisible_eq, ownOrganisation_anchors]
    rw [visiblePlaces, visiblePlaces, hvisible]
  rw [keptAt_eq_some]
  constructor
  · rintro ⟨row, hrow, hpublic, hplaces, hne⟩
    obtain ⟨entry, hi, -, -⟩ := stampedRows_getElem? hrow
    obtain ⟨hlength, hvisible⟩ := visiblePlaces_stamped
      (anchors report repo (plainRows pkg report entries)) hrow hi
    refine ⟨row, entry, hrow, hi, hpublic, ?_, ?_⟩
    · rw [hplaces, hanchors, hvisible]
    · intro h
      exact hne fun hnil => h (eq_nil_of_length_eq_zero (by rw [← hlength, hnil]; rfl))
  · rintro ⟨row, entry, hrow, hi, hpublic, hplaces, hne⟩
    obtain ⟨hlength, hvisible⟩ := visiblePlaces_stamped
      (anchors report repo (plainRows pkg report entries)) hrow hi
    refine ⟨row, hrow, hpublic, ?_, ?_⟩
    · rw [hplaces, hanchors, hvisible]
    · intro h
      exact hne fun hnil => h (eq_nil_of_length_eq_zero (by rw [hlength, hnil]; rfl))

theorem isVisible_mono (hle : p.le q) {anchors : List Fields}
    {m : Member} (h : isVisible pkg p anchors m = true) : isVisible pkg q anchors m = true := by
  rw [isVisible] at h ⊢
  cases hm : m.finding with
  | none => rfl
  | some finding =>
    simp only [hm, Bool.or_eq_true] at h ⊢
    rcases h with ((h | h) | h) | h
    · exact .inl (.inl (.inl (hle.1 h)))
    · exact .inl (.inl (.inr h))
    · exact .inl (.inr h)
    · exact .inr h

/-- A row without secrets has none under more permissions: they stamp it alike, or read no
stamp. -/
theorem stampedRows_mono (hle : p.le q) (hrow : (stampedRows pkg report entries p)[i]? = some row)
    (h : p.security = false → ∀ m ∈ row.2, isSecret securityIds m = false) :
    ∃ row', (stampedRows pkg report entries q)[i]? = some row' ∧
      (q.security = false → ∀ m ∈ row'.2, isSecret securityIds m = false) := by
  cases hq : q.security with
  | true =>
    obtain ⟨entry, hi, -⟩ := stampedRows_getElem? hrow
    refine ⟨(entry, projected pkg report entry), ?_, fun hfalse => absurd hfalse (by simp)⟩
    rw [stampedRows, if_pos hq, getElem?_map, hi]
    rfl
  | false =>
    have hp : p.security = false := by
      cases hp : p.security with
      | true => exact absurd (hle.2 hp) (by simp [hq])
      | false => rfl
    refine ⟨row, ?_, fun _ => h hp⟩
    rw [← hrow, stampedRows, stampedRows, hp, hq]

/-! ### What is served -/

theorem map_fst_stampedRows (perms : ViewerPermissions) :
    (stampedRows pkg report entries perms).map fst = entries := by
  have h := congrArg (List.map fst)
    (map_stampedRows pkg report entries (f := fun _ => ())
      (fun _ _ => rfl) perms)
  simpa [readRow, plainRows, comp_def] using h

variable (pkg repo securityIds) in
/-- The rows of the report as it is served. -/
def servedEntries (report : Fields) (entries : List Json) (perms : ViewerPermissions) :
    List Json :=
  (keptRows pkg repo securityIds report entries perms).filterMap fun row =>
    row.2.map fun places => rebuilt row.1.1 row.1.2 places

/-- Rows of which every member is kept are served as they are. -/
theorem servedEntries_of_whole (h : ∀ row ∈ keptRows pkg repo securityIds report entries perms,
      row.2.map List.length = some row.1.2.length) :
    servedEntries pkg repo securityIds report entries perms = entries := by
  have hmap : servedEntries pkg repo securityIds report entries perms =
      (keptRows pkg repo securityIds report entries perms).map fun row => row.1.1 := by
    rw [servedEntries, ← filterMap_eq_map]
    refine filterMap_congr fun row hrow => ?_
    obtain ⟨places, hplaces, hlength⟩ := map_eq_some_iff.1 (h row hrow)
    rw [hplaces, map_some, rebuilt, if_pos hlength]
    rfl
  rw [hmap, keptRows, List.map_map]
  exact map_fst_stampedRows perms

/-- With every permission each row is kept with every member. -/
theorem whole_of_all (hd : perms.dependencies = true) (hs : perms.security = true) :
    ∀ row ∈ keptRows pkg repo securityIds report entries perms,
      row.2.map List.length = some row.1.2.length := by
  intro row hrow
  obtain ⟨stamped, -, rfl⟩ := List.mem_map.1 hrow
  have hvisible : ∀ m, isVisible pkg perms
      (anchors report repo (stampedRows pkg report entries perms)) m = true := by
    intro m
    rw [isVisible]
    cases m.finding <;> simp [hd]
  have hplaces : visiblePlaces pkg perms
      (anchors report repo (stampedRows pkg report entries perms)) stamped.2 =
        List.range stamped.2.length := by
    refine List.filter_eq_self.2 fun j hj => ?_
    rw [getElem?_eq_getElem (mem_range.1 hj), any_some, hvisible]
  have hkept : keptPlaces pkg perms securityIds
      (anchors report repo (stampedRows pkg report entries perms)) stamped.2 =
        some (List.range stamped.2.length) := by
    refine keptPlaces_eq_some.2 ⟨fun h => absurd h (by simp [hs]), hplaces.symm, fun h hnil => ?_⟩
    exact h (eq_nil_of_length_eq_zero (by simpa using congrArg List.length hnil))
  simp [hkept]

/-- The report as it is served: its rows as they are kept, its other fields as they were. -/
theorem filterReportData_obj {key : String} (h : entriesOf report = some (key, entries))
    (perms : ViewerPermissions) :
    ∃ served, filterReportData pkg repo securityIds (.obj report) perms = .obj served ∧
      (∀ k, k ≠ key → get k served = get k report) ∧
      get key served = some (.arr (servedEntries pkg repo securityIds report entries perms)) := by
  have hkey : get key report = some (.arr entries) := by
    rw [entriesOf] at h
    split at h
    · rename_i hfindings
      obtain ⟨rfl, rfl⟩ := mk.inj (some.inj h)
      exact hfindings
    · rename_i hgroups _
      obtain ⟨rfl, rfl⟩ := mk.inj (some.inj h)
      exact hgroups
    · exact absurd h (by simp)
  have hwhole : ∀ hw : (∀ row ∈ keptRows pkg repo securityIds report entries perms,
      row.2.map List.length = some row.1.2.length),
      get key report = some (.arr (servedEntries pkg repo securityIds report entries perms)) := by
    intro hw
    rw [servedEntries_of_whole hw, hkey]
  rw [filterReportData]
  split
  · rename_i hperms
    rw [Bool.and_eq_true] at hperms
    exact ⟨report, rfl, fun _ _ => rfl, hwhole (whole_of_all hperms.1 hperms.2)⟩
  · simp only [object, h]
    split
    · refine ⟨_, rfl, fun k hk => ?_, ?_⟩
      · rw [get_set, if_neg hk]
      · rw [get_set, if_pos rfl, servedEntries]
    · rename_i hchanged
      refine ⟨report, rfl, fun _ _ => rfl, hwhole fun row hrow => ?_⟩
      by_contra hne
      exact hchanged (List.any_eq_true.2 ⟨row, hrow, by simpa using hne⟩)

variable (pkg repo securityIds) in
/-- **What is kept grows with the permissions and keeps the secrets**: the report as it is served
holds the rows that are kept; a row is kept, with each member, under more permissions too; without
security access no row is kept that has a secret member; and without dependency access what is
kept of a dependency is an App finding's or of an own organisation. -/
theorem filterReportData_spec {key : String} (h : entriesOf report = some (key, entries)) :
    (∀ perms, ∃ served,
      filterReportData pkg repo securityIds (.obj report) perms = .obj served ∧
        (∀ k, k ≠ key → get k served = get k report) ∧
        get key served = some (.arr (servedEntries pkg repo securityIds report entries perms))) ∧
      (∀ p q : ViewerPermissions, p.le q → ∀ i places,
        keptAt pkg repo securityIds report entries p i = some places →
          ∃ places', keptAt pkg repo securityIds report entries q i = some places' ∧
            places ⊆ places') ∧
      (∀ p : ViewerPermissions, p.security = false → ∀ i places row,
        keptAt pkg repo securityIds report entries p i = some places →
        (stampedRows pkg report entries p)[i]? = some row →
          ∀ m ∈ row.2, isSecret securityIds m = false) ∧
      (∀ p : ViewerPermissions, p.dependencies = false → ∀ i places entry,
        keptAt pkg repo securityIds report entries p i = some places → entries[i]? = some entry →
          ∀ j ∈ places, ∀ m, (projected pkg report entry)[j]? = some m →
            ∀ finding, m.finding = some finding → isDependency finding = true →
              isTrue (get "isApp" finding) = true ∨
                ownOrganisation pkg (anchors report repo (plainRows pkg report entries))
                  finding = true) := by
  refine ⟨filterReportData_obj h, ?_, ?_, ?_⟩
  · intro p q hle i places hkept
    obtain ⟨row, entry, hrow, hi, hpublic, hplaces, hne⟩ := keptAt_spec.1 hkept
    set own := anchors report repo (plainRows pkg report entries)
    have hsubset : places ⊆ visiblePlaces pkg q own (projected pkg report entry) := by
      intro j hj
      obtain ⟨m, hm, hv⟩ := mem_visiblePlaces.1 (hplaces ▸ hj)
      exact mem_visiblePlaces.2 ⟨m, hm, isVisible_mono hle hv⟩
    obtain ⟨row', hrow', hpublic'⟩ := stampedRows_mono hle hrow hpublic
    refine ⟨_, keptAt_spec.2 ⟨row', entry, hrow', hi, hpublic', rfl, fun h hnil => hne h ?_⟩,
      hsubset⟩
    exact eq_nil_of_subset_nil (hnil ▸ hsubset)
  · intro p hp i places row hkept hrow
    obtain ⟨row', entry, hrow', -, hpublic, -⟩ := keptAt_spec.1 hkept
    rw [hrow] at hrow'
    obtain rfl := some.inj hrow'
    exact hpublic hp
  · intro p hp i places entry hkept hi j hj m hm finding hfinding hdependency
    obtain ⟨row, entry', -, hi', -, hplaces, -⟩ := keptAt_spec.1 hkept
    rw [hi] at hi'
    obtain rfl := some.inj hi'
    obtain ⟨m', hm', hv⟩ := mem_visiblePlaces.1 (hplaces ▸ hj)
    rw [hm] at hm'
    obtain rfl := some.inj hm'
    simpa [isVisible, hfinding, hp, hdependency] using hv

end Spec

section Dangling

/-- The package on findings that name no repository, say themselves whether they are an App's, and
are of no run and no security matter. -/
def ReportPackage.silent : ReportPackage where
  reportRepoGithub _ := none
  inheritReportMeta finding _ := finding
  isAppFinding _ _ := false
  stampSecurity _ _ _ _ := false
  toLowerCase s := s
  reportRepoGithub_stamp _ _ := rfl

/-- An App finding over a finding of its own report. -/
def overFinding : Fields :=
  [("id", .str "over"), ("isApp", .bool true), ("revalidateInputs", .arr [.str "under"]),
    ("file", .str "src/a.js")]

/-- A finding of a dependency. -/
def underFinding : Fields :=
  [("id", .str "under"), ("isApp", .bool false), ("file", .str "node_modules/b/i.js")]

def overReport : Fields := [("findings", .arr [.obj overFinding, .obj underFinding])]

/-- The findings of a report. -/
def reportFindings (report : Fields) : List Fields :=
  (((entriesOf report).map Prod.snd).getD []).flatMap fun entry =>
    (entryMembers entry).filterMap object

/-- The inputs that the findings of a report name are of its findings. -/
def InputsHeld (report : Fields) : Prop :=
  ∀ link ∈ revalidationLinks (reportFindings report), ∀ id ∈ link,
    id ∈ (reportFindings report).filterMap fun finding =>
      match get "id" finding with
      | some (.str id) => some id
      | _ => none

instance (report : Fields) : Decidable (InputsHeld report) :=
  inferInstanceAs (Decidable (∀ link ∈ revalidationLinks (reportFindings report), ∀ id ∈ link,
    id ∈ (reportFindings report).filterMap fun finding =>
      match get "id" finding with
      | some (.str id) => some id
      | _ => none))

theorem filterReportData_spec_over :
    entriesOf overReport = some ("findings", [.obj overFinding, .obj underFinding]) ∧
      ∀ i places, keptAt .silent none [] overReport [.obj overFinding, .obj underFinding]
          ⟨false, false⟩ i = some places →
        ∃ places', keptAt .silent none [] overReport [.obj overFinding, .obj underFinding]
          ⟨true, false⟩ i = some places' ∧ places ⊆ places' :=
  ⟨rfl, (@filterReportData_spec .silent none [] overReport
      [.obj overFinding, .obj underFinding] "findings" rfl).2.1 ⟨false, false⟩ ⟨true, false⟩
    ⟨fun h => absurd h (by decide), fun h => h⟩⟩

/-- An App finding keeps naming the input that is removed, and with dependency access alone a
dependency's finding is kept though no own organisation's. -/
theorem filterReportData_dangling :
    InputsHeld overReport ∧
      (∀ served, filterReportData .silent none [] (.obj overReport) ⟨false, true⟩ = .obj served →
        ¬InputsHeld served) ∧
      keptAt .silent none [] overReport [.obj overFinding, .obj underFinding] ⟨true, false⟩ 1 =
        some [0] ∧
      isDependency underFinding = true ∧ isTrue (get "isApp" underFinding) = false ∧
      ownOrganisation .silent (anchors overReport none
        (plainRows .silent overReport [.obj overFinding, .obj underFinding])) underFinding =
          false := by
  have hserved : filterReportData .silent none [] (.obj overReport) ⟨false, true⟩ =
      .obj [("findings", .arr [.obj overFinding])] := by
    rfl
  refine ⟨by decide +kernel, fun served h => ?_, by decide +kernel, by decide +kernel,
    by decide +kernel, by decide +kernel⟩
  obtain rfl := Json.obj.inj (hserved.symm.trans h)
  decide +kernel

end Dangling

end Triage.ReportFilter
