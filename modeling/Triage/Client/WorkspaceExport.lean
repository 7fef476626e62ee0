import Triage.Client.IgnoreMerging
import Triage.Client.Workspaces

/-!
# Exporting and importing a workspace

A workspace leaves the browser as one file: its reports, the triage of their findings, the
repositories the user named for them and its bundles, with or without their bytes. The import
checks the file against its own bounds, saves what is in it and merges the triage.

JSON and compression lose nothing, and what is saved is saved, so a file is its payload here.

## Main results

* `accepted_iff` : the bounds of the import that the export does not keep.
* `workspace_round_trip` : what becomes of an export in an empty client, and in the one it is from.
-/

namespace Triage.Client

open List Option Nat FMap

/-! ### What the browser keeps -/

/-- The report library: the findings of a document it can read, and whether it can say what a
document is. -/
structure ReportLibrary where
  loadFindings : String → Option (List Occurrence)
  analyzes : String → Bool

/-- The state that exports read and imports write. -/
structure ClientState where
  /-- The reports that can be read. -/
  files : FMap String String
  triage : TriageStateMap
  /-- The repositories that the user named. -/
  repoUrls : FMap String String
  /-- The bundles by their integrity: the name, and the bytes where they can be read. -/
  bundles : FMap String (String × Option (List UInt8))
  workspaces : List Workspace

def ClientState.empty : ClientState := ⟨∅, ∅, ∅, ∅, []⟩

/-- A name that `saveFile` refuses. -/
def hasNul (s : String) : Bool := s.toList.contains (Char.ofNat 0)

/-- A client as its own writes leave it. -/
structure KeptClient (lib : ReportLibrary) (sha512 : List UInt8 → String) extends ClientState where
  entries : ∀ id, Kept (triage id)
  saved : ∀ name content, files name = some content →
    name ≠ "" ∧ hasNul name = false ∧ content ≠ "" ∧ lib.analyzes content = true
  addressed : ∀ integrity name bytes, bundles integrity = some (name, some bytes) →
    sha512 bytes = integrity
  members : ∀ w ∈ workspaces, w.reports.Nodup ∧ w.bundles.Nodup ∧ "" ∉ w.bundles

/-! ### The export -/

/-- A report in the file. -/
structure ReportDoc where
  name : String
  content : String
  repo : Option String
  deriving DecidableEq, Repr

/-- The bytes of a bundle in the file; `data` is their base64 text there. -/
structure BundleBlob where
  integrity : String
  name : String
  data : List UInt8
  deriving DecidableEq, Repr

/-- The payload of the file. -/
structure ExportPayload where
  version : ℕ
  id : String
  name : String
  privateKey : String
  createdAt : ℕ
  reports : List ReportDoc
  bundles : List String
  repoUrls : FMap String String
  triage : TriageStateMap
  bundleBlobs : Option (List BundleBlob)

/-- `reportFindingIds` -/
def reportFindingIds (lib : ReportLibrary) (content : String) : List String :=
  ((lib.loadFindings content).getD []).filterMap fun o => o.id.filter (· ≠ "")

/-- `manualRepo`.  What a plain object inherits under a name is no string, and JSON drops it. -/
def manualRepo (c : ClientState) (name : String) : Option String :=
  if name = "" then none else nonempty (c.repoUrls name)

/-- `readWorkspaceReports` -/
def readWorkspaceReports (c : ClientState) (w : Workspace) : List ReportDoc :=
  w.reports.filterMap fun name =>
    (c.files name).map fun content => ⟨name, content, manualRepo c name⟩

/-- `readBundleBlobs` -/
def readBundleBlobs (c : ClientState) (integrities : List String) : List BundleBlob :=
  integrities.filterMap fun integrity =>
    match c.bundles integrity with
    | some (name, some bytes) => if name = "" then none else some ⟨integrity, name, bytes⟩
    | _ => none

/-- What an entry is in the file, of the reports of the workspace. -/
def exportedEntry (reports : List String) (entry : TriageEntry) : Option TriageEntry :=
  normalizeEntry (some
    { entry with ignoredReports := entry.ignoredReports.filter (· ∈ reports) })

/-- The ids of the findings in the reports of a workspace. -/
def claimedIds (lib : ReportLibrary) (c : ClientState) (w : Workspace) : List String :=
  (readWorkspaceReports c w).flatMap fun r => reportFindingIds lib r.content

/-- `buildWorkspaceExportPayload`.  A plain object takes no entry under `__proto__`. -/
def buildWorkspaceExportPayload (lib : ReportLibrary) (c : ClientState) (w : Workspace)
    (includeBundleBytes : Bool) : ExportPayload where
  version := 1
  id := w.id
  name := w.name
  privateKey := w.privateKey
  createdAt := w.createdAt
  reports := readWorkspaceReports c w
  bundles := w.bundles.filter (· ≠ "")
  repoUrls := .ofKeys ((readWorkspaceReports c w).map (·.name)).toFinset fun name =>
    if name = "__proto__" then none else manualRepo c name
  triage := .ofKeys c.triage.keys fun id =>
    if id ∈ claimedIds lib c w ∧ id ≠ "__proto__" then
      exportedEntry w.reports (orEmpty (c.triage id))
    else none
  bundleBlobs :=
    have blobs := readBundleBlobs c (w.bundles.filter (· ≠ ""))
    if includeBundleBytes ∧ blobs ≠ [] then some blobs else none

/-! ### The format -/

def MAX_BUNDLES_PER_EXPORT : ℕ := 1024

def MAX_REPORTS_PER_EXPORT : ℕ := 1024

def MAX_BUNDLE_INTEGRITY_LEN : ℕ := 200

def MAX_BUNDLE_BLOB_BYTES : ℕ := 100 * 1024 * 1024

/-- A third more than the bytes, and a margin. -/
def MAX_BUNDLE_BLOB_DATA_LEN : ℕ := (MAX_BUNDLE_BLOB_BYTES * 4 + 2) / 3 + 16

def MAX_BUNDLE_BLOB_NAME_LEN : ℕ := 512

def MAX_BUNDLE_BLOBS_PER_EXPORT : ℕ := 64

/-- `length` of a string: its code units, two of a character beyond the first plane. -/
def codeUnits (s : String) : ℕ :=
  s.toList.length + (s.toList.filter fun c => 0x10000 ≤ c.toNat).length

/-- The length of the base64 text of so many bytes. -/
def base64Length (n : ℕ) : ℕ := (n + 2) / 3 * 4

/-- What `validateExportShape` finds wrong with a blob. -/
def blobFault (b : BundleBlob) : Option String :=
  if b.integrity = "" then some "bundleBlobs.integrity must be a non-empty string"
  else if MAX_BUNDLE_INTEGRITY_LEN < codeUnits b.integrity then
    some "bundleBlobs.integrity exceeds per-entry length cap (200)"
  else if b.name = "" then some "bundleBlobs.name must be a non-empty string"
  else if MAX_BUNDLE_BLOB_NAME_LEN < codeUnits b.name then
    some "bundleBlobs.name exceeds per-entry length cap (512)"
  else if hasNul b.name then some "bundleBlobs.name cannot contain NUL"
  else if MAX_BUNDLE_BLOB_DATA_LEN < base64Length b.data.length then
    some "bundleBlobs.data exceeds per-blob size cap (104857600 bytes raw)"
  else none

/-- `validateExportShape`, of a payload with fields of their types. -/
def validateExportShape (p : ExportPayload) : Option String :=
  if p.version ≠ 1 then some s!"unsupported export version: {p.version}"
  else if MAX_REPORTS_PER_EXPORT < p.reports.length then
    some s!"reports count ({p.reports.length}) exceeds cap (1024)"
  else if MAX_BUNDLES_PER_EXPORT < p.bundles.length then
    some s!"bundles count ({p.bundles.length}) exceeds cap (1024)"
  else if p.bundles.any fun b => MAX_BUNDLE_INTEGRITY_LEN < codeUnits b then
    some "bundle integrity exceeds per-entry length cap (200)"
  else
    match p.bundleBlobs with
    | none => none
    | some blobs =>
      if MAX_BUNDLE_BLOBS_PER_EXPORT < blobs.length then
        some s!"bundleBlobs count ({blobs.length}) exceeds cap (64)"
      else blobs.findSome? blobFault

/-- `parseWorkspaceJson` -/
def parseWorkspaceJson (p : ExportPayload) : Except String ExportPayload :=
  match validateExportShape p with
  | none => .ok p
  | some reason =>
    .error (if 1 < (reason.splitOn "exceeds cap").length then reason
      else s!"not a deepview workspace export: {reason}")

/-! ### The import -/

/-- The names that a plain object inherits. -/
def objectPrototypeNames : List String :=
  ["constructor", "__defineGetter__", "__defineSetter__", "hasOwnProperty", "__lookupGetter__",
    "__lookupSetter__", "isPrototypeOf", "propertyIsEnumerable", "toString", "valueOf",
    "__proto__", "toLocaleString"]

/-- A report that `saveFile` takes. -/
def ReportDoc.storable (r : ReportDoc) : Bool := !hasNul r.name && r.content ≠ ""

/-- The names of the reports that were saved and analyzed. -/
def savedNames (lib : ReportLibrary) (p : ExportPayload) : List String :=
  (p.reports.filter fun r => r.storable && lib.analyzes r.content).map (·.name)

/-- `adoptRepoUrls`, of the repositories of saved reports. -/
def adoptRepoUrls (c : ClientState) (saved : List String) (urls : FMap String String) :
    FMap String String :=
  .ofKeys (c.repoUrls.keys ∪ urls.keys) fun name =>
    if name ∈ saved ∧ (nonempty (urls name)).isSome ∧ name ≠ "" ∧
        nonempty (c.repoUrls name) = none ∧ name ∉ objectPrototypeNames then urls name
    else c.repoUrls name

/-- The triage of the file with its ignores filed; `names` are the reports with ignores to file, in
the order of the entries. -/
def importedTriage (lib : ReportLibrary) (names : List String) (p : ExportPayload) :
    TriageStateMap :=
  migrateStoredIgnores lib.loadFindings p.triage names fun name =>
    (p.reports.find? (·.name = name)).map (·.content)

/-- What `upsertWorkspace` is given. -/
def importedWorkspace (lib : ReportLibrary) (p : ExportPayload) : Upsert where
  id := p.id
  name := p.name
  privateKey := p.privateKey
  reports := savedNames lib p
  bundles := p.bundles.filter (· ≠ "")
  createdAt := p.createdAt
  preserveBundles := false

/-- `applyWorkspaceImport` -/
def applyWorkspaceImport (lib : ReportLibrary) (sha512 : List UInt8 → String)
    (names : List String) (c : ClientState) (p : ExportPayload) : ClientState where
  files := (p.reports.filter ReportDoc.storable).foldl (fun m r => m.insert r.name r.content)
    c.files
  triage := mergeTriage c.triage (importedTriage lib names p)
  repoUrls := adoptRepoUrls c (savedNames lib p) p.repoUrls
  bundles := (p.bundleBlobs.getD []).foldl
    (fun m b => m.insert (sha512 b.data) (b.name, some b.data)) c.bundles
  workspaces := put c.workspaces
    ((importedWorkspace lib p).next (find c.workspaces (importedWorkspace lib p).id))

/-! ### What is in the file -/

variable {lib : ReportLibrary} {sha512 : List UInt8 → String} {c : ClientState} {w : Workspace}
  {includeBundleBytes : Bool} {names : List String} {id : String}

/-- The bounds of the import that an export may not keep. -/
structure WithinCaps (p : ExportPayload) : Prop where
  reports : p.reports.length ≤ MAX_REPORTS_PER_EXPORT
  bundles : p.bundles.length ≤ MAX_BUNDLES_PER_EXPORT
  integrity : ∀ b ∈ p.bundles, codeUnits b ≤ MAX_BUNDLE_INTEGRITY_LEN
  blobs : ∀ blobs ∈ p.bundleBlobs, blobs.length ≤ MAX_BUNDLE_BLOBS_PER_EXPORT
  blob : ∀ blobs ∈ p.bundleBlobs, ∀ b ∈ blobs, codeUnits b.name ≤ MAX_BUNDLE_BLOB_NAME_LEN ∧
    hasNul b.name = false ∧ base64Length b.data.length ≤ MAX_BUNDLE_BLOB_DATA_LEN

variable {b : BundleBlob}

/-- A blob is what the client has of a bundle of the workspace. -/
theorem mem_readBundleBlobs {integrities : List String} (hb : b ∈ readBundleBlobs c integrities) :
    b.integrity ∈ integrities ∧ b.name ≠ "" ∧
      c.bundles b.integrity = some (b.name, some b.data) := by
  obtain ⟨integrity, hmem, hsome⟩ := List.mem_filterMap.mp hb
  split at hsome
  · rename_i name bytes hbundle
    split at hsome
    · cases hsome
    · rename_i hname
      cases hsome
      exact ⟨hmem, hname, hbundle⟩
  · cases hsome

theorem mem_bundleBlobs {blobs : List BundleBlob}
    (hblobs : blobs ∈ (buildWorkspaceExportPayload lib c w includeBundleBytes).bundleBlobs)
    (hb : b ∈ blobs) : b ∈ readBundleBlobs c (w.bundles.filter (· ≠ "")) := by
  rw [buildWorkspaceExportPayload] at hblobs
  dsimp only at hblobs
  split at hblobs
  · cases hblobs
    exact hb
  · cases hblobs

theorem blobFault_eq_none_iff : blobFault b = none ↔
    b.integrity ≠ "" ∧ codeUnits b.integrity ≤ MAX_BUNDLE_INTEGRITY_LEN ∧ b.name ≠ "" ∧
      codeUnits b.name ≤ MAX_BUNDLE_BLOB_NAME_LEN ∧ hasNul b.name = false ∧
      base64Length b.data.length ≤ MAX_BUNDLE_BLOB_DATA_LEN := by
  rw [blobFault]
  split_ifs with h₁ h₂ h₃ h₄ h₅ h₆
  · simp [h₁]
  · simp [not_le.mpr h₂]
  · simp [h₃]
  · simp [not_le.mpr h₄]
  · simp [h₅]
  · simp [not_le.mpr h₆]
  · simp [h₁, h₃, h₅, not_lt.mp h₂, not_lt.mp h₄, not_lt.mp h₆]

/-- **A file is accepted exactly within the bounds of the import**, which the export does not
look at. -/
theorem accepted_iff :
    validateExportShape (buildWorkspaceExportPayload lib c w includeBundleBytes) = none ↔
      WithinCaps (buildWorkspaceExportPayload lib c w includeBundleBytes) := by
  have hversion : (buildWorkspaceExportPayload lib c w includeBundleBytes).version = 1 := rfl
  have hintegrity : ∀ blobs ∈
      (buildWorkspaceExportPayload lib c w includeBundleBytes).bundleBlobs, ∀ b ∈ blobs,
      b.name ≠ "" ∧ b.integrity ≠ "" ∧
        b.integrity ∈ (buildWorkspaceExportPayload lib c w includeBundleBytes).bundles := by
    intro blobs hblobs b hb
    obtain ⟨hmem, hname, -⟩ := mem_readBundleBlobs (mem_bundleBlobs hblobs hb)
    exact ⟨hname, of_decide_eq_true (mem_filter.mp hmem).2, hmem⟩
  generalize buildWorkspaceExportPayload lib c w includeBundleBytes = p at hversion hintegrity ⊢
  rw [validateExportShape, if_neg (not_not.mpr hversion)]
  by_cases hreports : MAX_REPORTS_PER_EXPORT < p.reports.length
  · rw [if_pos hreports]
    exact ⟨fun h => (by cases h), fun h => absurd h.reports (not_le.mpr hreports)⟩
  rw [if_neg hreports]
  by_cases hbundles : MAX_BUNDLES_PER_EXPORT < p.bundles.length
  · rw [if_pos hbundles]
    exact ⟨fun h => (by cases h), fun h => absurd h.bundles (not_le.mpr hbundles)⟩
  rw [if_neg hbundles]
  by_cases hlong : (p.bundles.any fun b => MAX_BUNDLE_INTEGRITY_LEN < codeUnits b) = true
  · rw [if_pos hlong]
    refine ⟨fun h => (by cases h), fun h => ?_⟩
    obtain ⟨b, hb, hcap⟩ := List.any_eq_true.mp hlong
    exact absurd (h.integrity b hb) (not_le.mpr (of_decide_eq_true hcap))
  rw [if_neg hlong]
  have hshort : ∀ b ∈ p.bundles, codeUnits b ≤ MAX_BUNDLE_INTEGRITY_LEN := by
    intro b hb
    by_contra hcap
    exact hlong (List.any_eq_true.mpr ⟨b, hb, decide_eq_true (not_le.mp hcap)⟩)
  rcases hblobs : p.bundleBlobs with _ | blobs
  · refine ⟨fun _ => ⟨not_lt.mp hreports, not_lt.mp hbundles, hshort, ?_, ?_⟩, fun _ => rfl⟩
    · rw [hblobs]
      exact fun _ h => (by cases h)
    · rw [hblobs]
      exact fun _ h => (by cases h)
  · dsimp only
    by_cases hcount : MAX_BUNDLE_BLOBS_PER_EXPORT < blobs.length
    · rw [if_pos hcount]
      exact ⟨fun h => (by cases h), fun h => absurd (h.blobs blobs hblobs) (not_le.mpr hcount)⟩
    rw [if_neg hcount, findSome?_eq_none_iff]
    constructor
    · intro h
      refine ⟨not_lt.mp hreports, not_lt.mp hbundles, hshort, ?_, ?_⟩
      · intro blobs' hblobs'
        cases hblobs.symm.trans hblobs'
        exact not_lt.mp hcount
      · intro blobs' hblobs' b hb
        cases hblobs.symm.trans hblobs'
        exact (blobFault_eq_none_iff.mp (h b hb)).2.2.2
    · intro h b hb
      obtain ⟨hname, hempty, hmem⟩ := hintegrity blobs hblobs b hb
      exact blobFault_eq_none_iff.mpr
        ⟨hempty, hshort _ hmem, hname, h.blob blobs hblobs b hb⟩

/-! ### What is saved -/

/-- Writing what a map says under its keys. -/
theorem foldl_insert {α V : Type*} (key : α → String) (val : α → V) (g : String → Option V)
    {l : List α} (hg : ∀ a ∈ l, g (key a) = some (val a)) (m : FMap String V) (k : String) :
    (l.foldl (fun m a => m.insert (key a) (val a)) m) k = if k ∈ l.map key then g k else m k := by
  induction l generalizing m with
  | nil => exact (if_neg not_mem_nil).symm
  | cons a l ih =>
    have hmem : k ∈ (a :: l).map key ↔ k = key a ∨ k ∈ l.map key := by
      rw [map_cons, mem_cons]
    rw [foldl_cons, ih fun b hb => hg b (mem_cons_of_mem a hb)]
    by_cases hk : k ∈ l.map key
    · rw [if_pos hk, if_pos (hmem.mpr (.inr hk))]
    · by_cases hka : k = key a
      · rw [if_neg hk, if_pos (hmem.mpr (.inl hka)), hka, insert_self, hg a mem_cons_self]
      · rw [if_neg hk, if_neg fun h => (hmem.mp h).elim hka hk, insert_of_ne _ hka]

theorem mem_readWorkspaceReports {r : ReportDoc} : r ∈ readWorkspaceReports c w ↔
    r.name ∈ w.reports ∧ c.files r.name = some r.content ∧ r.repo = manualRepo c r.name := by
  rw [readWorkspaceReports, List.mem_filterMap]
  constructor
  · rintro ⟨name, hname, hr⟩
    obtain ⟨content, hcontent, rfl⟩ := map_eq_some_iff.mp hr
    exact ⟨hname, hcontent, rfl⟩
  · rintro ⟨hname, hcontent, hrepo⟩
    exact ⟨r.name, hname, by rw [hcontent, map_some, ← hrepo]⟩

section Kept

variable {c : KeptClient lib sha512}

/-- Every report of the file is saved. -/
theorem storable_of_kept {r : ReportDoc} (hr : r ∈ readWorkspaceReports c.toClientState w) :
    (r.storable && lib.analyzes r.content) = true := by
  obtain ⟨-, hnul, hcontent, hanalyzes⟩ := c.saved _ _ (mem_readWorkspaceReports.mp hr).2.1
  rw [ReportDoc.storable, hnul, hanalyzes]
  simp [hcontent]

theorem savedNames_kept : savedNames lib
    (buildWorkspaceExportPayload lib c.toClientState w includeBundleBytes) =
      w.reports.filter fun name => (c.files name).isSome := by
  have hall : (readWorkspaceReports c.toClientState w).filter
      (fun r => r.storable && lib.analyzes r.content) = readWorkspaceReports c.toClientState w :=
    List.filter_eq_self.mpr fun r hr => storable_of_kept hr
  have hnames : ∀ l : List String, (l.filterMap fun name => (c.files name).map fun content =>
      (⟨name, content, manualRepo c.toClientState name⟩ : ReportDoc)).map (·.name) =
      l.filter fun name => (c.files name).isSome := by
    intro l
    induction l with
    | nil => rfl
    | cons name l ih =>
      rcases hname : c.files name with _ | content
      · simp [hname, ih]
      · simp [hname, ih]
  rw [savedNames]
  change (List.filter _ (readWorkspaceReports c.toClientState w)).map _ = _
  rw [hall]
  exact hnames w.reports

/-- The reports of an import into an empty client are those of the file. -/
theorem files_imported (name : String) :
    (applyWorkspaceImport lib sha512 names .empty
      (buildWorkspaceExportPayload lib c.toClientState w includeBundleBytes)).files name =
      if name ∈ w.reports then c.files name else none := by
  -- nothing of the file is refused:
  have hall : (readWorkspaceReports c.toClientState w).filter ReportDoc.storable =
      readWorkspaceReports c.toClientState w :=
    List.filter_eq_self.mpr fun r hr => (Bool.and_eq_true_iff.mp (storable_of_kept hr)).1
  have hread : ∀ r ∈ readWorkspaceReports c.toClientState w, c.files r.name = some r.content :=
    fun r hr => (mem_readWorkspaceReports.mp hr).2.1
  have hfold := foldl_insert (fun r : ReportDoc => r.name) (fun r => r.content)
    (fun name => c.files name) hread ∅ name
  rw [applyWorkspaceImport]
  change (((readWorkspaceReports c.toClientState w).filter ReportDoc.storable).foldl
    (fun m r => m.insert r.name r.content) ∅ : FMap String String) name = _
  rw [hall, hfold]
  by_cases hname : name ∈ w.reports
  · rw [if_pos hname]
    split
    · rfl
    · rename_i hmem
      rcases hcontent : c.files name with _ | content
      · rfl
      · have hdoc : (⟨name, content, manualRepo c.toClientState name⟩ : ReportDoc) ∈
            readWorkspaceReports c.toClientState w :=
          mem_readWorkspaceReports.mpr ⟨hname, hcontent, rfl⟩
        exact absurd (List.mem_map.mpr ⟨_, hdoc, rfl⟩) hmem
  · rw [if_neg hname, if_neg]
    · rfl
    · intro hmem
      obtain ⟨r, hr, rfl⟩ := List.mem_map.mp hmem
      exact hname (mem_readWorkspaceReports.mp hr).1

/-- The bytes that were shipped. -/
theorem bundles_imported (names : List String) {blobs : List BundleBlob} (hblobs : blobs ∈
      (buildWorkspaceExportPayload lib c.toClientState w includeBundleBytes).bundleBlobs)
    (hb : b ∈ blobs) :
    (applyWorkspaceImport lib sha512 names .empty
      (buildWorkspaceExportPayload lib c.toClientState w includeBundleBytes)).bundles b.integrity =
      c.bundles b.integrity ∧ c.bundles b.integrity = some (b.name, some b.data) := by
  have hkept : ∀ b ∈ blobs, sha512 b.data = b.integrity ∧
      c.bundles b.integrity = some (b.name, some b.data) := by
    intro b hb
    have hbundle := (mem_readBundleBlobs (mem_bundleBlobs hblobs hb)).2.2
    exact ⟨c.addressed _ _ _ hbundle, hbundle⟩
  have haddressed : ∀ b ∈ blobs, c.bundles (sha512 b.data) = some (b.name, some b.data) := by
    intro b hb
    rw [(hkept b hb).1]
    exact (hkept b hb).2
  have hfold := foldl_insert (fun b : BundleBlob => sha512 b.data) (fun b => (b.name, some b.data))
    (fun integrity => c.bundles integrity) haddressed ∅ b.integrity
  have hmem : b.integrity ∈ blobs.map fun b => sha512 b.data :=
    List.mem_map.mpr ⟨b, hb, (hkept b hb).1⟩
  refine ⟨?_, (hkept b hb).2⟩
  have hbundles : (applyWorkspaceImport lib sha512 names .empty
      (buildWorkspaceExportPayload lib c.toClientState w includeBundleBytes)).bundles =
      blobs.foldl (fun m b => m.insert (sha512 b.data) (b.name, some b.data)) ∅ := by
    rw [applyWorkspaceImport, mem_def.mp hblobs]
    rfl
  rw [hbundles, hfold, if_pos hmem]

/-- The repository of a report, under a name that a plain object does not inherit. -/
theorem repoUrls_imported {name : String} (hname : name ∈ w.reports)
    (hread : (c.files name).isSome) (hown : name ∉ objectPrototypeNames) :
    (applyWorkspaceImport lib sha512 names .empty
      (buildWorkspaceExportPayload lib c.toClientState w includeBundleBytes)).repoUrls name =
      nonempty (c.repoUrls name) := by
  obtain ⟨content, hcontent⟩ := isSome_iff_exists.mp hread
  have hnonempty := (c.saved name content hcontent).1
  have hproto : name ≠ "__proto__" := by
    rintro rfl
    exact hown (by decide)
  have hmanual : manualRepo c.toClientState name = nonempty (c.repoUrls name) := if_neg hnonempty
  have hmem : name ∈ ((readWorkspaceReports c.toClientState w).map (·.name)).toFinset := by
    rw [List.mem_toFinset]
    have hdoc : (⟨name, content, manualRepo c.toClientState name⟩ : ReportDoc) ∈
        readWorkspaceReports c.toClientState w :=
      mem_readWorkspaceReports.mpr ⟨hname, hcontent, rfl⟩
    exact List.mem_map.mpr ⟨_, hdoc, rfl⟩
  -- the file has the repository under its name:
  have hurl : (buildWorkspaceExportPayload lib c.toClientState w includeBundleBytes).repoUrls name =
      nonempty (c.repoUrls name) := by
    rw [buildWorkspaceExportPayload]
    dsimp only
    rw [ofKeys_apply, if_pos hmem, if_neg hproto, hmanual]
  have hsaved : name ∈ savedNames lib
      (buildWorkspaceExportPayload lib c.toClientState w includeBundleBytes) := by
    rw [savedNames_kept, mem_filter]
    exact ⟨hname, hread⟩
  rw [applyWorkspaceImport]
  dsimp only
  rw [adoptRepoUrls, ofKeys_apply, hurl, nonempty_nonempty]
  rcases hrepo : nonempty (c.repoUrls name) with _ | url
  · simp [ClientState.empty]
  · have hkey : name ∈ ClientState.empty.repoUrls.keys ∪
        (buildWorkspaceExportPayload lib c.toClientState w includeBundleBytes).repoUrls.keys := by
      refine Finset.mem_union_right _ (isSome_of_eq (v := url) ?_)
      rw [hurl, hrepo]
    rw [if_pos hkey, if_pos ⟨hsaved, rfl, hnonempty, rfl, hown⟩]

/-- The workspace of an import into an empty client. -/
theorem workspaces_imported (hw : w ∈ c.workspaces) :
    (applyWorkspaceImport lib sha512 names .empty
      (buildWorkspaceExportPayload lib c.toClientState w includeBundleBytes)).workspaces =
      [⟨w.id, (sanitizeWorkspaceName w.name).getD "Workspace", w.privateKey,
        w.reports.filter fun name => (c.files name).isSome, w.bundles, w.createdAt⟩] := by
  obtain ⟨hreports, hbundles, hempty⟩ := c.members w hw
  have hnonempty : w.bundles.filter (· ≠ "") = w.bundles :=
    List.filter_eq_self.mpr fun b hb => decide_eq_true fun h => hempty (h ▸ hb)
  have hkept : (buildWorkspaceExportPayload lib c.toClientState w includeBundleBytes).bundles =
      w.bundles := hnonempty
  have hnext : (importedWorkspace lib
      (buildWorkspaceExportPayload lib c.toClientState w includeBundleBytes)).next none =
      ⟨w.id, (sanitizeWorkspaceName w.name).getD "Workspace", w.privateKey,
        w.reports.filter fun name => (c.files name).isSome, w.bundles, w.createdAt⟩ := by
    rw [importedWorkspace, Upsert.next, savedNames_kept, hkept, hnonempty]
    dsimp only
    rw [eraseDups_of_nodup (hreports.filter _), if_neg Bool.false_ne_true,
      eraseDups_of_nodup hbundles, map_none, or_none]
    rfl
  rw [applyWorkspaceImport]
  exact congrArg (fun next => [next]) hnext

end Kept

/-! ### What is merged -/

variable {e : TriageEntry} {reports : List String}

theorem orEmpty_exportedEntry : orEmpty (exportedEntry reports e) =
    cleanEntry { e with ignoredReports := e.ignoredReports.filter (· ∈ reports) } :=
  orEmpty_normalizeEntry _

theorem norm_exportedEntry (reports : List String) (e : TriageEntry) (p : ConflictProperty) :
    p.norm (orEmpty (exportedEntry reports e)) = p.norm e := by
  rw [orEmpty_exportedEntry, norm_cleanEntry]
  cases p <;> rfl

theorem ignores_exportedEntry (reports : List String) (e : TriageEntry) (report : String) :
    Ignores (orEmpty (exportedEntry reports e)) report ↔ Ignores e report ∧ report ∈ reports := by
  rw [orEmpty_exportedEntry, ignores_cleanEntry, Ignores, Ignores]
  dsimp only
  rw [mem_filter, decide_eq_true_eq]
  tauto

/-- The ignores of an entry that the file has are marked, and none is there twice. -/
structure SettledIn (reports : List String) (e : TriageEntry) : Prop where
  nodup : e.ignoredReports.Nodup
  marked : ∀ r ∈ e.ignoredReports, r ∈ reports → r ∈ e.scopedIgnoredReports

theorem kept_exportedEntry : Kept (exportedEntry reports e) := by
  rcases hentry : exportedEntry reports e with _ | x
  · rfl
  · exact kept_normalizeEntry hentry

theorem settled_exportedEntry (h : SettledIn reports e) : Settled (exportedEntry reports e) where
  kept := kept_exportedEntry
  nodup := by
    rw [orEmpty_exportedEntry]
    exact nodup_cleanEntry (h.nodup.filter _)
  marked := by
    intro r hr
    rw [orEmpty_exportedEntry] at hr ⊢
    have hmem := (mem_filter.mp hr).1
    obtain ⟨hmem', hin⟩ := mem_filter.mp hmem
    rw [cleanEntry, mem_eraseDups, mem_filter]
    exact ⟨h.marked r hmem' (of_decide_eq_true hin), decide_eq_true hr⟩

theorem exported_triage (id : String) :
    (buildWorkspaceExportPayload lib c w includeBundleBytes).triage id =
      if id ∈ claimedIds lib c w ∧ id ≠ "__proto__" then
        exportedEntry w.reports (orEmpty (c.triage id)) else none := by
  rw [buildWorkspaceExportPayload]
  dsimp only
  rw [ofKeys_apply]
  split
  · rfl
  · rename_i hkey
    rw [eq_none_iff.mpr hkey]
    split
    · rfl
    · rfl

/-- What the file says of a finding after its ignores are filed. -/
theorem importedTriage_migrated (lib : ReportLibrary) (names : List String) (p : ExportPayload)
    (id : String) : Migrated (p.triage id) (importedTriage lib names p id) :=
  migrated_migrateIgnoredReports _ _ id

theorem importedTriage_none {p : ExportPayload} (hid : p.triage id = none) :
    importedTriage lib names p id = none := by
  have hsettled : Settled (p.triage id) := by
    rw [hid]
    exact ⟨rfl, nodup_nil, fun _ h => absurd h not_mem_nil⟩
  exact ((importedTriage_migrated lib names p id).settled hsettled).trans hid

/-! ### Main results -/

/-- What an empty client has after the import of what `c` exported of `w`. -/
structure ImportedAlone (lib : ReportLibrary) (c : ClientState) (w : Workspace)
    (blobs : Option (List BundleBlob)) (c' : ClientState) : Prop where
  workspace : ∃ w', c'.workspaces = [w'] ∧ w'.id = w.id ∧ w'.privateKey = w.privateKey ∧
    w'.createdAt = w.createdAt ∧ w'.bundles = w.bundles ∧
    (sanitizeWorkspaceName w.name = some w.name → w'.name = w.name) ∧
    ∀ name content, (name ∈ w'.reports ∧ c'.files name = some content) ↔
      (name ∈ w.reports ∧ c.files name = some content)
  blobs : ∀ bs ∈ blobs, ∀ b ∈ bs, c'.bundles b.integrity = some (b.name, some b.data)
  repoUrls : ∀ name ∈ w.reports, (c.files name).isSome → name ∉ objectPrototypeNames →
    c'.repoUrls name = nonempty (c.repoUrls name)
  annotations : ∀ id ∈ claimedIds lib c w, id ≠ "__proto__" →
    ∀ p ≠ ConflictProperty.triage, p.norm (orEmpty (c'.triage id)) = p.norm (orEmpty (c.triage id))
  settled : ∀ id ∈ claimedIds lib c w, id ≠ "__proto__" →
    SettledIn w.reports (orEmpty (c.triage id)) →
    bucketOf (orEmpty (c'.triage id)) = bucketOf (orEmpty (c.triage id)) ∧
    ∀ report, Ignores (orEmpty (c'.triage id)) report ↔
      allowsReportIgnores (orEmpty (c.triage id)) = true ∧
        Ignores (orEmpty (c.triage id)) report ∧ report ∈ w.reports

/-- What the import does to the client that exported. -/
structure ImportedBack (c : ClientState) (w : Workspace) (entries : TriageStateMap)
    (c' : ClientState) : Prop where
  conflicts : ∀ id, mergeConflicts c.triage entries id = []
  annotations : ∀ id, ∀ p ≠ ConflictProperty.triage,
    p.norm (orEmpty (c'.triage id)) = p.norm (orEmpty (c.triage id))
  settled : ∀ id, SettledIn w.reports (orEmpty (c.triage id)) → c'.triage id = c.triage id

section Main

variable {c : KeptClient lib sha512}

/-- The file says nothing of a finding, or what the client says of it. -/
theorem exported_norm (includeBundleBytes : Bool) (id : String) :
    (buildWorkspaceExportPayload lib c.toClientState w includeBundleBytes).triage id = none ∨
      (buildWorkspaceExportPayload lib c.toClientState w includeBundleBytes).triage id =
        exportedEntry w.reports (orEmpty (c.triage id)) := by
  rw [exported_triage]
  split
  · exact .inr rfl
  · exact .inl rfl

/-- Filing leaves a settled entry of the file alone. -/
theorem importedTriage_settled (names : List String)
    (hentry : (buildWorkspaceExportPayload lib c.toClientState w includeBundleBytes).triage id =
      exportedEntry w.reports (orEmpty (c.triage id)))
    (hsettled : SettledIn w.reports (orEmpty (c.triage id))) :
    importedTriage lib names
      (buildWorkspaceExportPayload lib c.toClientState w includeBundleBytes) id =
      exportedEntry w.reports (orEmpty (c.triage id)) := by
  have hmigrated := importedTriage_migrated lib names
    (buildWorkspaceExportPayload lib c.toClientState w includeBundleBytes) id
  rw [hentry] at hmigrated
  exact hmigrated.settled (settled_exportedEntry hsettled)

/-- Into nothing goes what the file says. -/
theorem norm_imported_empty (p : ExportPayload) (q : ConflictProperty) :
    q.norm (orEmpty ((applyWorkspaceImport lib sha512 names .empty p).triage id)) =
      q.norm (orEmpty (importedTriage lib names p id)) := by
  rw [applyWorkspaceImport]
  dsimp only
  rw [norm_mergeTriage]
  exact if_pos (norm_empty q)

/-- The ignores of a settled finding, which a bucket other than the shared ignore excludes. -/
theorem ignores_imported_empty {p : ExportPayload} {report : String}
    (himported : importedTriage lib names p id = exportedEntry reports e) :
    Ignores (orEmpty ((applyWorkspaceImport lib sha512 names .empty p).triage id)) report ↔
      allowsReportIgnores e = true ∧ Ignores e report ∧ report ∈ reports := by
  have hallows : allowsReportIgnores (orEmpty (exportedEntry reports e)) =
      allowsReportIgnores e := by
    rw [allowsReportIgnores, allowsReportIgnores,
      bucketOf_of_norm (norm_exportedEntry reports e .triage)]
  have hignores := ignores_exportedEntry reports e report
  rw [applyWorkspaceImport]
  dsimp only
  rw [mergeTriage_apply, himported, ← hallows]
  rcases hx : exportedEntry reports e with _ | x
  · rw [hx] at hignores
    rw [← hignores, elim_none]
    exact ⟨fun h => absurd h.2 not_mem_nil, fun h => absurd h.2.2 not_mem_nil⟩
  · rw [hx] at hignores
    rw [← hignores]
    exact ignores_mergeEntry_none

theorem importedAlone (hw : w ∈ c.workspaces) : ImportedAlone lib c.toClientState w
    (buildWorkspaceExportPayload lib c.toClientState w includeBundleBytes).bundleBlobs
    (applyWorkspaceImport lib sha512 names .empty
      (buildWorkspaceExportPayload lib c.toClientState w includeBundleBytes)) := by
  have hentry : ∀ id ∈ claimedIds lib c.toClientState w, id ≠ "__proto__" →
      (buildWorkspaceExportPayload lib c.toClientState w includeBundleBytes).triage id =
        exportedEntry w.reports (orEmpty (c.triage id)) := by
    intro id hid hproto
    rw [exported_triage, if_pos ⟨hid, hproto⟩]
  constructor
  case workspace =>
    refine ⟨_, workspaces_imported hw, rfl, rfl, rfl, rfl, fun hname => ?_, fun name content => ?_⟩
    · dsimp only
      rw [hname]
      rfl
    · dsimp only
      rw [files_imported, mem_filter]
      constructor
      · rintro ⟨⟨hmem, -⟩, hfile⟩
        rw [if_pos hmem] at hfile
        exact ⟨hmem, hfile⟩
      · rintro ⟨hmem, hfile⟩
        rw [if_pos hmem, hfile]
        exact ⟨⟨hmem, rfl⟩, rfl⟩
  case blobs =>
    intro bs hbs b hb
    obtain ⟨hsame, hbundle⟩ := bundles_imported names hbs hb
    exact hsame.trans hbundle
  case repoUrls => exact fun name hname hread hown => repoUrls_imported hname hread hown
  case annotations =>
    intro id hid hproto p hp
    rw [norm_imported_empty, (importedTriage_migrated lib names _ id).norm p hp,
      hentry id hid hproto, norm_exportedEntry]
  case settled =>
    intro id hid hproto hsettled
    have himported := importedTriage_settled names (hentry id hid hproto) hsettled
    refine ⟨?_, fun report => ignores_imported_empty himported⟩
    refine bucketOf_of_norm ?_
    rw [norm_imported_empty, himported, norm_exportedEntry]

theorem exportedEntry_subset {x : TriageEntry} (hx : exportedEntry reports e = some x) :
    x.ignoredReports ⊆ e.ignoredReports ∧ x.scopedIgnoredReports ⊆ e.scopedIgnoredReports := by
  have hclean : x = cleanEntry { e with ignoredReports := e.ignoredReports.filter (· ∈ reports) } :=
    by rw [← orEmpty_exportedEntry, hx]; rfl
  rw [hclean, cleanEntry]
  refine ⟨fun r hr => ?_, fun r hr => ?_⟩
  · exact (mem_filter.mp (mem_filter.mp hr).1).1
  · exact (mem_filter.mp (mem_eraseDups.mp hr)).1

/-- What is imported of a finding says of each property what the client does, or it is a bucket
where the client has none. -/
theorem norm_imported_back {x : TriageEntry} (hx : importedTriage lib names
      (buildWorkspaceExportPayload lib c.toClientState w includeBundleBytes) id = some x)
    (p : ConflictProperty) : p.norm (orEmpty (c.triage id)) = p.norm x ∨
      (p = .triage ∧ p.norm (orEmpty (c.triage id)) = "") := by
  rcases exported_norm includeBundleBytes id with hnone | hentry
  · rw [importedTriage_none hnone] at hx
    cases hx
  have hmigrated := importedTriage_migrated lib names
    (buildWorkspaceExportPayload lib c.toClientState w includeBundleBytes) id
  rw [hx, hentry] at hmigrated
  by_cases hp : p = .triage
  -- filing gives a bucket only where there is none
  · subst hp
    have hbucket : bucketOf (orEmpty (exportedEntry w.reports (orEmpty (c.triage id)))) =
        bucketOf (orEmpty (c.triage id)) := bucketOf_of_norm (norm_exportedEntry _ _ .triage)
    rcases hmigrated.bucket with hsame | hnone
    · rw [hbucket] at hsame
      exact .inl (norm_triage_inj.2 hsame.symm)
    · rw [hbucket] at hnone
      refine .inr ⟨rfl, ?_⟩
      rw [ConflictProperty.norm, hnone]
      rfl
  · have hsame := hmigrated.norm p hp
    rw [norm_exportedEntry] at hsame
    exact .inl hsame.symm

theorem importedBack : ImportedBack c.toClientState w
    (importedTriage lib names
      (buildWorkspaceExportPayload lib c.toClientState w includeBundleBytes))
    (applyWorkspaceImport lib sha512 names c.toClientState
      (buildWorkspaceExportPayload lib c.toClientState w includeBundleBytes)) := by
  constructor
  case conflicts =>
    intro id
    refine eq_nil_iff_forall_not_mem.2 fun p hp => ?_
    obtain ⟨himported, hlocal, hne⟩ := mem_mergeConflicts.1 hp
    rcases hx : importedTriage lib names
      (buildWorkspaceExportPayload lib c.toClientState w includeBundleBytes) id with _ | x
    · rw [hx] at himported
      exact himported (norm_empty p)
    · rw [hx] at hne
      rcases norm_imported_back hx p with hsame | ⟨-, hempty⟩
      · exact hne hsame
      · exact hlocal hempty
  case annotations =>
    intro id p hp
    rw [applyWorkspaceImport]
    dsimp only
    rw [norm_mergeTriage]
    split
    -- the client says nothing of the property, so the file does not either:
    · rename_i hempty
      rcases hx : importedTriage lib names
        (buildWorkspaceExportPayload lib c.toClientState w includeBundleBytes) id with _ | x
      · rw [hempty]
        exact norm_empty p
      · rcases norm_imported_back hx p with hsame | ⟨htriage, -⟩
        · exact hsame.symm
        · exact absurd htriage hp
    · rfl
  case settled =>
    intro id hsettled
    rw [applyWorkspaceImport]
    dsimp only
    rw [mergeTriage_apply]
    rcases exported_norm includeBundleBytes id with hnone | hentry
    · rw [importedTriage_none hnone]
      rfl
    · rw [importedTriage_settled names hentry hsettled]
      rcases hx : exportedEntry w.reports (orEmpty (c.triage id)) with _ | x
      · rfl
      · obtain ⟨hreports, hmarked⟩ := exportedEntry_subset hx
        -- what the file has is part of what the client has:
        refine mergeEntry_self (c.entries id) hsettled.nodup (fun p hne hempty => hne ?_) hreports
          hmarked
        have hsame := norm_exportedEntry w.reports (orEmpty (c.triage id)) p
        rw [hx] at hsame
        exact hsame.trans hempty

/-- **An export comes back.**  Its file is accepted exactly within the bounds of the import.  An
empty client gets the workspace, its readable reports, its bundles, the bytes that were shipped, the
repositories of the reports, and of every finding its color, comment, fix and flag; of a finding
whose ignores are settled, also its bucket and what it ignores of the reports, unless the bucket
excludes ignores.  The client that exported gets no conflict and no change of these. -/
theorem workspace_round_trip (c : KeptClient lib sha512) {w : Workspace} (hw : w ∈ c.workspaces)
    (includeBundleBytes : Bool) (names : List String) :
    (parseWorkspaceJson (buildWorkspaceExportPayload lib c.toClientState w includeBundleBytes) =
        .ok (buildWorkspaceExportPayload lib c.toClientState w includeBundleBytes) ↔
      WithinCaps (buildWorkspaceExportPayload lib c.toClientState w includeBundleBytes)) ∧
    ImportedAlone lib c.toClientState w
      (buildWorkspaceExportPayload lib c.toClientState w includeBundleBytes).bundleBlobs
      (applyWorkspaceImport lib sha512 names .empty
        (buildWorkspaceExportPayload lib c.toClientState w includeBundleBytes)) ∧
    ImportedBack c.toClientState w
      (importedTriage lib names
        (buildWorkspaceExportPayload lib c.toClientState w includeBundleBytes))
      (applyWorkspaceImport lib sha512 names c.toClientState
        (buildWorkspaceExportPayload lib c.toClientState w includeBundleBytes)) := by
  refine ⟨?_, importedAlone hw, importedBack⟩
  rw [← accepted_iff, parseWorkspaceJson]
  rcases validateExportShape (buildWorkspaceExportPayload lib c.toClientState w includeBundleBytes)
    with _ | reason
  · exact ⟨fun _ => rfl, fun _ => rfl⟩
  · exact ⟨fun h => (by cases h), fun h => (by cases h)⟩

end Main

/-- More bundles than the import takes. -/
theorem refused_of_bundles (hempty : "" ∉ w.bundles)
    (hlong : MAX_BUNDLES_PER_EXPORT < w.bundles.length) :
    validateExportShape (buildWorkspaceExportPayload lib c w includeBundleBytes) ≠ none := by
  intro h
  have hcap : (w.bundles.filter (· ≠ "")).length ≤ MAX_BUNDLES_PER_EXPORT :=
    (accepted_iff.mp h).bundles
  have hall : w.bundles.filter (· ≠ "") = w.bundles :=
    List.filter_eq_self.mpr fun b hb => decide_eq_true fun hb' => hempty (hb' ▸ hb)
  rw [hall] at hcap
  exact absurd hcap (not_le.mpr hlong)

/-- Every report has the finding `f`, in code of its own. -/
def oneFinding : ReportLibrary := ⟨fun _ => some [⟨some "f", "0", false⟩], fun _ => true⟩

/-- A client with two reports, a workspace and an entry of the finding. -/
def oneWorkspace (w : Workspace) (hw : w.reports.Nodup ∧ w.bundles.Nodup ∧ "" ∉ w.bundles)
    (e : TriageEntry) (he : Kept (some e)) : KeptClient oneFinding fun _ => "sha512" where
  files := FMap.insert (FMap.insert ∅ "own" "a") "dep" "b"
  triage := oneEntry e
  repoUrls := ∅
  bundles := ∅
  workspaces := [w]
  entries id := by
    rw [oneEntry, FMap.ofKeys_apply]
    split
    · exact he
    · rfl
  saved name content h := by
    rw [FMap.insert_apply, FMap.insert_apply] at h
    split_ifs at h with hdep hown
    · cases h
      subst hdep
      decide
    · cases h
      subst hown
      decide
    · cases h
  addressed _ _ _ h := by cases h
  members w' hw' := by
    rw [mem_singleton.mp hw']
    exact hw

/-- A workspace of the two reports. -/
def twoReports : Workspace := ⟨"id", "Work", "key", ["own", "dep"], [], 0⟩

/-- So many integrities, no two the same. -/
def integrities (n : ℕ) : List String :=
  (List.range n).map fun i => String.ofList (List.replicate (i + 1) 'b')

theorem nodup_integrities (n : ℕ) : (integrities n).Nodup := by
  refine nodup_range.map fun i j h => ?_
  have hlength := congrArg (fun s => s.toList.length) h
  simp only [String.toList_ofList, length_replicate] at hlength
  exact succ_injective hlength

theorem nonempty_integrities (n : ℕ) : "" ∉ integrities n := by
  intro h
  obtain ⟨i, -, hi⟩ := List.mem_map.mp h
  have hlist := congrArg String.toList hi
  rw [String.toList_ofList] at hlist
  cases hlist

theorem length_integrities (n : ℕ) : (integrities n).length = n := by
  rw [integrities, length_map, length_range]

/-- A workspace of more bundles than the import takes. -/
def manyBundles : Workspace :=
  ⟨"id", "Work", "key", [], integrities (MAX_BUNDLES_PER_EXPORT + 1), 0⟩

theorem bundles_manyBundles : manyBundles.bundles = integrities (MAX_BUNDLES_PER_EXPORT + 1) := by
  rw [manyBundles]

theorem manyBundles_members :
    manyBundles.reports.Nodup ∧ manyBundles.bundles.Nodup ∧ "" ∉ manyBundles.bundles := by
  rw [bundles_manyBundles]
  exact ⟨nodup_nil, nodup_integrities _, nonempty_integrities _⟩

/-- A finding that is fixed in one report, and ignored in the other one. -/
def fixedAndIgnored : TriageEntry := ⟨none, some .fixed, none, none, none, ["dep"], ["dep"], false⟩

/-- The round trip of a workspace of two reports with a finding that is fixed. -/
theorem workspace_round_trip_fixed :
    ImportedBack (oneWorkspace twoReports (by decide) fixedAndIgnored (by decide)).toClientState
      twoReports
      (importedTriage oneFinding [] (buildWorkspaceExportPayload oneFinding
        (oneWorkspace twoReports (by decide) fixedAndIgnored (by decide)).toClientState twoReports
        true))
      (applyWorkspaceImport oneFinding (fun _ => "sha512") []
        (oneWorkspace twoReports (by decide) fixedAndIgnored (by decide)).toClientState
        (buildWorkspaceExportPayload oneFinding
          (oneWorkspace twoReports (by decide) fixedAndIgnored (by decide)).toClientState twoReports
          true)) :=
  (workspace_round_trip (oneWorkspace twoReports (by decide) fixedAndIgnored (by decide))
    (mem_singleton_self _) true []).2.2

/-- The ignore of a finding with a bucket is lost, and more bundles than the import takes make it
refuse the file. -/
theorem workspace_export_lost :
    (∃ c : KeptClient oneFinding fun _ => "sha512", twoReports ∈ c.workspaces ∧
      "f" ∈ claimedIds oneFinding c.toClientState twoReports ∧
      (orEmpty (c.triage "f")).ignoredReports = ["dep"] ∧
      (orEmpty ((applyWorkspaceImport oneFinding (fun _ => "sha512") [] .empty
        (buildWorkspaceExportPayload oneFinding c.toClientState twoReports false)).triage
          "f")).ignoredReports = []) ∧
    ∃ c : KeptClient oneFinding fun _ => "sha512", manyBundles ∈ c.workspaces ∧
      validateExportShape (buildWorkspaceExportPayload oneFinding c.toClientState manyBundles
        false) ≠ none := by
  constructor
  · refine ⟨oneWorkspace twoReports (by decide) fixedAndIgnored (by decide), ?_, ?_, ?_, ?_⟩
    · exact mem_singleton_self _
    · decide +kernel
    · decide +kernel
    · decide +kernel
  · refine ⟨oneWorkspace manyBundles manyBundles_members fixedAndIgnored (by decide), ?_, ?_⟩
    · exact mem_singleton_self _
    · refine refused_of_bundles manyBundles_members.2.2 ?_
      rw [bundles_manyBundles, length_integrities]
      exact Nat.lt_succ_self _

end Triage.Client
