import Mathlib.Data.List.Basic

/-!
# The paths of managed storage

Rows own payloads and caches by the paths of their objects, and the path of an object tells its
owner.
-/

namespace Triage.Managed

/-- The path of an object. -/
abbrev ObjectKey := List Char

inductive StorageRowKind
  | report | bundle
  deriving DecidableEq

/-- `/^[0-9a-f]{8}-[0-9a-f]{4}-[0-9a-f]{4}-[0-9a-f]{4}-[0-9a-f]{12}$/u` -/
def isBlobId (value : List Char) : Bool :=
  (value.splitOn '-').map List.length = [8, 4, 4, 4, 12] &&
    value.all fun c => c = '-' || '0' ≤ c && c ≤ '9' || 'a' ≤ c && c ≤ 'f'

/-- The paths of a row's payload; `sourcemap` tells the kind of a bundle. -/
def storageRowPaths (type : StorageRowKind) (id : List Char) (sourcemap : Bool) : List ObjectKey :=
  match type with
  | .report => ["reports/".toList ++ id ++ ".br".toList, "reports/".toList ++ id]
  | .bundle => ["bundles/".toList ++ id ++ if sourcemap then ".map.br".toList else []]

structure StorageOwner where
  type : StorageRowKind
  id : List Char
  cache : Bool
  deriving DecidableEq

/-- A value without a suffix, if it has it. -/
def stripSuffix (suffix value : List Char) : List Char :=
  if suffix <:+ value then value.take (value.length - suffix.length) else value

def encryptedCachePrefix : ObjectKey := "cache-encrypted-v1/".toList
def repositoryCodeCachePrefix : ObjectKey := "cache/repository-code/".toList

def masterKeyCache (identity : ObjectKey) : Bool := repositoryCodeCachePrefix <+: identity

def storageOwner (identity : ObjectKey) : Option StorageOwner :=
  match identity.splitOn '/' with
  | [dir, file] =>
    if dir = "reports".toList ∧ isBlobId (stripSuffix ".br".toList file) then
      some ⟨.report, stripSuffix ".br".toList file, false⟩
    else if dir = "bundles".toList ∧ isBlobId (stripSuffix ".map.br".toList file) then
      some ⟨.bundle, stripSuffix ".map.br".toList file, false⟩
    else none
  | root :: dir :: id :: _ :: _ =>
    if root = "cache".toList ∧ (dir = "bundles".toList ∨ dir = "report-sources".toList) ∧
        isBlobId id then some ⟨.bundle, id, true⟩
    else none
  | _ => none

/-! ### Temporary files -/

/-- What `.` of a pattern does not match. -/
def lineTerminators : List Char := ['\n', '\r', Char.ofNat 0x2028, Char.ofNat 0x2029]

/-- `/^(.+)\.([^.]+)\.tmp$/u`, of which the second group is a blob id. -/
def temporaryPath (identity : ObjectKey) : Option ObjectKey :=
  match (identity.splitOn '.').reverse with
  | last :: id :: path =>
    have target := List.intercalate ['.'] path.reverse
    if last = "tmp".toList && isBlobId id && !target.isEmpty &&
        target.all fun c => !lineTerminators.contains c then some target
    else none
  | _ => none

/-- The owner of an object that the cleanup looks at, and whether it is a temporary file.  A cache
no row owns has no type and no id. -/
structure CleanupTarget where
  owner : Option (StorageRowKind × List Char)
  cache : Bool
  temporary : Bool
  deriving DecidableEq

def cleanupTarget (identity : ObjectKey) : Option CleanupTarget :=
  have temporary := temporaryPath identity
  have path := temporary.getD identity
  if encryptedCachePrefix <+: path ∧ temporary = none then none
  else
    have logical := if encryptedCachePrefix <+: path then
      "cache/".toList ++ path.drop encryptedCachePrefix.length else path
    match storageOwner logical with
    | some owner => some ⟨some (owner.type, owner.id), owner.cache, temporary.isSome⟩
    | none =>
      if masterKeyCache logical then some ⟨none, true, temporary.isSome⟩ else none

example : cleanupTarget "cache/repository-code/a".toList = some ⟨none, true, false⟩ := by decide

end Triage.Managed
