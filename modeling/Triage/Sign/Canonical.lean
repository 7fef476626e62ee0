import Mathlib

/-!
# Canonical signing bytes

Every request that changes or reads a workspace on the relay is signed with the workspace's key over
*canonical bytes*: a domain string and the signed fields, joined by newlines and encoded as UTF-8.
The relay (`server-e2e/sign.ts`, `server-e2e/objstore/sign.ts`) and the client
(`client/sync/sync-crypto.ts`, `client/sync/objstore-crypto.ts`) build them separately.

A signature is good for whatever request has the bytes it covers, so two requests the relay accepts
must not share them. The relay's validation gates keep the newline out of every field; this file
proves that this is enough, for all pairs of request kinds.

## Main results

* `join_injective` : joining fields free of the separator loses nothing.
* `canonical_separates` : **two requests that pass the gates have equal bytes only if they are the
  same request**, and the client's bytes are the relay's.
-/

namespace Triage.Sign

open List String

/-! ### Joining fields -/

/-- Joining by a newline is injective on non-empty lists of fields without newlines. -/
theorem join_injective {l m : List String} (hl : ∀ s ∈ l, '\n' ∉ s.toList)
    (hm : ∀ s ∈ m, '\n' ∉ s.toList) (hl₀ : l ≠ []) (hm₀ : m ≠ [])
    (h : "\n".intercalate l = "\n".intercalate m) : l = m := by
  have hlist :
      ['\n'].intercalate (l.map toList) = ['\n'].intercalate (m.map toList) := by
    have := congrArg toList h
    rwa [toList_intercalate, toList_intercalate] at this
  have hsplit := congrArg (List.splitOn '\n') hlist
  rw [splitOn_intercalate _ (by simpa using hl) (by simpa using hl₀),
    splitOn_intercalate _ (by simpa using hm) (by simpa using hm₀)] at hsplit
  exact map_injective_iff.mpr (fun _ _ hs => toList_inj.mp hs) hsplit

/-! ### The relay's validators -/

/-- `[\w-]`. -/
def tagChar (c : Char) : Bool := c.isAlphanum || c == '_' || c == '-'

/-- `[\w+/=-]`. -/
def nonceChar (c : Char) : Bool := tagChar c || c == '+' || c == '/' || c == '='

/-- `MAX_FIELD_LEN`. -/
def maxFieldLen : ℕ := 128

/-- `validTagSigBase`: base64url, of bounded length. -/
def validTagSigBase (s : String) (max : ℕ) : Bool :=
  0 < s.length && s.length ≤ max && s.toList.all tagChar

/-- `validNonce`: base64 or base64url, of bounded length. -/
def validNonce (s : String) (max : ℕ) : Bool :=
  0 < s.length && s.length ≤ max && s.toList.all nonceChar

/-- `validCiphertextShape`: as `validNonce`, without a bound. -/
def validCiphertextShape (s : String) : Bool := 0 < s.length && s.toList.all nonceChar

/-- `isValidTag`. -/
def isValidTag (s : String) : Bool := validTagSigBase s 256

/-- `isValidContentHash`: 43 base64url characters. -/
def isValidContentHash (s : String) : Bool := s.length == 43 && s.toList.all tagChar

/-- The shape of `randomId()`: 22 base64url characters.  The relay's `isValidIncarnation` checks it;
its challenge nonces are made by `randomId()`. -/
def isRandomId (s : String) : Bool := s.length == 22 && s.toList.all tagChar

/-- `Number.isSafeInteger`, of an integer. -/
def isSafeInteger (n : ℤ) : Bool := -9007199254740991 ≤ n && n ≤ 9007199254740991

/-- `isSafeNonNegativeInt`. -/
def isSafeNonNegativeInt (n : ℤ) : Bool := isSafeInteger n && 0 ≤ n

/-- `MAX_CONTENT_LENGTH`. -/
def maxContentLength : ℤ := 100 * 1024 * 1024

/-- `prevVersion` and `prevIncarnation` are both null, or a safe integer and an incarnation. -/
def validPrev (prevVersion : Option ℤ) (prevIncarnation : Option String) : Bool :=
  match prevVersion, prevIncarnation with
  | none, none => true
  | some v, some i => isSafeInteger v && isRandomId i
  | _, _ => false

/-! ### The signed requests -/

/-- The fields of a save. -/
structure SaveMsg where
  workspaceTag : String
  /-- The id of the previous revision. -/
  base : Option String
  /-- `msg.keyframe === true`. -/
  keyframe : Bool
  nonce : String
  ciphertext : String
  deriving DecidableEq

/-- The fields of a subscribe. -/
structure SubscribeMsg where
  workspaceTag : String
  /-- The last revision the client has (`from` on the wire). -/
  fromId : Option String
  connectionNonce : String
  deriving DecidableEq

/-- The fields an object put commits to, on either plane. -/
structure PutFields where
  workspaceTag : String
  resourceTag : String
  prevVersion : Option ℤ
  prevIncarnation : Option String
  contentHash : String
  expectedLength : ℤ
  deriving DecidableEq

/-- The fields an object delete commits to, on either plane. -/
structure DeleteFields where
  workspaceTag : String
  resourceTag : String
  prevVersion : Option ℤ
  prevIncarnation : Option String
  deriving DecidableEq

/-- A signed request.  On the socket the objects' requests bind the connection's challenge nonce, on
the REST plane a timestamp; a save is the same request on both. -/
inductive Request
  | save (msg : SaveMsg)
  | subscribe (msg : SubscribeMsg)
  | objstorePut (fields : PutFields) (connectionNonce : String)
  | objstoreDelete (fields : DeleteFields) (connectionNonce : String)
  | objstoreFetch (workspaceTag resourceTag connectionNonce : String)
  | objstorePutRest (fields : PutFields) (ts : ℤ)
  | objstoreDeleteRest (fields : DeleteFields) (ts : ℤ)
  | objstoreFetchRest (workspaceTag resourceTag : String) (ts : ℤ)
  deriving DecidableEq

open Request

/-- The checks of `commitSave` on the signed fields. -/
def SaveMsg.gate (m : SaveMsg) : Bool :=
  validTagSigBase m.workspaceTag maxFieldLen && validNonce m.nonce maxFieldLen &&
    validCiphertextShape m.ciphertext && m.base.all (validTagSigBase · maxFieldLen)

/-- The checks of `handleSubscribe`. -/
def SubscribeMsg.gate (m : SubscribeMsg) : Bool :=
  validTagSigBase m.workspaceTag maxFieldLen && m.fromId.all (validTagSigBase · maxFieldLen) &&
    isRandomId m.connectionNonce

/-- The checks of `handlePutBegin` and `handleRestPutBegin`. -/
def PutFields.gate (f : PutFields) : Bool :=
  isValidTag f.workspaceTag && isValidTag f.resourceTag && isValidContentHash f.contentHash &&
    isSafeNonNegativeInt f.expectedLength && f.expectedLength ≤ maxContentLength &&
    validPrev f.prevVersion f.prevIncarnation

/-- The checks of `handleDelete` and `handleRestDelete`. -/
def DeleteFields.gate (f : DeleteFields) : Bool :=
  isValidTag f.workspaceTag && isValidTag f.resourceTag &&
    validPrev f.prevVersion f.prevIncarnation

/-- The relay's validation of the signed fields of a request. -/
def Request.gate : Request → Bool
  | .save m => m.gate
  | .subscribe m => m.gate
  | .objstorePut f nonce => f.gate && isRandomId nonce
  | .objstoreDelete f nonce => f.gate && isRandomId nonce
  | .objstoreFetch tag res nonce => isValidTag tag && isValidTag res && isRandomId nonce
  | .objstorePutRest f ts => f.gate && isSafeNonNegativeInt ts
  | .objstoreDeleteRest f ts => f.gate && isSafeNonNegativeInt ts
  | .objstoreFetchRest tag res ts => isValidTag tag && isValidTag res && isSafeNonNegativeInt ts

/-! ### The relay's bytes -/

/-- `encodeUtf8(fields.join('\n'))`. -/
def encodeJoined (fields : List String) : ByteArray := ("\n".intercalate fields).toUTF8

/-- `String(v)` of a safe integer. -/
def intString (v : ℤ) : String := v.repr

/-- `intOrEmpty`. -/
def intOrEmpty (v : Option ℤ) : String := v.elim "" intString

/-- `strOrEmpty`. -/
def strOrEmpty (v : Option String) : String := v.getD ""

def saveDomain : String := "deepview-triage-sync.v1.save"
def subscribeDomain : String := "deepview-triage-sync.v1.subscribe"
def objstorePutDomain : String := "deepview-objstore.v1.put"
def objstoreDeleteDomain : String := "deepview-objstore.v1.delete"
def objstoreFetchDomain : String := "deepview-objstore.v1.fetch"
def objstoreFetchRestDomain : String := "deepview-objstore.v1.fetch-rest"
def objstorePutRestDomain : String := "deepview-objstore.v1.put-rest"
def objstoreDeleteRestDomain : String := "deepview-objstore.v1.delete-rest"

/-! The canonical functions give the list of strings they join; `encodeJoined` makes the bytes. -/

def canonicalSave (m : SaveMsg) : List String :=
  [saveDomain, m.workspaceTag, m.base.getD "", if m.keyframe then "1" else "", m.nonce,
    m.ciphertext]

def canonicalSubscribe (m : SubscribeMsg) : List String :=
  [subscribeDomain, m.workspaceTag, m.fromId.getD "", m.connectionNonce]

def canonicalObjstorePut (f : PutFields) (connectionNonce : String) : List String :=
  [objstorePutDomain, f.workspaceTag, f.resourceTag, intOrEmpty f.prevVersion,
    strOrEmpty f.prevIncarnation, f.contentHash, intString f.expectedLength, connectionNonce]

def canonicalObjstoreDelete (f : DeleteFields) (connectionNonce : String) : List String :=
  [objstoreDeleteDomain, f.workspaceTag, f.resourceTag, intOrEmpty f.prevVersion,
    strOrEmpty f.prevIncarnation, connectionNonce]

def canonicalObjstoreFetch (workspaceTag resourceTag connectionNonce : String) : List String :=
  [objstoreFetchDomain, workspaceTag, resourceTag, connectionNonce]

def canonicalObjstoreFetchRest (workspaceTag resourceTag : String) (ts : ℤ) : List String :=
  [objstoreFetchRestDomain, workspaceTag, resourceTag, intString ts]

def canonicalObjstorePutRest (f : PutFields) (ts : ℤ) : List String :=
  [objstorePutRestDomain, f.workspaceTag, f.resourceTag, intOrEmpty f.prevVersion,
    strOrEmpty f.prevIncarnation, f.contentHash, intString f.expectedLength, intString ts]

def canonicalObjstoreDeleteRest (f : DeleteFields) (ts : ℤ) : List String :=
  [objstoreDeleteRestDomain, f.workspaceTag, f.resourceTag, intOrEmpty f.prevVersion,
    strOrEmpty f.prevIncarnation, intString ts]

/-- The strings the relay joins for a request. -/
def Request.parts : Request → List String
  | .save m => canonicalSave m
  | .subscribe m => canonicalSubscribe m
  | .objstorePut f nonce => canonicalObjstorePut f nonce
  | .objstoreDelete f nonce => canonicalObjstoreDelete f nonce
  | .objstoreFetch tag res nonce => canonicalObjstoreFetch tag res nonce
  | .objstorePutRest f ts => canonicalObjstorePutRest f ts
  | .objstoreDeleteRest f ts => canonicalObjstoreDeleteRest f ts
  | .objstoreFetchRest tag res ts => canonicalObjstoreFetchRest tag res ts

/-- The bytes the relay verifies the signature against. -/
def Request.canonical (r : Request) : ByteArray := encodeJoined r.parts

/-! ### The client's bytes -/

namespace Client

def signDomain : String := "deepview-triage-sync.v1.save"
def subscribeDomain : String := "deepview-triage-sync.v1.subscribe"
def putDomain : String := "deepview-objstore.v1.put"
def deleteDomain : String := "deepview-objstore.v1.delete"
def fetchDomain : String := "deepview-objstore.v1.fetch"
def fetchRestDomain : String := "deepview-objstore.v1.fetch-rest"
def putRestDomain : String := "deepview-objstore.v1.put-rest"
def deleteRestDomain : String := "deepview-objstore.v1.delete-rest"

/-- `v == null ? '' : String(v)`. -/
def intOrEmpty : Option ℤ → String
  | none => ""
  | some v => intString v

/-- `v == null ? '' : v`. -/
def incOrEmpty : Option String → String
  | none => ""
  | some v => v

/-- `canonicalSavePayload`. -/
def canonicalSavePayload (publicKeyB64 : String) (base : Option String) (keyframe : Bool)
    (nonceB64 ciphertextB64 : String) : List String :=
  [signDomain, publicKeyB64, incOrEmpty base, if keyframe then "1" else "", nonceB64,
    ciphertextB64]

/-- `canonicalSubscribePayload`. -/
def canonicalSubscribePayload (publicKeyB64 : String) (fromBase : Option String)
    (connectionNonce : String) : List String :=
  [subscribeDomain, publicKeyB64, incOrEmpty fromBase, connectionNonce]

def canonicalObjstorePut (f : PutFields) (connectionNonce : String) : List String :=
  [putDomain, f.workspaceTag, f.resourceTag, intOrEmpty f.prevVersion,
    incOrEmpty f.prevIncarnation, f.contentHash, intString f.expectedLength, connectionNonce]

def canonicalObjstoreDelete (f : DeleteFields) (connectionNonce : String) : List String :=
  [deleteDomain, f.workspaceTag, f.resourceTag, intOrEmpty f.prevVersion,
    incOrEmpty f.prevIncarnation, connectionNonce]

def canonicalObjstoreFetch (workspaceTag resourceTag connectionNonce : String) : List String :=
  [fetchDomain, workspaceTag, resourceTag, connectionNonce]

def canonicalObjstoreFetchRest (workspaceTag resourceTag : String) (ts : ℤ) : List String :=
  [fetchRestDomain, workspaceTag, resourceTag, intString ts]

def canonicalObjstorePutRest (f : PutFields) (ts : ℤ) : List String :=
  [putRestDomain, f.workspaceTag, f.resourceTag, intOrEmpty f.prevVersion,
    incOrEmpty f.prevIncarnation, f.contentHash, intString f.expectedLength, intString ts]

def canonicalObjstoreDeleteRest (f : DeleteFields) (ts : ℤ) : List String :=
  [deleteRestDomain, f.workspaceTag, f.resourceTag, intOrEmpty f.prevVersion,
    incOrEmpty f.prevIncarnation, intString ts]

end Client

open Client

/-- The strings the client joins for a request. -/
def Request.clientParts : Request → List String
  | .save m =>
    Client.canonicalSavePayload m.workspaceTag m.base m.keyframe m.nonce m.ciphertext
  | .subscribe m => Client.canonicalSubscribePayload m.workspaceTag m.fromId m.connectionNonce
  | .objstorePut f nonce => Client.canonicalObjstorePut f nonce
  | .objstoreDelete f nonce => Client.canonicalObjstoreDelete f nonce
  | .objstoreFetch tag res nonce => Client.canonicalObjstoreFetch tag res nonce
  | .objstorePutRest f ts => Client.canonicalObjstorePutRest f ts
  | .objstoreDeleteRest f ts => Client.canonicalObjstoreDeleteRest f ts
  | .objstoreFetchRest tag res ts => Client.canonicalObjstoreFetchRest tag res ts

/-- The bytes the client signs for a request. -/
def Request.clientCanonical (r : Request) : ByteArray := encodeJoined r.clientParts

/-! ### No newline passes a gate -/

/-- The string has no newline. -/
def NoNewline (s : String) : Prop := '\n' ∉ s.toList

instance (s : String) : Decidable (NoNewline s) := inferInstanceAs (Decidable (¬ _))

variable {s : String} {o i : Option String} {v : Option ℤ} {f : PutFields} {r : Request}

theorem noNewline_of_tagChar (h : s.toList.all tagChar) : NoNewline s := by
  intro hmem
  exact absurd (all_eq_true.mp h _ hmem) (by decide)

theorem noNewline_of_nonceChar (h : s.toList.all nonceChar) : NoNewline s := by
  intro hmem
  exact absurd (all_eq_true.mp h _ hmem) (by decide)

theorem noNewline_of_validTagSigBase {max : ℕ} (h : validTagSigBase s max) : NoNewline s := by
  simp only [validTagSigBase, Bool.and_eq_true] at h
  exact noNewline_of_tagChar h.2

theorem noNewline_of_isRandomId (h : isRandomId s) : NoNewline s := by
  simp only [isRandomId, Bool.and_eq_true] at h
  exact noNewline_of_tagChar h.2

theorem noNewline_of_validNonce {max : ℕ} (h : validNonce s max) : NoNewline s := by
  simp only [validNonce, Bool.and_eq_true] at h
  exact noNewline_of_nonceChar h.2

theorem noNewline_natRepr (n : ℕ) : NoNewline n.repr := by
  intro hmem
  rw [Nat.repr, toList_ofList] at hmem
  exact absurd (Nat.isDigit_of_mem_toDigits (by decide) (by decide) hmem) (by decide)

theorem noNewline_intString (v : ℤ) : NoNewline (intString v) := by
  rw [intString, Int.repr_eq_if]
  split_ifs
  · exact noNewline_natRepr _
  · intro hmem
    rw [toList_append, mem_append] at hmem
    rcases hmem with hmem | hmem
    · exact absurd hmem (by decide)
    · exact noNewline_natRepr _ hmem

theorem noNewline_getD (h : ∀ s ∈ o, NoNewline s) : NoNewline (o.getD "") := by
  cases o with
  | none => simp [NoNewline]
  | some s => exact h s rfl

theorem noNewline_validPrev (h : validPrev v i) :
    NoNewline (intOrEmpty v) ∧ NoNewline (strOrEmpty i) := by
  cases v with
  | none =>
    cases i with
    | none => exact ⟨by simp [NoNewline, intOrEmpty], by simp [NoNewline, strOrEmpty]⟩
    | some i => cases h
  | some v =>
    cases i with
    | none => cases h
    | some i =>
      simp only [validPrev, Bool.and_eq_true] at h
      exact ⟨noNewline_intString v, noNewline_of_isRandomId h.2⟩

theorem PutFields.noNewline (h : f.gate) :
    NoNewline f.workspaceTag ∧ NoNewline f.resourceTag ∧ NoNewline (intOrEmpty f.prevVersion) ∧
      NoNewline (strOrEmpty f.prevIncarnation) ∧ NoNewline f.contentHash := by
  simp only [PutFields.gate, isValidContentHash, Bool.and_eq_true] at h
  obtain ⟨⟨⟨⟨⟨htag, hres⟩, hhash⟩, -⟩, -⟩, hprev⟩ := h
  obtain ⟨hv, hi⟩ := noNewline_validPrev hprev
  exact ⟨noNewline_of_validTagSigBase htag, noNewline_of_validTagSigBase hres, hv, hi,
    noNewline_of_tagChar hhash.2⟩

theorem DeleteFields.noNewline {f : DeleteFields} (h : f.gate) :
    NoNewline f.workspaceTag ∧ NoNewline f.resourceTag ∧ NoNewline (intOrEmpty f.prevVersion) ∧
      NoNewline (strOrEmpty f.prevIncarnation) := by
  simp only [DeleteFields.gate, Bool.and_eq_true] at h
  obtain ⟨⟨htag, hres⟩, hprev⟩ := h
  obtain ⟨hv, hi⟩ := noNewline_validPrev hprev
  exact ⟨noNewline_of_validTagSigBase htag, noNewline_of_validTagSigBase hres, hv, hi⟩

/-- The gates keep the newline out of every string that is joined. -/
theorem noNewline_parts (h : r.gate) : ∀ s ∈ r.parts, NoNewline s := by
  cases r with
  | save m =>
    simp only [gate, SaveMsg.gate, validCiphertextShape, Bool.and_eq_true] at h
    obtain ⟨⟨⟨htag, hnonce⟩, hct⟩, hbase⟩ := h
    have hbase' : NoNewline (m.base.getD "") := by
      refine noNewline_getD fun b hb => ?_
      have hb' : validTagSigBase b maxFieldLen := by simpa [Option.mem_def.mp hb] using hbase
      exact noNewline_of_validTagSigBase hb'
    simp only [parts, canonicalSave, forall_mem_cons]
    refine ⟨by decide, noNewline_of_validTagSigBase htag, hbase', ?_,
      noNewline_of_validNonce hnonce,
      noNewline_of_nonceChar hct.2, by simp⟩
    split_ifs <;> decide
  | subscribe m =>
    simp only [gate, SubscribeMsg.gate, Bool.and_eq_true] at h
    obtain ⟨⟨htag, hfrom⟩, hnonce⟩ := h
    have hfrom' : NoNewline (m.fromId.getD "") := by
      refine noNewline_getD fun b hb => ?_
      have hb' : validTagSigBase b maxFieldLen := by simpa [Option.mem_def.mp hb] using hfrom
      exact noNewline_of_validTagSigBase hb'
    simp only [parts, canonicalSubscribe, forall_mem_cons]
    exact ⟨by decide, noNewline_of_validTagSigBase htag, hfrom', noNewline_of_isRandomId hnonce,
      by simp⟩
  | objstorePut f nonce =>
    simp only [gate, Bool.and_eq_true] at h
    obtain ⟨htag, hres, hv, hi, hhash⟩ := PutFields.noNewline h.1
    simp only [parts, canonicalObjstorePut, forall_mem_cons]
    exact ⟨by decide, htag, hres, hv, hi, hhash, noNewline_intString _,
      noNewline_of_isRandomId h.2, by simp⟩
  | objstoreDelete f nonce =>
    simp only [gate, Bool.and_eq_true] at h
    obtain ⟨htag, hres, hv, hi⟩ := DeleteFields.noNewline h.1
    simp only [parts, canonicalObjstoreDelete, forall_mem_cons]
    exact ⟨by decide, htag, hres, hv, hi, noNewline_of_isRandomId h.2, by simp⟩
  | objstoreFetch tag res nonce =>
    simp only [gate, Bool.and_eq_true] at h
    simp only [parts, canonicalObjstoreFetch, forall_mem_cons]
    exact ⟨by decide, noNewline_of_validTagSigBase h.1.1, noNewline_of_validTagSigBase h.1.2,
      noNewline_of_isRandomId h.2, by simp⟩
  | objstorePutRest f ts =>
    simp only [gate, Bool.and_eq_true] at h
    obtain ⟨htag, hres, hv, hi, hhash⟩ := PutFields.noNewline h.1
    simp only [parts, canonicalObjstorePutRest, forall_mem_cons]
    exact ⟨by decide, htag, hres, hv, hi, hhash, noNewline_intString _, noNewline_intString _,
      by simp⟩
  | objstoreDeleteRest f ts =>
    simp only [gate, Bool.and_eq_true] at h
    obtain ⟨htag, hres, hv, hi⟩ := DeleteFields.noNewline h.1
    simp only [parts, canonicalObjstoreDeleteRest, forall_mem_cons]
    exact ⟨by decide, htag, hres, hv, hi, noNewline_intString _, by simp⟩
  | objstoreFetchRest tag res ts =>
    simp only [gate, Bool.and_eq_true] at h
    simp only [parts, canonicalObjstoreFetchRest, forall_mem_cons]
    exact ⟨by decide, noNewline_of_validTagSigBase h.1.1, noNewline_of_validTagSigBase h.1.2,
      noNewline_intString _, by simp⟩

/-! ### The parts determine the request -/

/-- The eight kinds of signed requests. -/
inductive Kind
  | save | subscribe | objstorePut | objstoreDelete | objstoreFetch
  | objstorePutRest | objstoreDeleteRest | objstoreFetchRest

def Request.kind : Request → Kind
  | .save _ => .save
  | .subscribe _ => .subscribe
  | .objstorePut _ _ => .objstorePut
  | .objstoreDelete _ _ => .objstoreDelete
  | .objstoreFetch _ _ _ => .objstoreFetch
  | .objstorePutRest _ _ => .objstorePutRest
  | .objstoreDeleteRest _ _ => .objstoreDeleteRest
  | .objstoreFetchRest _ _ _ => .objstoreFetchRest

/-- The domain string of a kind. -/
def Kind.domain : Kind → String
  | .save => saveDomain
  | .subscribe => subscribeDomain
  | .objstorePut => objstorePutDomain
  | .objstoreDelete => objstoreDeleteDomain
  | .objstoreFetch => objstoreFetchDomain
  | .objstorePutRest => objstorePutRestDomain
  | .objstoreDeleteRest => objstoreDeleteRestDomain
  | .objstoreFetchRest => objstoreFetchRestDomain

/-- No two kinds share a domain. -/
theorem Kind.domain_injective {k k' : Kind} (h : k.domain = k'.domain) : k = k' := by
  cases k <;> cases k' <;> first | rfl | exact absurd h (by decide)

theorem head?_parts (r : Request) : r.parts.head? = some r.kind.domain := by
  cases r <;> rfl

theorem intString_ne_empty (v : ℤ) : intString v ≠ "" := by
  rw [intString, Int.repr_eq_if]
  split_ifs
  · exact Nat.repr_ne_empty
  · intro h
    have hlist := congrArg toList h
    rw [toList_append] at hlist
    cases hlist

theorem intOrEmpty_injective {w : Option ℤ} (h : intOrEmpty v = intOrEmpty w) : v = w := by
  cases v with
  | none =>
    cases w with
    | none => rfl
    | some w => exact absurd h.symm (intString_ne_empty w)
  | some v =>
    cases w with
    | none => exact absurd h (intString_ne_empty v)
    | some w => rw [Int.repr_injective h]

/-- An optional field whose values are non-empty can be read back from the joined string. -/
theorem getD_injective {o' : Option String} (ho : ∀ s ∈ o, s ≠ "") (ho' : ∀ s ∈ o', s ≠ "")
    (h : o.getD "" = o'.getD "") : o = o' := by
  cases o with
  | none =>
    cases o' with
    | none => rfl
    | some s => exact absurd h.symm (ho' s rfl)
  | some s =>
    cases o' with
    | none => exact absurd h (ho s rfl)
    | some s' => exact congrArg some h

theorem ne_empty_of_validTagSigBase {max : ℕ}
    (h : o.all (validTagSigBase · max)) : ∀ s ∈ o, s ≠ "" := by
  rintro s hs rfl
  rw [Option.mem_def.mp hs] at h
  simp [validTagSigBase] at h

theorem ne_empty_of_validPrev (h : validPrev v i) : ∀ s ∈ i, s ≠ "" := by
  rintro s hs rfl
  rw [Option.mem_def.mp hs] at h
  cases v <;> simp [validPrev, isRandomId] at h

theorem PutFields.ext_of_strings {f' : PutFields} (h : f.gate) (h' : f'.gate)
    (htag : f.workspaceTag = f'.workspaceTag) (hres : f.resourceTag = f'.resourceTag)
    (hv : intOrEmpty f.prevVersion = intOrEmpty f'.prevVersion)
    (hi : strOrEmpty f.prevIncarnation = strOrEmpty f'.prevIncarnation)
    (hhash : f.contentHash = f'.contentHash)
    (hlen : intString f.expectedLength = intString f'.expectedLength) : f = f' := by
  simp only [PutFields.gate, Bool.and_eq_true] at h h'
  have hv' := intOrEmpty_injective hv
  have hi' := getD_injective (ne_empty_of_validPrev h.2) (ne_empty_of_validPrev h'.2) hi
  have hlen' := Int.repr_injective hlen
  obtain ⟨_, _, _, _, _, _⟩ := f
  obtain ⟨_, _, _, _, _, _⟩ := f'
  simp_all only

theorem DeleteFields.ext_of_strings {f f' : DeleteFields} (h : f.gate) (h' : f'.gate)
    (htag : f.workspaceTag = f'.workspaceTag) (hres : f.resourceTag = f'.resourceTag)
    (hv : intOrEmpty f.prevVersion = intOrEmpty f'.prevVersion)
    (hi : strOrEmpty f.prevIncarnation = strOrEmpty f'.prevIncarnation) : f = f' := by
  simp only [DeleteFields.gate, Bool.and_eq_true] at h h'
  have hv' := intOrEmpty_injective hv
  have hi' := getD_injective (ne_empty_of_validPrev h.2) (ne_empty_of_validPrev h'.2) hi
  obtain ⟨_, _, _, _⟩ := f
  obtain ⟨_, _, _, _⟩ := f'
  simp_all only

/-- The parts of gated requests determine them. -/
theorem parts_injective {r' : Request} (h : r.gate) (h' : r'.gate) (heq : r.parts = r'.parts) :
    r = r' := by
  -- the domain tells the kinds apart:
  have hk : r.kind = r'.kind := by
    apply Kind.domain_injective
    have := congrArg List.head? heq
    rwa [head?_parts, head?_parts, Option.some.injEq] at this
  cases r <;> cases r' <;> try cases hk
  case save.save m m' =>
    simp only [gate, SaveMsg.gate, Bool.and_eq_true] at h h'
    simp only [parts, canonicalSave, List.cons.injEq, and_true, true_and] at heq
    obtain ⟨htag, hbase, hkf, hnonce, hct⟩ := heq
    have hbase' := getD_injective (ne_empty_of_validTagSigBase h.2)
      (ne_empty_of_validTagSigBase h'.2) hbase
    have hkf' : m.keyframe = m'.keyframe := by
      cases hm : m.keyframe <;> cases hm' : m'.keyframe <;> simp [hm, hm'] at hkf ⊢
    obtain ⟨_, _, _, _, _⟩ := m
    obtain ⟨_, _, _, _, _⟩ := m'
    simp_all only
  case subscribe.subscribe m m' =>
    simp only [gate, SubscribeMsg.gate, Bool.and_eq_true] at h h'
    simp only [parts, canonicalSubscribe, List.cons.injEq, and_true, true_and] at heq
    obtain ⟨htag, hfrom, hnonce⟩ := heq
    have hfrom' := getD_injective (ne_empty_of_validTagSigBase h.1.2)
      (ne_empty_of_validTagSigBase h'.1.2) hfrom
    obtain ⟨_, _, _⟩ := m
    obtain ⟨_, _, _⟩ := m'
    simp_all only
  case objstorePut.objstorePut f nonce f' nonce' =>
    simp only [gate, Bool.and_eq_true] at h h'
    simp only [parts, canonicalObjstorePut, List.cons.injEq, and_true, true_and] at heq
    obtain ⟨htag, hres, hv, hi, hhash, hlen, hnonce⟩ := heq
    rw [PutFields.ext_of_strings h.1 h'.1 htag hres hv hi hhash hlen, hnonce]
  case objstorePutRest.objstorePutRest f ts f' ts' =>
    simp only [gate, Bool.and_eq_true] at h h'
    simp only [parts, canonicalObjstorePutRest, List.cons.injEq, and_true, true_and] at heq
    obtain ⟨htag, hres, hv, hi, hhash, hlen, hts⟩ := heq
    rw [PutFields.ext_of_strings h.1 h'.1 htag hres hv hi hhash hlen, Int.repr_injective hts]
  case objstoreDelete.objstoreDelete f nonce f' nonce' =>
    simp only [gate, Bool.and_eq_true] at h h'
    simp only [parts, canonicalObjstoreDelete, List.cons.injEq, and_true, true_and] at heq
    obtain ⟨htag, hres, hv, hi, hnonce⟩ := heq
    rw [DeleteFields.ext_of_strings h.1 h'.1 htag hres hv hi, hnonce]
  case objstoreDeleteRest.objstoreDeleteRest f ts f' ts' =>
    simp only [gate, Bool.and_eq_true] at h h'
    simp only [parts, canonicalObjstoreDeleteRest, List.cons.injEq, and_true, true_and] at heq
    obtain ⟨htag, hres, hv, hi, hts⟩ := heq
    rw [DeleteFields.ext_of_strings h.1 h'.1 htag hres hv hi, Int.repr_injective hts]
  case objstoreFetch.objstoreFetch tag res nonce tag' res' nonce' =>
    simp only [parts, canonicalObjstoreFetch, List.cons.injEq, and_true, true_and] at heq
    obtain ⟨rfl, rfl, rfl⟩ := heq
    rfl
  case objstoreFetchRest.objstoreFetchRest tag res ts tag' res' ts' =>
    simp only [parts, canonicalObjstoreFetchRest, List.cons.injEq, and_true, true_and] at heq
    obtain ⟨rfl, rfl, hts⟩ := heq
    rw [Int.repr_injective hts]

theorem Client.incOrEmpty_eq (v : Option String) : incOrEmpty v = strOrEmpty v := by
  cases v <;> rfl

theorem Client.intOrEmpty_eq (v : Option ℤ) : intOrEmpty v = Sign.intOrEmpty v := by
  cases v <;> rfl

/-- The client joins the strings the relay joins. -/
theorem clientParts_eq (r : Request) : r.clientParts = r.parts := by
  cases r with
  | save m =>
    simp only [clientParts, canonicalSavePayload, incOrEmpty_eq]
    rfl
  | subscribe m =>
    simp only [clientParts, canonicalSubscribePayload, incOrEmpty_eq]; rfl
  | objstorePut f nonce =>
    simp only [clientParts, Client.canonicalObjstorePut, Client.incOrEmpty_eq,
      Client.intOrEmpty_eq]; rfl
  | objstoreDelete f nonce =>
    simp only [clientParts, Client.canonicalObjstoreDelete, Client.incOrEmpty_eq,
      Client.intOrEmpty_eq]; rfl
  | objstorePutRest f ts =>
    simp only [clientParts, Client.canonicalObjstorePutRest, Client.incOrEmpty_eq,
      Client.intOrEmpty_eq]; rfl
  | objstoreDeleteRest f ts =>
    simp only [clientParts, Client.canonicalObjstoreDeleteRest, Client.incOrEmpty_eq,
      Client.intOrEmpty_eq]; rfl
  | objstoreFetch tag res nonce => rfl
  | objstoreFetchRest tag res ts => rfl

/-- **The canonical bytes separate the signed requests.**  Two requests that pass the relay's gates
and have the same bytes are the same kind of request with the same signed fields; and for every
request the client signs the bytes the relay verifies. -/
theorem canonical_separates :
    (∀ r r' : Request, r.gate → r'.gate → r.canonical = r'.canonical → r = r') ∧
      ∀ r : Request, r.clientCanonical = r.canonical := by
  refine ⟨fun r r' h h' heq => parts_injective h h' ?_, fun r => ?_⟩
  · refine join_injective (noNewline_parts h) (noNewline_parts h') ?_ ?_
      (String.toByteArray_inj.mp heq)
    · exact fun hnil => by simpa [hnil] using head?_parts r
    · exact fun hnil => by simpa [hnil] using head?_parts r'
  · rw [Request.clientCanonical, clientParts_eq, Request.canonical]

/-- A fetch signed on a socket whose challenge nonce reads like a timestamp is not the REST fetch of
that timestamp, although both bind the same object. -/
theorem fetch_ne_fetchRest :
    (Request.objstoreFetch "ws" "res" "1700000000000000000000").canonical ≠
      (Request.objstoreFetchRest "ws" "res" 1700000000000).canonical := by
  intro h
  exact absurd (canonical_separates.1 _ _ (by decide) (by decide) h) (by decide)

end Triage.Sign
