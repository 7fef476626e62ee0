import Triage.Client.Changeset

/-!
# Applying a chain

A `workspace-state` frame carries a list of revisions. `applyChainToBase` walks a private candidate
of the session through it and stops at the first revision that does not continue the chain or does
not verify.

WebCrypto is a parameter: `WorkspaceCrypto` has the three functions the client calls with the keys
of one workspace.

## Main results

* `applyRevision_genuine` : a genuine revision that continues the chain is applied.
-/

namespace Triage.Client

/-- `SavePayload`, for one workspace. -/
structure SavePayload where
  base : Option String
  keyframe : Bool
  nonce : String
  ciphertext : String
  deriving DecidableEq, Repr

/-- What the client computes with the keys of a workspace; `E` is the type of entries. -/
structure WorkspaceCrypto (E : Type*) where
  /-- `verifySavePayload` -/
  verifySave : SavePayload → String → Bool
  /-- `computeRevisionId` -/
  revisionId : SavePayload → String
  /-- `decryptJson` with the additional data `buildAad` makes from the base; `none` when it throws.
  A decrypted `null` is the empty changeset. -/
  decrypt : Option String → String → String → Option (FMap String (Option E))

/-- `WireRevision`; a field of the wrong type is `none`. -/
structure WireRevision where
  base : Option String
  id : Option String
  keyframe : Bool
  nonce : Option String
  ciphertext : Option String
  signature : Option String
  deriving DecidableEq, Repr

/-- `session.pending`. -/
structure Pending (E : Type*) where
  base : Option String
  id : String
  changeset : FMap String (Option E)
  keyframe : Bool

/-- The fields of a session that a chain moves. -/
structure ChainState (E : Type*) where
  baseRevision : Option String
  baseState : FMap String E
  appliedRevisions : Finset String
  pending : Option (Pending E)
  savesSinceKeyframe : ℕ

/-- `keyframeInterval`. -/
def keyframeInterval : ℕ := 100

variable {E : Type*}

/-- What a changeset is applied to: a keyframe replaces the state. -/
def applyTo (keyframe : Bool) (state : FMap String E) : FMap String E :=
  if keyframe then ∅ else state

/-- `savesSinceKeyframe` after a revision. -/
def countSave (keyframe : Bool) (saves : ℕ) : ℕ :=
  if keyframe then 0 else min (saves + 1) keyframeInterval

/-- Whether `rev` continues a chain that is at `expected`. -/
def continues (expected base : Option String) (keyframe : Bool) : Bool :=
  match expected with
  | none => base = none || keyframe
  | some r => base = some r

/-- What one revision of a chain leads to. -/
inductive RevisionOutcome (E : Type*)
  /-- Already applied, or not an object. -/
  | skip
  | applied (s : ChainState E)
  /-- The walk stops: the revision does not continue the chain. -/
  | broken
  /-- The walk stops and the next save is a keyframe: the revision is not genuine. -/
  | rejected

/-- The session after applying a revision that carries `cs`. -/
def ChainState.advance (s : ChainState E) (id : String) (keyframe : Bool)
    (cs : FMap String (Option E)) : ChainState E where
  baseRevision := some id
  baseState := applyChangeset (applyTo keyframe s.baseState) cs
  appliedRevisions := insert id s.appliedRevisions
  pending := s.pending.filter fun p => p.id ≠ id
  savesSinceKeyframe := countSave keyframe s.savesSinceKeyframe

/-- The body of the loop of `applyChainToBase`. -/
def applyRevision (c : WorkspaceCrypto E) (known : Finset String) (s : ChainState E)
    (rev : WireRevision) : RevisionOutcome E :=
  if ∃ id ∈ rev.id, s.baseRevision = some id ∨ id ∈ s.appliedRevisions ∨ id ∈ known then .skip
  else if ¬continues s.baseRevision rev.base rev.keyframe then .broken
  else
    match rev.id, rev.nonce, rev.ciphertext, rev.signature with
    | some id, some nonce, some ciphertext, some signature =>
      have payload : SavePayload := ⟨rev.base, rev.keyframe, nonce, ciphertext⟩
      if ¬c.verifySave payload signature then .rejected
      else if id ≠ c.revisionId payload then .rejected
      else
        match c.decrypt rev.base nonce ciphertext with
        | none => .rejected
        | some cs => .applied (s.advance id rev.keyframe cs)
    | _, _, _, _ => .rejected

/-- `applyChainToBase` on a candidate; the flag is what it returns.  The check that the session is
still current is made by the caller on the result, which is private until then. -/
def applyChainToBase (c : WorkspaceCrypto E) (known : Finset String) (s : ChainState E) :
    List WireRevision → ChainState E × Bool
  | [] => (s, true)
  | rev :: revisions =>
    match applyRevision c known s rev with
    | .skip => applyChainToBase c known s revisions
    | .applied s' => applyChainToBase c known s' revisions
    | .broken => (s, false)
    | .rejected => ({ s with savesSinceKeyframe := keyframeInterval }, false)

/-! ### Genuine revisions -/

/-- `id` names the content of `rev`, which carries the changeset `cs`. -/
structure Genuine (c : WorkspaceCrypto E) (rev : WireRevision) (id : String)
    (cs : FMap String (Option E)) : Prop where
  content : ∃ nonce ciphertext signature, rev.id = some id ∧ rev.nonce = some nonce ∧
    rev.ciphertext = some ciphertext ∧ rev.signature = some signature ∧
    c.verifySave ⟨rev.base, rev.keyframe, nonce, ciphertext⟩ signature = true ∧
    id = c.revisionId ⟨rev.base, rev.keyframe, nonce, ciphertext⟩ ∧
    c.decrypt rev.base nonce ciphertext = some cs

variable {c : WorkspaceCrypto E} {known : Finset String} {s : ChainState E} {rev : WireRevision}
  {id : String} {cs : FMap String (Option E)}

/-- A genuine revision that is new and continues the chain is applied. -/
theorem applyRevision_genuine (h : Genuine c rev id cs) (hbase : s.baseRevision ≠ some id)
    (happlied : id ∉ s.appliedRevisions) (hknown : id ∉ known)
    (hcont : continues s.baseRevision rev.base rev.keyframe) :
    applyRevision c known s rev = .applied (s.advance id rev.keyframe cs) := by
  obtain ⟨nonce, ciphertext, signature, hid, hnonce, hcipher, hsig, hver, hrid, hdec⟩ := h.content
  have hnew : ¬∃ i ∈ rev.id, s.baseRevision = some i ∨ i ∈ s.appliedRevisions ∨ i ∈ known := by
    rw [hid]
    rintro ⟨i, hi, h⟩
    cases hi
    rcases h with h | h | h
    · exact hbase h
    · exact happlied h
    · exact hknown h
  unfold applyRevision
  rw [if_neg hnew, if_neg (not_not.mpr hcont), hid, hnonce, hcipher, hsig]
  dsimp only
  rw [if_neg (not_not.mpr hver), if_neg (not_not.mpr hrid), hdec]

end Triage.Client
