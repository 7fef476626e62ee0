import Triage.Managed.PayloadRows

/-!
# What the readers know of the payloads

A reader keeps what it has read: objects, rows, and whether the encryption is enabled. Each call
has a fact about the operation it awaits, that the steps of the other workers do not take away.

## Main results

* `OpenCall.fact_answer` : opening an object ends with what was uploaded.
* `ConvertCall.keeps_answer`, `ReadCall.keeps_answer` : a conversion and a read keep the invariant.
-/

namespace Triage.Managed

open Option StoredBody OpenCall

variable {Id Bytes Hash : Type} {C : PayloadCodec Bytes Hash} {lax : Prop}
  {db db' : PayloadDb Id Bytes Hash} {worker : Option ℕ} {allowed : PayloadPath Id → Prop}

namespace PayloadDb

/-- An object that was read: it stands for the upload, and its version is no other object's. -/
structure Seen (C : PayloadCodec Bytes Hash) (db : PayloadDb Id Bytes Hash) (path : PayloadPath Id)
    (object : StoredPayload Id Bytes) : Prop where
  stands : db.StandsFor C path object.body.payload
  version : object.version < db.nextVersion
  same : ∀ current, db.objects path = some current → current.version = object.version →
    current = object
  enabled : object.Sealed → db.enabled = true

variable {path : PayloadPath Id}

theorem StandsFor.evolves {bytes : Bytes} (h : db.StandsFor C path bytes)
    (hev : Evolves lax worker allowed db db') : db'.StandsFor C path bytes := by
  obtain ⟨upload, hup, hrest⟩ := h
  exact ⟨upload, hev.uploads _ _ hup, hrest⟩

variable {object : StoredPayload Id Bytes}

theorem Inv.seen (h : db.Inv C lax)
    (ho : db.objects path = some object) : db.Seen C path object where
  stands := h.objects path object ho
  version := h.version path object ho
  same current hc _ := by
    rw [ho, Option.some.injEq] at hc
    exact hc.symm
  enabled hsealed := by
    obtain ⟨dataKey, path', bytes, hbody⟩ := raw_eq_none.1 hsealed
    exact (h.sealings path object dataKey path' bytes ho hbody).2.1

theorem Seen.evolves (h : db.Seen C path object) (hev : Evolves lax worker allowed db db') :
    db'.Seen C path object where
  stands := h.stands.evolves hev
  version := h.version.trans_le hev.nextVersion
  same current hc hversion := by
    rcases hev.new path current hc with hold | hnew
    · exact h.same current hold hversion
    · exact absurd (h.version.trans_le hnew) (by rw [hversion]; exact lt_irrefl _)
  enabled hsealed := hev.enabled (h.enabled hsealed)

theorem openObjectVersion_eq_some {object current : StoredPayload Id Bytes}
    (h : db.openObjectVersion path object = some current) :
    db.objects path = some current ∧ current.version = object.version := by
  rw [openObjectVersion] at h
  cases ho : db.objects path with
  | none =>
    rw [ho] at h
    exact absurd h (by simp)
  | some other =>
    simp only [ho, ite_none_right_eq_some, Option.some.injEq] at h
    obtain ⟨hversion, rfl⟩ := h
    exact ⟨rfl, hversion⟩

theorem enabled_of_mode {keyed fresh stale : Bool} (h : db.mode keyed fresh stale = some true) :
    db.enabled = true := by
  rw [mode] at h
  split_ifs at h
  · simp at h
  · simpa using h

theorem disabled_of_mode {keyed stale : Bool} (h : db.mode keyed true stale = some false) :
    db.enabled = false := by
  simp only [mode, Bool.not_true, Bool.and_false, Bool.false_and, Bool.false_eq_true, if_false] at h
  split_ifs at h
  exact some.inj h

variable {ref : PayloadRef Id}

theorem Evolves.stage_of_live (hev : Evolves lax worker allowed db db')
    (hpub : db.Published ref) (hlive : db'.stage ref = .live) : db.stage ref = .live := by
  rcases hpub with hl | hgone
  · exact hl
  · rw [hev.gone ref hgone] at hlive
    exact absurd hlive (by simp)

theorem ReadRow.evolves {row : PayloadRow Hash} (h : db.ReadRow C ref row)
    (hpub : db.Published ref) (hev : Evolves lax worker allowed db db') :
    db'.ReadRow C ref row := by
  obtain ⟨⟨upload, hup, hrest⟩, hkey⟩ := h
  exact ⟨⟨upload, hev.uploads _ _ hup, hrest⟩, fun dataKey row' hk hrow' =>
    hev.dataKey ref dataKey row' (fun row'' => hkey dataKey row'' hk) hpub hrow'⟩

theorem Inv.published_of_row (h : db.Inv C lax) {row : PayloadRow Hash}
    (hrow : db.rows ref = some row) : db.Published ref :=
  .inl (h.live_of_row hrow)

theorem Inv.gone_of_no_row (h : db.Inv C lax) (hpub : db.Published ref)
    (hrow : db.rows ref = none) : db.stage ref = .gone := by
  rcases hpub with hlive | hgone
  · rw [h.live, hrow] at hlive
    exact absurd hlive (by simp)
  · exact hgone

end PayloadDb

open PayloadDb

/-! ### Opening an object -/

namespace OpenCall

/-- What opening an object knows. -/
def Fact (C : PayloadCodec Bytes Hash) (db : PayloadDb Id Bytes Hash) (path : PayloadPath Id) :
    OpenCall Id Bytes Hash → Prop
  | .recheck object | .key _ _ object | .legacy _ _ object => db.Seen C path object
  | .verified _ object => db.Seen C path object ∧ ¬object.Sealed
  | .done (.stored content) => ∃ bytes, content = .plain bytes ∧ db.StandsFor C path bytes
  | _ => True

variable {path : PayloadPath Id} {call : OpenCall Id Bytes Hash}

theorem Fact.evolves (h : call.Fact C db path) (hev : Evolves lax worker allowed db db') :
    call.Fact C db' path := by
  cases call with
  | recheck object => exact Seen.evolves h hev
  | key left row object => exact Seen.evolves h hev
  | legacy left row object => exact Seen.evolves h hev
  | verified left object => exact ⟨h.1.evolves hev, h.2⟩
  | done result =>
    cases result with
    | stored content =>
      obtain ⟨bytes, rfl, hstands⟩ := h
      exact ⟨bytes, rfl, hstands.evolves hev⟩
    | error => trivial
    | missing => trivial
  | mode => trivial
  | disabled => trivial
  | getRow left => trivial
  | state left row => trivial
  | raw left row complete => trivial

variable [DecidableEq Id] [DecidableEq Hash] {keyed stale : Bool}
  {object : StoredPayload Id Bytes} {row : PayloadRow Hash}

omit [DecidableEq Hash] in
theorem fact_opened {dataKey : ℕ} {bytes : Bytes} (hseen : db.Seen C path object)
    (hopen : object.body.opens dataKey path = some bytes) :
    (done (.stored (.plain bytes)) : OpenCall Id Bytes Hash).Fact C db path := by
  have hstands := hseen.stands
  rw [opens_eq_some.1 hopen] at hstands
  exact ⟨bytes, rfl, hstands⟩

omit [DecidableEq Hash] in
theorem fact_decryptOwned (hseen : db.Seen C path object) :
    (decryptOwned path row object).Fact C db path := by
  rw [decryptOwned]
  cases hkey : row.dataKey with
  | none => trivial
  | some dataKey =>
    cases hopen : object.body.opens dataKey path with
    | none =>
      simp only [hopen]
      trivial
    | some bytes =>
      simp only [hopen]
      exact fact_opened hseen hopen

omit [DecidableEq Id] in
theorem fact_verifyOriginal {left : ℕ} (hseen : db.Seen C path object) :
    (verifyOriginal C path left row object).Fact C db path := by
  rw [verifyOriginal]
  split_ifs with hverify
  · refine ⟨hseen, fun hsealed => ?_⟩
    rw [PayloadCodec.verifyRaw, hsealed] at hverify
    exact absurd hverify (by simp)
  · trivial

theorem fact_inspect {left : ℕ} {complete : Bool} (hseen : db.Seen C path object) :
    (inspect C path left row complete object).Fact C db path := by
  rw [inspect]
  split_ifs
  · exact fact_decryptOwned hseen
  · cases row.dataKey with
    | none => exact hseen
    | some dataKey =>
      cases hopen : object.body.opens dataKey path with
      | none =>
        simp only [hopen]
        exact hseen
      | some bytes =>
        simp only [hopen]
        exact fact_opened hseen hopen
  · exact fact_verifyOriginal hseen

omit [DecidableEq Id] [DecidableEq Hash] in
/-- Plaintext that was read stands for the upload. -/
theorem fact_plain (hseen : db.Seen C path object) (hplain : ¬object.Sealed) :
    (done (.stored object.body) : OpenCall Id Bytes Hash).Fact C db path := by
  obtain ⟨bytes, hraw⟩ := ne_none_iff_exists'.1 hplain
  have hstands := hseen.stands
  rw [payload_of_raw hraw] at hstands
  exact ⟨bytes, raw_eq_some.1 hraw, hstands⟩

/-- **Opening an object ends with what was uploaded**, if it ends with bytes. -/
theorem fact_answer (h : db.Inv C lax) (hf : call.Fact C db path) :
    (call.answer C db keyed stale path).Fact C db path := by
  cases call with
  | mode =>
    rw [answer]
    split <;> trivial
  | disabled =>
    rw [answer]
    cases ho : db.objects path with
    | none => trivial
    | some object =>
      simp only
      split_ifs with henc
      · exact h.seen ho
      · refine fact_plain (h.seen ho) fun hsealed => henc ?_
        obtain ⟨dataKey, path', bytes, hbody⟩ := raw_eq_none.1 hsealed
        rw [hbody]
        rfl
  | recheck object =>
    rw [answer]
    split
    · trivial
    · rename_i hmode
      -- a ciphertext was put after activation, so the fresh answer is not "disabled"
      refine fact_plain hf fun hsealed => ?_
      exact absurd (disabled_of_mode hmode) (by simp [hf.enabled hsealed])
    · trivial
  | getRow left =>
    cases left with
    | zero => trivial
    | succ left =>
      rw [answer]
      split
      · trivial
      · split_ifs <;> trivial
  | state left row => trivial
  | raw left row complete =>
    rw [answer]
    cases ho : db.objects path with
    | none => trivial
    | some object => exact fact_inspect (h.seen ho)
  | key left row object =>
    rw [answer]
    split
    · exact fact_verifyOriginal hf
    · split_ifs
      · trivial
      · exact fact_verifyOriginal hf
  | legacy left row object =>
    rw [answer]
    cases ho : db.openObjectVersion path object with
    | none => trivial
    | some current => exact fact_verifyOriginal (h.seen (openObjectVersion_eq_some ho).1)
  | verified left object =>
    rw [answer]
    cases ho : db.openObjectVersion path object with
    | none => trivial
    | some current =>
      obtain ⟨hcur, hversion⟩ := openObjectVersion_eq_some ho
      rw [← hf.1.same current hcur hversion] at hf
      exact fact_plain hf.1 hf.2
  | done result => exact hf

end OpenCall

/-! ### Compressing a stored report -/

/-- A row has a compressed copy that is `p`. -/
def PayloadDb.HasCompressed (db : PayloadDb Id Bytes Hash) (id : Id)
    (p : StoredPayload Id Bytes → Prop) : Prop :=
  db.stage ⟨.report, id⟩ = .live →
    ∃ object, db.objects (reportPath id true) = some object ∧ p object

theorem PayloadDb.HasCompressed.evolves {id : Id} {p : StoredPayload Id Bytes → Prop}
    (h : db.HasCompressed id p) (hpub : db.Published ⟨.report, id⟩)
    (hp : ∀ object, object.Sealed → p object) (hev : Evolves lax worker allowed db db') :
    db'.HasCompressed id p := by
  intro hlive
  obtain ⟨object, ho, hpo⟩ := h (hev.stage_of_live hpub hlive)
  obtain ⟨object', ho', heq | hsealed⟩ := hev.compressed _ object rfl hlive hpub ho
  · exact ⟨object', ho', heq ▸ hpo⟩
  · exact ⟨object', ho', hp object' hsealed⟩

namespace ConvertCall

/-- The copy that a conversion puts, or finds. -/
def Published (enabled : Bool) (object : StoredPayload Id Bytes) : Prop :=
  object.Solid ∧ (enabled = true → object.Sealed)

/-- What a conversion knows. -/
def Fact (C : PayloadCodec Bytes Hash) (db : PayloadDb Id Bytes Hash) (id : Id) :
    ConvertCall Hash → Prop
  | .mode _ => db.Published ⟨.report, id⟩
  | .getRow _ enabled => db.Published ⟨.report, id⟩ ∧ (enabled = true → db.enabled = true)
  | .existing _ enabled row => db.Published ⟨.report, id⟩ ∧
      (enabled = true → db.enabled = true) ∧ db.ReadRow C ⟨.report, id⟩ row
  | .publish _ enabled row expected => db.Published ⟨.report, id⟩ ∧
      (enabled = true → db.enabled = true) ∧ db.ReadRow C ⟨.report, id⟩ row ∧
        (enabled = false → expected = none)
  | .recheck _ => db.Published ⟨.report, id⟩ ∧ db.HasCompressed id fun _ => True
  | .finish enabled => db.Published ⟨.report, id⟩ ∧ (enabled = true → db.enabled = true) ∧
      db.HasCompressed id (Published enabled)
  | .discard => db.stage ⟨.report, id⟩ = .gone
  | .remove enabled _ => db.Published ⟨.report, id⟩ ∧ (enabled = true → db.enabled = true) ∧
      db.HasCompressed id (Published enabled)
  | .mark _ => db.Published ⟨.report, id⟩ ∧ db.enabled = true ∧
      db.HasCompressed id StoredPayload.Sealed ∧ db.objects (reportPath id false) = none
  | _ => True

theorem published_of_sealed {enabled : Bool} (object : StoredPayload Id Bytes)
    (h : object.Sealed) : Published enabled object :=
  ⟨.inl h, fun _ => h⟩

variable {id : Id} {call : ConvertCall Hash}

theorem Fact.evolves (h : call.Fact C db id) (hev : Evolves lax worker allowed db db') :
    call.Fact C db' id := by
  cases call with
  | verify => trivial
  | mode left => exact hev.published _ h
  | getRow left enabled => exact ⟨hev.published _ h.1, fun he => hev.enabled (h.2 he)⟩
  | existing left enabled row =>
    obtain ⟨hpub, hon, hrow⟩ := h
    exact ⟨hev.published _ hpub, fun he => hev.enabled (hon he), hrow.evolves hpub hev⟩
  | publish left enabled row expected =>
    obtain ⟨hpub, hon, hrow, hexp⟩ := h
    exact ⟨hev.published _ hpub, fun he => hev.enabled (hon he), hrow.evolves hpub hev, hexp⟩
  | recheck left =>
    obtain ⟨hpub, hhas⟩ := h
    exact ⟨hev.published _ hpub, hhas.evolves hpub (fun _ _ => trivial) hev⟩
  | finish enabled =>
    obtain ⟨hpub, hon, hhas⟩ := h
    exact ⟨hev.published _ hpub, fun he => hev.enabled (hon he),
      hhas.evolves hpub published_of_sealed hev⟩
  | discard => exact hev.gone _ h
  | remove enabled row =>
    obtain ⟨hpub, hon, hhas⟩ := h
    exact ⟨hev.published _ hpub, fun he => hev.enabled (hon he),
      hhas.evolves hpub published_of_sealed hev⟩
  | mark row =>
    obtain ⟨hpub, hon, hhas, hnone⟩ := h
    exact ⟨hev.published _ hpub, hev.enabled hon, hhas.evolves hpub (fun _ hs => hs) hev,
      hev.original _ rfl hpub hnone⟩
  | done => trivial
  | failed => trivial

/-- The plaintext put that this conversion is about to make, if it takes effect. -/
def PutsPlain (db : PayloadDb Id Bytes Hash) (id : Id) : ConvertCall Hash → Prop
  | .publish _ false _ expected => db.version (reportPath id true) = expected
  | _ => False

end ConvertCall

/-- The state after an operation: the invariant holds, the others are not harmed, and the call knows
what it is to know. -/
structure PayloadDb.Keeps (C : PayloadCodec Bytes Hash) (lax : Prop) (worker : Option ℕ)
    (allowed : PayloadPath Id → Prop) (db db' : PayloadDb Id Bytes Hash) (fact : Prop) : Prop where
  inv : db'.Inv C lax
  evolves : Evolves lax worker allowed db db'
  fact : fact

theorem PayloadDb.Inv.keeps (h : db.Inv C lax) {fact : Prop} (hf : fact) :
    Keeps C lax worker allowed db db fact :=
  ⟨h, .refl _ _, hf⟩

namespace ConvertCall

variable [DecidableEq Id] [DecidableEq Hash] {id : Id} {call : ConvertCall Hash}
  {keyed stale : Bool} {row : PayloadRow Hash} {bytes : Bytes}

omit [DecidableEq Id] [DecidableEq Hash] in
theorem not_staged (hpub : db.Published ⟨.report, id⟩) (w : ℕ) :
    db.stage ⟨.report, id⟩ ≠ .staged w := by
  rcases hpub with h | h <;> simp [h]

theorem fact_existingStep {left : ℕ} {enabled : Bool}
    (hf : (existing left enabled row).Fact C db id) :
    (existingStep C db (reportPath id true) left enabled row).Fact C db id := by
  obtain ⟨hpub, hon, hrow⟩ := hf
  rw [existingStep]
  cases ho : db.objects (reportPath id true) with
  | none => exact ⟨hpub, hon, hrow, fun _ => rfl⟩
  | some object =>
    simp only
    cases henc : object.body.encrypted C with
    | true =>
      simp only [if_true]
      cases hkey : row.dataKey with
      | none => exact hpub
      | some dataKey =>
        cases enabled with
        | false => exact hpub
        | true =>
          simp only [if_true]
          cases hopen : object.body.opens dataKey (reportPath id true) with
          | none => trivial
          | some bytes =>
            simp only
            split_ifs
            · have hsealed : object.Sealed :=
                raw_eq_none.2 ⟨_, _, _, opens_eq_some.1 hopen⟩
              exact ⟨hpub, hon, fun _ => ⟨object, ho, published_of_sealed object hsealed⟩⟩
            · trivial
    | false =>
      simp only [Bool.false_eq_true, if_false]
      cases C.verifyRaw (reportPath id true) row object.body with
      | false => trivial
      | true =>
        cases enabled with
        | true => exact ⟨hpub, hon, hrow, by simp⟩
        | false => exact ⟨hpub, fun _ => ⟨object, ho, trivial⟩⟩

omit [DecidableEq Hash] in
/-- The bytes of the conversion stand for the upload; a plaintext put after activation has to be
allowed. -/
theorem keeps_publishStep (h : db.Inv C lax) {left : ℕ} {enabled : Bool} {expected : Option ℕ}
    (hf : (publish left enabled row expected).Fact C db id)
    (hbytes : db.StandsFor C (reportPath id true) bytes)
    (hplain : enabled = false → db.version (reportPath id true) = expected → db.enabled = true →
      lax ∨ allowed (reportPath id true) ∧
        ∀ row, db.rows ⟨.report, id⟩ = some row → row.encrypted = false) :
    Keeps C lax worker allowed db
      (publishStep db (reportPath id true) bytes left enabled row expected).1
      ((publishStep db (reportPath id true) bytes left enabled row expected).2.Fact C
        (publishStep db (reportPath id true) bytes left enabled row expected).1 id) := by
  obtain ⟨hpub, hon, hrow, hexp⟩ := hf
  cases enabled with
  | true =>
    rw [publishStep]
    simp only [if_true]
    cases hkey : row.dataKey with
    | none => exact h.keeps trivial
    | some dataKey =>
      simp only [putIf]
      split_ifs with hversion
      · -- the row's data key is still the one that was read
        refine ⟨h.put hbytes ?_ (fun _ _ _ => .inl rfl) (.inl rfl),
          .put (fun w _ => not_staged hpub w) (.inr (.inl ⟨rfl, by simp [reportPath]⟩)), ?_⟩
        · rintro dataKey' path' bytes' heq
          simp only [sealed.injEq] at heq
          obtain ⟨rfl, rfl, -⟩ := heq
          exact ⟨rfl, hon rfl, fun row' hrow' => hrow.2 dataKey row' hkey hrow'⟩
        · exact ⟨hpub, hon, fun _ => ⟨_, put_self, published_of_sealed _ rfl⟩⟩
      · exact h.keeps hpub
  | false =>
    rw [publishStep]
    simp only [Bool.false_eq_true, if_false, putIf]
    split_ifs with hversion
    · have hnone : db.objects (reportPath id true) = none := by
        rw [hexp rfl, version, map_eq_none_iff] at hversion
        exact hversion
      have hlate := hplain rfl hversion
      refine ⟨h.put hbytes (by simp) (fun row' hrow' henc => .inr ?_) (.inr (.inl hnone)),
        .put (fun w _ => not_staged hpub w)
          (.inr (.inr ⟨rfl, hnone, fun hen => (hlate hen).imp_right And.left⟩)), ?_⟩
      · -- a row that is marked forbids the put, unless anything is allowed
        have hen := (h.encrypted _ row' hrow' henc).1
        rcases hlate hen with hl | ⟨-, hall⟩
        · exact hl
        · rw [hall row' hrow'] at henc
          exact absurd henc (by simp)
      · exact ⟨hpub, fun _ => ⟨_, put_self, trivial⟩⟩
    · exact h.keeps hpub

/-- **Every step of a conversion keeps the invariant**, if its plaintext is allowed. -/
theorem keeps_answer (h : db.Inv C lax) (hf : call.Fact C db id)
    (hbytes : db.StandsFor C (reportPath id true) bytes)
    (hplain : call.PutsPlain db id → db.enabled = true →
      lax ∨ allowed (reportPath id true) ∧
        ∀ row, db.rows ⟨.report, id⟩ = some row → row.encrypted = false) :
    Keeps C lax worker allowed db (call.answer C db keyed stale id bytes).1
      ((call.answer C db keyed stale id bytes).2.Fact C
        (call.answer C db keyed stale id bytes).1 id) := by
  cases call with
  | verify =>
    rw [answer]
    cases hrow : db.rows ⟨.report, id⟩ with
    | none => exact h.keeps trivial
    | some row =>
      simp only
      split_ifs
      · exact h.keeps (h.published_of_row hrow)
      · exact h.keeps trivial
  | mode left =>
    cases left with
    | zero => exact h.keeps trivial
    | succ left =>
      rw [answer]
      cases hmode : db.mode keyed true stale with
      | none => exact h.keeps trivial
      | some enabled =>
        refine h.keeps ⟨hf, fun he => ?_⟩
        subst he
        exact enabled_of_mode hmode
  | getRow left enabled =>
    obtain ⟨hpub, hon⟩ := hf
    cases enabled with
    | false =>
      rw [answer]
      cases hrow : db.rows ⟨.report, id⟩ with
      | none => exact h.keeps trivial
      | some row => exact h.keeps ⟨hpub, by simp, h.rows _ row hrow⟩
    | true =>
      rw [answer]
      rcases hen : db.ensureStorageDataKey ⟨.report, id⟩ with ⟨next, found⟩
      obtain ⟨hinv, hev, hsame, hfound⟩ := h.ensureStorageDataKey worker allowed hen
      cases found with
      | none => exact ⟨hinv, hev, trivial⟩
      | some row =>
        refine ⟨hinv, hev, hev.published _ hpub, fun _ => hev.enabled (hon rfl), ?_⟩
        exact hinv.rows _ row (hfound row rfl).1
  | existing left enabled row => exact h.keeps (fact_existingStep hf)
  | publish left enabled row expected =>
    refine keeps_publishStep h hf hbytes fun he hversion hen => ?_
    subst he
    exact hplain hversion hen
  | recheck left =>
    obtain ⟨hpub, hhas⟩ := hf
    rw [answer]
    cases hmode : db.mode keyed true stale with
    | none => exact h.keeps trivial
    | some enabled =>
      cases enabled with
      | true => exact h.keeps hpub
      | false =>
        -- not activated yet: the copy is from before activation
        refine h.keeps ⟨hpub, by simp, fun hlive => ?_⟩
        obtain ⟨object, ho, -⟩ := hhas hlive
        exact ⟨object, ho, .inr (h.late (disabled_of_mode hmode) _ object ho), by simp⟩
  | finish enabled =>
    obtain ⟨hpub, hon, hhas⟩ := hf
    rw [answer]
    cases hrow : db.rows ⟨.report, id⟩ with
    | none => exact h.keeps (h.gone_of_no_row hpub hrow)
    | some row => exact h.keeps ⟨hpub, hon, hhas⟩
  | discard =>
    have hgone : db.stage ⟨.report, id⟩ = .gone := hf
    refine ⟨h.removeIdle ?_, .remove ?_ ?_, trivial⟩
    · simp [reportPath, hgone]
    · simp [reportPath, hgone]
    · simp [reportPath, hgone]
  | remove enabled row =>
    obtain ⟨hpub, hon, hhas⟩ := hf
    have hne : reportPath id true ≠ reportPath id false := by simp [reportPath]
    have hrem : Keeps C lax worker allowed db (db.remove (reportPath id false)) True := by
      refine ⟨h.remove fun hlive => ?_, .remove (fun w _ => not_staged hpub w) ?_, trivial⟩
      · obtain ⟨object, ho, hsolid, -⟩ := hhas hlive
        exact ⟨_, object, hne, rfl, ho, hsolid⟩
      · simp [reportPath]
    refine ⟨hrem.inv, hrem.evolves, ?_⟩
    cases enabled with
    | false => trivial
    | true =>
      refine ⟨hrem.evolves.published _ hpub, hon rfl, fun hlive => ?_, remove_self⟩
      obtain ⟨object, ho, -, hsealed⟩ := hhas hlive
      exact ⟨object, (remove_of_ne hne).trans ho, hsealed rfl⟩
  | mark row =>
    obtain ⟨hpub, hon, hhas, hnone⟩ := hf
    rw [answer]
    cases row.dataKey with
    | none => exact h.keeps trivial
    | some dataKey =>
      have hmark := h.markStorageEncrypted worker allowed ⟨.report, id⟩ dataKey hon
        fun hlive path object howner ho => ?_
      · exact ⟨hmark.1, hmark.2, trivial⟩
      · -- the compressed copy is sealed and the original is gone
        obtain ⟨owner, compressed⟩ := path
        obtain rfl : owner = ⟨.report, id⟩ := howner
        cases compressed with
        | false =>
          rw [reportPath] at hnone
          rw [hnone] at ho
          exact absurd ho (by simp)
        | true =>
          obtain ⟨object', ho', hsealed⟩ := hhas hlive
          rw [reportPath, ho, Option.some.injEq] at ho'
          subst ho'
          exact .inl hsealed
  | done => exact h.keeps trivial
  | failed => exact h.keeps trivial

end ConvertCall

/-! ### Reading -/

namespace ReadCall

/-- What a read knows. -/
def Fact (C : PayloadCodec Bytes Hash) (db : PayloadDb Id Bytes Hash) (id : Id) :
    ReadCall Id Bytes Hash → Prop
  | .known call => call.Fact C db (reportPath id true)
  | .both original compressed =>
    original.Fact C db (reportPath id false) ∧ compressed.Fact C db (reportPath id true)
  | .convert bytes call => db.StandsFor C (reportPath id false) bytes ∧ call.Fact C db id
  | .bundle sourcemap call => call.Fact C db ⟨⟨.bundle, id⟩, sourcemap⟩
  | .done (.stored content) => ∃ bytes, content = .plain bytes ∧
      db.StandsFor C (reportPath id false) bytes
  | .done _ => True

variable {id : Id} {call : ReadCall Id Bytes Hash}

theorem Fact.evolves (h : call.Fact C db id) (hev : Evolves lax worker allowed db db') :
    call.Fact C db' id := by
  cases call with
  | known call => exact OpenCall.Fact.evolves h hev
  | both original compressed => exact ⟨h.1.evolves hev, h.2.evolves hev⟩
  | convert bytes call => exact ⟨h.1.evolves hev, h.2.evolves hev⟩
  | bundle sourcemap call => exact OpenCall.Fact.evolves h hev
  | done result =>
    cases result with
    | error => trivial
    | missing => trivial
    | stored content =>
      obtain ⟨bytes, rfl, hstands⟩ := h
      exact ⟨bytes, rfl, hstands.evolves hev⟩

/-- The plaintext put that this read is about to make, if it takes effect. -/
def PutsPlain (db : PayloadDb Id Bytes Hash) (id : Id) : ReadCall Id Bytes Hash → Prop
  | .convert _ call => call.PutsPlain db id
  | _ => False

/-- A report that was read stands for the upload. -/
theorem fact_decodedReport {content : StoredBody Id Bytes}
    (h : (OpenCall.done (.stored content) : OpenCall Id Bytes Hash).Fact C db
      (reportPath id true)) :
    (ReadCall.done (decodedReport C content) : ReadCall Id Bytes Hash).Fact C db id := by
  obtain ⟨bytes, rfl, upload, hup, hdecode, hsource⟩ := h
  have hbrotli : C.decodeBrotli bytes = some upload.bytes := hdecode
  rw [decodedReport, hbrotli]
  exact ⟨upload.bytes, rfl, upload, hup, rfl, by simp [reportPath]⟩

theorem fact_settle {original compressed : OpenResult Id Bytes}
    (horiginal : (OpenCall.done original : OpenCall Id Bytes Hash).Fact C db (reportPath id false))
    (hcompressed :
      (OpenCall.done compressed : OpenCall Id Bytes Hash).Fact C db (reportPath id true)) :
    (settle C original compressed : ReadCall Id Bytes Hash).Fact C db id := by
  cases original with
  | error => trivial
  | missing =>
    cases compressed with
    | error => trivial
    | missing => trivial
    | stored content => exact fact_decodedReport hcompressed
  | stored content =>
    obtain ⟨bytes, rfl, hstands⟩ := horiginal
    exact ⟨hstands, trivial⟩

/-- The compressed bytes of a report stand for it. -/
theorem standsFor_encode {bytes : Bytes} (h : db.StandsFor C (reportPath id false) bytes) :
    db.StandsFor C (reportPath id true) (C.encodeBrotli bytes 9) := by
  obtain ⟨upload, hup, hdecode, -⟩ := h
  have hbytes : bytes = upload.bytes := by simpa [PayloadCodec.decode, reportPath] using hdecode
  subst hbytes
  exact ⟨upload, hup, C.decode_encode _ _, by simp [reportPath]⟩

variable [DecidableEq Id] [DecidableEq Hash] {keyed stale side : Bool}

/-- **Every step of a read keeps the invariant.** -/
theorem keeps_answer (h : db.Inv C lax) (hf : call.Fact C db id)
    (hplain : call.PutsPlain db id → db.enabled = true →
      lax ∨ allowed (reportPath id true) ∧
        ∀ row, db.rows ⟨.report, id⟩ = some row → row.encrypted = false) :
    Keeps C lax worker allowed db (call.answer C db keyed stale side id).1
      ((call.answer C db keyed stale side id).2.Fact C
        (call.answer C db keyed stale side id).1 id) := by
  cases call with
  | known call =>
    have hstep : (call.answer C db keyed stale (reportPath id true)).Fact C db
        (reportPath id true) :=
      fact_answer h hf
    cases call with
    | done result =>
      cases result with
      | error => exact h.keeps trivial
      | missing => exact h.keeps ⟨trivial, trivial⟩
      | stored content => exact h.keeps (fact_decodedReport hf)
    | mode => exact h.keeps hstep
    | disabled => exact h.keeps hstep
    | recheck object => exact h.keeps hstep
    | getRow left => exact h.keeps hstep
    | state left row => exact h.keeps hstep
    | raw left row complete => exact h.keeps hstep
    | key left row object => exact h.keeps hstep
    | legacy left row object => exact h.keeps hstep
    | verified left object => exact h.keeps hstep
  | both original compressed =>
    by_cases hdone : ∃ o c, original = .done o ∧ compressed = .done c
    · obtain ⟨o, c, rfl, rfl⟩ := hdone
      exact h.keeps (fact_settle hf.1 hf.2)
    · rw [answer]
      · split_ifs
        · exact h.keeps ⟨fact_answer h hf.1, hf.2⟩
        · exact h.keeps ⟨hf.1, fact_answer h hf.2⟩
      · exact fun o c ho hc => hdone ⟨o, c, ho, hc⟩
  | convert bytes call =>
    obtain ⟨hstands, hcall⟩ := hf
    have hnext : Keeps C lax worker allowed db
        (call.answer C db keyed stale id (C.encodeBrotli bytes 9)).1
        ((call.answer C db keyed stale id (C.encodeBrotli bytes 9)).2.Fact C
          (call.answer C db keyed stale id (C.encodeBrotli bytes 9)).1 id) :=
      ConvertCall.keeps_answer h hcall (standsFor_encode hstands) hplain
    have hread := hstands.evolves hnext.evolves
    cases call with
    | done => exact h.keeps ⟨bytes, rfl, hstands⟩
    | failed => exact h.keeps trivial
    | verify => exact ⟨hnext.inv, hnext.evolves, hread, hnext.fact⟩
    | mode left => exact ⟨hnext.inv, hnext.evolves, hread, hnext.fact⟩
    | getRow left enabled => exact ⟨hnext.inv, hnext.evolves, hread, hnext.fact⟩
    | existing left enabled row => exact ⟨hnext.inv, hnext.evolves, hread, hnext.fact⟩
    | publish left enabled row expected => exact ⟨hnext.inv, hnext.evolves, hread, hnext.fact⟩
    | recheck left => exact ⟨hnext.inv, hnext.evolves, hread, hnext.fact⟩
    | finish enabled => exact ⟨hnext.inv, hnext.evolves, hread, hnext.fact⟩
    | discard => exact ⟨hnext.inv, hnext.evolves, hread, hnext.fact⟩
    | remove enabled row => exact ⟨hnext.inv, hnext.evolves, hread, hnext.fact⟩
    | mark row => exact ⟨hnext.inv, hnext.evolves, hread, hnext.fact⟩
  | bundle sourcemap call => exact h.keeps (fact_answer h hf)
  | done result => exact h.keeps hf

end ReadCall

end Triage.Managed
