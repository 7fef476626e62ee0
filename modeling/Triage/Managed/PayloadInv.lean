import Triage.Managed.PayloadCalls

/-!
# What the payloads keep

Every object stands for the upload of its row, and a row has one that stays. The workers rely on
little of each other: an object is replaced only by a sealing, a copy is removed only where another
one stays, and a data key is never changed.

## Main results

* `PayloadDb.Inv.put`, `PayloadDb.Inv.remove` : putting and removing an object keep the invariant,
  under conditions that are the callers' to show.
* `PayloadDb.Evolves.put`, `PayloadDb.Evolves.remove` : and do no harm to the others.
-/

namespace Triage.Managed

open Option

variable {Id Bytes Hash : Type}

/-! ### Objects -/

namespace StoredPayload

/-- A ciphertext. -/
def Sealed (object : StoredPayload Id Bytes) : Prop := object.body.raw = none

/-- An object that is not to be put again: a ciphertext, or from before activation. -/
def Solid (object : StoredPayload Id Bytes) : Prop := object.Sealed ∨ object.late = false

/-- An object that a row marked encrypted may have; where `lax` holds, this may be plaintext that
was put after activation. -/
def Safe (lax : Prop) (object : StoredPayload Id Bytes) : Prop :=
  object.Sealed ∨ lax ∧ object.late = true

end StoredPayload

variable {body : StoredBody Id Bytes}

theorem StoredBody.raw_eq_none :
    body.raw = none ↔ ∃ dataKey path bytes, body = .sealed dataKey path bytes := by
  cases body with
  | plain bytes => simp [raw]
  | sealed dataKey path bytes => simp [raw]

variable {bytes : Bytes}

theorem StoredBody.raw_eq_some : body.raw = some bytes ↔ body = .plain bytes := by
  cases body with
  | plain bytes => simp [raw]
  | sealed dataKey path bytes => simp [raw]

theorem StoredBody.payload_of_raw (h : body.raw = some bytes) : body.payload = bytes := by
  rw [raw_eq_some.1 h]
  rfl

variable {path : PayloadPath Id}

theorem StoredBody.opens_eq_some [DecidableEq Id] {dataKey : ℕ} :
    body.opens dataKey path = some bytes ↔ body = .sealed dataKey path bytes := by
  cases body with
  | plain bytes => simp [opens]
  | sealed dataKey' path' bytes' =>
    simp only [opens, ite_none_right_eq_some, Option.some.injEq, sealed.injEq]
    tauto

namespace PayloadCodec

variable (C : PayloadCodec Bytes Hash)

theorem decode_stored (ref : PayloadRef Id) (upload : PayloadUpload Bytes) :
    C.decode (ref.uploadPath upload.sourcemap) (C.stored ref.type upload) = some upload.bytes := by
  obtain ⟨type, id⟩ := ref
  cases type with
  | report => exact C.decode_encode _ _
  | bundle =>
    cases hsource : upload.sourcemap with
    | true => simpa [PayloadRef.uploadPath, stored, decode, hsource] using C.decode_encode _ _
    | false => simp [PayloadRef.uploadPath, stored, decode, hsource]

variable {C}

theorem verify_iff [DecidableEq Hash] {row : PayloadRow Hash} : C.verify path row bytes = true ↔
      ∃ upload, C.decode path bytes = some upload ∧ C.hash path.owner.type upload = row.hash := by
  rw [verify]
  cases C.decode path bytes with
  | none => simp
  | some upload => simp

end PayloadCodec

variable {ref : PayloadRef Id}

theorem PayloadRef.mem_paths {sourcemap : Bool} :
    path ∈ ref.paths sourcemap ↔
      path.owner = ref ∧ (ref.type = .bundle → path.compressed = sourcemap) := by
  obtain ⟨type, id⟩ := ref
  obtain ⟨owner, compressed⟩ := path
  cases type with
  | report => cases compressed <;> simp [paths]
  | bundle => simp [paths]

theorem PayloadRef.uploadPath_owner (ref : PayloadRef Id) (sourcemap : Bool) :
    (ref.uploadPath sourcemap).owner = ref := by
  obtain ⟨type, id⟩ := ref
  cases type <;> rfl

/-! ### The invariant -/

namespace PayloadDb

variable (C : PayloadCodec Bytes Hash) (lax : Prop) (db : PayloadDb Id Bytes Hash)

/-- The bytes of a path stand for the upload of its owner. -/
def StandsFor (path : PayloadPath Id) (bytes : Bytes) : Prop :=
  ∃ upload, db.uploads path.owner = some upload ∧ C.decode path bytes = some upload.bytes ∧
    (path.owner.type = .bundle → path.compressed = upload.sourcemap)

/-- An id is that of a row, or was. -/
def Published (ref : PayloadRef Id) : Prop := db.stage ref = .live ∨ db.stage ref = .gone

/-- A row that was read is that of its upload, and its data key is not changed. -/
def ReadRow (ref : PayloadRef Id) (row : PayloadRow Hash) : Prop :=
  (∃ upload, db.uploads ref = some upload ∧ row.hash = C.hash ref.type upload.bytes ∧
    row.sourcemap = upload.sourcemap) ∧
  ∀ dataKey row', row.dataKey = some dataKey → db.rows ref = some row' →
    row'.dataKey = some dataKey

/-- The invariant of the store and the database. -/
structure Inv : Prop where
  objects : ∀ path object, db.objects path = some object → db.StandsFor C path object.body.payload
  /-- A sealing opens with the data key of the row. -/
  sealings : ∀ path object dataKey path' bytes, db.objects path = some object →
    object.body = .sealed dataKey path' bytes → path' = path ∧ db.enabled = true ∧
      ∀ row, db.rows path.owner = some row → row.dataKey = some dataKey
  version : ∀ path object, db.objects path = some object → object.version < db.nextVersion
  late : db.enabled = false → ∀ path object, db.objects path = some object → object.late = false
  rows : ∀ ref row, db.rows ref = some row → db.ReadRow C ref row
  encrypted : ∀ ref row, db.rows ref = some row → row.encrypted = true →
    db.enabled = true ∧ row.dataKey.isSome ∧
      ∀ path object, path.owner = ref → db.objects path = some object → object.Safe lax
  /-- A row has an object that stays. -/
  kept : ∀ ref row, db.rows ref = some row → ∃ path object,
    path.owner = ref ∧ db.objects path = some object ∧ object.Solid
  live : ∀ ref, db.stage ref = .live ↔ (db.rows ref).isSome
  fresh : ∀ ref, db.stage ref = .fresh → db.uploads ref = none
  complete : db.complete = true → db.enabled = true ∧
    ∀ ref row, db.rows ref = some row → row.encrypted = true

/-- What a step of one of the workers may change for the others.  `allowed` are the paths where
plaintext may be put after activation. -/
structure Evolves (worker : Option ℕ) (allowed : PayloadPath Id → Prop)
    (db db' : PayloadDb Id Bytes Hash) : Prop where
  uploads : ∀ ref upload, db.uploads ref = some upload → db'.uploads ref = some upload
  enabled : db.enabled = true → db'.enabled = true
  nextVersion : db.nextVersion ≤ db'.nextVersion
  gone : ∀ ref, db.stage ref = .gone → db'.stage ref = .gone
  published : ∀ ref, db.Published ref → db'.Published ref
  /-- An id that another worker uploads is left to that worker. -/
  staged : ∀ ref w, some w ≠ worker → db.stage ref = .staged w → db'.stage ref = .staged w ∧
    ∀ path, path.owner = ref → db'.objects path = db.objects path
  dataKey : ∀ ref dataKey row, (∀ row, db.rows ref = some row → row.dataKey = some dataKey) →
    db.Published ref → db'.rows ref = some row → row.dataKey = some dataKey
  /-- An object that changes is a new one. -/
  new : ∀ path object, db'.objects path = some object →
    db.objects path = some object ∨ db.nextVersion ≤ object.version
  /-- A compressed copy stays, or is sealed. -/
  compressed : ∀ path object, path.compressed = true → db'.stage path.owner = .live →
    db.Published path.owner → db.objects path = some object →
      ∃ object', db'.objects path = some object' ∧ (object' = object ∨ object'.Sealed)
  /-- An original copy is not made again. -/
  original : ∀ path, path.compressed = false → db.Published path.owner →
    db.objects path = none → db'.objects path = none
  safe : ∀ path object, db.enabled = true → db.Published path.owner →
    (∀ object, db.objects path = some object → object.Safe lax) →
      db'.objects path = some object → object.Safe lax ∨ allowed path

variable {C lax db}

/-! ### Steps that change nothing for the others -/

theorem Evolves.refl (worker : Option ℕ) (allowed : PayloadPath Id → Prop) :
    Evolves lax worker allowed db db where
  uploads _ _ h := h
  enabled h := h
  nextVersion := le_rfl
  gone _ h := h
  published _ h := h
  staged _ _ _ h := ⟨h, fun _ _ => rfl⟩
  dataKey _ _ row h _ hrow := h row hrow
  new _ _ h := .inl h
  compressed _ object _ _ _ h := ⟨object, h, .inl rfl⟩
  original _ _ _ h := h
  safe _ object _ _ h ho := .inl (h object ho)

theorem Inv.live_of_row (h : db.Inv C lax) {row : PayloadRow Hash}
    (hrow : db.rows ref = some row) : db.stage ref = .live := by
  rw [h.live, hrow]
  rfl

theorem Inv.no_row (h : db.Inv C lax) (hstage : db.stage ref ≠ .live) : db.rows ref = none := by
  rw [Ne, h.live, Bool.not_eq_true, isSome_eq_false_iff, isNone_iff_eq_none] at hstage
  exact hstage

variable [DecidableEq Id] {worker : Option ℕ} {allowed : PayloadPath Id → Prop}
  {ref : PayloadRef Id} {path : PayloadPath Id}

/-! ### Putting an object -/

section Put

variable {body : StoredBody Id Bytes}

@[simp] theorem put_self : (db.put path body).objects path =
    some ⟨db.nextVersion, body, db.enabled⟩ := by
  rw [put]
  simp

variable {path' : PayloadPath Id}

theorem put_of_ne (h : path' ≠ path) : (db.put path body).objects path' = db.objects path' := by
  rw [put]
  simp [h]

theorem put_cases {object : StoredPayload Id Bytes}
    (h : (db.put path body).objects path' = some object) :
    path' = path ∧ object = ⟨db.nextVersion, body, db.enabled⟩ ∨
      path' ≠ path ∧ db.objects path' = some object := by
  rcases eq_or_ne path' path with rfl | hne
  · rw [put_self, Option.some.injEq] at h
    exact .inl ⟨rfl, h.symm⟩
  · rw [put_of_ne hne] at h
    exact .inr ⟨hne, h⟩

/-- Putting an object that stands for the upload keeps the invariant, if it does not take the place
of the one that stays. -/
theorem Inv.put (h : db.Inv C lax) (hstands : db.StandsFor C path body.payload)
    (hsealed : ∀ dataKey path' bytes, body = .sealed dataKey path' bytes →
      path' = path ∧ db.enabled = true ∧
        ∀ row, db.rows path.owner = some row → row.dataKey = some dataKey)
    (hsafe : ∀ row, db.rows path.owner = some row → row.encrypted = true → body.raw = none ∨ lax)
    (hkept : body.raw = none ∨ db.objects path = none ∨ db.rows path.owner = none) :
    (db.put path body).Inv C lax where
  objects path' object ho := by
    rcases put_cases ho with ⟨rfl, rfl⟩ | ⟨-, ho⟩
    · exact hstands
    · exact h.objects path' object ho
  sealings path' object dataKey p bytes ho hbody := by
    rcases put_cases ho with ⟨rfl, rfl⟩ | ⟨-, ho⟩
    · exact hsealed dataKey p bytes hbody
    · exact h.sealings path' object dataKey p bytes ho hbody
  version path' object ho := by
    rcases put_cases ho with ⟨rfl, rfl⟩ | ⟨-, ho⟩
    · exact Nat.lt_succ_self _
    · exact Nat.lt_succ_of_lt (h.version path' object ho)
  late hoff path' object ho := by
    rcases put_cases ho with ⟨rfl, rfl⟩ | ⟨-, ho⟩
    · exact hoff
    · exact h.late hoff path' object ho
  rows := h.rows
  encrypted ref row hrow henc := by
    obtain ⟨hon, hkey, hold⟩ := h.encrypted ref row hrow henc
    refine ⟨hon, hkey, fun path' object howner ho => ?_⟩
    rcases put_cases ho with ⟨rfl, rfl⟩ | ⟨-, ho⟩
    · subst howner
      rcases hsafe row hrow henc with hraw | hlax
      · exact .inl hraw
      · exact .inr ⟨hlax, hon⟩
    · exact hold path' object howner ho
  kept ref row hrow := by
    obtain ⟨path', object, howner, ho, hsolid⟩ := h.kept ref row hrow
    -- the object that is kept may be the one that is replaced:
    rcases eq_or_ne path' path with rfl | hne
    · subst howner
      rcases hkept with hraw | hnone | hnorow
      · exact ⟨path', _, rfl, put_self, .inl hraw⟩
      · rw [hnone] at ho
        exact absurd ho (by simp)
      · change db.rows path'.owner = some row at hrow
        rw [hnorow] at hrow
        exact absurd hrow (by simp)
    · exact ⟨path', object, howner, (put_of_ne hne).trans ho, hsolid⟩
  live := h.live
  fresh := h.fresh
  complete := h.complete

/-- Putting an object is nothing to the others if it is the worker's own upload, or a ciphertext, or
the first compressed copy. -/
theorem Evolves.put (hstaged : ∀ w, some w ≠ worker → db.stage path.owner ≠ .staged w)
    (hput : ¬ db.Published path.owner ∨
      body.raw = none ∧ (path.compressed = false → db.objects path ≠ none) ∨
      path.compressed = true ∧ db.objects path = none ∧ (db.enabled = true → lax ∨ allowed path)) :
    Evolves lax worker allowed db (db.put path body) where
  uploads _ _ hup := hup
  enabled hon := hon
  nextVersion := Nat.le_succ _
  gone _ hgone := hgone
  published _ hpub := hpub
  staged ref w hw hstage := by
    refine ⟨hstage, fun path' howner => put_of_ne ?_⟩
    rintro rfl
    subst howner
    exact hstaged w hw hstage
  dataKey _ _ row hkey _ hrow := hkey row hrow
  new path' object ho := by
    rcases put_cases ho with ⟨rfl, rfl⟩ | ⟨-, ho⟩
    · exact .inr le_rfl
    · exact .inl ho
  compressed path' object _ _ hpub ho := by
    rcases eq_or_ne path' path with rfl | hne
    · rcases hput with hnot | ⟨hraw, -⟩ | ⟨-, hnone, -⟩
      · exact absurd hpub hnot
      · exact ⟨_, put_self, .inr hraw⟩
      · rw [hnone] at ho
        exact absurd ho (by simp)
    · exact ⟨object, (put_of_ne hne).trans ho, .inl rfl⟩
  original path' hplain hpub hnone := by
    rcases eq_or_ne path' path with rfl | hne
    · rcases hput with hnot | ⟨-, hsome⟩ | ⟨hcomp, -, -⟩
      · exact absurd hpub hnot
      · exact absurd hnone (hsome hplain)
      · rw [hplain] at hcomp
        exact absurd hcomp (by simp)
    · exact (put_of_ne hne).trans hnone
  safe path' object hon hpub hsafe ho := by
    rcases put_cases ho with ⟨rfl, rfl⟩ | ⟨-, ho⟩
    · rcases hput with hnot | ⟨hraw, -⟩ | ⟨-, -, hlate⟩
      · exact absurd hpub hnot
      · exact .inl (.inl hraw)
      · exact (hlate hon).imp (fun hlax => .inr ⟨hlax, hon⟩) id
    · exact .inl (hsafe object ho)

end Put

/-! ### Removing an object -/

@[simp] theorem remove_self : (db.remove path).objects path = none := by
  rw [remove]
  simp

theorem remove_of_ne {path' : PayloadPath Id} (h : path' ≠ path) :
    (db.remove path).objects path' = db.objects path' := by
  rw [remove]
  simp [h]

theorem remove_cases {path' : PayloadPath Id} {object : StoredPayload Id Bytes}
    (h : (db.remove path).objects path' = some object) :
    path' ≠ path ∧ db.objects path' = some object := by
  rcases eq_or_ne path' path with rfl | hne
  · rw [remove_self] at h
    exact absurd h (by simp)
  · exact ⟨hne, (remove_of_ne hne).symm.trans h⟩

/-- An object can be removed if its row has another one that stays. -/
theorem Inv.remove (h : db.Inv C lax)
    (hkept : db.stage path.owner = .live → ∃ path' object, path' ≠ path ∧
      path'.owner = path.owner ∧ db.objects path' = some object ∧ object.Solid) :
    (db.remove path).Inv C lax where
  objects path' object ho := h.objects path' object (remove_cases ho).2
  sealings path' object dataKey p bytes ho := h.sealings path' object _ _ _ (remove_cases ho).2
  version path' object ho := h.version path' object (remove_cases ho).2
  late hoff path' object ho := h.late hoff path' object (remove_cases ho).2
  rows := h.rows
  encrypted ref row hrow henc := by
    obtain ⟨hon, hkey, hold⟩ := h.encrypted ref row hrow henc
    exact ⟨hon, hkey, fun path' object howner ho => hold path' object howner (remove_cases ho).2⟩
  kept ref row hrow := by
    obtain ⟨path', object, howner, ho, hsolid⟩ := h.kept ref row hrow
    rcases eq_or_ne path' path with rfl | hne
    · subst howner
      obtain ⟨path₁, object₁, hne, howner, ho, hsolid⟩ := hkept (h.live_of_row hrow)
      exact ⟨path₁, object₁, howner, (remove_of_ne hne).trans ho, hsolid⟩
    · exact ⟨path', object, howner, (remove_of_ne hne).trans ho, hsolid⟩
  live := h.live
  fresh := h.fresh
  complete := h.complete

theorem Evolves.remove (hstaged : ∀ w, some w ≠ worker → db.stage path.owner ≠ .staged w)
    (hlive : path.compressed = true → db.stage path.owner ≠ .live) :
    Evolves lax worker allowed db (db.remove path) where
  uploads _ _ hup := hup
  enabled hon := hon
  nextVersion := le_rfl
  gone _ hgone := hgone
  published _ hpub := hpub
  staged ref w hw hstage := by
    refine ⟨hstage, fun path' howner => remove_of_ne ?_⟩
    rintro rfl
    subst howner
    exact hstaged w hw hstage
  dataKey _ _ row hkey _ hrow := hkey row hrow
  new path' object ho := .inl (remove_cases ho).2
  compressed path' object hcomp hl _ ho := by
    rcases eq_or_ne path' path with rfl | hne
    · exact absurd hl (hlive hcomp)
    · exact ⟨object, (remove_of_ne hne).trans ho, .inl rfl⟩
  original path' _ _ hnone := by
    rcases eq_or_ne path' path with rfl | hne
    · exact remove_self
    · exact (remove_of_ne hne).trans hnone
  safe path' object _ _ hsafe ho := .inl (hsafe object (remove_cases ho).2)

/-- The objects of an id without a row are anybody's to remove who deletes or uploads it. -/
theorem Inv.removeIdle (h : db.Inv C lax) (hlive : db.stage path.owner ≠ .live) :
    (db.remove path).Inv C lax :=
  h.remove fun hl => absurd hl hlive

end PayloadDb

end Triage.Managed
