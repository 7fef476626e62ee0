import Triage.Managed.PayloadInv

/-!
# What the rows of payloads keep

Rows come with an upload and go; in between they get a data key, once, and are marked encrypted.
The encryption is activated once, and the migration is complete only when every row is marked.
-/

namespace Triage.Managed.PayloadDb

open Option FMap

variable {Id Bytes Hash : Type} {C : PayloadCodec Bytes Hash} {lax : Prop}
  {db : PayloadDb Id Bytes Hash} [DecidableEq Id] {worker : Option ℕ}
  {allowed : PayloadPath Id → Prop} {ref : PayloadRef Id} {path : PayloadPath Id}

/-! ### Rows -/

omit [DecidableEq Id] in
/-- A step that leaves the objects and the encryption as they are, and changes the row of one id as
far as nobody minds. -/
theorem Evolves.rows {db' : PayloadDb Id Bytes Hash} (hobjects : db'.objects = db.objects)
    (hversion : db'.nextVersion = db.nextVersion) (henabled : db'.enabled = db.enabled)
    (huploads : ∀ ref upload, db.uploads ref = some upload → db'.uploads ref = some upload)
    (hgone : ∀ ref, db.stage ref = .gone → db'.stage ref = .gone)
    (hpub : ∀ ref, db.Published ref → db'.Published ref)
    (hstaged : ∀ ref w, some w ≠ worker → db.stage ref = .staged w → db'.stage ref = .staged w)
    (hkey : ∀ ref dataKey row, (∀ row, db.rows ref = some row → row.dataKey = some dataKey) →
      db.Published ref → db'.rows ref = some row → row.dataKey = some dataKey) :
    Evolves lax worker allowed db db' where
  uploads := huploads
  enabled hon := henabled.trans hon
  nextVersion := hversion.ge
  gone := hgone
  published := hpub
  staged ref w hw hstage := ⟨hstaged ref w hw hstage, fun path _ => by rw [hobjects]⟩
  dataKey := hkey
  new path object ho := by
    rw [hobjects] at ho
    exact .inl ho
  compressed path object _ _ _ ho := by
    rw [hobjects]
    exact ⟨object, ho, .inl rfl⟩
  original path _ _ hnone := by
    rw [hobjects]
    exact hnone
  safe path object _ _ hsafe ho := by
    rw [hobjects] at ho
    exact .inl (hsafe object ho)

section Begin

variable {upload : PayloadUpload Bytes} {w : ℕ}

omit [DecidableEq Id] in
/-- There is nothing at an id that was never used. -/
theorem Inv.no_object (h : db.Inv C lax) (hfresh : db.stage path.owner = .fresh) :
    db.objects path = none := by
  rw [eq_none_iff_forall_ne_some]
  intro object ho
  obtain ⟨upload, hup, -⟩ := h.objects path object ho
  rw [h.fresh _ hfresh] at hup
  exact absurd hup (by simp)

variable {ref' : PayloadRef Id}

theorem begin_uploads_of_ne (hne : ref' ≠ ref) :
    (db.begin ref upload w).uploads ref' = db.uploads ref' := by
  rw [begin]
  simp [hne]

theorem begin_stage_of_ne (hne : ref' ≠ ref) :
    (db.begin ref upload w).stage ref' = db.stage ref' := by
  rw [begin]
  simp [hne]

@[simp] theorem begin_uploads_self : (db.begin ref upload w).uploads ref = some upload := by
  rw [begin]
  simp

@[simp] theorem begin_stage_self : (db.begin ref upload w).stage ref = .staged w := by
  rw [begin]
  simp

theorem begin_uploads (h : db.Inv C lax) (hfresh : db.stage ref = .fresh)
    {upload' : PayloadUpload Bytes} (hup : db.uploads ref' = some upload') :
    (db.begin ref upload w).uploads ref' = some upload' := by
  have hne : ref' ≠ ref := by
    rintro rfl
    rw [h.fresh _ hfresh] at hup
    exact absurd hup (by simp)
  rw [begin_uploads_of_ne hne, hup]

theorem Inv.begin (h : db.Inv C lax) (hfresh : db.stage ref = .fresh) :
    (db.begin ref upload w).Inv C lax where
  objects path object ho := by
    obtain ⟨upload', hup, hrest⟩ := h.objects path object ho
    exact ⟨upload', begin_uploads h hfresh hup, hrest⟩
  sealings := h.sealings
  version := h.version
  late := h.late
  rows ref' row hrow := by
    obtain ⟨⟨upload', hup, hrest⟩, hkey⟩ := h.rows ref' row hrow
    exact ⟨⟨upload', begin_uploads h hfresh hup, hrest⟩, hkey⟩
  encrypted := h.encrypted
  kept := h.kept
  live ref' := by
    rcases eq_or_ne ref' ref with rfl | hne
    · have hrow : (db.begin ref' upload w).rows ref' = none := h.no_row (by simp [hfresh])
      rw [begin_stage_self, hrow]
      simp
    · rw [begin_stage_of_ne hne]
      exact h.live ref'
  fresh ref' hstage := by
    rcases eq_or_ne ref' ref with rfl | hne
    · simp at hstage
    · rw [begin_stage_of_ne hne] at hstage
      rw [begin_uploads_of_ne hne]
      exact h.fresh ref' hstage
  complete := h.complete

theorem Evolves.begin (h : db.Inv C lax) (hfresh : db.stage ref = .fresh) :
    Evolves lax worker allowed db (db.begin ref upload w) := by
  have hne : ∀ ref', db.stage ref' ≠ .fresh → ref' ≠ ref := by
    rintro ref' hstage rfl
    exact hstage hfresh
  refine .rows rfl rfl rfl (fun _ _ => begin_uploads h hfresh) ?_ ?_ ?_ fun _ _ row hk _ => hk row
  · intro ref' hgone
    rw [begin_stage_of_ne (hne ref' (by simp [hgone])), hgone]
  · intro ref' hpub
    rw [Published, begin_stage_of_ne (hne ref' (by rcases hpub with hp | hp <;> simp [hp]))]
    exact hpub
  · intro ref' w' _ hstage
    rw [begin_stage_of_ne (hne ref' (by simp [hstage])), hstage]

end Begin

section InsertRow

variable {row : PayloadRow Hash} {ref' : PayloadRef Id}

theorem insertRow_stage_of_ne (hne : ref' ≠ ref) :
    (db.insertRow ref row).stage ref' = db.stage ref' := by
  rw [insertRow]
  simp [hne]

@[simp] theorem insertRow_stage_self : (db.insertRow ref row).stage ref = .live := by
  rw [insertRow]
  simp

theorem insertRow_rows_of_ne (hne : ref' ≠ ref) : (db.insertRow ref row).rows ref' = db.rows ref' :=
  insert_of_ne _ hne _

@[simp] theorem insertRow_rows_self : (db.insertRow ref row).rows ref = some row :=
  insert_self _ _ _

/-- A row can be inserted for an upload whose object is as the row says. -/
theorem Inv.insertRow (h : db.Inv C lax) (hread : ∃ upload, db.uploads ref = some upload ∧
      row.hash = C.hash ref.type upload.bytes ∧ row.sourcemap = upload.sourcemap)
    (hsealed : ∀ path object dataKey path' bytes, path.owner = ref →
      db.objects path = some object → object.body = .sealed dataKey path' bytes →
        row.dataKey = some dataKey)
    (henc : row.encrypted = true → db.enabled = true ∧ row.dataKey.isSome ∧
      ∀ path object, path.owner = ref → db.objects path = some object → object.Safe lax)
    (hkept : ∃ path object, path.owner = ref ∧ db.objects path = some object ∧ object.Solid)
    (hcomplete : db.enabled = true → row.encrypted = true) :
    (db.insertRow ref row).Inv C lax where
  objects := h.objects
  sealings path object dataKey path' bytes ho hbody := by
    obtain ⟨hpath, hon, hrow⟩ := h.sealings path object dataKey path' bytes ho hbody
    refine ⟨hpath, hon, fun row' hrow' => ?_⟩
    rcases eq_or_ne path.owner ref with howner | hne
    · rw [howner, insertRow_rows_self, some.injEq] at hrow'
      subst hrow'
      exact hsealed path object dataKey path' bytes howner ho hbody
    · rw [insertRow_rows_of_ne hne] at hrow'
      exact hrow row' hrow'
  version := h.version
  late := h.late
  rows ref' row' hrow' := by
    rcases eq_or_ne ref' ref with rfl | hne
    · rw [insertRow_rows_self, some.injEq] at hrow'
      subst hrow'
      refine ⟨hread, fun dataKey row' hkey hrow' => ?_⟩
      rw [insertRow_rows_self, some.injEq] at hrow'
      subst hrow'
      exact hkey
    · rw [insertRow_rows_of_ne hne] at hrow'
      obtain ⟨hup, hkey⟩ := h.rows ref' row' hrow'
      refine ⟨hup, fun dataKey row₁ hk hrow₁ => ?_⟩
      rw [insertRow_rows_of_ne hne] at hrow₁
      exact hkey dataKey row₁ hk hrow₁
  encrypted ref' row' hrow' henc' := by
    rcases eq_or_ne ref' ref with rfl | hne
    · rw [insertRow_rows_self, some.injEq] at hrow'
      subst hrow'
      exact henc henc'
    · rw [insertRow_rows_of_ne hne] at hrow'
      exact h.encrypted ref' row' hrow' henc'
  kept ref' row' hrow' := by
    rcases eq_or_ne ref' ref with rfl | hne
    · exact hkept
    · rw [insertRow_rows_of_ne hne] at hrow'
      exact h.kept ref' row' hrow'
  live ref' := by
    rcases eq_or_ne ref' ref with rfl | hne
    · simp
    · rw [insertRow_stage_of_ne hne, insertRow_rows_of_ne hne]
      exact h.live ref'
  fresh ref' hstage := by
    rcases eq_or_ne ref' ref with rfl | hne
    · simp at hstage
    · rw [insertRow_stage_of_ne hne] at hstage
      exact h.fresh ref' hstage
  complete hdone := by
    obtain ⟨hon, hall⟩ := h.complete hdone
    refine ⟨hon, fun ref' row' hrow' => ?_⟩
    rcases eq_or_ne ref' ref with rfl | hne
    · rw [insertRow_rows_self, some.injEq] at hrow'
      subst hrow'
      exact hcomplete hon
    · rw [insertRow_rows_of_ne hne] at hrow'
      exact hall ref' row' hrow'

theorem Evolves.insertRow {w : ℕ} (hstage : db.stage ref = .staged w) :
    Evolves lax (some w) allowed db (db.insertRow ref row) := by
  have hne : ∀ ref', (∀ w', some w' ≠ some w ∨ db.stage ref' ≠ .staged w') → ref' ≠ ref := by
    rintro ref' hor rfl
    rcases hor w with h | h
    · exact h rfl
    · exact h hstage
  have hpub : ∀ ref', db.Published ref' → ref' ≠ ref := by
    intro ref' hpub
    refine hne ref' fun w' => .inr ?_
    rcases hpub with hp | hp <;> simp [hp]
  refine .rows rfl rfl rfl (fun _ _ hup => hup) ?_ ?_ ?_ ?_
  · intro ref' hgone
    rw [insertRow_stage_of_ne (hpub ref' (.inr hgone)), hgone]
  · intro ref' hp
    rw [Published, insertRow_stage_of_ne (hpub ref' hp)]
    exact hp
  · intro ref' w' hw hs
    have hne' : ref' ≠ ref := by
      rintro rfl
      rw [hstage, PayloadStage.staged.injEq] at hs
      exact hw (by rw [hs])
    rw [insertRow_stage_of_ne hne', hs]
  · intro ref' dataKey row' hkey hp hrow
    rw [insertRow_rows_of_ne (hpub ref' hp)] at hrow
    exact hkey row' hrow

end InsertRow

section Close

variable {ref' : PayloadRef Id}

theorem close_stage_of_ne (hne : ref' ≠ ref) : (db.close ref).stage ref' = db.stage ref' := by
  rw [close]
  simp [hne]

@[simp] theorem close_stage_self : (db.close ref).stage ref = .gone := by
  rw [close]
  simp

theorem close_rows_of_ne (hne : ref' ≠ ref) : (db.close ref).rows ref' = db.rows ref' :=
  erase_of_ne _ hne

@[simp] theorem close_rows_self : (db.close ref).rows ref = none := erase_self _ _

theorem close_rows {row : PayloadRow Hash}
    (hrow : (db.close ref).rows ref' = some row) : db.rows ref' = some row := by
  rcases eq_or_ne ref' ref with rfl | hne
  · simp at hrow
  · rwa [close_rows_of_ne hne] at hrow

theorem Inv.close (h : db.Inv C lax) : (db.close ref).Inv C lax where
  objects := h.objects
  sealings path object dataKey path' bytes ho hbody := by
    obtain ⟨hpath, hon, hrow⟩ := h.sealings path object dataKey path' bytes ho hbody
    exact ⟨hpath, hon, fun row' hrow' => hrow row' (close_rows hrow')⟩
  version := h.version
  late := h.late
  rows ref' row hrow := by
    obtain ⟨hup, hkey⟩ := h.rows ref' row (close_rows hrow)
    exact ⟨hup, fun dataKey row' hk hrow' => hkey dataKey row' hk (close_rows hrow')⟩
  encrypted ref' row hrow := h.encrypted ref' row (close_rows hrow)
  kept ref' row hrow := h.kept ref' row (close_rows hrow)
  live ref' := by
    rcases eq_or_ne ref' ref with rfl | hne
    · simp
    · rw [close_stage_of_ne hne, close_rows_of_ne hne]
      exact h.live ref'
  fresh ref' hstage := by
    rcases eq_or_ne ref' ref with rfl | hne
    · simp at hstage
    · rw [close_stage_of_ne hne] at hstage
      exact h.fresh ref' hstage
  complete hdone := by
    obtain ⟨hon, hall⟩ := h.complete hdone
    exact ⟨hon, fun ref' row hrow => hall ref' row (close_rows hrow)⟩

/-- A row can be deleted, and an upload given up by its worker. -/
theorem Evolves.close (hstaged : ∀ w, some w ≠ worker → db.stage ref ≠ .staged w) :
    Evolves lax worker allowed db (db.close ref) := by
  refine .rows rfl rfl rfl (fun _ _ hup => hup) ?_ ?_ ?_ ?_
  · intro ref' hgone
    rcases eq_or_ne ref' ref with rfl | hne
    · exact close_stage_self
    · rw [close_stage_of_ne hne, hgone]
  · intro ref' hp
    rcases eq_or_ne ref' ref with rfl | hne
    · exact .inr close_stage_self
    · rw [Published, close_stage_of_ne hne]
      exact hp
  · intro ref' w hw hs
    have hne : ref' ≠ ref := by
      rintro rfl
      exact hstaged w hw hs
    rw [close_stage_of_ne hne, hs]
  · intro ref' dataKey row hkey _ hrow
    exact hkey row (close_rows hrow)

end Close

/-! ### Data keys and the encryption of rows -/

section SetRow

variable {row row' : PayloadRow Hash} {key : ℕ}

/-- The row of an id is changed. -/
def setRow (db : PayloadDb Id Bytes Hash) (ref : PayloadRef Id) (row : PayloadRow Hash) (key : ℕ) :
    PayloadDb Id Bytes Hash :=
  { db with rows := db.rows.insert ref row, nextKey := key }

theorem setRow_rows {ref' : PayloadRef Id} {row₁ : PayloadRow Hash}
    (hrow : (db.setRow ref row key).rows ref' = some row₁) :
    ref' = ref ∧ row₁ = row ∨ ref' ≠ ref ∧ db.rows ref' = some row₁ := by
  rcases eq_or_ne ref' ref with rfl | hne
  · have hself : (db.setRow ref' row key).rows ref' = some row := insert_self _ _ _
    rw [hself, some.injEq] at hrow
    exact .inl ⟨rfl, hrow.symm⟩
  · have hother : (db.setRow ref row key).rows ref' = db.rows ref' := insert_of_ne _ hne _
    rw [hother] at hrow
    exact .inr ⟨hne, hrow⟩

/-- A row can get a data key, and be marked encrypted, if its objects are safe. -/
theorem Inv.setRow (h : db.Inv C lax) (hrow : db.rows ref = some row)
    (hhash : row'.hash = row.hash) (hsource : row'.sourcemap = row.sourcemap)
    (hkey : row.dataKey.isSome → row'.dataKey = row.dataKey)
    (henc : row'.encrypted = true → db.enabled = true ∧ row'.dataKey.isSome ∧
      ∀ path object, path.owner = ref → db.objects path = some object → object.Safe lax)
    (hmark : row.encrypted = true → row'.encrypted = true) :
    (db.setRow ref row' key).Inv C lax where
  objects := h.objects
  sealings path object dataKey path' bytes ho hbody := by
    obtain ⟨hpath, hon, hold⟩ := h.sealings path object dataKey path' bytes ho hbody
    refine ⟨hpath, hon, fun row₁ hrow₁ => ?_⟩
    rcases setRow_rows hrow₁ with ⟨howner, rfl⟩ | ⟨-, hrow₁⟩
    -- the key of a sealed object stays:
    · have hk := hold row (howner ▸ hrow)
      rw [hkey (by rw [hk]; rfl), hk]
    · exact hold row₁ hrow₁
  version := h.version
  late := h.late
  rows ref' row₁ hrow₁ := by
    rcases setRow_rows hrow₁ with ⟨rfl, rfl⟩ | ⟨hne, hold⟩
    · obtain ⟨⟨upload, hup, hh, hs⟩, -⟩ := h.rows ref' row hrow
      refine ⟨⟨upload, hup, hhash.trans hh, hsource.trans hs⟩, fun dataKey row₂ hk hrow₂ => ?_⟩
      rw [hrow₁, some.injEq] at hrow₂
      rw [← hrow₂, hk]
    · obtain ⟨hup, hk⟩ := h.rows ref' row₁ hold
      refine ⟨hup, fun dataKey row₂ hk₁ hrow₂ => ?_⟩
      rcases setRow_rows hrow₂ with ⟨heq, -⟩ | ⟨-, hrow₂⟩
      · exact absurd heq hne
      · exact hk dataKey row₂ hk₁ hrow₂
  encrypted ref' row₁ hrow₁ henc₁ := by
    rcases setRow_rows hrow₁ with ⟨rfl, rfl⟩ | ⟨-, hold⟩
    · exact henc henc₁
    · exact h.encrypted ref' row₁ hold henc₁
  kept ref' row₁ hrow₁ := by
    rcases setRow_rows hrow₁ with ⟨rfl, rfl⟩ | ⟨-, hold⟩
    · exact h.kept ref' row hrow
    · exact h.kept ref' row₁ hold
  live ref' := by
    change db.stage ref' = .live ↔ ((db.setRow ref row' key).rows ref').isSome
    rw [h.live ref']
    rcases eq_or_ne ref' ref with rfl | hne
    · have hself : (db.setRow ref' row' key).rows ref' = some row' := insert_self _ _ _
      rw [hself, hrow]
      exact Iff.rfl
    · have hother : (db.setRow ref row' key).rows ref' = db.rows ref' :=
        insert_of_ne _ hne _
      rw [hother]
  fresh := h.fresh
  complete hdone := by
    obtain ⟨hon, hall⟩ := h.complete hdone
    refine ⟨hon, fun ref' row₁ hrow₁ => ?_⟩
    rcases setRow_rows hrow₁ with ⟨rfl, rfl⟩ | ⟨-, hold⟩
    · exact hmark (hall ref' row hrow)
    · exact hall ref' row₁ hold

theorem Evolves.setRow (hrow : db.rows ref = some row)
    (hkey : row.dataKey.isSome → row'.dataKey = row.dataKey) :
    Evolves lax worker allowed db (db.setRow ref row' key) := by
  refine .rows rfl rfl rfl (fun _ _ hup => hup) (fun _ hgone => hgone) (fun _ hpub => hpub)
    (fun _ _ _ hs => hs) ?_
  intro ref' dataKey row₁ hold _ hrow₁
  rcases setRow_rows hrow₁ with ⟨rfl, rfl⟩ | ⟨-, hrow₁⟩
  · have hk := hold row hrow
    rw [hkey (by rw [hk]; rfl), hk]
  · exact hold row₁ hrow₁

end SetRow

variable (worker allowed) in
theorem Inv.ensureStorageDataKey (h : db.Inv C lax) {next : PayloadDb Id Bytes Hash}
    {answer : Option (PayloadRow Hash)} (hst : db.ensureStorageDataKey ref = (next, answer)) :
    next.Inv C lax ∧ Evolves lax worker allowed db next ∧ next.enabled = db.enabled ∧
      ∀ row, answer = some row → next.rows ref = some row ∧ row.dataKey.isSome := by
  rw [PayloadDb.ensureStorageDataKey] at hst
  cases hrow : db.rows ref with
  | none =>
    rw [hrow, Prod.mk.injEq] at hst
    obtain ⟨rfl, rfl⟩ := hst
    exact ⟨h, .refl _ _, rfl, by simp⟩
  | some row =>
    cases hkey : row.dataKey with
    | some dataKey =>
      simp only [hrow, hkey, Prod.mk.injEq] at hst
      obtain ⟨rfl, rfl⟩ := hst
      refine ⟨h, .refl _ _, rfl, fun row' hrow' => ?_⟩
      rw [some.injEq] at hrow'
      subst hrow'
      exact ⟨hrow, by rw [hkey]; rfl⟩
    | none =>
      simp only [hrow, hkey, Prod.mk.injEq] at hst
      obtain ⟨hnext, rfl⟩ := hst
      have hset : next = db.setRow ref { row with dataKey := some db.nextKey } (db.nextKey + 1) :=
        hnext.symm
      subst hset
      refine ⟨h.setRow hrow rfl rfl (by simp [hkey]) (fun henc => ?_) id,
        Evolves.setRow hrow (by simp [hkey]), rfl, fun row' hrow' => ?_⟩
      · obtain ⟨-, hsome, -⟩ := h.encrypted ref row hrow henc
        rw [hkey] at hsome
        exact absurd hsome (by simp)
      · rw [some.injEq] at hrow'
        subst hrow'
        exact ⟨insert_self _ _ _, rfl⟩

variable (worker allowed ref) in
theorem Inv.markStorageEncrypted (h : db.Inv C lax) (dataKey : ℕ) (hon : db.enabled = true)
    (hsafe : db.stage ref = .live → ∀ path object, path.owner = ref →
      db.objects path = some object → object.Safe lax) :
    (db.markStorageEncrypted ref dataKey).Inv C lax ∧
      Evolves lax worker allowed db (db.markStorageEncrypted ref dataKey) := by
  rw [PayloadDb.markStorageEncrypted]
  cases hrow : db.rows ref with
  | none => exact ⟨h, .refl _ _⟩
  | some row =>
    simp only
    split_ifs with hkey
    · change (db.setRow ref { row with encrypted := true } db.nextKey).Inv C lax ∧
        Evolves lax worker allowed db (db.setRow ref { row with encrypted := true } db.nextKey)
      exact ⟨h.setRow hrow rfl rfl (fun _ => rfl)
        (fun _ => ⟨hon, by rw [hkey]; rfl, hsafe (h.live_of_row hrow)⟩) (fun _ => rfl),
        Evolves.setRow hrow fun _ => rfl⟩
    · exact ⟨h, .refl _ _⟩

omit [DecidableEq Id] in
theorem Inv.setNextKey (h : db.Inv C lax) (key : ℕ) : Inv C lax { db with nextKey := key } :=
  ⟨h.objects, h.sealings, h.version, h.late, h.rows, h.encrypted, h.kept, h.live, h.fresh,
    h.complete⟩

omit [DecidableEq Id] in
theorem Evolves.setNextKey {db' : PayloadDb Id Bytes Hash}
    (h : Evolves lax worker allowed db db') (key : ℕ) :
    Evolves lax worker allowed db { db' with nextKey := key } :=
  ⟨h.uploads, h.enabled, h.nextVersion, h.gone, h.published, h.staged, h.dataKey, h.new,
    h.compressed, h.original, h.safe⟩

/-! ### Activation and completion -/

omit [DecidableEq Id] in
theorem Inv.enable (h : db.Inv C lax) : Inv C lax { db with enabled := true } where
  objects := h.objects
  sealings path object dataKey path' bytes ho hbody := by
    obtain ⟨hpath, -, hrow⟩ := h.sealings path object dataKey path' bytes ho hbody
    exact ⟨hpath, rfl, hrow⟩
  version := h.version
  late hoff := absurd hoff (by simp)
  rows := h.rows
  encrypted ref row hrow henc := ⟨rfl, (h.encrypted ref row hrow henc).2⟩
  kept := h.kept
  live := h.live
  fresh := h.fresh
  complete hdone := ⟨rfl, (h.complete hdone).2⟩

omit [DecidableEq Id] in
theorem Evolves.enable : Evolves lax worker allowed db { db with enabled := true } where
  uploads _ _ hup := hup
  enabled _ := rfl
  nextVersion := le_rfl
  gone _ hgone := hgone
  published _ hpub := hpub
  staged _ _ _ hstage := ⟨hstage, fun _ _ => rfl⟩
  dataKey _ _ row hkey _ hrow := hkey row hrow
  new _ _ ho := .inl ho
  compressed _ object _ _ _ ho := ⟨object, ho, .inl rfl⟩
  original _ _ _ hnone := hnone
  safe _ object _ _ hsafe ho := .inl (hsafe object ho)

omit [DecidableEq Id] in
variable (worker allowed) in
theorem Inv.advanceStorageMigration (h : db.Inv C lax) (last tokens : Bool) :
    (db.advanceStorageMigration last tokens).Inv C lax ∧
      Evolves lax worker allowed db (db.advanceStorageMigration last tokens) := by
  rw [PayloadDb.advanceStorageMigration]
  split_ifs with hon
  · refine ⟨⟨h.objects, h.sealings, h.version, h.late, h.rows, h.encrypted, h.kept, h.live, h.fresh,
      fun hdone => ⟨hon, fun ref row hrow => ?_⟩⟩, .rows rfl rfl rfl (fun _ _ hup => hup)
      (fun _ hgone => hgone) (fun _ hpub => hpub) (fun _ _ _ hs => hs) fun _ _ row hk _ => hk row⟩
    change db.rows ref = some row at hrow
    simp only [Bool.and_eq_true, decide_eq_true_eq] at hdone
    have hpending := hdone.2 ref (isSome_of_eq hrow)
    rw [pending, hrow] at hpending
    simpa using hpending
  · exact ⟨h, .refl _ _⟩

end Triage.Managed.PayloadDb
