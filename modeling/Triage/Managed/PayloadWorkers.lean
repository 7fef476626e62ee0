import Triage.Managed.PayloadFacts

/-!
# What the uploads and the migration know of the payloads

An upload has its id to itself until its row is inserted. A migration worker knows of every path of
its row that is behind it that what is there is safe.

## Main results

* `UploadCall.keeps_answer`, `MigrateCall.keeps_answer` : their steps keep the invariant.
* `PayloadStore.Inv.reachable`, `PayloadStore.Inv.reachableUnder` : the invariant of every run, and
  the strict one of the runs that are careful.
-/

namespace Triage.Managed

open PayloadDb Option LegacyPayload StoredBody PayloadCall

variable {Id Bytes Hash : Type} {C : PayloadCodec Bytes Hash} {lax : Prop}
  {db db' : PayloadDb Id Bytes Hash} {w : ℕ} {worker : Option ℕ}
  {allowed : PayloadPath Id → Prop} {ref : PayloadRef Id} {upload : PayloadUpload Bytes}

/-! ### Uploading -/

namespace UploadCall

/-- The id is the worker's own, for this upload. -/
def Owns (db : PayloadDb Id Bytes Hash) (w : ℕ) (ref : PayloadRef Id)
    (upload : PayloadUpload Bytes) : Prop :=
  db.stage ref = .staged w ∧ db.uploads ref = some upload

/-- The bytes that are inserted with a row. -/
def body (C : PayloadCodec Bytes Hash) (ref : PayloadRef Id) (upload : PayloadUpload Bytes) :
    Option ℕ → StoredBody Id Bytes
  | none => .plain (C.stored ref.type upload)
  | some dataKey =>
    .sealed dataKey (ref.uploadPath upload.sourcemap) (C.stored ref.type upload)

/-- The only object of an id is the one that its worker put. -/
def HasOnly (C : PayloadCodec Bytes Hash) (db : PayloadDb Id Bytes Hash) (ref : PayloadRef Id)
    (upload : PayloadUpload Bytes) (dataKey : Option ℕ) : Prop :=
  (∃ object, db.objects (ref.uploadPath upload.sourcemap) = some object ∧
    object.body = body C ref upload dataKey) ∧
  ∀ path, path.owner = ref → path ≠ ref.uploadPath upload.sourcemap → db.objects path = none

/-- What an upload knows. -/
def Fact (C : PayloadCodec Bytes Hash) (db : PayloadDb Id Bytes Hash) (w : ℕ)
    (ref : PayloadRef Id) (upload : PayloadUpload Bytes) : UploadCall → Prop
  | .mode | .putPlain => Owns db w ref upload ∧ ∀ path, path.owner = ref → db.objects path = none
  | .checkRow | .putSealed =>
    (Owns db w ref upload ∧ ∀ path, path.owner = ref → db.objects path = none) ∧ db.enabled = true
  | .recheck => Owns db w ref upload ∧ HasOnly C db ref upload none
  | .discardOpen | .discardDelete _ => Owns db w ref upload
  | .insert dataKey => Owns db w ref upload ∧ HasOnly C db ref upload dataKey
  | .inserted | .resolve => db.Published ref
  | .remove => db.stage ref = .gone
  | .out => True

variable {call : UploadCall} {path : PayloadPath Id}

theorem Owns.evolves (h : Owns db w ref upload) (hw : some w ≠ worker)
    (hev : Evolves lax worker allowed db db') :
    Owns db' w ref upload ∧ ∀ path, path.owner = ref → db'.objects path = db.objects path := by
  obtain ⟨hstage, hobjects⟩ := hev.staged ref w hw h.1
  exact ⟨⟨hstage, hev.uploads _ _ h.2⟩, hobjects⟩

theorem HasOnly.congr {dataKey : Option ℕ} (h : HasOnly C db ref upload dataKey)
    (heq : ∀ path, path.owner = ref → db'.objects path = db.objects path) :
    HasOnly C db' ref upload dataKey := by
  obtain ⟨⟨object, ho, hbody⟩, hnone⟩ := h
  exact ⟨⟨object, (heq _ (PayloadRef.uploadPath_owner _ _)).trans ho, hbody⟩,
    fun path howner hne => (heq path howner).trans (hnone path howner hne)⟩

theorem Fact.evolves (h : call.Fact C db w ref upload) (hw : some w ≠ worker)
    (hev : Evolves lax worker allowed db db') : call.Fact C db' w ref upload := by
  have hempty : Owns db w ref upload ∧ (∀ path, path.owner = ref → db.objects path = none) →
      Owns db' w ref upload ∧ ∀ path, path.owner = ref → db'.objects path = none := by
    rintro ⟨howns, hnone⟩
    obtain ⟨howns', heq⟩ := howns.evolves hw hev
    exact ⟨howns', fun path howner => (heq path howner).trans (hnone path howner)⟩
  have honly : ∀ dataKey, Owns db w ref upload ∧ HasOnly C db ref upload dataKey →
      Owns db' w ref upload ∧ HasOnly C db' ref upload dataKey := by
    rintro dataKey ⟨howns, hhas⟩
    obtain ⟨howns', heq⟩ := howns.evolves hw hev
    exact ⟨howns', hhas.congr heq⟩
  cases call with
  | mode => exact hempty h
  | putPlain => exact hempty h
  | checkRow => exact ⟨hempty h.1, hev.enabled h.2⟩
  | putSealed => exact ⟨hempty h.1, hev.enabled h.2⟩
  | recheck => exact honly none h
  | insert dataKey => exact honly dataKey h
  | discardOpen => exact (Owns.evolves h hw hev).1
  | discardDelete version => exact (Owns.evolves h hw hev).1
  | inserted => exact hev.published _ h
  | resolve => exact hev.published _ h
  | remove => exact hev.gone _ h
  | out => trivial

section

variable (h : Owns db w ref upload)
include h

theorem Owns.not_staged {w' : ℕ} (hw : some w' ≠ some w) : db.stage ref ≠ .staged w' := by
  rw [h.1, Ne, PayloadStage.staged.injEq]
  rintro rfl
  exact hw rfl

theorem Owns.not_published : ¬db.Published ref := by
  rintro (hs | hs) <;> rw [h.1] at hs <;> exact absurd hs (by simp)

theorem Owns.no_row (hinv : db.Inv C lax) : db.rows ref = none :=
  hinv.no_row (by rw [h.1]; simp)

end

variable [DecidableEq Id]

variable (allowed) in
/-- The upload's object is put where there was nothing. -/
theorem keeps_put (h : db.Inv C lax) (howns : Owns db w ref upload)
    (hnone : ∀ path, path.owner = ref → db.objects path = none) (dataKey : Option ℕ)
    (hon : dataKey.isSome → db.enabled = true) :
    Keeps C lax (some w) allowed db
      (db.put (ref.uploadPath upload.sourcemap) (body C ref upload dataKey)) (Owns db w ref upload ∧
        HasOnly C (db.put (ref.uploadPath upload.sourcemap) (body C ref upload dataKey)) ref upload
          dataKey) := by
  have howner := PayloadRef.uploadPath_owner ref upload.sourcemap
  have hrow : db.rows (ref.uploadPath upload.sourcemap).owner = none := by
    rw [howner]
    exact howns.no_row h
  refine ⟨h.put ⟨upload, by rw [howner]; exact howns.2, ?_, fun htype => ?_⟩ ?_ ?_
      (.inr (.inr hrow)),
    .put (fun w' hw => by rw [howner]; exact howns.not_staged hw)
      (.inl (by rw [howner]; exact howns.not_published)), howns, ⟨_, put_self, rfl⟩, ?_⟩
  · have hpayload : (body C ref upload dataKey).payload = C.stored ref.type upload := by
      cases dataKey <;> rfl
    rw [hpayload]
    exact C.decode_stored ref upload
  · rw [howner] at htype
    rw [PayloadRef.uploadPath, htype]
  · intro dataKey' path' bytes heq
    cases dataKey with
    | none => exact absurd heq (by simp [body])
    | some key =>
      simp only [body, sealed.injEq] at heq
      obtain ⟨rfl, rfl, -⟩ := heq
      refine ⟨rfl, hon rfl, fun row hrow' => ?_⟩
      rw [hrow] at hrow'
      exact absurd hrow' (by simp)
  · intro row hrow'
    rw [hrow] at hrow'
    exact absurd hrow' (by simp)
  · exact fun path ho hne => (put_of_ne hne).trans (hnone path ho)

/-- The row of an upload is inserted, or the upload is given up. -/
theorem keeps_insertStep (h : db.Inv C lax) {keyed : Bool} {dataKey : Option ℕ}
    (howns : Owns db w ref upload) (hhas : HasOnly C db ref upload dataKey) :
    Keeps C lax (some w) allowed db (insertStep C db keyed ref upload dataKey).1
      ((insertStep C db keyed ref upload dataKey).2.Fact C
        (insertStep C db keyed ref upload dataKey).1 w ref upload) := by
  obtain ⟨⟨object, ho, hbody⟩, hnone⟩ := hhas
  have honly : ∀ path object', path.owner = ref → db.objects path = some object' →
      object' = object := by
    intro path object' howner ho'
    rcases eq_or_ne path (ref.uploadPath upload.sourcemap) with rfl | hne
    · rw [ho, Option.some.injEq] at ho'
      exact ho'.symm
    · rw [hnone path howner hne] at ho'
      exact absurd ho' (by simp)
  rw [insertStep]
  split_ifs with hfence
  · refine ⟨h.insertRow ⟨upload, howns.2, rfl, rfl⟩ ?_ ?_ ?_ ?_, .insertRow howns.1,
      .inl insertRow_stage_self⟩
    · intro path object' key path' bytes howner ho' hbody'
      rw [honly path object' howner ho', hbody] at hbody'
      cases dataKey with
      | none => exact absurd hbody' (by simp [body])
      | some key' =>
        simp only [body, sealed.injEq] at hbody'
        rw [hbody'.1]
    · intro henc
      refine ⟨hfence.1.symm.trans henc, henc, fun path object' howner ho' => .inl ?_⟩
      rw [honly path object' howner ho', StoredPayload.Sealed, hbody]
      cases dataKey with
      | none => exact absurd henc (by simp)
      | some key' => rfl
    · refine ⟨_, object, PayloadRef.uploadPath_owner _ _, ho, ?_⟩
      cases dataKey with
      | none => exact .inr (h.late hfence.1.symm _ object ho)
      | some key' => exact .inl (by rw [StoredPayload.Sealed, hbody]; rfl)
    · exact fun hon => hfence.1.trans hon
  · exact ⟨h.close, .close fun w' hw => howns.not_staged hw, .inr close_stage_self⟩

variable [DecidableEq Bytes] {keyed stale side : Bool}

/-- **Every step of an upload keeps the invariant.** -/
theorem keeps_answer (h : db.Inv C lax) (hf : call.Fact C db w ref upload) :
    Keeps C lax (some w) allowed db (call.answer C db keyed stale side ref upload).1
      ((call.answer C db keyed stale side ref upload).2.Fact C
        (call.answer C db keyed stale side ref upload).1 w ref upload) := by
  cases call with
  | mode =>
    rw [answer]
    cases hmode : db.mode keyed false stale with
    | none => exact h.keeps trivial
    | some enabled =>
      cases enabled with
      | false => exact h.keeps hf
      | true => exact h.keeps ⟨hf, enabled_of_mode hmode⟩
  | putPlain => exact keeps_put allowed h hf.1 hf.2 none (by simp)
  | recheck =>
    rw [answer]
    cases hmode : db.mode keyed true stale with
    | none => exact h.keeps hf.1
    | some enabled =>
      cases enabled with
      | false => exact h.keeps hf
      | true => exact h.keeps hf.1
  | discardOpen =>
    rw [answer]
    cases ho : db.objects (ref.uploadPath upload.sourcemap) with
    | none => exact h.keeps trivial
    | some current =>
      simp only
      split_ifs
      · exact h.keeps hf
      · exact h.keeps trivial
  | discardDelete version =>
    have howns : Owns db w ref upload := hf
    rw [answer, removeIf]
    have howner := PayloadRef.uploadPath_owner ref upload.sourcemap
    split_ifs
    · refine ⟨h.removeIdle (by rw [howner, howns.1]; simp), .remove (fun w' hw => ?_) fun _ => ?_,
        trivial⟩
      · rw [howner]
        exact howns.not_staged hw
      · rw [howner, howns.1]
        simp
    · exact h.keeps trivial
  | checkRow =>
    rw [answer, hf.1.1.no_row h]
    exact h.keeps hf
  | putSealed =>
    obtain ⟨⟨howns, hnone⟩, hon⟩ := hf
    have hput := keeps_put allowed h howns hnone (some db.nextKey) fun _ => hon
    exact ⟨hput.inv.setNextKey _, hput.evolves.setNextKey _, hput.fact⟩
  | insert dataKey => exact keeps_insertStep h hf.1 hf.2
  | inserted => exact h.keeps trivial
  | resolve =>
    rw [answer]
    cases hrow : db.rows ref with
    | none => exact h.keeps (h.gone_of_no_row hf hrow)
    | some row => exact h.keeps trivial
  | remove =>
    have hgone : db.stage ref = .gone := hf
    exact ⟨h.removeIdle (by simp [hgone]), .remove (by simp [hgone]) (by simp [hgone]), hgone⟩
  | out => exact h.keeps trivial

end UploadCall

/-! ### Migrating a row -/

namespace MigrateCall

/-- What a row has at a path is safe. -/
def PathSafe (lax : Prop) (db : PayloadDb Id Bytes Hash) (path : PayloadPath Id) : Prop :=
  db.stage path.owner = .live → ∀ object, db.objects path = some object → object.Safe lax

/-- The worker is past its look at the row, of which the paths `todo` are to come. -/
structure Behind (C : PayloadCodec Bytes Hash) (lax : Prop) (db : PayloadDb Id Bytes Hash)
    (ref : PayloadRef Id) (row : PayloadRow Hash) (todo : List (PayloadPath Id)) : Prop where
  enabled : db.enabled = true
  published : db.Published ref
  row : db.ReadRow C ref row
  owner : ∀ path ∈ todo, path.owner = ref
  safe : ∀ path, path.owner = ref → path ∉ todo → PathSafe lax db path

/-- What the migration of a row knows. -/
def Fact (C : PayloadCodec Bytes Hash) (lax : Prop) (db : PayloadDb Id Bytes Hash)
    (ref : PayloadRef Id) : MigrateCall Id Bytes Hash → Prop
  | .look row todo _ => Behind C lax db ref row todo
  | .legacy row path todo _ => Behind C lax db ref row (path :: todo)
  | .put row path todo _ bytes =>
    Behind C lax db ref row (path :: todo) ∧ db.StandsFor C path bytes
  | .check row path todo => Behind C lax db ref row todo ∧ path.owner = ref
  | _ => True

/-- The worker is past a path of its row: it will not look there again. -/
def Past (path : PayloadPath Id) : MigrateCall Id Bytes Hash → Prop
  | .look _ todo _ | .check _ _ todo => path ∉ todo
  | .legacy _ path' todo _ | .put _ path' todo _ _ => path ∉ path' :: todo
  | _ => False

variable {call : MigrateCall Id Bytes Hash} {row : PayloadRow Hash}
  {todo : List (PayloadPath Id)} {path : PayloadPath Id} {found : Bool}
  {object : StoredPayload Id Bytes}

theorem Behind.evolves (h : Behind C lax db ref row todo)
    (hallowed : ∀ path, path.owner = ref → path ∉ todo → db.stage ref = .live → ¬allowed path)
    (hev : Evolves lax worker allowed db db') : Behind C lax db' ref row todo where
  enabled := hev.enabled h.enabled
  published := hev.published _ h.published
  row := h.row.evolves h.published hev
  owner := h.owner
  safe path howner hnot hlive object ho := by
    subst howner
    have hlive' := hev.stage_of_live h.published hlive
    have hsafe := h.safe path rfl hnot hlive'
    rcases hev.safe path object h.enabled h.published hsafe ho with hs | hall
    · exact hs
    · exact absurd hall (hallowed path rfl hnot hlive')

theorem Fact.evolves (h : call.Fact C lax db ref)
    (hallowed : ∀ path, path.owner = ref → call.Past path → db.stage ref = .live → ¬allowed path)
    (hev : Evolves lax worker allowed db db') : call.Fact C lax db' ref := by
  cases call with
  | key => trivial
  | look row todo found => exact Behind.evolves h hallowed hev
  | legacy row path todo object => exact Behind.evolves h hallowed hev
  | put row path todo version bytes => exact ⟨h.1.evolves hallowed hev, h.2.evolves hev⟩
  | check row path todo => exact ⟨h.1.evolves hallowed hev, h.2⟩
  | out => trivial

/-- A path is behind the worker when what is there is safe. -/
theorem Behind.next (h : Behind C lax db ref row (path :: todo)) (hsafe : PathSafe lax db path) :
    Behind C lax db ref row todo where
  enabled := h.enabled
  published := h.published
  row := h.row
  owner path' hmem := h.owner path' (List.mem_cons_of_mem _ hmem)
  safe path' howner hnot := by
    by_cases hp : path' = path
    · rw [hp]
      exact hsafe
    · exact h.safe path' howner (by simp [hp, hnot])

variable [DecidableEq Hash]

theorem fact_encryptUpload (h : Behind C lax db ref row (path :: todo))
    (hseen : db.Seen C path object) : (encryptUpload C row path todo object).Fact C lax db ref := by
  rw [encryptUpload]
  cases hraw : object.body.raw with
  | none => trivial
  | some bytes =>
    simp only
    split_ifs
    · refine ⟨h, ?_⟩
      rw [← payload_of_raw hraw]
      exact hseen.stands
    · trivial

variable [DecidableEq Id]

theorem sealed_of_authentic {body : StoredBody Id Bytes} (h : authentic C path row body = true) :
    body.raw = none := by
  rw [authentic] at h
  cases hkey : row.dataKey with
  | none =>
    rw [hkey] at h
    exact absurd h (by simp)
  | some dataKey =>
    cases hopen : body.opens dataKey path with
    | none =>
      simp only [hkey, hopen] at h
      exact absurd h (by simp)
    | some bytes => exact raw_eq_none.2 ⟨_, _, _, opens_eq_some.1 hopen⟩

/-- **Every step of the migration of a row keeps the invariant.** -/
theorem keeps_answer (h : db.Inv C lax) (hf : call.Fact C lax db ref)
    (hallowed : ∀ path, path.owner = ref → call.Past path → db.stage ref = .live → ¬allowed path) :
    Keeps C lax worker allowed db (call.answer C db ref).1
      ((call.answer C db ref).2.Fact C lax (call.answer C db ref).1 ref) := by
  cases call with
  | key =>
    rw [answer]
    split_ifs with hon
    · rcases hen : db.ensureStorageDataKey ref with ⟨next, found⟩
      obtain ⟨hinv, hev, hsame, hfound⟩ := h.ensureStorageDataKey worker allowed hen
      cases found with
      | none => exact ⟨hinv, hev, trivial⟩
      | some row =>
        refine ⟨hinv, hev, ?_⟩
        obtain ⟨hrow, -⟩ := hfound row rfl
        simp only
        split_ifs
        · trivial
        · refine ⟨hsame.trans hon, hinv.published_of_row hrow, hinv.rows _ row hrow,
            fun path hmem => (PayloadRef.mem_paths.1 hmem).1,
            fun path howner hnot _ object ho => ?_⟩
          -- a bundle has nothing at the other of its two paths
          subst howner
          obtain ⟨upload, hup, -, hsource⟩ := hinv.objects path object ho
          obtain ⟨⟨upload', hup', -, hsource'⟩, -⟩ := hinv.rows _ row hrow
          rw [hup, Option.some.injEq] at hup'
          subst hup'
          refine absurd (PayloadRef.mem_paths.2 ⟨rfl, fun htype => ?_⟩) hnot
          rw [hsource htype, hsource']
    · exact h.keeps trivial
  | look row todo found =>
    have hbehind : Behind C lax db ref row todo := hf
    cases todo with
    | nil =>
      rw [answer]
      cases row.dataKey with
      | none => exact h.keeps trivial
      | some dataKey =>
        simp only
        split_ifs
        · have hmark := h.markStorageEncrypted worker allowed ref dataKey hbehind.enabled
            fun hlive path object howner ho => ?_
          · exact ⟨hmark.1, hmark.2, trivial⟩
          · subst howner
            exact hbehind.safe path rfl (by simp) hlive object ho
        · exact h.keeps trivial
    | cons path todo =>
      rw [answer]
      cases ho : db.objects path with
      | none => exact h.keeps (hbehind.next fun _ object ho' => absurd ho' (by simp [ho]))
      | some object =>
        simp only
        split_ifs with henc hauth
        · refine h.keeps (hbehind.next fun _ object' ho' => .inl ?_)
          rw [ho, Option.some.injEq] at ho'
          subst ho'
          exact sealed_of_authentic hauth
        · exact h.keeps hbehind
        · exact h.keeps (fact_encryptUpload hbehind (h.seen ho))
  | legacy row path todo object =>
    rw [answer]
    cases ho : db.openObjectVersion path object with
    | none => exact h.keeps trivial
    | some current =>
      exact h.keeps (fact_encryptUpload hf (h.seen (openObjectVersion_eq_some ho).1))
  | put row path todo version bytes =>
    obtain ⟨hbehind, hstands⟩ := hf
    have howner := hbehind.owner path (by simp)
    rw [answer]
    cases hkey : row.dataKey with
    | none => exact h.keeps trivial
    | some dataKey =>
      simp only [putIf]
      split_ifs with hversion
      · have hsome : db.objects path ≠ none := by
          intro hnone
          rw [PayloadDb.version, hnone] at hversion
          exact absurd hversion (by simp)
        have hput : Keeps C lax worker allowed db (db.put path (.sealed dataKey path bytes))
            True := by
          refine ⟨h.put hstands ?_ (fun _ _ _ => .inl rfl) (.inl rfl),
            .put (fun w' _ => ?_) (.inr (.inl ⟨rfl, fun _ => hsome⟩)), trivial⟩
          · rintro dataKey' path' bytes' heq
            simp only [sealed.injEq] at heq
            obtain ⟨rfl, rfl, -⟩ := heq
            exact ⟨rfl, hbehind.enabled, fun row' hrow' =>
              hbehind.row.2 dataKey row' hkey (howner ▸ hrow')⟩
          · rw [howner]
            rcases hbehind.published with hs | hs <;> simp [hs]
        refine ⟨hput.inv, hput.evolves, ?_, howner⟩
        refine (hbehind.evolves hallowed hput.evolves).next fun _ object ho => .inl ?_
        rw [put_self, Option.some.injEq] at ho
        subst ho
        rfl
      · exact h.keeps trivial
  | check row path todo =>
    rw [answer]
    cases db.objects path with
    | none => exact h.keeps trivial
    | some object =>
      simp only
      split_ifs
      · exact h.keeps hf.1
      · exact h.keeps trivial
  | out => exact h.keeps trivial

end MigrateCall

/-! ### Any call -/

namespace PayloadCall

/-- What a call knows. -/
def Fact (C : PayloadCodec Bytes Hash) (lax : Prop) (db : PayloadDb Id Bytes Hash) (w : ℕ) :
    PayloadCall Id Bytes Hash → Prop
  | .upload ref upload call => call.Fact C db w ref upload
  | .remove ref => db.stage ref = .gone
  | .migrate ref call => call.Fact C lax db ref
  | .read id call => call.Fact C db id
  | _ => True

/-- A migration worker is past a path. -/
def Past (path : PayloadPath Id) : PayloadCall Id Bytes Hash → Prop
  | .migrate ref call => path.owner = ref ∧ call.Past path
  | _ => False

/-- The plaintext put that a call is about to make, if it takes effect, for the report of an id. -/
def PutsPlain (db : PayloadDb Id Bytes Hash) (id : Id) : PayloadCall Id Bytes Hash → Prop
  | .read id' call => id' = id ∧ call.PutsPlain db id'
  | _ => False

variable {call : PayloadCall Id Bytes Hash}

theorem Fact.evolves (h : call.Fact C lax db w) (hw : some w ≠ worker)
    (hallowed : ∀ path, call.Past path → db.stage path.owner = .live → ¬allowed path)
    (hev : Evolves lax worker allowed db db') : call.Fact C lax db' w := by
  cases call with
  | out => trivial
  | upload ref upload call => exact UploadCall.Fact.evolves h hw hev
  | delete ref => trivial
  | remove ref => exact hev.gone _ h
  | migrate ref call =>
    refine MigrateCall.Fact.evolves h (fun path howner hpast hlive => ?_) hev
    exact hallowed path ⟨howner, hpast⟩ (howner ▸ hlive)
  | read id call => exact ReadCall.Fact.evolves h hev

variable [DecidableEq Id] [DecidableEq Bytes] [DecidableEq Hash] {keyed side stale : Bool}

/-- **Every step of a call keeps the invariant**, if its plaintext is allowed. -/
theorem keeps_answer (h : db.Inv C lax) (hf : call.Fact C lax db w)
    (hplain : ∀ id, call.PutsPlain db id → db.enabled = true →
      lax ∨ allowed (reportPath id true) ∧
        ∀ row, db.rows ⟨.report, id⟩ = some row → row.encrypted = false)
    (hallowed : ∀ path, call.Past path → db.stage path.owner = .live → ¬allowed path) :
    Keeps C lax (some w) allowed db (call.answer C db keyed side stale).1
      ((call.answer C db keyed side stale).2.Fact C lax
        (call.answer C db keyed side stale).1 w) := by
  cases call with
  | out => exact h.keeps trivial
  | upload ref payload call => exact UploadCall.keeps_answer h hf
  | delete ref =>
    rw [answer]
    cases hrow : db.rows ref with
    | none => exact h.keeps trivial
    | some row =>
      refine ⟨h.close, .close fun w' _ => ?_, close_stage_self⟩
      rw [h.live_of_row hrow]
      simp
  | remove ref =>
    have hgone : db.stage ref = .gone := hf
    exact ⟨h.removeIdle (by simp [hgone]), .remove (by simp [hgone]) (by simp [hgone]), hgone⟩
  | migrate ref call =>
    refine MigrateCall.keeps_answer h hf fun path howner hpast hlive => ?_
    exact hallowed path ⟨howner, hpast⟩ (howner ▸ hlive)
  | read id call => exact ReadCall.keeps_answer h hf fun hputs => hplain id ⟨rfl, hputs⟩

omit [DecidableEq Bytes] [DecidableEq Hash] in
theorem keeps_throws (h : db.Inv C lax) (hf : call.Fact C lax db w) :
    Keeps C lax (some w) allowed db (call.throws db).1
      ((call.throws db).2.Fact C lax (call.throws db).1 w) := by
  cases call with
  | upload ref payload call =>
    cases call with
    | putPlain => exact h.keeps hf.1
    | recheck => exact h.keeps hf.1
    | insert dataKey =>
      exact ⟨h.close, .close fun w' hw => hf.1.not_staged hw, .inr close_stage_self⟩
    | inserted => exact h.keeps hf
    | mode => exact h.keeps trivial
    | discardOpen => exact h.keeps trivial
    | discardDelete version => exact h.keeps trivial
    | checkRow => exact h.keeps trivial
    | putSealed => exact h.keeps trivial
    | resolve => exact h.keeps trivial
    | remove => exact h.keeps trivial
    | out => exact h.keeps trivial
  | out => exact h.keeps trivial
  | delete ref => exact h.keeps trivial
  | remove ref => exact h.keeps trivial
  | migrate ref call => exact h.keeps trivial
  | read id call => exact h.keeps trivial

end PayloadCall

/-! ### The store -/

namespace PayloadStore

/-- The invariant holds, and every worker knows what its call is to know. -/
structure Inv (C : PayloadCodec Bytes Hash) (lax : Prop) (s : PayloadStore Id Bytes Hash) :
    Prop where
  db : s.db.Inv C lax
  fact : ∀ w, (s.workers w).call.Fact C lax s.db w

/-- The step does not put a report in plaintext after activation, or its row is not marked encrypted
and no migration worker at work on it is past its compressed path. -/
def Careful (s : PayloadStore Id Bytes Hash) : PayloadLabel Id Bytes → Prop
  | .answer w _ _ =>
    match (s.workers w).call with
    | .read id call => call.PutsPlain s.db id → s.db.enabled = true →
        ∀ row, s.db.rows ⟨.report, id⟩ = some row → row.encrypted = false ∧
          ∀ w', ¬(s.workers w').call.Past (reportPath id true)
    | _ => True
  | _ => True

variable [DecidableEq Id] [DecidableEq Bytes] [DecidableEq Hash]
  {s s' : PayloadStore Id Bytes Hash} {a : PayloadLabel Id Bytes}

section

omit [DecidableEq Id] [DecidableEq Bytes] [DecidableEq Hash]

/-- The step of one worker is nothing to the others. -/
theorem Inv.set (h : s.Inv C lax) (allowed : PayloadPath Id → Prop) {keyed : Bool}
    {next : PayloadDb Id Bytes Hash × PayloadCall Id Bytes Hash}
    (hkeeps : Keeps C lax (some w) allowed s.db next.1 (next.2.Fact C lax next.1 w))
    (hallowed : ∀ w' path, (s.workers w').call.Past path → s.db.stage path.owner = .live →
      ¬allowed path) : (s.set w keyed next).Inv C lax where
  db := hkeeps.inv
  fact w' := by
    rcases eq_or_ne w' w with rfl | hne
    · have hself : (s.set w' keyed next).workers w' = ⟨keyed, next.2⟩ := Function.update_self ..
      rw [hself]
      exact hkeeps.fact
    · have hother : (s.set w keyed next).workers w' = s.workers w' :=
        Function.update_of_ne hne ..
      rw [hother]
      refine (h.fact w').evolves (fun heq => hne (some.inj heq)) (hallowed w') ?_
      exact hkeeps.evolves

theorem Careful.puts {side stale : Bool} (h : s.Careful (.answer w side stale)) {id : Id}
    (hputs : (s.workers w).call.PutsPlain s.db id) (hon : s.db.enabled = true)
    {row : PayloadRow Hash} (hrow : s.db.rows ⟨.report, id⟩ = some row) :
    row.encrypted = false ∧ ∀ w', ¬(s.workers w').call.Past (reportPath id true) := by
  simp only [Careful] at h
  cases hcall : (s.workers w).call with
  | read id' call =>
    rw [hcall] at h hputs
    obtain ⟨rfl, hputs⟩ := hputs
    exact h hputs hon row hrow
  | out => simp [hcall, PayloadCall.PutsPlain] at hputs
  | upload ref upload call => simp [hcall, PayloadCall.PutsPlain] at hputs
  | delete ref => simp [hcall, PayloadCall.PutsPlain] at hputs
  | remove ref => simp [hcall, PayloadCall.PutsPlain] at hputs
  | migrate ref call => simp [hcall, PayloadCall.PutsPlain] at hputs

/-- A step of the environment. -/
theorem Inv.setDb (h : s.Inv C lax) {db' : PayloadDb Id Bytes Hash} (hinv : db'.Inv C lax)
    (hev : Evolves lax none (fun _ => False) s.db db') : Inv C lax { s with db := db' } where
  db := hinv
  fact w := (h.fact w).evolves (by simp) (fun _ _ _ hno => hno) hev

end

/-- **Every step keeps the invariant**, if it is careful or `lax` holds. -/
theorem Inv.step (h : s.Inv C lax) (hcareful : lax ∨ s.Careful a)
    (hst : (payloadStore C).step s a = some s') : s'.Inv C lax := by
  have hnone : ∀ w' path, (s.workers w').call.Past path → s.db.stage path.owner = .live →
      ¬(fun _ : PayloadPath Id => False) path := fun _ _ _ _ hno => hno
  cases a with
  | enter w keyed task =>
    simp only [payloadStore] at hst
    split at hst
    · obtain ⟨next, hnext, rfl⟩ := map_eq_some_iff.1 hst
      refine h.set (fun _ => False) ?_ hnone
      cases task with
      | upload ref upload =>
        simp only [PayloadDb.start] at hnext
        split at hnext
        · rename_i hfresh
          rw [Option.some.injEq] at hnext
          subst hnext
          refine ⟨h.db.begin hfresh, .begin h.db hfresh, ⟨begin_stage_self, begin_uploads_self⟩,
            fun path howner => ?_⟩
          subst howner
          exact h.db.no_object hfresh
        · exact absurd hnext (by simp)
      | delete ref =>
        simp only [PayloadDb.start, Option.some.injEq] at hnext
        subst hnext
        exact h.db.keeps trivial
      | migrate ref =>
        simp only [PayloadDb.start, Option.some.injEq] at hnext
        subst hnext
        exact h.db.keeps trivial
      | report id known =>
        simp only [PayloadDb.start, Option.some.injEq] at hnext
        subst hnext
        cases known with
        | true => exact h.db.keeps trivial
        | false => exact h.db.keeps ⟨trivial, trivial⟩
      | bundle id sourcemap =>
        simp only [PayloadDb.start, Option.some.injEq] at hnext
        subst hnext
        exact h.db.keeps trivial
    · exact absurd hst (by simp)
  | answer w side stale =>
    simp only [payloadStore, Option.some.injEq] at hst
    subst hst
    rcases hcareful with hlax | hcareful
    · exact h.set (fun _ => False) (keeps_answer h.db (h.fact w)
        (fun _ _ _ => .inl hlax) (hnone w)) hnone
    · -- only the path that is put now is allowed, and no worker is past it
      have hallowed : ∀ w' path, (s.workers w').call.Past path → s.db.stage path.owner = .live →
          ¬∃ id, path = reportPath id true ∧ (s.workers w).call.PutsPlain s.db id ∧
            s.db.enabled = true := by
        rintro w' path hpast hlive ⟨id, rfl, hputs, hon⟩
        obtain ⟨row, hrow⟩ := isSome_iff_exists.1 ((h.db.live _).1 hlive)
        exact (hcareful.puts hputs hon hrow).2 w' hpast
      refine h.set _ (keeps_answer h.db (h.fact w) (fun id hputs hon => .inr ⟨?_, ?_⟩)
        (hallowed w)) hallowed
      · exact ⟨id, rfl, hputs, hon⟩
      · exact fun row hrow => (hcareful.puts hputs hon hrow).1
  | throws w =>
    simp only [payloadStore, Option.some.injEq] at hst
    subst hst
    exact h.set (fun _ => False) (keeps_throws h.db (h.fact w)) hnone
  | leave w =>
    simp only [payloadStore, Option.some.injEq] at hst
    subst hst
    exact h.set (fun _ => False) (h.db.keeps trivial) hnone
  | enable =>
    simp only [payloadStore, Option.some.injEq] at hst
    subst hst
    exact h.setDb h.db.enable .enable
  | advance last tokens =>
    simp only [payloadStore, Option.some.injEq] at hst
    subst hst
    have hadvance := h.db.advanceStorageMigration none (fun _ => False) last tokens
    exact h.setDb hadvance.1 hadvance.2

section Start

variable {legacy : FMap (PayloadRef Id) (LegacyPayload Bytes)}

section

omit [DecidableEq Bytes] [DecidableEq Hash]

theorem start_object {path : PayloadPath Id} {object : StoredPayload Id Bytes}
    (h : (start C legacy : PayloadStore Id Bytes Hash).db.objects path = some object) :
    ∃ payload bytes, legacy path.owner = some payload ∧ payload.stored C path = some bytes ∧
      object = ⟨0, .plain bytes, false⟩ := by
  simp only [start, bind_eq_some_iff, map_eq_some_iff] at h
  obtain ⟨payload, hpayload, bytes, hbytes, rfl⟩ := h
  exact ⟨payload, bytes, hpayload, hbytes, rfl⟩

theorem start_row {ref : PayloadRef Id} {row : PayloadRow Hash}
    (h : (start C legacy : PayloadStore Id Bytes Hash).db.rows ref = some row) :
    ∃ payload, legacy ref = some payload ∧
      row = ⟨none, false, C.hash ref.type payload.upload.bytes, payload.upload.sourcemap⟩ := by
  simp only [start, FMap.ofKeys_apply, ite_none_right_eq_some, map_eq_some_iff] at h
  obtain ⟨-, payload, hpayload, rfl⟩ := h
  exact ⟨payload, hpayload, rfl⟩

theorem start_rows_of_some {ref : PayloadRef Id} {payload : LegacyPayload Bytes}
    (h : legacy ref = some payload) :
    (start C legacy : PayloadStore Id Bytes Hash).db.rows ref =
      some ⟨none, false, C.hash ref.type payload.upload.bytes, payload.upload.sourcemap⟩ := by
  simp only [start, FMap.ofKeys_apply, FMap.isSome_of_eq h, if_true, h, map_some]

end

section

omit [DecidableEq Id] [DecidableEq Bytes] [DecidableEq Hash]

/-- What an earlier version stored stands for the upload. -/
theorem stored_decode {payload : LegacyPayload Bytes} {path : PayloadPath Id} {bytes : Bytes}
    (h : payload.stored C path = some bytes) :
    C.decode path bytes = some payload.upload.bytes ∧
      (path.owner.type = .bundle → path.compressed = payload.upload.sourcemap) := by
  obtain ⟨⟨type, id⟩, compressed⟩ := path
  cases type with
  | report =>
    refine ⟨?_, by simp⟩
    cases compressed with
    | true =>
      simp only [stored, ite_none_left_eq_some, Option.some.injEq] at h
      rw [← h.2]
      exact C.decode_encode _ _
    | false =>
      simp only [stored, ite_none_left_eq_some, Option.some.injEq] at h
      rw [← h.2]
      rfl
  | bundle =>
    simp only [stored, ite_none_right_eq_some, Option.some.injEq] at h
    obtain ⟨rfl, rfl⟩ := h
    exact ⟨C.decode_stored ⟨.bundle, id⟩ payload.upload, fun _ => rfl⟩

/-- An earlier version stored every payload somewhere. -/
theorem exists_stored (payload : LegacyPayload Bytes) (ref : PayloadRef Id) :
    ∃ (path : PayloadPath Id) (bytes : Bytes),
      path.owner = ref ∧ payload.stored C path = some bytes := by
  obtain ⟨type, id⟩ := ref
  cases type with
  | report =>
    by_cases hcopies : payload.copies = .original
    · exact ⟨⟨⟨.report, id⟩, false⟩, payload.upload.bytes, rfl, by
        simp [stored, hcopies]⟩
    · exact ⟨⟨⟨.report, id⟩, true⟩, C.stored .report payload.upload, rfl, by
        simp only [stored, hcopies, if_false]⟩
  | bundle =>
    exact ⟨⟨⟨.bundle, id⟩, payload.upload.sourcemap⟩, C.stored .bundle payload.upload, rfl, by
      simp only [stored, if_true]⟩

end

omit [DecidableEq Bytes] [DecidableEq Hash] in
/-- The store before activation. -/
theorem Inv.start (lax : Prop) (legacy : FMap (PayloadRef Id) (LegacyPayload Bytes)) :
    (start C legacy : PayloadStore Id Bytes Hash).Inv C lax where
  db :=
    { objects := fun path object ho => by
        obtain ⟨payload, bytes, hpayload, hbytes, rfl⟩ := start_object ho
        have hup : (PayloadStore.start C legacy : PayloadStore Id Bytes Hash).db.uploads
            path.owner = some payload.upload := by simp [PayloadStore.start, hpayload]
        exact ⟨payload.upload, hup, stored_decode hbytes⟩
      sealings := fun path object dataKey path' bytes ho hbody => by
        obtain ⟨payload, bytes', -, -, rfl⟩ := start_object ho
        exact absurd hbody (by simp)
      version := fun path object ho => by
        obtain ⟨payload, bytes, -, -, rfl⟩ := start_object ho
        exact Nat.zero_lt_one
      late := fun _ path object ho => by
        obtain ⟨payload, bytes, -, -, rfl⟩ := start_object ho
        rfl
      rows := fun ref row hrow => by
        obtain ⟨payload, hpayload, rfl⟩ := start_row hrow
        exact ⟨⟨payload.upload, by simp [PayloadStore.start, hpayload], rfl, rfl⟩, by simp⟩
      encrypted := fun ref row hrow henc => by
        obtain ⟨payload, -, rfl⟩ := start_row hrow
        exact absurd henc (by simp)
      kept := fun ref row hrow => by
        obtain ⟨payload, hpayload, rfl⟩ := start_row hrow
        obtain ⟨path, bytes, rfl, hbytes⟩ := exists_stored (C := C) payload ref
        exact ⟨path, ⟨0, .plain bytes, false⟩, rfl, by simp [PayloadStore.start, hpayload, hbytes],
          .inr rfl⟩
      live := fun ref => by
        cases hpayload : legacy ref with
        | none =>
          have hrow : (PayloadStore.start C legacy : PayloadStore Id Bytes Hash).db.rows ref =
              none := by simp [PayloadStore.start, FMap.ofKeys_apply, hpayload]
          rw [hrow]
          simp [PayloadStore.start, hpayload]
        | some payload =>
          rw [start_rows_of_some hpayload]
          simp [PayloadStore.start, hpayload]
      fresh := fun ref hstage => by
        cases hpayload : legacy ref with
        | none => simp [PayloadStore.start, hpayload]
        | some payload => simp [PayloadStore.start, hpayload] at hstage
      complete := fun hdone => absurd hdone (by simp [PayloadStore.start]) }
  fact _ := trivial

end Start

variable {legacy : FMap (PayloadRef Id) (LegacyPayload Bytes)}

/-- **The invariant holds in every reachable state.** -/
theorem Inv.reachable (h : (payloadStore C).Reachable (PayloadStore.start C legacy) s) :
    s.Inv C True :=
  h.invariant (Inv.start True legacy) fun _ _ _ hI hst => hI.step (.inl trivial) hst

/-- **A run that is careful keeps the strict invariant.** -/
theorem Inv.reachableUnder
    (h : (payloadStore C).ReachableUnder Careful (PayloadStore.start C legacy) s) : s.Inv C False :=
  h.invariant (Inv.start False legacy) fun _ _ _ hI hcareful hst => hI.step (.inr hcareful) hst

end PayloadStore

end Triage.Managed
