import Triage.Managed.Sessions

/-!
# Views end with their administrator

A view is a row of its own that names the own session it was opened by. Deleting a session deletes
its view, and taking the role of an administrator deletes the views of all their sessions, so what
is true when a view is opened stays true as long as its row is there.

## Main results

* `view_sessions` : what authenticates, and since when.
-/

namespace Triage.Managed

open List Option FMap

set_option linter.unusedSectionVars false

variable {Token User : Type} [DecidableEq Token] [DecidableEq User]
  {db db' : SessionsDb Token User}

namespace SessionsDb

/-- A user is an administrator. -/
def IsAdmin (db : SessionsDb Token User) (id : User) : Prop :=
  ∃ row, db.users id = some row ∧ row.role = .admin

/-- What holds of the rows. -/
structure Inv (db : SessionsDb Token User) : Prop where
  drawn : ∀ id row, db.sessions id = some row → id ∈ db.drawn
  user : ∀ id row, db.sessions id = some row → (db.users row.userId).isSome
  /-- A view is of another user than the administrator, to whose session it belongs. -/
  view : ∀ id row viewer, db.sessions id = some row → row.viewerSession = some viewer →
    ∃ p, db.sessions viewer = some p ∧ p.viewerSession = none ∧ p.expiresAt = row.expiresAt ∧
      row.userId ≠ p.userId ∧ db.IsAdmin p.userId
  single : ∀ id id' row row' viewer, db.sessions id = some row → db.sessions id' = some row' →
    row.viewerSession = some viewer → row'.viewerSession = some viewer → id = id'

/-- A row is the same session. -/
def SameSession (row row' : SessionRow Token User) : Prop :=
  row'.userId = row.userId ∧ row'.viewerSession = row.viewerSession ∧
    row'.expiresAt = row.expiresAt

/-! ### Users -/

/-- Users stay, and so do administrators. -/
structure UsersStay (db db' : SessionsDb Token User) : Prop where
  sessions : db'.sessions = db.sessions
  drawn : db.drawn ⊆ db'.drawn
  users : ∀ id row, db.users id = some row →
    ∃ row', db'.users id = some row' ∧ (row.role = .admin → row'.role = .admin)

theorem UsersStay.refl (db : SessionsDb Token User) : db.UsersStay db :=
  ⟨rfl, Finset.Subset.refl _, fun _ row h => ⟨row, h, id⟩⟩

theorem UsersStay.trans {db'' : SessionsDb Token User} (h : db.UsersStay db')
    (h' : db'.UsersStay db'') : db.UsersStay db'' where
  sessions := h'.sessions.trans h.sessions
  drawn := h.drawn.trans h'.drawn
  users id row hrow := by
    obtain ⟨row', hrow', hadmin⟩ := h.users id row hrow
    obtain ⟨row'', hrow'', hadmin'⟩ := h'.users id row' hrow'
    exact ⟨row'', hrow'', fun hr => hadmin' (hadmin hr)⟩

theorem UsersStay.isAdmin (h : db.UsersStay db') {id : User} (hadmin : db.IsAdmin id) :
    db'.IsAdmin id := by
  obtain ⟨row, hrow, hrole⟩ := hadmin
  obtain ⟨row', hrow', hadmin'⟩ := h.users id row hrow
  exact ⟨row', hrow', hadmin' hrole⟩

theorem Inv.usersStay (h : db.Inv) (hstay : db.UsersStay db') : db'.Inv where
  drawn id row hrow := by
    rw [hstay.sessions] at hrow
    exact hstay.drawn (h.drawn id row hrow)
  user id row hrow := by
    rw [hstay.sessions] at hrow
    obtain ⟨u, hu⟩ := isSome_iff_exists.1 (h.user id row hrow)
    obtain ⟨u', hu', -⟩ := hstay.users _ u hu
    rw [hu']
    rfl
  view id row viewer hrow hviewer := by
    rw [hstay.sessions] at hrow
    obtain ⟨p, hp, hown, hexp, hne, hadmin⟩ := h.view id row viewer hrow hviewer
    exact ⟨p, by rw [hstay.sessions, hp], hown, hexp, hne, hstay.isAdmin hadmin⟩
  single := by
    rw [hstay.sessions]
    exact h.single

/-- A user's row is written. -/
theorem usersStay_insert {id : User} {row : UserRow}
    (hadmin : ∀ old, db.users id = some old → old.role = .admin → row.role = .admin) :
    db.UsersStay { db with users := db.users.insert id row } where
  sessions := rfl
  drawn := Finset.Subset.refl _
  users id' old hold := by
    rcases eq_or_ne id' id with rfl | hne
    · exact ⟨row, insert_self _ _ _, hadmin old hold⟩
    · exact ⟨old, (insert_of_ne _ hne _).trans hold, fun hr => hr⟩

theorem usersStay_upsertUser (identity : GithubIdentity) (id : User) :
    db.UsersStay (db.upsertUser identity id) := by
  refine usersStay_insert fun old hold hrole => ?_
  rw [hold]
  exact hrole

theorem usersStay_promoteInitialAdmin (id : User) : db.UsersStay (db.promoteInitialAdmin id) := by
  rw [promoteInitialAdmin]
  cases db.users id with
  | none => exact .refl db
  | some row =>
    simp only
    split_ifs
    · exact usersStay_insert fun _ _ _ => rfl
    · exact .refl db

theorem usersStay_touchUserSeen (id : User) (now : ℕ) : db.UsersStay (db.touchUserSeen id now) := by
  rw [touchUserSeen]
  cases hrow : db.users id with
  | none => exact .refl db
  | some row =>
    simp only
    split_ifs
    · refine usersStay_insert fun old hold hrole => ?_
      rw [hrow, Option.some.injEq] at hold
      subst hold
      exact hrole
    · exact .refl db

theorem usersStay_updateRole (id : User) : db.UsersStay (db.updateRole id .admin) := by
  rw [updateRole]
  cases db.users id with
  | none => exact .refl db
  | some row => exact usersStay_insert fun _ _ _ => rfl

variable (id : Token)

theorem usersStay_draw : db.UsersStay (db.draw id) :=
  ⟨rfl, Finset.subset_insert _ _, fun _ row h => ⟨row, h, fun hr => hr⟩⟩

/-- Reading records presence, and nothing else. -/
theorem usersStay_readSession (token view : Option Token) (own seen : Bool) (now : ℕ) :
    db.UsersStay (db.readSession token view own seen now).1 := by
  unfold readSession
  cases token with
  | none => exact .refl db
  | some id =>
    simp only
    split
    · split_ifs
      · exact .refl db
      · rw [sessionWithUser]
        split
        · exact .refl db
        · split_ifs
          · split
            · exact .refl db
            · exact usersStay_touchUserSeen _ _
          · exact .refl db
    · split_ifs
      · exact .refl db
      · rw [viewSessionWithUser]
        split
        · exact .refl db
        · rename_i read _
          cases read.session.viewer with
          | none => exact .refl db
          | some viewer => exact usersStay_touchUserSeen _ _

/-! ### Deletions -/

section Delete

variable {p : Token → SessionRow Token User → Bool}

theorem deleteWhere_eq_some {id : Token} {row : SessionRow Token User} :
    (db.deleteWhere p).sessions id = some row ↔ db.sessions id = some row ∧ p id row = false ∧
      ∀ viewer q, row.viewerSession = some viewer → db.sessions viewer = some q →
        p viewer q = false := by
  rw [deleteWhere]
  simp only [ofKeys_apply]
  constructor
  · intro h
    obtain ⟨-, hrow⟩ := ite_none_right_eq_some.1 h
    rw [filter_eq_some_iff] at hrow
    obtain ⟨hrow, hkeep⟩ := hrow
    simp only [Bool.and_eq_true, Bool.not_eq_true'] at hkeep
    refine ⟨hrow, hkeep.1, fun viewer q hviewer hq => ?_⟩
    simpa [hviewer, hq] using hkeep.2
  · rintro ⟨hrow, hp, hviewer⟩
    rw [if_pos (isSome_of_eq hrow), filter_eq_some_iff]
    refine ⟨hrow, ?_⟩
    simp only [hp, Bool.not_false, Bool.true_and, Bool.not_eq_true']
    cases hv : row.viewerSession with
    | none => rfl
    | some viewer =>
      cases hq : db.sessions viewer with
      | none => simp [hq]
      | some q => simpa [hq] using hviewer viewer q hv hq

theorem Inv.deleteWhere (h : db.Inv) : (db.deleteWhere p).Inv where
  drawn id row hrow := h.drawn id row (deleteWhere_eq_some.1 hrow).1
  user id row hrow := h.user id row (deleteWhere_eq_some.1 hrow).1
  view id row viewer hrow hviewer := by
    obtain ⟨hrow, hp, hkeep⟩ := deleteWhere_eq_some.1 hrow
    obtain ⟨q, hq, hown, hexp, hne, hadmin⟩ := h.view id row viewer hrow hviewer
    refine ⟨q, deleteWhere_eq_some.2 ⟨hq, hkeep viewer q hviewer hq, ?_⟩, hown, hexp, hne, hadmin⟩
    intro viewer' q' hviewer'
    rw [hown] at hviewer'
    exact absurd hviewer' (by simp)
  single id id' row row' viewer hrow hrow' :=
    h.single id id' row row' viewer (deleteWhere_eq_some.1 hrow).1 (deleteWhere_eq_some.1 hrow').1

end Delete

/-! ### Steps -/

variable {id' : Token} {row' : SessionRow Token User} {view : ViewRequest Token User}
  {as : List (SessionLabel Token User)} {a : SessionLabel Token User}

theorem insertSession_cases {id : Token} {row : SessionRow Token User}
    (h : (db.insertSession id row).sessions id' = some row') :
    id' = id ∧ row' = row ∨ id' ≠ id ∧ db.sessions id' = some row' := by
  rcases eq_or_ne id' id with rfl | hne
  · have hself : (db.insertSession id' row).sessions id' = some row := insert_self _ _ _
    rw [hself, Option.some.injEq] at h
    exact .inl ⟨rfl, h.symm⟩
  · exact .inr ⟨hne, (insert_of_ne _ hne _).symm.trans h⟩

theorem insertSession_old {id : Token} {row : SessionRow Token User} (hne : id' ≠ id)
    (h : db.sessions id' = some row') : (db.insertSession id row).sessions id' = some row' :=
  (insert_of_ne _ hne _).trans h

theorem ne_of_drawn (h : db.Inv) {id : Token} {row : SessionRow Token User}
    (hid : id ∉ db.drawn) (hrow : db.sessions id' = some row) : id' ≠ id := by
  rintro rfl
  exact hid (h.drawn _ row hrow)

variable {now : ℕ}

/-- The row of a view says what was true when it was opened. -/
theorem viewRow_eq_some {row : SessionRow Token User}
    (h : db.viewRow view now = some row) : ∃ p, db.sessions view.viewerSessionId = some p ∧
      db.IsAdmin p.userId ∧ (db.users view.userId).isSome ∧ p.viewerSession = none ∧
      view.userId ≠ p.userId ∧
      row = ⟨view.userId, view.csrfToken, now, p.expiresAt, none, some view.viewerSessionId⟩ := by
  simp only [viewRow, bind_eq_bind, bind_eq_some_iff] at h
  obtain ⟨p, hp, a, ha, u, hu, hrow⟩ := h
  rw [ite_none_right_eq_some] at hrow
  obtain ⟨⟨-, hown, hadmin, hne⟩, hrow⟩ := hrow
  exact ⟨p, hp, ⟨a, ha, hadmin⟩, by rw [hu]; rfl, hown, hne, (some.inj hrow).symm⟩

/-- A session of its own is inserted. -/
theorem Inv.insertOwn (h : db.Inv) {id : Token} {row : SessionRow Token User} (hid : id ∉ db.drawn)
    (huser : (db.users row.userId).isSome) (hown : row.viewerSession = none) :
    ((db.draw id).insertSession id row).Inv where
  drawn id' row' hrow' := by
    rcases eq_or_ne id' id with rfl | hne
    · exact Finset.mem_insert_self _ _
    · exact Finset.mem_insert_of_mem
        (h.drawn id' row' ((insert_of_ne _ hne _).symm.trans hrow'))
  user id' row' hrow' := by
    rcases insertSession_cases hrow' with ⟨rfl, rfl⟩ | ⟨-, hold⟩
    · exact huser
    · exact h.user id' row' hold
  view id' row' viewer hrow' hviewer := by
    rcases insertSession_cases hrow' with ⟨rfl, rfl⟩ | ⟨-, hold⟩
    · rw [hown] at hviewer
      exact absurd hviewer (by simp)
    · obtain ⟨p, hp, hrest⟩ := h.view id' row' viewer hold hviewer
      exact ⟨p, insertSession_old (ne_of_drawn h hid hp) hp, hrest⟩
  single id₁ id₂ row₁ row₂ viewer h₁ h₂ hv₁ hv₂ := by
    rcases insertSession_cases h₁ with ⟨rfl, rfl⟩ | ⟨-, hold₁⟩
    · rw [hown] at hv₁
      exact absurd hv₁ (by simp)
    · rcases insertSession_cases h₂ with ⟨rfl, rfl⟩ | ⟨-, hold₂⟩
      · rw [hown] at hv₂
        exact absurd hv₂ (by simp)
      · exact h.single id₁ id₂ row₁ row₂ viewer hold₁ hold₂ hv₁ hv₂

theorem viewRow_draw (view : ViewRequest Token User) (now : ℕ) (id : Token) :
    (db.draw id).viewRow view now = db.viewRow view now := rfl

/-- What is there after a view was opened: it, and what was there, but for the view before. -/
theorem createViewSession_cases {row : SessionRow Token User}
    (hview : db.viewRow view now = some row) {id : Token}
    (hrow' : (((db.draw view.id).createViewSession view now).1).sessions id = some row') :
    id = view.id ∧ row' = row ∨
      id ≠ view.id ∧ db.sessions id = some row' ∧
        row'.viewerSession ≠ some view.viewerSessionId := by
  rw [createViewSession, viewRow_draw, hview] at hrow'
  obtain ⟨hins, hp, -⟩ := deleteWhere_eq_some.1 hrow'
  rcases insertSession_cases hins with ⟨rfl, rfl⟩ | ⟨hne, hold⟩
  · exact .inl ⟨rfl, rfl⟩
  · refine .inr ⟨hne, hold, fun hviewer => ?_⟩
    rw [hviewer] at hp
    simp [hne] at hp

variable {p : SessionRow Token User}

/-- Own sessions stay when a view is opened. -/
theorem createViewSession_own (h : db.Inv) (hid : view.id ∉ db.drawn) {id : Token}
    (hp : db.sessions id = some p) (hown : p.viewerSession = none) :
    (((db.draw view.id).createViewSession view now).1).sessions id = some p := by
  rw [createViewSession, viewRow_draw]
  cases db.viewRow view now with
  | none => exact hp
  | some row =>
    refine deleteWhere_eq_some.2 ⟨insertSession_old (ne_of_drawn h hid hp) hp, ?_, ?_⟩
    · simp [hown]
    · intro viewer q hviewer
      rw [hown] at hviewer
      exact absurd hviewer (by simp)

/-- A view takes the place of the one before. -/
theorem Inv.createViewSession (h : db.Inv)
    (hid : view.id ∉ db.drawn) : (((db.draw view.id).createViewSession view now).1).Inv := by
  cases hview : db.viewRow view now with
  | none =>
    rw [SessionsDb.createViewSession, viewRow_draw, hview]
    exact h.usersStay (usersStay_draw view.id)
  | some row =>
    obtain ⟨p, hp, hadmin, huser, hown, hne, hrow⟩ := viewRow_eq_some hview
    have husers : (((db.draw view.id).createViewSession view now).1).users = db.users := by
      rw [SessionsDb.createViewSession, viewRow_draw, hview]
      rfl
    have hdrawn : (((db.draw view.id).createViewSession view now).1).drawn =
        insert view.id db.drawn := by
      rw [SessionsDb.createViewSession, viewRow_draw, hview]
      rfl
    refine ⟨?_, ?_, ?_, ?_⟩
    · intro id row' hrow'
      rw [hdrawn]
      rcases createViewSession_cases hview hrow' with ⟨rfl, -⟩ | ⟨-, hold, -⟩
      · exact Finset.mem_insert_self _ _
      · exact Finset.mem_insert_of_mem (h.drawn id row' hold)
    · intro id row' hrow'
      rw [husers]
      rcases createViewSession_cases hview hrow' with ⟨-, rfl⟩ | ⟨-, hold, -⟩
      · rw [hrow]
        exact huser
      · exact h.user id row' hold
    · intro id row' viewer hrow' hviewer
      rcases createViewSession_cases hview hrow' with ⟨-, rfl⟩ | ⟨-, hold, -⟩
      · rw [hrow, Option.some.injEq] at hviewer
        subst hviewer
        refine ⟨p, createViewSession_own h hid hp hown, hown, by rw [hrow], by rw [hrow]; exact hne,
          ?_⟩
        rw [IsAdmin, husers]
        exact hadmin
      · obtain ⟨q, hq, hqown, hexp, hother, hqadmin⟩ := h.view id row' viewer hold hviewer
        refine ⟨q, createViewSession_own h hid hq hqown, hqown, hexp, hother, ?_⟩
        rw [IsAdmin, husers]
        exact hqadmin
    · intro id id' row₁ row₂ viewer hrow₁ hrow₂ hv₁ hv₂
      rcases createViewSession_cases hview hrow₁ with ⟨rfl, rfl⟩ | ⟨-, hold₁, hother₁⟩
      · rcases createViewSession_cases hview hrow₂ with ⟨rfl, -⟩ | ⟨-, hold₂, hother₂⟩
        · rfl
        · rw [hrow, Option.some.injEq] at hv₁
          subst hv₁
          exact absurd hv₂ hother₂
      · rcases createViewSession_cases hview hrow₂ with ⟨rfl, rfl⟩ | ⟨-, hold₂, hother₂⟩
        · rw [hrow, Option.some.injEq] at hv₂
          subst hv₂
          exact absurd hv₁ hother₁
        · exact h.single id id' row₁ row₂ viewer hold₁ hold₂ hv₁ hv₂

/-- Taking a role away ends the views; what remains is not of that user's sessions. -/
theorem Inv.setUserRole (h : db.Inv) (id : User) (role : Role) : (db.setUserRole id role).Inv := by
  rw [SessionsDb.setUserRole]
  split_ifs with hrole
  · set gone : SessionsDb Token User := db.deleteWhere fun _ row =>
      row.viewerSession.any fun viewer => (db.sessions viewer).any fun p => p.userId = id
    have hinv : gone.Inv := h.deleteWhere
    -- the administrators of the views that are left are others
    have hother : ∀ id' row viewer p, gone.sessions id' = some row →
        row.viewerSession = some viewer → gone.sessions viewer = some p → p.userId ≠ id := by
      intro id' row viewer p hrow hviewer hp heq
      obtain ⟨-, hkeep, -⟩ := deleteWhere_eq_some.1 hrow
      rw [hviewer] at hkeep
      simp [(deleteWhere_eq_some.1 hp).1, heq] at hkeep
    rw [updateRole]
    cases hu : gone.users id with
    | none => exact hinv
    | some u =>
      refine ⟨hinv.drawn, ?_, ?_, hinv.single⟩
      · intro id' row hrow
        rcases eq_or_ne row.userId id with heq | hne
        · rw [heq]
          exact isSome_iff_exists.2 ⟨_, insert_self _ _ _⟩
        · obtain ⟨other, hother'⟩ := isSome_iff_exists.1 (hinv.user id' row hrow)
          exact isSome_iff_exists.2 ⟨other, (insert_of_ne _ hne _).trans hother'⟩
      · intro id' row viewer hrow hviewer
        obtain ⟨p, hp, hown, hexp, hne, hadmin⟩ := hinv.view id' row viewer hrow hviewer
        refine ⟨p, hp, hown, hexp, hne, ?_⟩
        obtain ⟨a, ha, hrole'⟩ := hadmin
        have hne' : p.userId ≠ id := hother id' row viewer p hrow hviewer hp
        exact ⟨a, (insert_of_ne _ hne' _).trans ha, hrole'⟩
  · rw [not_not] at hrole
    subst hrole
    exact h.usersStay (usersStay_updateRole id)

/-- The row after the key was ensured is the session that it was. -/
theorem ensureSessionUploadKey_cases {id : Token} {candidate : String}
    (h : (db.ensureSessionUploadKey id candidate).sessions id' = some row') :
    ∃ row, db.sessions id' = some row ∧ SameSession row row' := by
  rw [ensureSessionUploadKey] at h
  cases hrow : db.sessions id with
  | none =>
    rw [hrow] at h
    exact ⟨row', h, rfl, rfl, rfl⟩
  | some row =>
    rw [hrow] at h
    rcases insertSession_cases h with ⟨rfl, rfl⟩ | ⟨-, hold⟩
    · exact ⟨row, hrow, rfl, rfl, rfl⟩
    · exact ⟨row', hold, rfl, rfl, rfl⟩

theorem ensureSessionUploadKey_old {id : Token} (candidate : String)
    {row : SessionRow Token User} (h : db.sessions id' = some row) :
    ∃ row', (db.ensureSessionUploadKey id candidate).sessions id' = some row' ∧
      SameSession row row' := by
  rw [ensureSessionUploadKey]
  cases hrow : db.sessions id with
  | none => exact ⟨row, h, rfl, rfl, rfl⟩
  | some key =>
    rcases eq_or_ne id' id with rfl | hne
    · rw [hrow, Option.some.injEq] at h
      subst h
      exact ⟨_, insert_self _ _ _, rfl, rfl, rfl⟩
    · exact ⟨row, insertSession_old hne h, rfl, rfl, rfl⟩

variable (db) in
theorem ensureSessionUploadKey_users (candidate : String) :
    (db.ensureSessionUploadKey id candidate).users = db.users ∧
      (db.ensureSessionUploadKey id candidate).drawn = db.drawn := by
  rw [ensureSessionUploadKey]
  cases db.sessions id <;> exact ⟨rfl, rfl⟩

theorem Inv.ensureSessionUploadKey (h : db.Inv) (id : Token) (candidate : String) :
    (db.ensureSessionUploadKey id candidate).Inv := by
  obtain ⟨husers, hdrawn⟩ := ensureSessionUploadKey_users db id candidate
  refine ⟨?_, ?_, ?_, ?_⟩
  · intro id' row' hrow'
    obtain ⟨row, hrow, -⟩ := ensureSessionUploadKey_cases hrow'
    rw [hdrawn]
    exact h.drawn id' row hrow
  · intro id' row' hrow'
    obtain ⟨row, hrow, huser, -⟩ := ensureSessionUploadKey_cases hrow'
    rw [husers, huser]
    exact h.user id' row hrow
  · intro id' row' viewer hrow' hviewer'
    obtain ⟨row, hrow, huser, hviewer, hexp⟩ := ensureSessionUploadKey_cases hrow'
    rw [hviewer] at hviewer'
    obtain ⟨p, hp, hown, hexp', hne, hadmin⟩ := h.view id' row viewer hrow hviewer'
    obtain ⟨p', hp', huser', hown', hexp''⟩ := ensureSessionUploadKey_old candidate hp
    refine ⟨p', hp', by rw [hown', hown], by rw [hexp'', hexp', hexp], ?_, ?_⟩
    · rw [huser, huser']
      exact hne
    · rw [IsAdmin, husers, huser']
      exact hadmin
  · intro id₁ id₂ row₁' row₂' viewer hrow₁' hrow₂' hv₁ hv₂
    obtain ⟨row₁, hrow₁, -, hviewer₁, -⟩ := ensureSessionUploadKey_cases hrow₁'
    obtain ⟨row₂, hrow₂, -, hviewer₂, -⟩ := ensureSessionUploadKey_cases hrow₂'
    rw [hviewer₁] at hv₁
    rw [hviewer₂] at hv₂
    exact h.single id₁ id₂ row₁ row₂ viewer hrow₁ hrow₂ hv₁ hv₂

/-- Every method keeps what holds of the rows. -/
theorem Inv.step (h : db.Inv) {a : SessionLabel Token User}
    (hst : managedSessions.step db a = some db') : db'.Inv := by
  cases a with
  | upsertUser identity id initialAdminGithubId =>
    simp only [managedSessions] at hst
    split_ifs at hst with _ _ hfirst <;> cases hst
    · exact h
    · exact (h.usersStay (usersStay_upsertUser identity id)).usersStay
        (usersStay_promoteInitialAdmin id)
    · exact h.usersStay (usersStay_upsertUser identity id)
  | link githubUserId linked =>
    cases hst
    exact h.usersStay ⟨rfl, Finset.Subset.refl _, fun _ row hrow => ⟨row, hrow, fun hr => hr⟩⟩
  | createSession id userId csrfToken expiresAt now =>
    obtain ⟨⟨hid, huser⟩, hst⟩ := ite_none_right_eq_some.1 hst
    cases hst
    exact (h.insertOwn hid huser rfl).usersStay (usersStay_touchUserSeen userId now)
  | createViewSession view now =>
    obtain ⟨hid, hst⟩ := ite_none_right_eq_some.1 hst
    cases hst
    exact h.createViewSession hid
  | readSession token view own seen now =>
    cases hst
    exact h.usersStay (usersStay_readSession token view own seen now)
  | ensureSessionUploadKey id candidate =>
    cases hst
    exact h.ensureSessionUploadKey id candidate
  | setUserRole id role =>
    cases hst
    exact h.setUserRole id role
  | deleteSession id =>
    cases hst
    exact h.deleteWhere
  | deleteExpiredSessions now =>
    cases hst
    exact h.deleteWhere

theorem inv_start : (start : SessionsDb Token User).Inv where
  drawn _ _ hrow := nomatch hrow
  user _ _ hrow := nomatch hrow
  view _ _ _ hrow := nomatch hrow
  single _ _ _ _ _ hrow := nomatch hrow

theorem inv_run (hrun : managedSessions.run start as = some db) : db.Inv :=
  (Machine.reachable_of_run hrun).invariant inv_start fun _ _ _ hI hst => hI.step hst

/-! ### Where the rows come from -/

theorem SameSession.refl (row : SessionRow Token User) : SameSession row row := ⟨rfl, rfl, rfl⟩

/-- The session of an administrator, of their own. -/
def Administers (db : SessionsDb Token User) (viewer : Token) (admin : User) : Prop :=
  ∃ p, db.sessions viewer = some p ∧ p.viewerSession = none ∧ p.userId = admin ∧ db.IsAdmin admin

theorem setUserRole_sessions (id : User) (role : Role) {row : SessionRow Token User}
    (h : (db.setUserRole id role).sessions id' = some row) : db.sessions id' = some row := by
  rw [setUserRole] at h
  have hupdate : ∀ t : SessionsDb Token User, (t.updateRole id role).sessions = t.sessions := by
    intro t
    rw [updateRole]
    cases t.users id <;> rfl
  rw [hupdate] at h
  split_ifs at h
  · exact (deleteWhere_eq_some.1 h).1
  · exact h

/-- A row after a step was there before it, is a new session of its own, or is a view that an
administrator opened. -/
theorem session_step (hst : managedSessions.step db a = some db') {id : Token}
    (hrow' : db'.sessions id = some row') :
    (∃ row, db.sessions id = some row ∧ SameSession row row') ∨
      id ∉ db.drawn ∧ row'.viewerSession = none ∧ (∀ view now, a ≠ .createViewSession view now) ∨
      ∃ view now p, a = .createViewSession view now ∧ id = view.id ∧ id ∉ db.drawn ∧
        row'.userId = view.userId ∧ row'.viewerSession = some view.viewerSessionId ∧
        db.sessions view.viewerSessionId = some p ∧
        db.Administers view.viewerSessionId p.userId := by
  cases a with
  | upsertUser identity id' initialAdminGithubId =>
    refine .inl ⟨row', ?_, .refl row'⟩
    simp only [managedSessions] at hst
    split_ifs at hst with _ _ hfirst <;> cases hst
    · exact hrow'
    · rwa [((usersStay_upsertUser identity id').trans
        (usersStay_promoteInitialAdmin id')).sessions] at hrow'
    · exact hrow'
  | link githubUserId linked =>
    cases hst
    exact .inl ⟨row', hrow', .refl row'⟩
  | createSession id' userId csrfToken expiresAt now =>
    obtain ⟨⟨hid, -⟩, hst⟩ := ite_none_right_eq_some.1 hst
    cases hst
    rw [(usersStay_touchUserSeen userId now).sessions] at hrow'
    rcases insertSession_cases hrow' with ⟨rfl, rfl⟩ | ⟨-, hold⟩
    · exact .inr (.inl ⟨hid, rfl, fun _ _ heq => nomatch heq⟩)
    · exact .inl ⟨row', hold, .refl row'⟩
  | createViewSession view now =>
    obtain ⟨hid, hst⟩ := ite_none_right_eq_some.1 hst
    cases hst
    cases hview : db.viewRow view now with
    | none =>
      rw [createViewSession, viewRow_draw, hview] at hrow'
      exact .inl ⟨row', hrow', .refl row'⟩
    | some row =>
      rcases createViewSession_cases hview hrow' with ⟨rfl, rfl⟩ | ⟨-, hold, -⟩
      · obtain ⟨p, hp, hadmin, -, hown, -, rfl⟩ := viewRow_eq_some hview
        exact .inr (.inr ⟨view, now, p, rfl, rfl, hid, rfl, rfl, hp, p, hp, hown, rfl, hadmin⟩)
      · exact .inl ⟨row', hold, .refl row'⟩
  | readSession token view own seen now =>
    cases hst
    rw [(usersStay_readSession token view own seen now).sessions] at hrow'
    exact .inl ⟨row', hrow', .refl row'⟩
  | ensureSessionUploadKey id' candidate =>
    cases hst
    exact .inl (ensureSessionUploadKey_cases hrow')
  | setUserRole id' role =>
    cases hst
    exact .inl ⟨row', setUserRole_sessions id' role hrow', .refl row'⟩
  | deleteSession id' =>
    cases hst
    exact .inl ⟨row', (deleteWhere_eq_some.1 hrow').1, .refl row'⟩
  | deleteExpiredSessions now =>
    cases hst
    exact .inl ⟨row', (deleteWhere_eq_some.1 hrow').1, .refl row'⟩

/-- A row of a token that was drawn before is that of the session it was. -/
theorem session_old (hst : managedSessions.step db a = some db') {id : Token}
    (hid : id ∈ db.drawn) (hrow' : db'.sessions id = some row') :
    ∃ row, db.sessions id = some row ∧ SameSession row row' := by
  rcases session_step hst hrow' with hold | ⟨hnew, -⟩ | ⟨_, _, _, _, _, hnew, _⟩
  · exact hold
  · exact absurd hid hnew
  · exact absurd hid hnew

theorem user_step (h : db.Inv) (hst : managedSessions.step db a = some db') {id : Token}
    {p p' : SessionRow Token User} (hp : db.sessions id = some p)
    (hp' : db'.sessions id = some p') : p'.userId = p.userId := by
  obtain ⟨q, hq, huser, -⟩ := session_old hst (h.drawn id p hp) hp'
  rw [hp, Option.some.injEq] at hq
  rw [huser, hq]

theorem drawn_createViewSession {view : ViewRequest Token User}
    (hst : managedSessions.step db (.createViewSession view now) = some db') :
    view.id ∉ db.drawn ∧ db'.drawn = insert view.id db.drawn := by
  obtain ⟨hid, hst⟩ := ite_none_right_eq_some.1 hst
  cases hst
  refine ⟨hid, ?_⟩
  rw [createViewSession]
  cases (db.draw view.id).viewRow view now <;> rfl

/-- No token is drawn twice. -/
theorem drawn_step (hst : managedSessions.step db a = some db') : db.drawn ⊆ db'.drawn := by
  cases a with
  | upsertUser identity id' initialAdminGithubId =>
    simp only [managedSessions] at hst
    split_ifs at hst with _ _ hfirst <;> cases hst
    · exact Finset.Subset.refl _
    · exact ((usersStay_upsertUser identity id').trans (usersStay_promoteInitialAdmin id')).drawn
    · exact Finset.Subset.refl _
  | createSession id' userId csrfToken expiresAt now =>
    obtain ⟨-, hst⟩ := ite_none_right_eq_some.1 hst
    cases hst
    exact fun id hid => (usersStay_touchUserSeen userId now).drawn (Finset.mem_insert_of_mem hid)
  | createViewSession view now =>
    rw [(drawn_createViewSession hst).2]
    exact Finset.subset_insert _ _
  | readSession token view own seen now =>
    cases hst
    exact (usersStay_readSession token view own seen now).drawn
  | ensureSessionUploadKey id' candidate =>
    cases hst
    rw [(ensureSessionUploadKey_users _ id' candidate).2]
  | setUserRole id' role =>
    cases hst
    have hupdate : ∀ t : SessionsDb Token User, (t.updateRole id' role).drawn = t.drawn := by
      intro t
      rw [updateRole]
      cases t.users id' <;> rfl
    rw [setUserRole, hupdate]
    split_ifs <;> exact Finset.Subset.refl _
  | link | deleteSession | deleteExpiredSessions =>
    cases hst
    exact Finset.Subset.refl _

/-! ### Since when -/

/-- A run opened the view `id` of a session, to be `userId`; since then the session was one of
`admin`, and `admin` was an administrator. -/
def Opened (as : List (SessionLabel Token User)) (id viewer : Token) (userId admin : User) : Prop :=
  ∃ k csrfToken now, as[k]? = some (.createViewSession ⟨id, viewer, userId, csrfToken⟩ now) ∧
    ∀ n t, k ≤ n → n ≤ as.length → managedSessions.run start (as.take n) = some t →
      t.Administers viewer admin

/-- What a run is known to have done by the rows that it left. -/
structure History (as : List (SessionLabel Token User)) (db : SessionsDb Token User) : Prop where
  views : ∀ id row viewer p, db.sessions id = some row → row.viewerSession = some viewer →
    db.sessions viewer = some p → Opened as id viewer row.userId p.userId
  tokens : ∀ view now, .createViewSession view now ∈ as → view.id ∈ db.drawn ∧
    ∀ row, db.sessions view.id = some row → row.viewerSession ≠ none

/-- The administrator of a view that is there. -/
theorem Inv.administers (h : db.Inv) {id viewer : Token} {row p : SessionRow Token User}
    (hrow : db.sessions id = some row) (hviewer : row.viewerSession = some viewer)
    (hp : db.sessions viewer = some p) : db.Administers viewer p.userId := by
  obtain ⟨q, hq, hown, -, -, hadmin⟩ := h.view id row viewer hrow hviewer
  rw [hp, Option.some.injEq] at hq
  subst hq
  exact ⟨p, hp, hown, rfl, hadmin⟩

/-- A state of a run that is one step longer. -/
theorem take_concat_cases {n : ℕ} {t : SessionsDb Token User} (hn : n ≤ (as ++ [a]).length)
    (ht : managedSessions.run start ((as ++ [a]).take n) = some t)
    (hrun : managedSessions.run start (as ++ [a]) = some db') :
    n ≤ as.length ∧ managedSessions.run start (as.take n) = some t ∨ t = db' := by
  rw [length_append, length_singleton] at hn
  rcases Nat.lt_or_ge as.length n with hlt | hle
  · right
    have hall : (as ++ [a]).take n = as ++ [a] :=
      take_of_length_le (by rw [length_append, length_singleton]; omega)
    rw [hall, hrun, Option.some.injEq] at ht
    exact ht.symm
  · left
    rw [take_append_of_le_length hle] at ht
    exact ⟨hle, ht⟩

theorem History.concat (hrun : managedSessions.run start as = some db)
    (hst : managedSessions.step db a = some db')
    (hist : History as db) : History (as ++ [a]) db' := by
  have h : db.Inv := inv_run hrun
  have h' : db'.Inv := h.step hst
  have hrun' : managedSessions.run start (as ++ [a]) = some db' :=
    (Machine.run_concat_eq_some _).2 ⟨db, hrun, hst⟩
  refine ⟨?_, ?_⟩
  · intro id row' viewer p' hrow' hviewer hp'
    have hadmin' := h'.administers hrow' hviewer hp'
    rcases session_step hst hrow' with ⟨row, hrow, huser, hsame, -⟩ | ⟨-, hown, -⟩ |
      ⟨view, now, p, rfl, rfl, hid, huser, hopened, hp, hadmin⟩
    · -- the view was there before the step, and so was its administrator's session
      rw [hsame] at hviewer
      obtain ⟨p, hp, -⟩ := h.view id row viewer hrow hviewer
      have hpuser := user_step h hst hp hp'
      obtain ⟨k, csrfToken, now, hk, hsince⟩ := hist.views id row viewer p hrow hviewer hp
      rw [hpuser] at hadmin'
      rw [huser, hpuser]
      have hlt : k < as.length := by
        rw [List.getElem?_eq_some_iff] at hk
        exact hk.1
      refine ⟨k, csrfToken, now, ?_, ?_⟩
      · rwa [getElem?_append_left hlt]
      · intro n t hkn hn ht
        rcases take_concat_cases hn ht hrun' with ⟨hle, ht'⟩ | rfl
        · exact hsince n t hkn hle ht'
        · exact hadmin'
    · rw [hown] at hviewer
      exact nomatch hviewer
    · rw [hopened, Option.some.injEq] at hviewer
      subst hviewer
      have hpuser := user_step h hst hp hp'
      refine ⟨as.length, view.csrfToken, now, ?_, ?_⟩
      · rw [huser]
        exact getElem?_concat_length
      · intro n t hkn hn ht
        rcases take_concat_cases hn ht hrun' with ⟨hle, ht'⟩ | rfl
        · have hall : as.take n = as := take_of_length_le hkn
          rw [hall, hrun, Option.some.injEq] at ht'
          subst ht'
          rw [hpuser]
          exact hadmin
        · exact hadmin'
  · intro view now hmem
    rcases mem_append.1 hmem with hold | hnew
    · obtain ⟨hid, hrows⟩ := hist.tokens view now hold
      refine ⟨drawn_step hst hid, fun row' hrow' => ?_⟩
      obtain ⟨row, hrow, -, hsame, -⟩ := session_old hst hid hrow'
      rw [hsame]
      exact hrows row hrow
    · rw [mem_singleton] at hnew
      subst hnew
      obtain ⟨hundrawn, hid⟩ := drawn_createViewSession hst
      refine ⟨hid ▸ Finset.mem_insert_self _ _, fun row' hrow' => ?_⟩
      rcases session_step hst hrow' with ⟨row, hrow, -⟩ | ⟨-, -, hother⟩ |
        ⟨_, _, _, _, _, _, _, hopened, _⟩
      · exact absurd (h.drawn _ row hrow) hundrawn
      · exact absurd rfl (hother view now)
      · rw [hopened]
        exact fun heq => nomatch heq

theorem history_run (hrun : managedSessions.run start as = some db) : History as db := by
  induction as using reverseRecOn generalizing db with
  | nil =>
    cases hrun
    exact ⟨fun _ _ _ _ hrow => (nomatch hrow), fun _ _ hmem => (nomatch hmem)⟩
  | append_singleton as a ih =>
    obtain ⟨t, ht, hst⟩ := (Machine.run_concat_eq_some _).1 hrun
    exact (ih ht).concat ht hst

/-! ### Reading -/

theorem getSessionWithUser_eq_some {id : Token} {read : SessionRead Token User}
    (h : db.getSessionWithUser id now = some read) : ∃ s, db.sessions id = some s ∧
      s.viewerSession = none := by
  simp only [getSessionWithUser, bind_eq_bind, bind_eq_some_iff] at h
  obtain ⟨s, hs, u, hu, hread⟩ := h
  rw [ite_none_right_eq_some] at hread
  exact ⟨s, hs, hread.1.2⟩

theorem sessionWithUser_snd (now : ℕ) :
    (db.sessionWithUser id now).2 = db.getSessionWithUser id now := by
  rw [sessionWithUser, getSessionWithUser]
  cases db.sessions id with
  | none => rfl
  | some s =>
    simp only [bind_eq_bind, bind_some]
    cases db.users s.userId with
    | none => split_ifs <;> rfl
    | some u => split_ifs <;> rfl

theorem viewSessionWithUser_snd (id viewer : Token) (now : ℕ) :
    (db.viewSessionWithUser id viewer now).2 = db.getViewSessionWithUser id viewer now := by
  rw [viewSessionWithUser]
  cases db.getViewSessionWithUser id viewer now <;> rfl

/-- What a request without a view reads. -/
theorem readSession_own (view : Option Token) (seen : Bool) (now : ℕ) :
    (db.readSession (some id) view true seen now).2 = db.getSessionWithUser id now := by
  cases seen with
  | true => rfl
  | false => exact sessionWithUser_snd id now

theorem readSession_none (own seen : Bool) (now : ℕ) :
    (db.readSession (some id) none own seen now).2 = db.getSessionWithUser id now := by
  cases own <;> exact readSession_own id none seen now

theorem readSession_view (id view : Token) (seen : Bool) (now : ℕ) :
    (db.readSession (some id) (some view) false seen now).2 =
      db.getViewSessionWithUser view id now := by
  cases seen with
  | true => rfl
  | false => exact viewSessionWithUser_snd view id now

/-- A view is read together with the session that opened it. -/
theorem getViewSessionWithUser_eq_some {id viewer : Token}
    {read : SessionRead Token User} (h : db.getViewSessionWithUser id viewer now = some read) :
    ∃ s p a, db.sessions id = some s ∧ s.viewerSession = some viewer ∧
      db.sessions viewer = some p ∧ db.users p.userId = some a ∧ now < p.expiresAt ∧
      p.viewerSession = none ∧ a.role = .admin ∧ read.user.id = s.userId ∧
      read.session.expiresAt = s.expiresAt ∧
      read.session.viewer = some ⟨p.userId, a.login, a.name⟩ := by
  simp only [getViewSessionWithUser, bind_eq_bind, bind_eq_some_iff] at h
  obtain ⟨s, hs, u, hu, v, hv, p, hp, a, ha, hread⟩ := h
  rw [ite_none_right_eq_some] at hread
  obtain ⟨⟨rfl, -, hlive, hown, hadmin⟩, hread⟩ := hread
  cases hread
  exact ⟨s, p, a, hs, hv, hp, ha, hlive, hown, hadmin, rfl, rfl, rfl⟩

theorem getSessionWithUser_of_own {id : Token} {a : UserRow}
    (hp : db.sessions id = some p) (ha : db.users p.userId = some a) (hlive : now < p.expiresAt)
    (hown : p.viewerSession = none) : db.getSessionWithUser id now =
      some ⟨⟨id, p.userId, p.csrfToken, p.expiresAt, p.uploadKey, none⟩,
        storedUser p.userId a⟩ := by
  rw [getSessionWithUser, hp, bind_eq_bind, bind_some, ha, bind_eq_bind,
    bind_some, if_pos ⟨hlive, hown⟩]

end SessionsDb

open SessionsDb

/-- **A view ends with its administrator.**  After any run, the token that a view was opened with
authenticates nobody by itself.  A request that is read as a view has the token of a live own
session, of another user, who is an administrator, as they were at every time since the view was
opened, and the view expires with that session.  And a session has one view at most. -/
theorem view_sessions {as : List (SessionLabel Token User)}
    (hrun : managedSessions.run start as = some db) :
    (∀ view opened viewToken own seen now, .createViewSession view opened ∈ as →
      (db.readSession (some view.id) viewToken own seen now).2 = none) ∧
    (∀ token view seen now read,
      (db.readSession (some token) (some view) false seen now).2 = some read →
      ∃ opener, (db.readSession (some token) (some view) true seen now).2 = some opener ∧
        opener.user.role = .admin ∧ opener.user.id ≠ read.user.id ∧
        now < opener.session.expiresAt ∧ read.session.expiresAt = opener.session.expiresAt ∧
        read.session.viewer =
          some ⟨opener.user.id, opener.user.login, opener.user.name⟩ ∧
        Opened as view token read.user.id opener.user.id) ∧
    ∀ viewer, {id | ∃ row, db.sessions id = some row ∧
      row.viewerSession = some viewer}.Subsingleton := by
  have h : db.Inv := inv_run hrun
  have hist : History as db := history_run hrun
  refine ⟨?_, ?_, ?_⟩
  · intro view opened viewToken own seen now hmem
    obtain ⟨-, hnotOwn⟩ := hist.tokens view opened hmem
    have hget : db.getSessionWithUser view.id now = none := by
      rw [eq_none_iff_forall_not_mem]
      intro read hread
      obtain ⟨s, hs, hown⟩ := getSessionWithUser_eq_some hread
      exact hnotOwn s hs hown
    cases own with
    | true => rw [readSession_own, hget]
    | false =>
      cases viewToken with
      | none => rw [readSession_none, hget]
      | some viewToken =>
        rw [readSession_view, eq_none_iff_forall_not_mem]
        intro read hread
        obtain ⟨-, p, -, -, -, hp, -, -, hown, -⟩ := getViewSessionWithUser_eq_some hread
        exact hnotOwn p hp hown
  · intro token view seen now read hread
    rw [readSession_view] at hread
    obtain ⟨s, p, a, hs, hviewer, hp, ha, hlive, hown, hadmin, huser, hexp, hviewerRead⟩ :=
      getViewSessionWithUser_eq_some hread
    obtain ⟨q, hq, -, hexp', hne, -⟩ := h.view view s token hs hviewer
    rw [hp, Option.some.injEq] at hq
    subst hq
    refine ⟨_, (readSession_own ..).trans (getSessionWithUser_of_own hp ha hlive hown), hadmin,
      ?_, hlive, hexp.trans hexp'.symm, hviewerRead, ?_⟩
    · rw [huser]
      exact hne.symm
    · rw [huser]
      exact hist.views view s token p hs hviewer hp
  · rintro viewer id ⟨row, hrow, hviewer⟩ id' ⟨row', hrow', hviewer'⟩
    exact h.single id id' row row' viewer hrow hrow' hviewer hviewer'

/-- An administrator signs in, views as another user, and is read as them. -/
theorem view_sessions_opened : ∃ as : List (SessionLabel ℕ ℕ), ∃ db : SessionsDb ℕ ℕ,
    managedSessions.run start as = some db ∧
    (db.readSession (some 10) (some 11) false false 5).2.map (·.user.id) = some 2 ∧
    (db.readSession (some 11) none false false 5).2 = none ∧ Opened as 11 10 2 1 := by
  obtain ⟨as, has⟩ : ∃ as : List (SessionLabel ℕ ℕ), as =
      [.upsertUser ⟨7, "ada", none, ""⟩ 1 (some 7), .upsertUser ⟨8, "bob", none, ""⟩ 2 (some 7),
        .createSession 10 1 "c" 9 0, .createViewSession ⟨11, 10, 2, "d"⟩ 1] := ⟨_, rfl⟩
  obtain ⟨db, hrun, hread, hown⟩ : ∃ db : SessionsDb ℕ ℕ,
      managedSessions.run start as = some db ∧
      (db.readSession (some 10) (some 11) false false 5).2.map (·.user.id) = some 2 ∧
      (db.readSession (some 10) (some 11) true false 5).2.map (·.user.id) = some 1 := by
    subst has
    exact ⟨_, rfl, rfl, rfl⟩
  obtain ⟨htoken, hview, -⟩ := view_sessions hrun
  obtain ⟨read, hread', huser⟩ := map_eq_some_iff.1 hread
  obtain ⟨opener, hopener, -, -, -, -, -, hopened⟩ := hview 10 11 false 5 read hread'
  rw [hopener, map_some, Option.some.injEq] at hown
  rw [huser, hown] at hopened
  refine ⟨as, db, hrun, hread, ?_, hopened⟩
  exact htoken ⟨11, 10, 2, "d"⟩ 1 none false false 5 (by rw [has]; simp)

end Triage.Managed
