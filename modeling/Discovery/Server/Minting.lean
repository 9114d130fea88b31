import Discovery.Server.Tokens

namespace Discovery
open Kv

/-- A secret that is sent without a session cookie and has a role resolves to a system identity. -/
theorem resolve_bearer {r : Resolver} {st : Store} {now : Time} {c : Credentials} {secret : GoString}
    (bare : c.cookie = none) (carries : extractToken c = secret) (named : secret ≠ [])
    (known : secretRole r.authenticator st secret ≠ .none) :
    (r.resolve st now c).1 = { system := true, role := secretRole r.authenticator st secret } := by
  subst carries
  simp only [Resolver.resolve, bare, named, known, if_false, ne_eq, not_false_eq_true, if_true]

@[simp] theorem Role.ofGoString_jsonString (r : Role) : ofGoString (jsonString r.string) = r := by
  cases r <;> decide

namespace Server

/-- Whatever passes one of the three gates as `minted` passes it as `id`. -/
structure Covers (id minted : Identity) : Prop where
  edit : ∀ svc, canEditService svc minted → canEditService svc id
  admin : requireAdmin minted = .ok () → requireAdmin id = .ok ()
  manage : ∀ svc, canManageGrants svc minted → canManageGrants svc id

/-- A system identity may edit every service, so only an admin or another system identity covers it,
and the latter only if it is not beaten at the admin gates. -/
theorem covers_system_iff {id : Identity} {role : Role} :
    Covers id { system := true, role } ↔
      id.isAdmin = true ∨ id.system = true ∧ (role = .admin → id.role = .admin) := by
  constructor
  · intro covers
    by_cases admin : id.isAdmin = true
    · exact Or.inl admin
    · have system : id.system = true := by
        by_contra user
        -- a private service without owner and grants is closed to every plain user
        have opened := covers.edit { name := [], visibility := visibilityPrivate } rfl
        rw [canEditService_plain (Bool.not_eq_true _ ▸ admin) (Bool.not_eq_true _ ▸ user),
          (Service.closed_of_private rfl).canEdit_iff] at opened
        simp at opened
      refine Or.inr ⟨system, fun top => ?_⟩
      have gate := requireAdmin_eq_ok.mp (covers.admin (requireAdmin_eq_ok.mpr (Or.inr ⟨rfl, ?_⟩)))
      · rcases gate with flag | ⟨_, level⟩
        · exact absurd flag admin
        · exact Role.admin_le_iff.mp level
      · exact Role.admin_le_iff.mpr top
  · rintro (admin | ⟨system, level⟩)
    · constructor
      · intro svc _
        simp [canEditService, Service.canEdit, admin]
      · intro _
        exact requireAdmin_eq_ok.mpr (Or.inl admin)
      · intro svc _
        simp [canManageGrants, admin]
    · have top (passes : Role.admin ≤ role) : Role.admin ≤ id.role :=
        Role.admin_le_iff.mpr (level (Role.admin_le_iff.mp passes))
      constructor
      · intro svc _
        simp [canEditService, Service.canEdit, system]
      · intro passes
        rcases requireAdmin_eq_ok.mp passes with flag | ⟨_, passes⟩
        · cases flag
        · exact requireAdmin_eq_ok.mpr (Or.inr ⟨system, top passes⟩)
      · intro svc passes
        by_cases admin : Role.admin ≤ role
        · simp [canManageGrants, system, top admin]
        · simp [canManageGrants, admin] at passes

/-- What a minted secret resolves to: the role of a static token of that name, else the role asked
for. -/
theorem secretRole_minted {a : Authenticator} {st : Store} {now : Time} {t : ClientToken} {role : Role}
    (named : t.role = role.string) {o : Outcome ClientToken} (run : st.putClientToken now t = .ok o)
    (latest : ∀ old, st.clientTokens.get t.token = some old → old.updatedAt ≤ now) :
    t.token ≠ [] ∧ secretRole a o.store t.token =
      if a.resolve t.token ≠ .none then a.resolve t.token else role := by
  obtain ⟨nonempty, _, stored⟩ := Store.get_putClientToken run latest
  refine ⟨nonempty, ?_⟩
  have level : Role.ofGoString (t.stamped now).json.role = role := by
    show Role.ofGoString (jsonString t.role) = role
    rw [named, Role.ofGoString_jsonString]
  rw [secretRole_of_get stored, level]

/-- An accepted request mints no power beyond the caller's exactly if the caller is an admin, or a
system identity that no static token of the same name beats. -/
theorem minted_covered_iff {r : Resolver} {st : Store} {now later : Time} {id : Identity}
    {body : Option CreateTokenInput} {bytes : List UInt8} {uuid : GoString} {reply : Reply ClientToken}
    (run : createClientToken st now id body (.ok bytes) uuid = .ok reply)
    (latest : ∀ old, st.clientTokens.get (secretFrom bytes) = some old → old.updatedAt ≤ now)
    {c : Credentials} (bare : c.cookie = none) (carries : extractToken c = reply.value.token) :
    Covers id (r.resolve reply.store later c).1 ↔
      id.isAdmin = true ∨
        id.system = true ∧ r.authenticator.resolve (secretFrom bytes) ≤ id.role := by
  obtain ⟨write, input, _, _, some, within, secret, drawn, o, put, rfl⟩ :=
    createClientToken_eq_ok.mp run
  obtain rfl : secretFrom bytes = secret := Except.ok.inj drawn
  obtain ⟨nonempty, minted⟩ := secretRole_minted (a := r.authenticator) rfl put latest
  have token : o.value.token = secretFrom bytes := by
    rw [(Store.get_putClientToken put latest).2.1]
    rfl
  have known : secretRole r.authenticator o.store (secretFrom bytes) ≠ .none := by
    rw [minted]
    split
    next static => exact static
    next => exact some
  rw [resolve_bearer bare (carries.trans token) nonempty known, covers_system_iff, minted]
  refine or_congr_right (and_congr_right fun _ => ?_)
  generalize r.authenticator.resolve (secretFrom bytes) = static
  generalize Role.ofGoString input.role = role at within some
  generalize id.role = level at within write
  cases static <;> cases level <;> cases role <;> revert within write some <;> decide

def mintBody : CreateTokenInput := { name := "ci", role := "read" }

theorem minted_covered_system :
    ∃ reply, createClientToken Store.empty 1 { system := true, role := .write } (some mintBody)
        (.ok [1, 2, 3]) [] = .ok reply ∧
      Covers { system := true, role := .write }
        (Resolver.resolve { authenticator := {} } reply.store 2
          { authorization := "Bearer dsc_AQID" }).1 := by
  obtain ⟨reply, run, token⟩ : ∃ reply, createClientToken Store.empty 1
      { system := true, role := .write } (some mintBody) (.ok [1, 2, 3]) [] = .ok reply ∧
        reply.value.token = secretFrom [1, 2, 3] := ⟨_, rfl, rfl⟩
  have carries : extractToken { authorization := "Bearer dsc_AQID" } = reply.value.token := by
    rw [token]
    decide
  refine ⟨reply, run, (minted_covered_iff run (fun old found => ?_) rfl carries).mpr ?_⟩
  · simp [Store.empty] at found
  · exact Or.inr ⟨rfl, by decide⟩

/-- A user with write access mints a read token, and the token may edit a private service of another
user. -/
theorem minting_escalates :
    ¬∀ (r : Resolver) (st : Store) (now later : Time) (id : Identity) (body : Option CreateTokenInput)
      (bytes : List UInt8) (uuid : GoString) (reply : Reply ClientToken) (c : Credentials),
      createClientToken st now id body (.ok bytes) uuid = .ok reply →
        (∀ old, st.clientTokens.get (secretFrom bytes) = some old → old.updatedAt ≤ now) →
          c.cookie = none → extractToken c = reply.value.token →
            Covers id (r.resolve reply.store later c).1 := by
  intro covered
  have covers := covered { authenticator := {} } Store.empty 1 2 { userID := "2", role := .write }
    (some mintBody) [1, 2, 3] [] _ { authorization := "Bearer dsc_AQID" } rfl
    (fun old found => by simp [Store.empty] at found) rfl (by decide)
  have opened := covers.edit { name := "billing", visibility := visibilityPrivate, ownerID := "1" }
    (by decide)
  exact absurd opened (by decide)

end Server
end Discovery
