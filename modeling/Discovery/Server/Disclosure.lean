import Discovery.Server.Tokens

namespace Discovery
open Kv

theorem matchAny_iff {token : GoString} (named : token ≠ []) {tokens : List GoString} :
    matchAny token tokens = true ↔ token ∈ tokens := by
  unfold matchAny
  rw [List.any_eq_true]
  constructor
  · intro ⟨t, member, same⟩
    obtain ⟨_, rfl⟩ : t ≠ [] ∧ token = t := by simpa using same
    exact member
  · intro member
    exact ⟨token, member, by simpa using named⟩

theorem mem_cloneTokens {token : GoString} {tokens : List GoString} :
    token ∈ cloneTokens tokens ↔ token ∈ tokens ∧ token ≠ [] := by
  simp [cloneTokens]

namespace Authenticator

/-- The token is configured at some level. -/
def Static (a : Authenticator) (token : GoString) : Prop :=
  token ∈ a.readTokens ∨ token ∈ a.writeTokens ∨ token ∈ a.adminTokens

variable {a : Authenticator} {token : GoString}

theorem resolve_of_ne (named : token ≠ []) :
    a.resolve token =
      if token ∈ a.adminTokens then .admin
      else if token ∈ a.writeTokens then .write
      else if token ∈ a.readTokens then .read
      else .none := by
  simp only [resolve, named, if_false, matchAny_iff named]

theorem resolve_ne_none_iff (named : token ≠ []) : a.resolve token ≠ .none ↔ a.Static token := by
  rw [resolve_of_ne named, Static]
  by_cases top : token ∈ a.adminTokens
  · simp [top]
  · by_cases middle : token ∈ a.writeTokens
    · simp [top, middle]
    · by_cases bottom : token ∈ a.readTokens <;> simp [top, middle, bottom]

/-- No static token is stronger than read, exactly if it stands in no higher list. -/
theorem resolve_le_read_iff (named : token ≠ []) :
    a.resolve token ≤ .read ↔ token ∉ a.writeTokens ∧ token ∉ a.adminTokens := by
  rw [resolve_of_ne named]
  by_cases top : token ∈ a.adminTokens
  · simp only [top, if_true, not_true_eq_false, and_false, iff_false]
    decide
  · by_cases middle : token ∈ a.writeTokens
    · simp only [top, middle, if_true, if_false, not_true_eq_false, false_and, iff_false]
      decide
    · by_cases bottom : token ∈ a.readTokens <;> simp [top, middle, bottom]

theorem resolve_le_write_iff (named : token ≠ []) :
    a.resolve token ≤ .write ↔ token ∉ a.adminTokens := by
  rw [resolve_of_ne named]
  by_cases top : token ∈ a.adminTokens
  · simp only [top, if_true, not_true_eq_false, iff_false]
    decide
  · simp only [top, if_false, not_false_eq_true, iff_true]
    by_cases middle : token ∈ a.writeTokens
    · rw [if_pos middle]
      exact Role.le_refl _
    · by_cases bottom : token ∈ a.readTokens
      · rw [if_neg middle, if_pos bottom]
        decide
      · simp [middle, bottom]

end Authenticator

theorem secretRole_of_static {a : Authenticator} {st : Store} {token : GoString} (named : token ≠ [])
    (static : a.Static token) : secretRole a st token = a.resolve token := by
  rw [secretRole, if_pos ((Authenticator.resolve_ne_none_iff named).mpr static)]

/-- A secret stronger than write is a static admin token, or no static token at all and stored with
the admin role. -/
def TopSecret (a : Authenticator) (st : Store) (token : GoString) : Prop :=
  token ≠ [] ∧ (token ∈ a.adminTokens ∨
    ¬a.Static token ∧ ∃ ct, st.clientTokens.get token = some ct ∧ Role.ofGoString ct.role = .admin)

theorem secretRole_le_write_iff {a : Authenticator} {st : Store} {token : GoString} :
    secretRole a st token ≤ .write ↔ ¬TopSecret a st token := by
  by_cases named : token = []
  · subst named
    have absent : st.clientTokens.get [] = none := by
      cases stored : st.clientTokens.get [] with
      | none => rfl
      | some ct => exact absurd rfl (Bucket.fits_of_get stored).1
    have weak : secretRole a st [] ≤ .write := by
      simp only [secretRole, Store.getClientToken, read, absent, Authenticator.resolve, if_true]
      cases a.allowAnonymousRead <;> decide
    simp [TopSecret, weak]
  · by_cases static : a.Static token
    · rw [secretRole_of_static named static, Authenticator.resolve_le_write_iff named]
      simp [TopSecret, named, static]
    · have unlisted : token ∉ a.adminTokens := fun member => static (Or.inr (Or.inr member))
      have unknown : a.resolve token = .none := by
        by_contra known
        exact static ((Authenticator.resolve_ne_none_iff named).mp known)
      cases stored : st.clientTokens.get token with
      | none =>
        simp [TopSecret, unlisted, stored, secretRole, unknown, Store.getClientToken, read]
      | some ct =>
        rw [secretRole_of_get stored, if_neg (not_not_intro unknown)]
        simp only [TopSecret, named, unlisted, static, stored, Option.some.injEq, exists_eq_left',
          ne_eq, not_false_eq_true, true_and, false_or]
        cases Role.ofGoString ct.role <;> decide

namespace Server

/-- The secret stands in what one of the two listings answers the caller. -/
def Discloses (a : Authenticator) (st : Store) (id : Identity) (secret : GoString) : Prop :=
  (∃ r, listTokens a id = .ok r ∧ (secret ∈ r.read ∨ secret ∈ r.write ∨ secret ∈ r.admin)) ∨
    ∃ tokens, listClientTokens st id = .ok tokens ∧ ∃ ct ∈ tokens, ct.token = secret

/-- Every secret the caller gets to see is at most as strong as the caller. -/
def NothingStronger (a : Authenticator) (st : Store) (id : Identity) : Prop :=
  ∀ secret, Discloses a st id secret → secretRole a st secret ≤ id.role

/-- A static token of a level the caller is shown. -/
def Shown (a : Authenticator) (id : Identity) (token : GoString) : Prop :=
  (id.userID ≠ [] ∨ id.system = true) ∧ token ≠ [] ∧
    (.read ≤ id.role ∧ token ∈ a.readTokens ∨ .write ≤ id.role ∧ token ∈ a.writeTokens ∨
      .admin ≤ id.role ∧ token ∈ a.adminTokens)

theorem discloses_iff {a : Authenticator} {st : Store} {id : Identity} {secret : GoString} :
    Discloses a st id secret ↔
      Shown a id secret ∨
        .write ≤ id.role ∧ ∃ key ct, st.clientTokens.get key = some ct ∧ ct.token = secret := by
  refine or_congr ?_ ?_
  · constructor
    · intro ⟨r, run, member⟩
      obtain ⟨known, enough, rfl⟩ := listTokens_eq_ok.mp run
      simp only [List.mem_ite_nil_right, mem_cloneTokens] at member
      rcases member with ⟨listed, named⟩ | ⟨level, listed, named⟩ | ⟨level, listed, named⟩
      · exact ⟨known, named, Or.inl ⟨enough, listed⟩⟩
      · exact ⟨known, named, Or.inr (Or.inl ⟨level, listed⟩)⟩
      · exact ⟨known, named, Or.inr (Or.inr ⟨level, listed⟩)⟩
    · intro ⟨known, named, level⟩
      have enough : Role.read ≤ id.role := by
        rcases level with ⟨enough, _⟩ | ⟨enough, _⟩ | ⟨enough, _⟩
        · exact enough
        · exact Role.le_trans (by decide) enough
        · exact Role.le_trans (by decide) enough
      refine ⟨_, listTokens_eq_ok.mpr ⟨known, enough, rfl⟩, ?_⟩
      simp only [List.mem_ite_nil_right, mem_cloneTokens]
      rcases level with ⟨_, listed⟩ | ⟨level, listed⟩ | ⟨level, listed⟩
      · exact Or.inl ⟨listed, named⟩
      · exact Or.inr (Or.inl ⟨level, listed, named⟩)
      · exact Or.inr (Or.inr ⟨level, listed, named⟩)
  · simp only [listClientTokens_eq_ok, Store.listClientTokens]
    constructor
    · intro ⟨_, ⟨write, rfl⟩, ct, member, same⟩
      obtain ⟨key, stored⟩ := Bucket.mem_values.mp (List.mem_reverse.mp member)
      exact ⟨write, key, ct, stored, same⟩
    · intro ⟨write, key, ct, stored, same⟩
      have member := List.mem_reverse.mpr (Bucket.mem_values.mpr ⟨key, stored⟩)
      exact ⟨_, ⟨write, rfl⟩, ct, member, same⟩

/-- A token of a level the caller is shown is configured at a level above its role as well. -/
def Overlap (a : Authenticator) (id : Identity) : Prop :=
  (id.userID ≠ [] ∨ id.system = true) ∧ ∃ token, token ≠ [] ∧
    (id.role = .read ∧ token ∈ a.readTokens ∧ (token ∈ a.writeTokens ∨ token ∈ a.adminTokens) ∨
      id.role = .write ∧ (token ∈ a.readTokens ∨ token ∈ a.writeTokens) ∧ token ∈ a.adminTokens)

theorem Shown.static {a : Authenticator} {id : Identity} {token : GoString}
    (shown : Shown a id token) : a.Static token := by
  obtain ⟨_, _, ⟨_, listed⟩ | ⟨_, listed⟩ | ⟨_, listed⟩⟩ := shown
  · exact Or.inl listed
  · exact Or.inr (Or.inl listed)
  · exact Or.inr (Or.inr listed)

/-- The static tokens a caller is shown are no stronger than the caller, unless lists overlap. -/
theorem shown_le_iff {a : Authenticator} {id : Identity} :
    (∀ token, Shown a id token → a.resolve token ≤ id.role) ↔ ¬Overlap a id := by
  have levels : ¬Role.write ≤ Role.read ∧ ¬Role.admin ≤ Role.read ∧ ¬Role.admin ≤ Role.write ∧
      Role.read ≤ Role.write := by decide
  cases role : id.role with
  | none =>
    have unseen : ∀ token, ¬Shown a id token := by
      intro token ⟨_, _, level⟩
      have low : ¬Role.read ≤ Role.none ∧ ¬Role.write ≤ Role.none ∧ ¬Role.admin ≤ Role.none := by decide
      simp [role, low] at level
    simp [Overlap, role, unseen]
  | read =>
    constructor
    · rintro bounded ⟨known, token, named, ⟨_, listed, above⟩ | ⟨other, _⟩⟩
      · have shown : Shown a id token := ⟨known, named, Or.inl ⟨by rw [role]; exact Role.le_refl _, listed⟩⟩
        have weak := (Authenticator.resolve_le_read_iff named).mp (bounded token shown)
        exact above.elim weak.1 weak.2
      · rw [role] at other
        cases other
    · intro apart token ⟨known, named, level⟩
      have listed : token ∈ a.readTokens := by simpa [role, levels] using level
      refine (Authenticator.resolve_le_read_iff named).mpr (not_or.mp fun above => ?_)
      exact apart ⟨known, token, named, Or.inl ⟨role, listed, above⟩⟩
  | write =>
    constructor
    · rintro bounded ⟨known, token, named, ⟨other, _⟩ | ⟨_, listed, above⟩⟩
      · rw [role] at other
        cases other
      · have shown : Shown a id token := ⟨known, named, by simpa [role, levels] using listed⟩
        exact (Authenticator.resolve_le_write_iff named).mp (bounded token shown) above
    · intro apart token ⟨known, named, level⟩
      have listed : token ∈ a.readTokens ∨ token ∈ a.writeTokens := by simpa [role, levels] using level
      refine (Authenticator.resolve_le_write_iff named).mpr fun above => ?_
      exact apart ⟨known, token, named, Or.inr ⟨role, listed, above⟩⟩
  | admin => simp [Overlap, role, Role.le_admin]

theorem clients_le_iff {a : Authenticator} {st : Store} {id : Identity} :
    (.write ≤ id.role → ∀ key ct, st.clientTokens.get key = some ct →
        secretRole a st ct.token ≤ id.role) ↔
      (id.role = .write → ∀ key ct, st.clientTokens.get key = some ct → ¬TopSecret a st ct.token) := by
  constructor
  · intro weak role key ct stored
    have within := weak (role ▸ Role.le_refl _) key ct stored
    rw [role] at within
    exact secretRole_le_write_iff.mp within
  · intro clients level key ct stored
    cases role : id.role with
    | admin => exact Role.le_admin _
    | write => exact secretRole_le_write_iff.mpr (clients role key ct stored)
    | read =>
      rw [role] at level
      exact absurd level (by decide)
    | none =>
      rw [role] at level
      exact absurd level (by decide)

/-- The two listings show a caller nothing stronger than itself exactly if no static token of its
levels is configured higher up too, and, for a caller with write access, no client token that is
stronger is stored. -/
theorem nothingStronger_iff {a : Authenticator} {st : Store} {id : Identity} :
    NothingStronger a st id ↔
      ¬Overlap a id ∧
        (id.role = .write → ∀ key ct, st.clientTokens.get key = some ct → ¬TopSecret a st ct.token) := by
  rw [← shown_le_iff, ← clients_le_iff]
  simp only [NothingStronger, discloses_iff]
  constructor
  · intro bounded
    constructor
    · intro token shown
      rw [← secretRole_of_static shown.2.1 shown.static]
      exact bounded token (Or.inl shown)
    · intro write key ct stored
      exact bounded ct.token (Or.inr ⟨write, key, ct, stored, rfl⟩)
  · rintro ⟨static, clients⟩ secret (shown | ⟨write, key, ct, stored, rfl⟩)
    · rw [secretRole_of_static shown.2.1 shown.static]
      exact static secret shown
    · exact clients write key ct stored

/-- A caller with write access reads the secret of an admin token from the list. -/
theorem admin_secret_disclosed :
    ¬∀ (a : Authenticator) (st : Store) (id : Identity), NothingStronger a st id := by
  intro bounded
  have weak := bounded {}
    (Store.empty.settle (Store.empty.putClientToken 1
      { id := "1", token := "dsc_root", name := "ops", role := "admin" })).1
    { userID := "2", role := .write } "dsc_root"
    (Or.inr ⟨_, rfl, { id := "1", token := "dsc_root", name := "ops", role := "admin", createdAt := 1, updatedAt := 1 }, by decide, rfl⟩)
  exact absurd weak (by decide)

end Server
end Discovery
