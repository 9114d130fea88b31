import Discovery.Server.Access

namespace Discovery
open Kv

structure CreateTokenInput where
  name : GoString := []
  role : GoString := []
  deriving DecidableEq

structure TokensResponse where
  read : List GoString := []
  write : List GoString := []
  admin : List GoString := []
  role : GoString
  deriving DecidableEq

def base64Alphabet : GoString := "ABCDEFGHIJKLMNOPQRSTUVWXYZabcdefghijklmnopqrstuvwxyz0123456789-_"

def base64Char (n : Nat) : UInt8 := base64Alphabet.getD (n % 64) 0

/-- `base64.RawURLEncoding`: four characters for three bytes, no padding. -/
def base64Encode : List UInt8 → GoString
  | a :: b :: c :: rest =>
    let n := a.toNat * 65536 + b.toNat * 256 + c.toNat
    base64Char (n / 262144) :: base64Char (n / 4096) :: base64Char (n / 64) :: base64Char n ::
      base64Encode rest
  | [a, b] =>
    let n := a.toNat * 65536 + b.toNat * 256
    [base64Char (n / 262144), base64Char (n / 4096), base64Char (n / 64)]
  | [a] =>
    let n := a.toNat * 65536
    [base64Char (n / 262144), base64Char (n / 4096)]
  | [] => []

def secretFrom (bytes : List UInt8) : GoString := "dsc_" ++ base64Encode bytes

/-- `random` is what the system's random source delivers. -/
def generateToken (random : Except Err (List UInt8)) : Except Err GoString := random.map secretFrom

namespace Server

def listClientTokens (st : Store) (id : Identity) : Except HttpError (List ClientToken) := do
  requireWrite id
  .ok st.listClientTokens

/-- No token is minted above the caller's own role. -/
def createClientToken (st : Store) (now : Time) (id : Identity) (body : Option CreateTokenInput)
    (random : Except Err (List UInt8)) (uuid : GoString) : Except HttpError (Reply ClientToken) := do
  requireWrite id
  let input ← decode body
  let name := trimSpace input.name
  let role := Role.ofGoString input.role
  if name = [] then writeErr 400 "token name required"
  else if role = .none then writeErr 400 "role must be read, write, or admin"
  else if id.role < role then
    writeErr 403 "cannot create a token with a role higher than your own"
  else
    let secret ← (generateToken random).mapError (⟨500, ·⟩)
    let tok : ClientToken :=
      { id := uuid, token := secret, name, role := role.string, createdBy := id.actorName }
    let r ← (st.putClientToken now tok).mapError (⟨500, ·⟩)
    .ok ⟨201, r.value, r.store, r.events⟩

def revokeClientToken (st : Store) (id : Identity) (tokenID : GoString) : Except HttpError (Reply Unit) := do
  requireWrite id
  let r ← (st.deleteClientTokenByID tokenID).mapError safeStoreErr
  .ok ⟨204, (), r.store, r.events⟩

/-- The static tokens the caller is allowed to see; levels above its role stay empty. -/
def listTokens (a : Authenticator) (id : Identity) : Except HttpError TokensResponse :=
  if id.userID = [] && !id.system then writeErr 401 "authentication required"
  else if id.role < .read then writeErr 403 "read access required"
  else .ok {
    read := cloneTokens a.readTokens
    write := if .write ≤ id.role then cloneTokens a.writeTokens else []
    admin := if .admin ≤ id.role then cloneTokens a.adminTokens else []
    role := id.role.string }

theorem listTokens_eq_ok {a : Authenticator} {id : Identity} {r : TokensResponse} :
    listTokens a id = .ok r ↔ (id.userID ≠ [] ∨ id.system = true) ∧ .read ≤ id.role ∧ r = {
      read := cloneTokens a.readTokens
      write := if .write ≤ id.role then cloneTokens a.writeTokens else []
      admin := if .admin ≤ id.role then cloneTokens a.adminTokens else []
      role := id.role.string } := by
  unfold listTokens
  by_cases unknown : id.userID = [] && !id.system
  · rw [if_pos unknown]
    obtain ⟨noUser, noSystem⟩ : id.userID = [] ∧ id.system = false := by simpa using unknown
    simp [writeErr, noUser, noSystem]
  · rw [if_neg unknown]
    have known : id.userID ≠ [] ∨ id.system = true := by
      by_cases noUser : id.userID = []
      · simpa [noUser] using unknown
      · exact Or.inl noUser
    by_cases low : id.role < .read
    · have below : ¬Role.read ≤ id.role := fun enough => Role.not_lt.mpr enough low
      simp [low, below, writeErr]
    · simp only [low, Role.not_lt.mp low, known, if_false, true_and, Except.ok.injEq, eq_comm (b := r)]

theorem listClientTokens_eq_ok {st : Store} {id : Identity} {tokens : List ClientToken} :
    listClientTokens st id = .ok tokens ↔ .write ≤ id.role ∧ tokens = st.listClientTokens := by
  simp only [listClientTokens, bind_eq_ok, requireWrite_eq_ok, Except.ok.injEq, exists_const,
    eq_comm (b := tokens)]

theorem createClientToken_eq_ok {st : Store} {now : Time} {id : Identity}
    {body : Option CreateTokenInput} {random : Except Err (List UInt8)} {uuid : GoString}
    {r : Reply ClientToken} :
    createClientToken st now id body random uuid = .ok r ↔
      .write ≤ id.role ∧ ∃ input, body = some input ∧ trimSpace input.name ≠ [] ∧
        Role.ofGoString input.role ≠ .none ∧ Role.ofGoString input.role ≤ id.role ∧
          ∃ secret, generateToken random = .ok secret ∧ ∃ o,
            st.putClientToken now
              { id := uuid
                token := secret
                name := trimSpace input.name
                role := (Role.ofGoString input.role).string
                createdBy := id.actorName } = .ok o ∧
              r = ⟨201, o.value, o.store, o.events⟩ := by
  simp only [createClientToken, bind_eq_ok, requireWrite_eq_ok, decode_eq_ok, exists_const]
  refine and_congr_right fun _ => exists_congr fun input => and_congr_right fun _ => ?_
  by_cases named : trimSpace input.name = []
  · simp [named, writeErr]
  · by_cases level : Role.ofGoString input.role = .none
    · simp [named, level, writeErr]
    · by_cases above : id.role < Role.ofGoString input.role
      · have tooHigh : ¬Role.ofGoString input.role ≤ id.role := fun within => Role.not_lt.mpr within above
        simp [named, level, above, tooHigh, writeErr]
      · simp only [named, level, above, Role.not_lt.mp above, if_false, bind_eq_ok,
          mapError_eq_ok, Except.ok.injEq, ne_eq, not_false_eq_true, true_and,
          eq_comm (b := r)]

end Server
end Discovery
