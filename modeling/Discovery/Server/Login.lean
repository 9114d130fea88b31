import Discovery.Server.Access

namespace Discovery
open Kv

structure LoginRequest where
  identifier : GoString := []
  username : GoString := []
  password : GoString := []
  deriving DecidableEq

/-- The user that corp-ui returns for valid credentials. -/
structure VerifiedUser where
  userID : GoString
  email : GoString := []
  username : GoString := []
  displayName : GoString := []
  accountID : GoString := []
  isAdmin : Bool := false
  perms : StringMap := []
  deriving DecidableEq

structure MeResponse where
  authenticated : Bool
  userID : GoString := []
  username : GoString := []
  email : GoString := []
  displayName : GoString := []
  accountID : GoString := []
  isAdmin : Bool := false
  system : Bool := false
  role : GoString
  perms : StringMap := []
  iframe : Bool := false
  deriving DecidableEq

/-- 15 minutes. -/
def sessionTTL : Int := 15 * 60 * 1000000000

/-- The record a session is issued for. -/
def VerifiedUser.snapshot (user : VerifiedUser) : Session where
  token := []
  userID := user.userID
  email := user.email
  username := user.username
  displayName :=
    if user.displayName ≠ [] then user.displayName
    else if user.email ≠ [] then user.email
    else user.username
  isAdmin := user.isAdmin
  accountID := user.accountID
  perms := user.perms

namespace Server

/-- `token` is what the random source makes of a new session token. -/
def issueSession (st : Store) (now : Time) (snapshot : Session) (token : Except Err GoString) :
    Except Err Store := do
  let token ← token
  st.putSession now { snapshot with token, expiresAt := now + sessionTTL }

def meResponseFromSession (snap : Session) : MeResponse where
  authenticated := true
  userID := snap.userID
  username := snap.username
  email := snap.email
  displayName := snap.displayName
  accountID := snap.accountID
  isAdmin := snap.isAdmin
  role := (roleFromPerms snap.isAdmin snap.perms "discovery").string
  perms := snap.perms

/-- `allowed` is the answer of the rate limiter, `verify` the password check of corp-ui, if one is
configured. -/
def login (st : Store) (now : Time) (allowed : Bool) (verify : Option (GoString → GoString → Option VerifiedUser))
    (token : Except Err GoString) (body : Option LoginRequest) : Except HttpError (Reply MeResponse) :=
  if !allowed then writeErr 429 "too many attempts, slow down"
  else do
    let req ← decode body
    let identifier := if trimSpace req.identifier = [] then trimSpace req.username else trimSpace req.identifier
    if identifier = [] || req.password = [] then writeErr 400 "identifier and password required"
    else match verify with
      | none => writeErr 503 "corp-ui auth not configured on this server"
      | some verifyPassword =>
        match verifyPassword identifier req.password with
        | none => writeErr 401 "invalid credentials"
        | some user =>
          let st ← (issueSession st now user.snapshot token).mapError (⟨500, ·⟩)
          .ok ⟨200, meResponseFromSession user.snapshot, st, []⟩

def logout (st : Store) (cookie : Option GoString) : Reply Unit :=
  match cookie with
  | none => ⟨204, (), st, []⟩
  | some value => if value ≠ [] then ⟨204, (), st.deleteSession value, []⟩ else ⟨204, (), st, []⟩

/-- `iframe` is set for a request with a bearer header. -/
def me (id : Identity) (iframe : Bool) : MeResponse where
  authenticated := id.userID ≠ [] || id.system
  userID := id.userID
  username := id.username
  email := id.email
  displayName := id.displayName
  accountID := id.accountID
  isAdmin := id.isAdmin
  system := id.system
  role := id.role.string
  perms := id.perms
  iframe := iframe && id.userID ≠ []

end Server
end Discovery
