import Discovery.Auth.Role
import Discovery.Store.Records

namespace Discovery
open Kv

/-- Who is making a request. -/
structure Identity where
  userID : GoString := []
  username : GoString := []
  email : GoString := []
  displayName : GoString := []
  accountID : GoString := []
  isAdmin : Bool := false
  system : Bool := false
  anonymous : Bool := false
  role : Role := .none
  perms : StringMap := []
  deriving DecidableEq

/-- The label of the caller in records. -/
def Identity.actorName (id : Identity) : GoString :=
  if id.displayName ≠ [] then id.displayName
  else if id.email ≠ [] then id.email
  else if id.username ≠ [] then id.username
  else if id.system then "system (static token)"
  else "anonymous"

/-- The configured static tokens. -/
structure Authenticator where
  allowAnonymousRead : Bool := false
  readTokens : List GoString := []
  writeTokens : List GoString := []
  adminTokens : List GoString := []
  deriving DecidableEq

/-- The copy of a token list that is shown to callers. -/
def cloneTokens (tokens : List GoString) : List GoString := tokens.filter (· ≠ [])

def matchAny (token : GoString) (tokens : List GoString) : Bool :=
  tokens.any (fun t => t ≠ [] && token = t)

/-- The role of a raw token; higher lists are looked at first. -/
def Authenticator.resolve (a : Authenticator) (token : GoString) : Role :=
  if token = [] then if a.allowAnonymousRead then .read else .none
  else if matchAny token a.adminTokens then .admin
  else if matchAny token a.writeTokens then .write
  else if matchAny token a.readTokens then .read
  else .none

/-- The places of a request that can carry credentials. -/
structure Credentials where
  cookie : Option GoString := none
  authorization : GoString := []
  apiToken : GoString := []
  queryToken : GoString := []
  deriving DecidableEq

def extractToken (c : Credentials) : GoString :=
  if c.authorization ≠ [] then
    if (ofString "bearer ").isPrefixOf (toLower c.authorization) then
      trimSpace (c.authorization.drop 7)
    else trimSpace c.authorization
  else if c.apiToken ≠ [] then trimSpace c.apiToken
  else c.queryToken

/-- What corp-ui's introspection returns. -/
structure CorpUser where
  userID : Nat
  email : GoString := []
  isAdmin : Bool := false
  slug : GoString := []
  perms : StringMap := []
  accountID : GoString := []
  deriving DecidableEq

def containsByte (s : GoString) (b : UInt8) : Bool := s.contains b

/-- The value of a key, empty when it is missing. -/
def lookupPerm (perms : StringMap) (key : GoString) : GoString :=
  ((perms.find? (·.1 = key)).map Prod.snd).getD []

def roleFromPerms (isAdmin : Bool) (perms : StringMap) (permKey : GoString) : Role :=
  let level (key : GoString) := toLower (lookupPerm perms key)
  let grants (b : UInt8) := containsByte (level "*") b || containsByte (level permKey) b
  if isAdmin then .admin
  else if grants 0x61 then .admin
  else if grants 0x77 then .write
  else if grants 0x72 then .read
  else .none

def identityFromSession (sess : Session) (permKey : GoString) : Identity where
  userID := sess.userID
  username := sess.username
  email := sess.email
  displayName := sess.displayName
  accountID := sess.accountID
  isAdmin := sess.isAdmin
  perms := sess.perms
  role := roleFromPerms sess.isAdmin sess.perms permKey

def stringifyUserID (id : Nat) : GoString := if id = 0 then [] else decimal id

/-- A token that was issued for another module counts as none. -/
def identityFromCorp (u : CorpUser) (expectSlug permKey : GoString) : Identity :=
  if expectSlug ≠ [] ∧ u.slug ≠ [] ∧ u.slug ≠ expectSlug then { anonymous := true }
  else
    { userID := stringifyUserID u.userID
      email := u.email
      username := u.email
      displayName := u.email
      accountID := u.accountID
      isAdmin := u.isAdmin
      perms := u.perms
      role := roleFromPerms u.isAdmin u.perms permKey }

/-- `introspect` stands for the corp-ui client, if one is configured. -/
structure Resolver where
  authenticator : Authenticator
  introspect : Option (GoString → Option CorpUser) := none
  serviceSlug : GoString := []
  permKey : GoString := "discovery"

/-- The role of a bearer secret: that of a static token, else that of a stored client token. -/
def secretRole (a : Authenticator) (st : Store) (token : GoString) : Role :=
  if a.resolve token ≠ .none then a.resolve token
  else match st.getClientToken token with
    | .ok ct => .ofGoString ct.role
    | .error _ => .none

/-- The role of a secret with a stored record, unless it is a static token. -/
theorem secretRole_of_get {a : Authenticator} {st : Store} {secret : GoString} {ct : ClientToken}
    (stored : st.clientTokens.get secret = some ct) :
    secretRole a st secret =
      if a.resolve secret ≠ .none then a.resolve secret else .ofGoString ct.role := by
  rw [secretRole, Store.getClientToken, read_eq_ok.mpr stored]

/-- Session cookie, static token, client token, corp-ui token, anonymous, in this order. An expired
session is deleted on the way. -/
def Resolver.resolve (r : Resolver) (st : Store) (now : Time) (c : Credentials) : Identity × Store :=
  let anonymous : Identity := { anonymous := true, role := r.authenticator.resolve [] }
  let session : Except Err Session × Store :=
    match c.cookie with
    | some value => if value ≠ [] then st.getSession now value else (.error .notFound, st)
    | none => (.error .notFound, st)
  let st := session.2
  match session.1 with
  | .ok sess => (identityFromSession sess r.permKey, st)
  | .error _ =>
    let token := extractToken c
    if token = [] then (anonymous, st)
    else if secretRole r.authenticator st token ≠ .none then
      ({ system := true, role := secretRole r.authenticator st token }, st)
    else match r.introspect.bind (· token) with
      | some user => (identityFromCorp user r.serviceSlug r.permKey, st)
      | none => (anonymous, st)

def canEditService (svc : Service) (id : Identity) : Bool :=
  svc.canEdit id.userID id.isAdmin id.system

end Discovery
