import Discovery.Model.Basic

namespace Discovery

/-- Pins a client-supplied token to one instance of a service. -/
structure Affinity where
  token : GoString
  serviceName : GoString
  instanceID : GoString
  createdAt : Time := 0
  lastSeen : Time := 0
  expiresAt : Time := 0
  updatedAt : Time := 0
  deriving DecidableEq

/-- A bearer token minted at runtime. -/
structure ClientToken where
  id : GoString
  token : GoString
  name : GoString
  role : GoString
  createdAt : Time := 0
  createdBy : GoString := []
  updatedAt : Time := 0
  deriving DecidableEq

structure Session where
  token : GoString
  userID : GoString
  email : GoString := []
  username : GoString := []
  displayName : GoString := []
  isAdmin : Bool := false
  accountID : GoString := []
  perms : StringMap := []
  createdAt : Time := 0
  expiresAt : Time := 0
  deriving DecidableEq

def Affinity.json (a : Affinity) : Affinity :=
  { a with
    token := jsonString a.token
    serviceName := jsonString a.serviceName
    instanceID := jsonString a.instanceID }

def ClientToken.json (t : ClientToken) : ClientToken :=
  { t with
    id := jsonString t.id
    token := jsonString t.token
    name := jsonString t.name
    role := jsonString t.role
    createdBy := jsonString t.createdBy }

/-- The session's own token is not written into its record. -/
def Session.json (s : Session) : Session :=
  { s with
    token := []
    userID := jsonString s.userID
    email := jsonString s.email
    username := jsonString s.username
    displayName := jsonString s.displayName
    accountID := jsonString s.accountID
    perms := jsonMap s.perms }

instance : Kv.JsonCodec Affinity := ⟨Affinity.json⟩
instance : Kv.JsonCodec ClientToken := ⟨ClientToken.json⟩
instance : Kv.JsonCodec Session := ⟨Session.json⟩

@[simp] theorem Affinity.roundTrip_eq (a : Affinity) : Kv.JsonCodec.roundTrip a = a.json := rfl

@[simp] theorem ClientToken.roundTrip_eq (t : ClientToken) : Kv.JsonCodec.roundTrip t = t.json := rfl

@[simp] theorem Affinity.json_idem (a : Affinity) : a.json.json = a.json := by
  simp [Affinity.json]

@[simp] theorem ClientToken.json_idem (t : ClientToken) : t.json.json = t.json := by
  simp [ClientToken.json]

instance : Kv.LawfulJsonCodec Affinity := ⟨Affinity.json_idem⟩
instance : Kv.LawfulJsonCodec ClientToken := ⟨ClientToken.json_idem⟩

@[simp] theorem Affinity.json_updatedAt (a : Affinity) : a.json.updatedAt = a.updatedAt := rfl

@[simp] theorem ClientToken.json_updatedAt (t : ClientToken) : t.json.updatedAt = t.updatedAt := rfl

def affinityKey (service token : GoString) : GoString := service ++ slash :: token

end Discovery
