import Discovery.Model.Basic
import Discovery.LowerCase

namespace Discovery

def statusUp : GoString := "up"
def statusDown : GoString := "down"
def statusStarting : GoString := "starting"
def statusDraining : GoString := "draining"

def checkHeartbeat : GoString := "heartbeat"
def checkHTTP : GoString := "http"
def checkTCP : GoString := "tcp"
def checkNone : GoString := "none"

structure Interface where
  name : GoString
  protocol : GoString
  port : Int
  path : GoString := []
  tls : Bool := false
  healthURL : GoString := []
  metadata : StringMap := []
  deriving DecidableEq

structure ProbeResult where
  interface : GoString
  url : GoString := []
  ok : Bool
  httpStatus : Int := 0
  error : GoString := []
  latencyMS : Int := 0
  deriving DecidableEq

structure InstanceCheck where
  timestamp : Time
  ok : Bool
  mode : GoString := []
  results : List ProbeResult := []
  deriving DecidableEq

structure Instance where
  id : GoString
  serviceName : GoString
  address : GoString
  version : GoString := []
  interfaces : List Interface := []
  weight : Int := 0
  status : GoString := []
  metadata : StringMap := []
  ttlSeconds : Int := 0
  managed : Bool := false
  blocked : Bool := false
  checkMode : GoString := []
  checkIntervalSec : Int := 0
  lastCheck : Option InstanceCheck := none
  lastHeartbeat : Time := 0
  registeredAt : Time := 0
  updatedAt : Time := 0
  deriving DecidableEq

def Interface.json (it : Interface) : Interface :=
  { it with
    name := jsonString it.name
    protocol := jsonString it.protocol
    path := jsonString it.path
    healthURL := jsonString it.healthURL
    metadata := jsonMap it.metadata }

def ProbeResult.json (r : ProbeResult) : ProbeResult :=
  { r with interface := jsonString r.interface, url := jsonString r.url, error := jsonString r.error }

def InstanceCheck.json (c : InstanceCheck) : InstanceCheck :=
  { c with mode := jsonString c.mode, results := c.results.map ProbeResult.json }

def Instance.json (i : Instance) : Instance :=
  { i with
    id := jsonString i.id
    serviceName := jsonString i.serviceName
    address := jsonString i.address
    version := jsonString i.version
    interfaces := i.interfaces.map Interface.json
    status := jsonString i.status
    metadata := jsonMap i.metadata
    checkMode := jsonString i.checkMode
    lastCheck := i.lastCheck.map InstanceCheck.json }

instance : Kv.JsonCodec Instance := ⟨Instance.json⟩

@[simp] theorem Instance.roundTrip_eq (i : Instance) : Kv.JsonCodec.roundTrip i = i.json := rfl

@[simp] theorem Interface.json_idem (it : Interface) : it.json.json = it.json := by
  simp [Interface.json]

@[simp] theorem ProbeResult.json_idem (r : ProbeResult) : r.json.json = r.json := by
  simp [ProbeResult.json]

@[simp] theorem InstanceCheck.json_idem (c : InstanceCheck) : c.json.json = c.json := by
  simp [InstanceCheck.json]

@[simp] theorem Instance.json_idem (i : Instance) : i.json.json = i.json := by
  simp [Instance.json, Function.comp_def]

instance : Kv.LawfulJsonCodec Instance := ⟨Instance.json_idem⟩

@[simp] theorem Instance.json_updatedAt (i : Instance) : i.json.updatedAt = i.updatedAt := rfl

/-- A changed record that keeps the name and id of a clean one has them in its stored form too. -/
theorem Instance.json_key {i prev : Instance} (clean : prev.json = prev)
    (name : i.serviceName = prev.serviceName) (id : i.id = prev.id) :
    i.json.serviceName = prev.serviceName ∧ i.json.id = prev.id := by
  constructor
  · show jsonString i.serviceName = prev.serviceName
    rw [name]
    exact congrArg Instance.serviceName clean
  · show jsonString i.id = prev.id
    rw [id]
    exact congrArg Instance.id clean

def Interface.validate (it : Interface) : Except Err Interface :=
  let name := trimSpace it.name
  let protocol := toLower (trimSpace it.protocol)
  if name = [] then .error (.text "interface name required")
  else if protocol = [] then .error (.text "interface protocol required")
  else if it.port ≤ 0 || 65535 < it.port then .error (.text "interface port out of range")
  else .ok { it with name, protocol }

/-- The normalised registration: weight 0 counts as 1, an empty status as up. -/
def Instance.validate (i : Instance) : Except Err Instance :=
  if trimSpace i.serviceName = [] then .error (.text "service name required")
  else if trimSpace i.address = [] then .error (.text "address required")
  else if i.weight < 0 then .error (.text "weight must be >= 0")
  else if i.ttlSeconds < 0 then .error (.text "ttl must be >= 0")
  else match i.interfaces.mapM Interface.validate with
    | .error e => .error e
    | .ok interfaces =>
      let weight := if i.weight = 0 then 1 else i.weight
      let status := if i.status = [] then statusUp else i.status
      .ok { i with weight, interfaces, status }

/-- An accepted registration changes only in weight, interfaces and status. -/
theorem Instance.validate_ok {i v : Instance} (valid : i.validate = .ok v) :
    trimSpace i.serviceName ≠ [] ∧ trimSpace i.address ≠ [] ∧ 0 ≤ i.weight ∧ 0 ≤ i.ttlSeconds ∧
      ∃ interfaces, i.interfaces.mapM Interface.validate = .ok interfaces ∧
        v = { i with
          weight := if i.weight = 0 then 1 else i.weight
          interfaces
          status := if i.status = [] then statusUp else i.status } := by
  unfold Instance.validate at valid
  split at valid
  · simp at valid
  next named =>
    split at valid
    · simp at valid
    next addressed =>
      split at valid
      · simp at valid
      next weighted =>
        split at valid
        · simp at valid
        next lived =>
          split at valid
          · simp at valid
          next interfaces checked =>
            obtain rfl := Except.ok.inj valid
            exact ⟨named, addressed, by omega, by omega, interfaces, checked, rfl⟩

/-- The mode with the heartbeat default applied. -/
def Instance.effectiveCheckMode (i : Instance) : GoString :=
  if i.checkMode = [] then checkHeartbeat else i.checkMode

/-- `t.Sub(u)`, which saturates at the ends of an `int64`. -/
def timeSub (t u : Time) : Int := max (-2 ^ 63) (min (2 ^ 63 - 1) (t - u))

/-- No heartbeat for longer than the TTL. The TTL in nanoseconds is an `int64` product, which wraps. -/
def Instance.expired (i : Instance) (now : Time) : Bool :=
  0 < i.ttlSeconds && Int.bmod (i.ttlSeconds * 1000000000) (2 ^ 64) < timeSub now i.lastHeartbeat

/-- The key a record is stored under. -/
def instanceKey (service id : GoString) : GoString := service ++ slash :: id

theorem jsonString_instanceKey (service id : GoString) :
    jsonString (instanceKey service id) = instanceKey (jsonString service) (jsonString id) :=
  jsonString_append_slash service id

end Discovery
