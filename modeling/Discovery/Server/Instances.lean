import Discovery.Server.Services

namespace Discovery
open Kv

/-- The editable fields of an instance. -/
structure InstanceInput where
  id : GoString := []
  address : GoString := []
  version : GoString := []
  interfaces : List Interface := []
  weight : Int := 0
  status : GoString := []
  metadata : StringMap := []
  ttlSeconds : Int := 0
  managed : Bool := false
  checkMode : GoString := []
  checkIntervalSec : Int := 0
  deriving DecidableEq

def InstanceInput.toModel (input : InstanceInput) (serviceName id : GoString) : Instance where
  id := id
  serviceName := serviceName
  address := input.address
  version := input.version
  interfaces := input.interfaces
  weight := input.weight
  status := input.status
  metadata := input.metadata
  ttlSeconds := input.ttlSeconds
  managed := input.managed
  checkMode := input.checkMode
  checkIntervalSec := input.checkIntervalSec

structure HeartbeatReq where
  status : GoString := []
  deriving DecidableEq

structure BlockInput where
  blocked : Bool := false
  deriving DecidableEq

structure CheckResponse where
  ok : Bool
  status : GoString
  mode : GoString
  results : List ProbeResult
  deriving DecidableEq

namespace Server

/-- A missing service refuses nobody; it is created with the first instance. -/
def allowInstanceWrite (st : Store) (id : Identity) (name : GoString) : Except HttpError Unit := do
  requireWrite id
  match st.services.get name with
  | none => .ok ()
  | some svc =>
    if canEditService svc id then .ok () else writeErr 403 "not allowed to modify this service"

/-- Self-registered instances are not edited from the UI. -/
def rejectManagedEdit (st : Store) (id : Identity) (service instID : GoString) :
    Except HttpError Unit :=
  match st.instances.get (instanceKey service instID) with
  | none => .ok ()
  | some inst =>
    if inst.managed && !id.system then
      writeErr 409 "instance is self-managed by its service; edits from the UI are blocked"
    else .ok ()

/-- `uuid` is the id drawn for a registration that names none. -/
def registerInstance (st : Store) (now : Time) (id : Identity) (name : GoString)
    (body : Option InstanceInput) (uuid : GoString) : Except HttpError (Reply Instance) := do
  allowInstanceWrite st id name
  let input ← decode body
  let instID := if input.id = [] then uuid else input.id
  let r ← (st.putInstance now (input.toModel name instID)).mapError (⟨400, ·⟩)
  .ok ⟨201, r.value, r.store, r.events⟩

def upsertInstance (st : Store) (now : Time) (id : Identity) (name instID : GoString)
    (body : Option InstanceInput) : Except HttpError (Reply Instance) := do
  allowInstanceWrite st id name
  rejectManagedEdit st id name instID
  let input ← decode body
  let r ← (st.putInstance now (input.toModel name instID)).mapError (⟨400, ·⟩)
  .ok ⟨200, r.value, r.store, r.events⟩

def deleteInstance (st : Store) (id : Identity) (name instID : GoString) :
    Except HttpError (Reply Unit) := do
  allowInstanceWrite st id name
  rejectManagedEdit st id name instID
  let r := st.deleteInstance name instID
  .ok ⟨204, (), r.store, r.events⟩

/-- A body that is missing or cannot be decoded counts as an empty status. -/
def heartbeat (st : Store) (now : Time) (id : Identity) (name instID : GoString)
    (body : Option HeartbeatReq) : Except HttpError (Reply Instance) := do
  allowInstanceWrite st id name
  let r ← (st.heartbeat now name instID (body.getD {}).status).mapError safeStoreErr
  .ok ⟨200, r.value, r.store, r.events⟩

/-- The two writes that follow a probe: its outcome, then the status it implies. Their errors are
ignored. -/
def recordProbe (st : Store) (now : Time) (name instID : GoString) (check : InstanceCheck) :
    Outcome GoString :=
  let checked := st.settle (st.setLastCheck name instID check)
  let desired := if check.ok then statusUp else statusDown
  let set := checked.1.setStatus now name instID desired
  let status := match set with
    | .ok r => r.value.status
    | .error _ => desired
  let settled := checked.1.settle set
  ⟨status, settled.1, checked.2 ++ settled.2⟩

/-- Probes one instance on demand. `probe` is what the checker reports; it is absent when no checker
runs. -/
def checkInstance (st : Store) (now : Time) (id : Identity) (name instID : GoString)
    (probe : Option (Bool × List ProbeResult)) : Except HttpError (Reply CheckResponse) := do
  allowInstanceWrite st id name
  match probe with
  | none => writeErr 503 "health checker not running"
  | some (ok, results) =>
    let inst ← (st.getInstance name instID).mapError safeStoreErr
    let mode := inst.effectiveCheckMode
    let r := recordProbe st now name instID { timestamp := now, ok, mode, results }
    .ok ⟨200, { ok, status := r.value, mode, results }, r.store, r.events⟩

def blockInstance (st : Store) (now : Time) (id : Identity) (name instID : GoString)
    (body : Option BlockInput) : Except HttpError (Reply Instance) := do
  allowInstanceWrite st id name
  let input ← decode body
  let r ← (st.setBlocked now name instID input.blocked).mapError safeStoreErr
  .ok ⟨200, r.value, r.store, r.events⟩

/-- The instances eligible for discovery. `matchVersion` is the semver test of a version against a
validated constraint. -/
def upInstances (matchVersion : GoString → GoString → Bool) (insts : List Instance)
    (constraint : GoString) : List Instance :=
  insts.filter fun i =>
    i.status = statusUp && !i.blocked && (constraint = [] || matchVersion i.version constraint)

end Server

/-- A request that writes instance records. -/
inductive InstanceRequest
  | registerInstance (name : GoString) (body : Option InstanceInput) (uuid : GoString)
  | upsertInstance (name instID : GoString) (body : Option InstanceInput)
  | deleteInstance (name instID : GoString)
  | heartbeat (name instID : GoString) (body : Option HeartbeatReq)
  | checkInstance (name instID : GoString) (probe : Option (Bool × List ProbeResult))
  | blockInstance (name instID : GoString) (body : Option BlockInput)
  | deleteService (name : GoString)
  | renameService (name : GoString) (body : Option RenameRequest)
  deriving DecidableEq

def InstanceRequest.path : InstanceRequest → GoString
  | .registerInstance name _ _ | .upsertInstance name _ _ | .deleteInstance name _
  | .heartbeat name _ _ | .checkInstance name _ _ | .blockInstance name _ _
  | .deleteService name | .renameService name _ => name

namespace Server

def serveInstance (st : Store) (now : Time) (id : Identity) : InstanceRequest → Store
  | .registerInstance name body uuid => settle st (registerInstance st now id name body uuid)
  | .upsertInstance name instID body => settle st (upsertInstance st now id name instID body)
  | .deleteInstance name instID => settle st (deleteInstance st id name instID)
  | .heartbeat name instID body => settle st (heartbeat st now id name instID body)
  | .checkInstance name instID probe => settle st (checkInstance st now id name instID probe)
  | .blockInstance name instID body => settle st (blockInstance st now id name instID body)
  | .deleteService name => settle st (deleteService st id name)
  | .renameService name body => settle st (renameService st now id name body)

theorem allowInstanceWrite_eq_ok {st : Store} {id : Identity} {name : GoString} {u : Unit} :
    allowInstanceWrite st id name = .ok u ↔
      .write ≤ id.role ∧ ∀ own, st.services.get name = some own → canEditService own id := by
  simp only [allowInstanceWrite, bind_eq_ok, requireWrite_eq_ok, exists_const]
  refine and_congr_right fun _ => ?_
  cases st.services.get name with
  | none => simp
  | some own => by_cases allowed : canEditService own id <;> simp [allowed, writeErr]

theorem rejectManagedEdit_eq_ok {st : Store} {id : Identity} {name instID : GoString} {u : Unit} :
    rejectManagedEdit st id name instID = .ok u ↔
      ∀ inst, st.instances.get (instanceKey name instID) = some inst → inst.managed → id.system := by
  unfold rejectManagedEdit
  cases st.instances.get (instanceKey name instID) with
  | none => simp
  | some inst => cases managed : inst.managed <;> cases system : id.system <;> simp [managed, writeErr]

end Server
end Discovery
