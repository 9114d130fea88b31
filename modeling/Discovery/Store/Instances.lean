import Discovery.Store.Services

namespace Discovery
open Kv

/-- What `putInstance` stores for a validated registration: new time stamps, and the operator's
block of the record it replaces. -/
def Instance.registered (i : Instance) (now : Time) (prev : Option Instance) : Instance :=
  { i with
    registeredAt := if i.registeredAt = 0 then now else i.registeredAt
    updatedAt := now
    lastHeartbeat := if i.lastHeartbeat = 0 then now else i.lastHeartbeat
    blocked := match prev with
      | some p => p.blocked
      | none => i.blocked }

@[simp] theorem Instance.registered_serviceName (i : Instance) (now : Time) (prev : Option Instance) :
    (i.registered now prev).serviceName = i.serviceName := rfl

def Instance.beat (i : Instance) (now : Time) (status : GoString) : Instance :=
  { i with
    lastHeartbeat := now
    updatedAt := now
    status := if status ≠ [] then status else if i.status = statusDown then statusUp else i.status }

def Instance.checked (i : Instance) (check : InstanceCheck) : Instance :=
  { i with lastCheck := some check }

def Instance.withStatus (i : Instance) (now : Time) (status : GoString) : Instance :=
  { i with status, updatedAt := now }

def Instance.withBlocked (i : Instance) (now : Time) (blocked : Bool) : Instance :=
  { i with blocked, updatedAt := now }

def stub (name : GoString) (now : Time) : Service := { name, createdAt := now, updatedAt := now }

/-- Validation keeps the fields the key is made of. -/
theorem Instance.validate_key {i v : Instance} (valid : i.validate = .ok v) :
    v.serviceName = i.serviceName ∧ v.id = i.id := by
  obtain ⟨_, _, _, _, interfaces, _, rfl⟩ := Instance.validate_ok valid
  exact ⟨rfl, rfl⟩

namespace Store

/-- Writes the stub of a service that has no record yet. -/
def ensureService (st : Store) (now : Time) (name : GoString) : Except Err (Bucket Service) :=
  match st.services.get name with
  | some _ => .ok st.services
  | none => write st.services name (stub name now)

def putInstance (st : Store) (now : Time) (inst : Instance) : Except Err (Outcome Instance) := do
  let inst ← inst.validate
  let key := instanceKey inst.serviceName inst.id
  let inst := inst.registered now (st.instances.get key)
  let services ← st.ensureService now inst.serviceName
  let instances ← write st.instances key inst
  .ok ⟨inst, { st with services, instances }, [.instanceUpserted inst]⟩

/-- The transaction the record updates share: read one instance, change it, write it back. -/
def updateInstance {β : Type} (st : Store) (service id : GoString) (f : Instance → Instance)
    (value : Instance → β) (events : Instance → List Event) : Except Err (Outcome β) := do
  let inst ← read st.instances (instanceKey service id)
  let instances ← write st.instances (instanceKey service id) (f inst)
  .ok ⟨value (f inst), { st with instances }, events (f inst)⟩

/-- A heartbeat sets the given status; an empty one lifts a down instance to up. -/
def heartbeat (st : Store) (now : Time) (service id status : GoString) :
    Except Err (Outcome Instance) :=
  st.updateInstance service id (·.beat now status) (·) ([.instanceStatus ·])

/-- Stores a probe's outcome. No event is emitted. -/
def setLastCheck (st : Store) (service id : GoString) (check : InstanceCheck) :
    Except Err (Outcome Unit) :=
  st.updateInstance service id (·.checked check) (fun _ => ()) (fun _ => [])

/-- Forces the status; nothing is written or emitted when it is the stored one. -/
def setStatus (st : Store) (now : Time) (service id status : GoString) :
    Except Err (Outcome Instance) := do
  let inst ← read st.instances (instanceKey service id)
  if inst.status = status then .ok ⟨inst, st, []⟩
  else st.updateInstance service id (·.withStatus now status) (·) ([.instanceStatus ·])

def setBlocked (st : Store) (now : Time) (service id : GoString) (blocked : Bool) :
    Except Err (Outcome Instance) :=
  st.updateInstance service id (·.withBlocked now blocked) (·) ([.instanceUpserted ·])

def getInstance (st : Store) (service id : GoString) : Except Err Instance :=
  read st.instances (instanceKey service id)

def listInstances (st : Store) (service : GoString) : List Instance :=
  (st.instances.scan (servicePrefix service)).map Prod.snd

def listAllInstances (st : Store) : List Instance := st.instances.values

/-- Deleting an absent instance succeeds and emits nothing. -/
def deleteInstance (st : Store) (service id : GoString) : Outcome Unit :=
  let key := instanceKey service id
  match st.instances.get key with
  | none => ⟨(), st, []⟩
  | some _ => ⟨(), { st with instances := st.instances.delete key }, [.instanceDeleted service id]⟩

/-- The store with one more instance record, or another value of it. -/
def withInstance (st : Store) (key : Key) (inst : Instance) (fits : KeyFits key) : Store :=
  { st with instances := st.instances.insert key inst fits }

@[simp] theorem withInstance_services (st : Store) {key : Key} (inst : Instance)
    (fits : KeyFits key) : (st.withInstance key inst fits).services = st.services := rfl

theorem get_withInstance (st : Store) {key : Key} (inst : Instance) (fits : KeyFits key) (j : Key) :
    (st.withInstance key inst fits).instances.get j =
      if j = key then some inst.json else st.instances.get j :=
  Bucket.get_insert _ _ _ _ fits

theorem ensureService_eq_ok {st : Store} {now : Time} {name : GoString} {b : Bucket Service} :
    st.ensureService now name = .ok b ↔
      (st.services.get name).isSome ∧ b = st.services ∨
        st.services.get name = none ∧ ∃ fits : KeyFits name,
          b = st.services.insert name (stub name now) fits := by
  unfold ensureService
  cases present : st.services.get name with
  | some svc => simp [eq_comm]
  | none => simp [write_eq_ok]

/-- A registration that succeeds, spelled out: the instance is validated, its service is there or stubbed, and the
record is stored under its key with one event for it, after that of the stub. -/
theorem putInstance_eq_ok {st : Store} {now : Time} {inst : Instance} {r : Outcome Instance} :
    st.putInstance now inst = .ok r ↔
      ∃ v, inst.validate = .ok v ∧ ∃ services, st.ensureService now inst.serviceName = .ok services ∧
        ∃ fits : KeyFits (instanceKey inst.serviceName inst.id),
          r.value = v.registered now (st.instances.get (instanceKey inst.serviceName inst.id)) ∧
          r.store = ({ st with services }).withInstance _ r.value fits ∧
          r.events = [.instanceUpserted r.value] := by
  simp only [putInstance, bind_eq_ok, write_eq_ok, Instance.registered_serviceName]
  constructor
  · rintro ⟨v, valid, services, stubbed, _, ⟨fits, same⟩, done⟩
    subst same
    obtain rfl := Except.ok.inj done
    obtain ⟨name, id⟩ := Instance.validate_key valid
    simp only [name, id] at stubbed fits ⊢
    exact ⟨v, valid, services, stubbed, fits, rfl, rfl, trivial⟩
  · rintro ⟨v, valid, services, stubbed, fits, value, store, events⟩
    obtain ⟨name, id⟩ := Instance.validate_key valid
    simp only [← name, ← id] at stubbed fits value store
    refine ⟨v, valid, services, stubbed, _, ⟨fits, rfl⟩, ?_⟩
    cases r
    simp only at value store events
    subst value store events
    rfl

/-- A registration the store takes. -/
def Registrable (inst : Instance) : Prop :=
  (∃ v, inst.validate = .ok v) ∧ KeyFits (instanceKey inst.serviceName inst.id)

theorem putInstance_ok_iff {st : Store} {now : Time} {inst : Instance} :
    (∃ r, st.putInstance now inst = .ok r) ↔ Registrable inst := by
  constructor
  · intro ⟨r, run⟩
    obtain ⟨v, valid, _, _, fits, _⟩ := putInstance_eq_ok.mp run
    exact ⟨⟨v, valid⟩, fits⟩
  · intro ⟨⟨v, valid⟩, fits⟩
    have named : inst.serviceName ≠ [] := by
      intro unnamed
      have trimmed := (Instance.validate_ok valid).1
      rw [unnamed] at trimmed
      exact trimmed rfl
    have short : inst.serviceName.length ≤ maxKeySize := by
      have whole := fits.2
      rw [instanceKey, List.length_append] at whole
      omega
    obtain ⟨services, stubbed⟩ : ∃ services, st.ensureService now inst.serviceName = .ok services := by
      cases present : st.services.get inst.serviceName with
      | some svc => exact ⟨_, ensureService_eq_ok.mpr (Or.inl ⟨Option.isSome_of_eq_some present, rfl⟩)⟩
      | none => exact ⟨_, ensureService_eq_ok.mpr (Or.inr ⟨present, ⟨named, short⟩, rfl⟩)⟩
    let i := v.registered now (st.instances.get (instanceKey inst.serviceName inst.id))
    exact ⟨⟨i, ({ st with services }).withInstance _ i fits, [.instanceUpserted i]⟩,
      putInstance_eq_ok.mpr ⟨v, valid, services, stubbed, fits, rfl, rfl, rfl⟩⟩

/-- A put writes one record, of the present time, under its key. -/
theorem get_putInstance {st : Store} {now : Time} {inst : Instance} {r : Outcome Instance}
    (run : st.putInstance now inst = .ok r) :
    r.value.updatedAt = now ∧ ∀ key, r.store.instances.get key =
      if key = instanceKey inst.serviceName inst.id then some r.value.json
      else st.instances.get key := by
  obtain ⟨v, _, services, _, fits, value, store, _⟩ := putInstance_eq_ok.mp run
  refine ⟨by rw [value]; rfl, fun key => ?_⟩
  rw [store, get_withInstance]

/-- The common form of the operations on a stored instance: without one they fail, and otherwise they write one
changed record. -/
theorem updateInstance_eq_ok {β : Type} {st : Store} {service id : GoString}
    {f : Instance → Instance} {value : Instance → β} {events : Instance → List Event}
    {r : Outcome β} :
    st.updateInstance service id f value events = .ok r ↔
      ∃ prev, ∃ present : st.instances.get (instanceKey service id) = some prev,
        r = ⟨value (f prev), st.withInstance _ (f prev) (Bucket.fits_of_get present),
          events (f prev)⟩ := by
  simp only [updateInstance, bind_eq_ok, read_eq_ok, write_eq_ok]
  constructor
  · rintro ⟨prev, present, _, ⟨fits, same⟩, done⟩
    subst same
    exact ⟨prev, present, (Except.ok.inj done).symm⟩
  · rintro ⟨prev, present, done⟩
    exact ⟨prev, present, _, ⟨Bucket.fits_of_get present, rfl⟩, congrArg Except.ok done.symm⟩

/-- An update of a stored record succeeds, and writes that record only. -/
theorem get_updateInstance {β : Type} {st : Store} {service id : GoString} (f : Instance → Instance)
    (value : Instance → β) (events : Instance → List Event) {prev : Instance}
    (present : st.instances.get (instanceKey service id) = some prev) :
    ∃ r, st.updateInstance service id f value events = .ok r ∧
      ∀ key, r.store.instances.get key =
        if key = instanceKey service id then some (f prev).json else st.instances.get key := by
  refine ⟨_, updateInstance_eq_ok.mpr ⟨prev, present, rfl⟩, fun key => ?_⟩
  rw [get_withInstance]

/-- A heartbeat succeeds exactly when the instance is stored. -/
theorem heartbeat_eq_ok {st : Store} {now : Time} {service id status : GoString}
    {r : Outcome Instance} :
    st.heartbeat now service id status = .ok r ↔
      ∃ prev, ∃ present : st.instances.get (instanceKey service id) = some prev,
        r = ⟨prev.beat now status, st.withInstance _ (prev.beat now status)
          (Bucket.fits_of_get present), [.instanceStatus (prev.beat now status)]⟩ :=
  updateInstance_eq_ok

theorem setLastCheck_eq_ok {st : Store} {service id : GoString} {check : InstanceCheck}
    {r : Outcome Unit} :
    st.setLastCheck service id check = .ok r ↔
      ∃ prev, ∃ present : st.instances.get (instanceKey service id) = some prev,
        r = ⟨(), st.withInstance _ (prev.checked check)
          (Bucket.fits_of_get present), []⟩ :=
  updateInstance_eq_ok

/-- A status that is set already is not written again, and nothing is emitted. -/
theorem setStatus_eq_ok {st : Store} {now : Time} {service id status : GoString}
    {r : Outcome Instance} :
    st.setStatus now service id status = .ok r ↔
      ∃ prev, ∃ present : st.instances.get (instanceKey service id) = some prev,
        (prev.status = status ∧ r = ⟨prev, st, []⟩ ∨
          prev.status ≠ status ∧ r = ⟨prev.withStatus now status,
            st.withInstance _ (prev.withStatus now status) (Bucket.fits_of_get present),
            [.instanceStatus (prev.withStatus now status)]⟩) := by
  simp only [setStatus, bind_eq_ok, read_eq_ok]
  constructor
  · intro ⟨prev, present, done⟩
    refine ⟨prev, present, ?_⟩
    by_cases same : prev.status = status
    · rw [if_pos same] at done
      exact Or.inl ⟨same, (Except.ok.inj done).symm⟩
    · rw [if_neg same] at done
      obtain ⟨prev', present', value⟩ := updateInstance_eq_ok.mp done
      obtain rfl : prev = prev' := Option.some.inj (present.symm.trans present')
      exact Or.inr ⟨same, value⟩
  · intro ⟨prev, present, done⟩
    refine ⟨prev, present, ?_⟩
    rcases done with ⟨same, value⟩ | ⟨changed, value⟩
    · rw [if_pos same, value]
    · rw [if_neg changed]
      exact updateInstance_eq_ok.mpr ⟨prev, present, value⟩

theorem setBlocked_eq_ok {st : Store} {now : Time} {service id : GoString} {blocked : Bool}
    {r : Outcome Instance} :
    st.setBlocked now service id blocked = .ok r ↔
      ∃ prev, ∃ present : st.instances.get (instanceKey service id) = some prev,
        r = ⟨prev.withBlocked now blocked,
          st.withInstance _ (prev.withBlocked now blocked) (Bucket.fits_of_get present),
          [.instanceUpserted (prev.withBlocked now blocked)]⟩ :=
  updateInstance_eq_ok

/-- The deletion of an instance takes one key away. -/
theorem get_deleteInstance (st : Store) (service id : GoString) (key : Key) :
    (st.deleteInstance service id).store.instances.get key =
      if key = instanceKey service id then none else st.instances.get key := by
  simp only [deleteInstance]
  cases present : st.instances.get (instanceKey service id) with
  | none =>
    by_cases here : key = instanceKey service id
    · rw [if_pos here, here]
      exact present
    · rw [if_neg here]
  | some prev => exact Bucket.get_delete _ _ _

theorem services_deleteInstance (st : Store) (service id : GoString) :
    (st.deleteInstance service id).store.services = st.services := by
  rw [deleteInstance]
  split <;> rfl

/-- `listInstances` returns the records whose key begins with `service/`. -/
theorem mem_listInstances {st : Store} {service : GoString} {inst : Instance} :
    inst ∈ st.listInstances service ↔
      ∃ key, st.instances.get key = some inst ∧ servicePrefix service <+: key := by
  simp only [listInstances, List.mem_map, Prod.exists, Bucket.mem_scan]
  constructor
  · intro ⟨key, _, stored, same⟩
    exact ⟨key, same ▸ stored⟩
  · intro ⟨key, stored⟩
    exact ⟨key, inst, stored, rfl⟩

/-- A listing depends on the keys under the name and its slash alone. -/
theorem listInstances_congr {st st' : Store} {service : GoString}
    (same : ∀ key, servicePrefix service <+: key → st.instances.get key = st'.instances.get key) :
    st.listInstances service = st'.listInstances service := by
  rw [listInstances, Bucket.scan_congr same, listInstances]

end Store
end Discovery
