import Discovery.Store.Replica
import Discovery.Store.Catalog

namespace Discovery
open Kv Machine

/-- The record without its probe outcome, which is not replicated. -/
def Instance.unchecked (i : Instance) : Instance := { i with lastCheck := none }

/-- A stored record gives way to a later one. One that would not change may also stay. -/
def Instance.Yields (old new : Instance) : Prop :=
  old.updatedAt < new.updatedAt ∨ new.json.unchecked = old.unchecked

def Service.Yields (old new : Service) : Prop :=
  old.updatedAt < new.updatedAt ∨ new.json = old

/-- The record lies under the key made of its own service name and id. -/
def Instance.Owns (i : Instance) (key : Key) : Prop := key = instanceKey i.serviceName i.id

/-- When one local operation at `st` is reproduced by the single event it emits. -/
def CatalogOp.Reproducible (st : Store) : CatalogOp → Prop
  | .putService now svc => ∀ v, svc.validate = .ok v → KeyFits v.name →
    ValidUTF8 v.name ∧ ∀ old, st.services.get v.name = some old → old.Yields (v.stamped now)
  | .deleteService name => (st.services.get name).isSome → st.listInstances name = []
  | .putInstance now inst => ∀ v, inst.validate = .ok v →
    KeyFits (instanceKey inst.serviceName inst.id) →
      (st.services.get inst.serviceName).isSome ∧ ValidUTF8 inst.serviceName ∧ ValidUTF8 inst.id ∧
        ∀ old, st.instances.get (instanceKey inst.serviceName inst.id) = some old →
          old.Yields (v.registered now (some old))
  | .heartbeat now service id status => ∀ prev,
    st.instances.get (instanceKey service id) = some prev →
      prev.Owns (instanceKey service id) ∧ prev.Yields (prev.beat now status)
  | .setStatus now service id status => ∀ prev,
    st.instances.get (instanceKey service id) = some prev → prev.status ≠ status →
      prev.Owns (instanceKey service id) ∧ prev.Yields (prev.withStatus now status)
  | .setBlocked now service id blocked => ∀ prev,
    st.instances.get (instanceKey service id) = some prev →
      prev.Owns (instanceKey service id) ∧ prev.Yields (prev.withBlocked now blocked)
  | .setLastCheck _ _ _ | .deleteInstance _ _ => True
  | .renameService _ _ _ => False

namespace Store

/-- Equal services, and equal instances up to their probe outcomes. -/
structure SameCatalog (a b : Store) : Prop where
  services : a.services = b.services
  instances : ∀ key,
    (a.instances.get key).map Instance.unchecked = (b.instances.get key).map Instance.unchecked

theorem SameCatalog.present_iff {a b : Store} (same : SameCatalog a b) {key : Key} {i : Instance}
    (present : b.instances.get key = some i) :
    ∃ j, a.instances.get key = some j ∧ j.unchecked = i.unchecked := by
  have images := same.instances key
  rw [present, Option.map_some] at images
  exact Option.map_eq_some_iff.mp images

/-- Storing a service here and merging its event there keeps the services equal. -/
theorem SameCatalog.putService {a b : Store} (same : SameCatalog a b) (svc : Service)
    (fits : KeyFits svc.name) (valid : ValidUTF8 svc.name)
    (yields : ∀ old, a.services.get svc.name = some old → old.Yields svc) :
    SameCatalog { a with services := a.services.insert svc.name svc fits }
      (b.apply (.serviceUpserted svc)) := by
  have key : svc.json.name = svc.name := valid
  rw [apply_serviceUpserted]
  refine ⟨Bucket.ext fun name => ?_, same.instances⟩
  rw [Bucket.get_insert, b.services.get_mergePut svc.json_idem, key, ← same.services,
    Service.roundTrip_eq]
  by_cases here : name = svc.name
  · rw [if_pos here, if_pos ⟨here, fits⟩, here]
    cases stored : a.services.get svc.name with
    | none => rfl
    | some old =>
      rcases yields old stored with later | unchanged
      · exact (Lww.merge_of_replaces (decide_eq_true later)).symm
      · rcases Lww.merge_eq_or old svc.json with taken | kept
        · exact taken.symm
        · rw [kept, unchanged]
  · rw [if_neg here, if_neg fun both => here both.1]

/-- Storing an instance under its own key here and merging its event there keeps the instances
equal. -/
theorem SameCatalog.withInstance {a b : Store} (same : SameCatalog a b) {key : Key}
    {inst : Instance} (fits : KeyFits key) (own : inst.json.Owns key)
    (yields : ∀ old, a.instances.get key = some old → old.Yields inst) :
    SameCatalog (a.withInstance key inst fits) (b.apply (.instanceUpserted inst)) := by
  rw [apply_instanceUpserted, ← show key = _ from own]
  refine ⟨same.services, fun j => ?_⟩
  rw [Store.withInstance, Bucket.get_insert, b.instances.get_mergePut inst.json_idem,
    Instance.roundTrip_eq]
  by_cases here : j = key
  · rw [if_pos here, if_pos ⟨here, fits⟩, here]
    cases stored : b.instances.get key with
    | none => rfl
    | some old =>
      obtain ⟨mine, present, equal⟩ := same.present_iff stored
      have times : mine.updatedAt = old.updatedAt := congrArg (·.updatedAt) equal
      rcases yields mine present with later | unchanged
      · have newer : old.updatedAt < inst.json.updatedAt := times ▸ later
        rw [Lww.merge_of_replaces (decide_eq_true newer)]
      · rcases Lww.merge_eq_or old inst.json with taken | kept
        · rw [taken]
        · rw [kept]
          exact congrArg some (unchanged.trans equal)
  · rw [if_neg here, if_neg fun both => here both.1]
    exact same.instances j

/-- A change of a stored record that keeps its name and id. -/
theorem SameCatalog.update {a b : Store} (same : SameCatalog a b) {key : Key} {prev : Instance}
    (present : a.instances.get key = some prev) (inst : Instance)
    (name : inst.serviceName = prev.serviceName) (id : inst.id = prev.id) (fits : KeyFits key)
    (own : prev.Owns key) (yields : prev.Yields inst) :
    SameCatalog (a.withInstance key inst fits) (b.apply (.instanceUpserted inst)) := by
  obtain ⟨sameName, sameId⟩ := Instance.json_key (Bucket.clean present) name id
  refine same.withInstance fits ?_ fun old stored => ?_
  · rw [Instance.Owns, sameName, sameId]
    exact own
  · obtain rfl := Option.some.inj (stored.symm.trans present)
    exact yields

theorem SameCatalog.settle {α : Type} {a b : Store} {x : Except Err (Outcome α)}
    (same : SameCatalog a b)
    (done : ∀ r, x = .ok r → SameCatalog r.store (b.applyAll r.events)) :
    SameCatalog (a.settle x).1 (b.applyAll (a.settle x).2) := by
  cases x with
  | error e => exact same
  | ok r => exact done r rfl

/-- Without instances under it, a service is deleted the same way on both sides. -/
theorem SameCatalog.deleteService {a b : Store} (same : SameCatalog a b) {name : GoString}
    (alone : a.listInstances name = []) :
    SameCatalog { a with
        services := a.services.delete name
        instances := a.instances.deletePrefix (servicePrefix name) }
      { b with services := b.services.delete name } := by
  refine ⟨by simp only [same.services], fun key => ?_⟩
  rw [Bucket.get_deletePrefix]
  split
  next under =>
    have absent : a.instances.get key = none := by
      refine Option.eq_none_iff_forall_ne_some.mpr fun inst present => ?_
      have listed := mem_listInstances.mpr ⟨key, present, under⟩
      rw [alone] at listed
      exact absurd listed List.not_mem_nil
    rw [← same.instances key, absent]
  next => exact same.instances key

theorem SameCatalog.deleteInstance {a b : Store} (same : SameCatalog a b) (key : Key) :
    SameCatalog { a with instances := a.instances.delete key }
      { b with instances := b.instances.delete key } := by
  refine ⟨same.services, fun j => ?_⟩
  rw [Bucket.get_delete, Bucket.get_delete]
  split
  · rfl
  · exact same.instances j

/-- One operation and the replay of its events. -/
theorem SameCatalog.catalogStep {a b : Store} (same : SameCatalog a b) {op : CatalogOp}
    (ok : op.Reproducible a) :
    SameCatalog (a.catalogStep op).1 (b.applyAll (a.catalogStep op).2) := by
  cases op with
  | putService now svc =>
    refine same.settle fun r run => ?_
    obtain ⟨v, checked, fits, rfl⟩ := putService_eq_ok.mp run
    obtain ⟨valid, yields⟩ := ok v checked fits
    exact same.putService (v.stamped now) fits valid yields
  | deleteService name =>
    refine same.settle fun r run => ?_
    obtain ⟨stored, rfl⟩ := deleteService_eq_ok.mp run
    exact same.deleteService (ok stored)
  | renameService now oldName newName => exact ok.elim
  | putInstance now inst =>
    refine same.settle fun r run => ?_
    obtain ⟨v, checked, services, stubbed, fits, value, store, events⟩ := putInstance_eq_ok.mp run
    obtain ⟨known, validName, validId, yields⟩ := ok v checked fits
    obtain ⟨name, id⟩ := Instance.validate_key checked
    have kept : services = a.services := by
      rcases ensureService_eq_ok.mp stubbed with ⟨_, unchanged⟩ | ⟨missing, _⟩
      · exact unchanged
      · rw [missing] at known
        exact absurd known (by simp)
    rw [store, events, kept]
    refine same.withInstance fits ?_ fun old stored => ?_
    · rw [value, Instance.Owns]
      show _ = instanceKey (jsonString v.serviceName) (jsonString v.id)
      rw [name, id, show jsonString inst.serviceName = _ from validName,
        show jsonString inst.id = _ from validId]
    · rw [value, stored]
      exact yields old stored
  | heartbeat now service id status =>
    refine same.settle fun r run => ?_
    obtain ⟨prev, present, rfl⟩ := heartbeat_eq_ok.mp run
    obtain ⟨own, yields⟩ := ok prev present
    rw [applyAll_cons, apply_instanceStatus]
    exact same.update present (prev.beat now status) rfl rfl _ own yields
  | setLastCheck service id check =>
    refine same.settle fun r run => ?_
    obtain ⟨prev, present, rfl⟩ := setLastCheck_eq_ok.mp run
    refine ⟨same.services, fun key => ?_⟩
    rw [applyAll_nil, Store.withInstance, Bucket.get_insert, ← same.instances key]
    split
    next here =>
      have clean : prev.json = prev := Bucket.clean present
      have ignored : (prev.checked check).json.unchecked = prev.json.unchecked := rfl
      have unchanged : (prev.checked check).json.unchecked = prev.unchecked := by rw [ignored, clean]
      rw [here, present]
      exact congrArg some unchanged
    next => rfl
  | setStatus now service id status =>
    refine same.settle fun r run => ?_
    obtain ⟨prev, present, ⟨_, rfl⟩ | ⟨changed, rfl⟩⟩ := setStatus_eq_ok.mp run
    · exact same
    · obtain ⟨own, yields⟩ := ok prev present changed
      rw [applyAll_cons, apply_instanceStatus]
      exact same.update present (prev.withStatus now status) rfl rfl _ own yields
  | setBlocked now service id blocked =>
    refine same.settle fun r run => ?_
    obtain ⟨prev, present, rfl⟩ := setBlocked_eq_ok.mp run
    obtain ⟨own, yields⟩ := ok prev present
    exact same.update present (prev.withBlocked now blocked) rfl rfl _ own yields
  | deleteInstance service id =>
    refine same.settle fun r done => ?_
    obtain rfl := Except.ok.inj done
    simp only [Store.deleteInstance]
    split
    · exact same
    · exact same.deleteInstance _

/-- A peer that replays a node's events keeps the node's catalog, over every run of reproducible
operations. -/
theorem replay_same {a b : Store} (same : SameCatalog a b) {ops : List CatalogOp}
    (run : Meets Store.catalogStep (fun st op => op.Reproducible st) a ops) :
    SameCatalog (exec Store.catalogStep a ops).1 (b.applyAll (exec Store.catalogStep a ops).2) :=
  exec_replay apply SameCatalog (fun _ _ _ equal ok => equal.catalogStep ok) same run

/-- A service and an instance of it, replayed on an empty peer. -/
theorem replay_same_two :
    SameCatalog
      (exec Store.catalogStep Store.empty [.putService 1 { name := "s" },
        .putInstance 2 { id := "i", serviceName := "s", address := "10.0.0.1" }]).1
      (Store.empty.applyAll (exec Store.catalogStep Store.empty [.putService 1 { name := "s" },
        .putInstance 2 { id := "i", serviceName := "s", address := "10.0.0.1" }]).2) := by
  refine replay_same ⟨rfl, fun _ => rfl⟩ ⟨fun v checked _ => ?_, fun v _ _ => ?_, trivial⟩
  · obtain ⟨_, _, rfl⟩ := Service.validate_eq_ok.mp checked
    exact ⟨by decide, fun old stored => by simp [Store.empty] at stored⟩
  · refine ⟨by decide, by decide, by decide, fun old stored => ?_⟩
    have absent : ((Store.empty.catalogStep (.putService 1 { name := "s" })).1.instances.get
        (instanceKey "s" "i")) = none := by decide
    exact absurd (absent.symm.trans stored) (by simp)

/-- The stub that a registration creates is not among its events. -/
theorem replay_broken :
    ¬∀ (a b : Store) (ops : List CatalogOp), a.services = b.services → a.instances = b.instances →
      (∀ op ∈ ops, (∀ now old new, op ≠ .renameService now old new) ∧
        ∀ service id check, op ≠ .setLastCheck service id check) →
      SameCatalog (exec Store.catalogStep a ops).1 (b.applyAll (exec Store.catalogStep a ops).2) := by
  intro replays
  have same := replays Store.empty Store.empty
    [.putInstance 1 { id := "i", serviceName := "s", address := "10.0.0.1" }] rfl rfl (by simp)
  exact absurd same.services (by decide)

end Store
end Discovery
