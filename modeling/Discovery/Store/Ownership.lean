import Discovery.Store.Isolation
import Discovery.Store.Replay

namespace Discovery
open Kv Machine

/-- The names and ids the operation stores are valid UTF-8; slashes and spaces are allowed. -/
def CatalogOp.ValidNames : CatalogOp → Prop
  | .putInstance _ inst => ValidUTF8 inst.serviceName ∧ ValidUTF8 inst.id
  | .renameService _ _ newName => ValidUTF8 newName
  | _ => True

namespace Store

/-- The record lies under its own key and its service exists. -/
def OwnedIn (st : Store) (key : Key) (inst : Instance) : Prop :=
  inst.Owns key ∧ (st.services.get inst.serviceName).isSome

/-- Every instance has its service. -/
def EachOwned (st : Store) : Prop := ∀ key inst, st.instances.get key = some inst → st.OwnedIn key inst

theorem EachOwned.empty : EachOwned empty := by
  intro key inst present
  simp [Store.empty] at present

/-- Services may come in, and each instance is an old one or owned. -/
theorem EachOwned.extend {st st' : Store} (owned : EachOwned st)
    (services : ∀ name, (st.services.get name).isSome → (st'.services.get name).isSome)
    (instances : ∀ key inst, st'.instances.get key = some inst →
      st.instances.get key = some inst ∨ st'.OwnedIn key inst) : EachOwned st' := by
  intro key inst present
  rcases instances key inst present with old | new
  · obtain ⟨owns, service⟩ := owned key inst old
    exact ⟨owns, services _ service⟩
  · exact new

/-- A changed record that keeps its name and id keeps its service. -/
theorem EachOwned.update {st : Store} (owned : EachOwned st) {key : Key} {prev : Instance}
    (present : st.instances.get key = some prev) (inst : Instance)
    (name : inst.serviceName = prev.serviceName) (id : inst.id = prev.id) (fits : KeyFits key) :
    EachOwned (st.withInstance key inst fits) := by
  refine owned.extend (fun _ old => old) fun j stored lookup => ?_
  rw [get_withInstance] at lookup
  split at lookup
  next here =>
    obtain rfl := Option.some.inj lookup
    obtain ⟨sameName, sameId⟩ := Instance.json_key (Bucket.clean present) name id
    right
    rw [OwnedIn, Instance.Owns, sameName, sameId, here]
    exact owned key prev present
  next => exact Or.inl lookup

theorem EachOwned.putInstance {st : Store} (owned : EachOwned st) {now : Time} {inst : Instance}
    {r : Outcome Instance} (run : st.putInstance now inst = .ok r)
    (name : ValidUTF8 inst.serviceName) (id : ValidUTF8 inst.id) : EachOwned r.store := by
  obtain ⟨v, checked, services, stubbed, fits, value, store, _⟩ := putInstance_eq_ok.mp run
  obtain ⟨sameName, sameId⟩ := Instance.validate_key checked
  have stored : r.value.json.serviceName = inst.serviceName ∧ r.value.json.id = inst.id := by
    rw [value]
    exact ⟨(congrArg jsonString sameName).trans name, (congrArg jsonString sameId).trans id⟩
  rw [store]
  have kept : ∀ n, (st.services.get n).isSome → (services.get n).isSome := by
    intro n old
    rcases ensureService_eq_ok.mp stubbed with ⟨_, rfl⟩ | ⟨_, _, rfl⟩
    · exact old
    · rw [Bucket.get_insert]
      split
      · rfl
      · exact old
  refine owned.extend kept fun j new lookup => ?_
  rw [get_withInstance] at lookup
  split at lookup
  next here =>
    obtain rfl := Option.some.inj lookup
    right
    rw [OwnedIn, Instance.Owns, stored.1, stored.2]
    refine ⟨here, ?_⟩
    rcases ensureService_eq_ok.mp stubbed with ⟨exists_, rfl⟩ | ⟨_, _, rfl⟩
    · exact exists_
    · rw [withInstance_services, Bucket.get_insert, if_pos rfl]
      rfl
  next => exact Or.inl lookup

/-- The cascade takes at least the service's own instances, whatever their ids hold. -/
theorem EachOwned.deleteService {st : Store} (owned : EachOwned st) {name : GoString}
    {r : Outcome Unit} (run : st.deleteService name = .ok r) : EachOwned r.store := by
  obtain ⟨_, rfl⟩ := deleteService_eq_ok.mp run
  intro key inst present
  rw [Bucket.get_deletePrefix] at present
  split at present
  · cases present
  next outside =>
    obtain ⟨owns, service⟩ := owned key inst present
    refine ⟨owns, ?_⟩
    have other : inst.serviceName ≠ name := by
      rintro rfl
      rw [owns] at outside
      exact outside (servicePrefix_prefix_instanceKey _ _)
    rw [Bucket.get_delete, if_neg other]
    exact service

/-- So does the move, and what it writes lies under the new name. -/
theorem EachOwned.moves {st : Store} (owned : EachOwned st) {now : Time} {src dst : GoString}
    {r : Outcome Service} (moves : st.Moves now src dst r) (valid : ValidUTF8 dst) :
    EachOwned r.store := by
  have services := moves.get_services
  intro key inst present
  rcases moves.get_instances key with ⟨same, _⟩ | ⟨i, listed, rfl, value⟩
  · rw [same] at present
    split at present
    · cases present
    next outside =>
      obtain ⟨owns, service⟩ := owned key inst present
      refine ⟨owns, ?_⟩
      have other : inst.serviceName ≠ src := by
        rintro rfl
        rw [owns] at outside present
        exact outside ⟨servicePrefix_prefix_instanceKey _ _, Option.isSome_of_eq_some present⟩
      rw [services, if_neg other]
      split
      · rfl
      · exact service
  · rw [value] at present
    split at present
    · cases present
    · obtain rfl := Option.some.inj present
      obtain ⟨source, stored, _⟩ := mem_listInstances.mp listed
      have clean : jsonString i.id = i.id := congrArg Instance.id (Bucket.clean stored)
      have name : (i.moved now dst).json.serviceName = dst := valid
      have id : (i.moved now dst).json.id = i.id := clean
      rw [OwnedIn, Instance.Owns, name, id, services, if_neg moves.ne, if_pos rfl]
      exact ⟨rfl, rfl⟩

theorem EachOwned.catalogStep {st : Store} (owned : EachOwned st) {op : CatalogOp}
    (names : op.ValidNames) : EachOwned (st.catalogStep op).1 := by
  cases op with
  | putService now svc =>
    refine settle_store EachOwned owned fun r run => ?_
    obtain ⟨v, _, fits, rfl⟩ := putService_eq_ok.mp run
    refine owned.extend (fun name old => ?_) fun key inst present => Or.inl present
    rw [Bucket.get_insert]
    split
    · rfl
    · exact old
  | deleteService name => exact settle_store EachOwned owned fun r run => owned.deleteService run
  | renameService now oldName newName =>
    refine settle_store EachOwned owned fun r run => ?_
    obtain ⟨_, _, ⟨_, svc, _, rfl⟩ | ⟨_, moves⟩⟩ := renameService_eq_ok.mp run
    · exact owned
    · have valid : ValidUTF8 newName := names
      exact owned.moves moves valid.trimSpace
  | putInstance now inst =>
    refine settle_store EachOwned owned fun r run => ?_
    obtain ⟨name, id⟩ := names
    exact owned.putInstance run name id
  | heartbeat now service id status =>
    refine settle_store EachOwned owned fun r run => ?_
    obtain ⟨prev, present, rfl⟩ := heartbeat_eq_ok.mp run
    exact owned.update present (prev.beat now status) rfl rfl _
  | setLastCheck service id check =>
    refine settle_store EachOwned owned fun r run => ?_
    obtain ⟨prev, present, rfl⟩ := setLastCheck_eq_ok.mp run
    exact owned.update present (prev.checked check) rfl rfl _
  | setStatus now service id status =>
    refine settle_store EachOwned owned fun r run => ?_
    obtain ⟨prev, present, ⟨_, rfl⟩ | ⟨_, rfl⟩⟩ := setStatus_eq_ok.mp run
    · exact owned
    · exact owned.update present (prev.withStatus now status) rfl rfl _
  | setBlocked now service id blocked =>
    refine settle_store EachOwned owned fun r run => ?_
    obtain ⟨prev, present, rfl⟩ := setBlocked_eq_ok.mp run
    exact owned.update present (prev.withBlocked now blocked) rfl rfl _
  | deleteInstance service id =>
    have after := st.get_deleteInstance service id
    intro key inst present
    have gone : (st.deleteInstance service id).store.instances.get key = some inst := present
    rw [after] at gone
    split at gone
    · cases gone
    · obtain ⟨owns, parent⟩ := owned key inst gone
      refine ⟨owns, ?_⟩
      rw [← services_deleteInstance st service id] at parent
      exact parent

/-- On a node driven by local operations every stored instance lies under the key made of its own
service name and id, and its service has a record. -/
theorem each_instance_owned {ops : List CatalogOp} (names : ∀ op ∈ ops, op.ValidNames) {key : Key}
    {inst : Instance}
    (present : (exec Store.catalogStep Store.empty ops).1.instances.get key = some inst) :
    key = instanceKey inst.serviceName inst.id ∧
      ((exec Store.catalogStep Store.empty ops).1.services.get inst.serviceName).isSome := by
  have owned : EachOwned (exec Store.catalogStep Store.empty ops).1 :=
    exec_invariant EachOwned (fun _ _ owned names => EachOwned.catalogStep owned names)
      EachOwned.empty (meets_of_forall names)
  exact owned key inst present

/-- Two services, one of them with a slash in its name, and a rename of the other. -/
def renamedBeside : List CatalogOp :=
  [.putInstance 1 { id := "i", serviceName := "a/b", address := "10.0.0.1" },
    .putInstance 2 { id := "j", serviceName := "a", address := "10.0.0.1" }, .renameService 3 "a" "c"]

theorem renamedBeside_owned :
    let i : Instance :=
      { id := "i", serviceName := "c", address := "10.0.0.1", weight := 1, status := statusUp
        lastHeartbeat := 1, registeredAt := 1, updatedAt := 3 }
    (ofString "c/i" : Key) = instanceKey i.serviceName i.id ∧
      ((exec Store.catalogStep Store.empty renamedBeside).1.services.get i.serviceName).isSome := by
  have names : ∀ op ∈ renamedBeside, op.ValidNames := by
    intro op member
    simp only [renamedBeside, List.mem_cons, List.not_mem_nil, or_false] at member
    rcases member with rfl | rfl | rfl
    · exact ⟨by decide, by decide⟩
    · exact ⟨by decide, by decide⟩
    · exact (by decide : ValidUTF8 "c")
  exact each_instance_owned names (by decide)

end Store
end Discovery
