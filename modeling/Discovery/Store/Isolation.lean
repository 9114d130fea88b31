import Discovery.Store.Catalog

namespace Discovery
open Kv Machine

/-- A key with one slash splits in one way. -/
theorem split_unique {s t name id : GoString} (bare : slash ∉ name) (single : slash ∉ id)
    (same : s ++ slash :: t = name ++ slash :: id) : s = name ∧ t = id := by
  induction name generalizing s with
  | nil =>
    cases s with
    | nil => exact ⟨rfl, (List.cons.inj same).2⟩
    | cons c s =>
      have rest : s ++ slash :: t = id := (List.cons.inj same).2
      have member : slash ∈ s ++ slash :: t := List.mem_append_right _ List.mem_cons_self
      exact absurd (rest ▸ member) single
  | cons c name ih =>
    obtain ⟨first, bare⟩ := not_or.mp (mt List.mem_cons.mpr bare)
    cases s with
    | nil => exact absurd (List.cons.inj same).1 first
    | cons d s =>
      obtain ⟨head, rest⟩ := List.cons.inj same
      obtain ⟨rfl, tail⟩ := ih bare rest
      exact ⟨by rw [show d = c from head], tail⟩

theorem instanceKey_unique {service id name id' : GoString} (bare : slash ∉ name)
    (single : slash ∉ id') (same : instanceKey service id = instanceKey name id') :
    service = name ∧ id = id' :=
  split_unique bare single same

theorem servicePrefix_prefix_iff {s name id : GoString} (bare : slash ∉ name) (single : slash ∉ id) :
    servicePrefix s <+: instanceKey name id ↔ s = name := by
  constructor
  · intro ⟨t, whole⟩
    have same : s ++ slash :: t = name ++ slash :: id := by
      simpa [servicePrefix, instanceKey] using whole
    exact (split_unique bare single same).1
  · intro same
    exact same ▸ servicePrefix_prefix_instanceKey s id

/-- A registration that would be accepted names its service and itself without a slash, the service
in valid UTF-8; a rename that would move instances takes such a service name. -/
def CatalogOp.Clean (st : Store) : CatalogOp → Prop
  | .putInstance _ inst => (∃ v, inst.validate = .ok v) →
    KeyFits (instanceKey inst.serviceName inst.id) →
      slash ∉ inst.serviceName ∧ ValidUTF8 inst.serviceName ∧ slash ∉ inst.id
  | .renameService _ oldName newName => st.CanMove (trimSpace oldName) (trimSpace newName) →
    st.listInstances (trimSpace oldName) ≠ [] →
      slash ∉ trimSpace newName ∧ ValidUTF8 (trimSpace newName)
  | _ => True

namespace Store

/-- The operations keep one service's instances apart from every other's. The name a rename takes
is the trimmed one. -/
structure Isolated (st : Store) : Prop where
  listed : ∀ s, st.listInstances s = st.listAllInstances.filter (·.serviceName = s)
  distinct : ∀ s i s' i', (st.instances.get (instanceKey s i)).isSome →
    instanceKey s i = instanceKey s' i' → s = s' ∧ i = i'
  deleted : ∀ name r, st.deleteService name = .ok r → ∀ key inst,
    st.instances.get key = some inst → inst.serviceName ≠ name →
      r.store.instances.get key = some inst
  renamed : ∀ now name newName r, st.renameService now name newName = .ok r → ∀ key inst,
    st.instances.get key = some inst → inst.serviceName ≠ trimSpace name →
      r.store.instances.get key = some inst

/-- A record under its own service's name, with no slash in name and id. -/
def InPlace (key : Key) (inst : Instance) : Prop :=
  slash ∉ inst.serviceName ∧ slash ∉ inst.id ∧
    ∃ id, slash ∉ id ∧ key = instanceKey inst.serviceName id

/-- What keeps the services apart: every record is in its place and its service exists. -/
structure Placed (st : Store) : Prop where
  place : ∀ key inst, st.instances.get key = some inst → InPlace key inst
  owned : ∀ key inst, st.instances.get key = some inst → (st.services.get inst.serviceName).isSome

theorem Placed.prefix_iff {st : Store} (placed : Placed st) {key : Key} {inst : Instance}
    (present : st.instances.get key = some inst) (s : GoString) :
    servicePrefix s <+: key ↔ s = inst.serviceName := by
  obtain ⟨bare, _, id, single, rfl⟩ := placed.place key inst present
  exact servicePrefix_prefix_iff bare single

/-- A free name, with any id, names no stored instance. -/
theorem Placed.fresh {st : Store} (placed : Placed st) {name id : GoString}
    (free : st.services.get name = none) {inst : Instance}
    (present : st.instances.get (instanceKey name id) = some inst) : False := by
  obtain ⟨bare, _, id', single, same⟩ := placed.place _ inst present
  obtain ⟨rfl, _⟩ := instanceKey_unique bare single same
  have owned := placed.owned _ inst present
  rw [free] at owned
  exact absurd owned (by simp)

theorem Placed.listInstances_eq {st : Store} (placed : Placed st) (s : GoString) :
    st.listInstances s = st.listAllInstances.filter (·.serviceName = s) := by
  rw [listInstances, listAllInstances, Bucket.scan_eq_filter, Bucket.values, List.filter_map]
  congr 1
  apply List.filter_congr
  rintro ⟨key, inst⟩ member
  have here := placed.prefix_iff (Bucket.mem_toList.mp member) s
  rw [Bool.eq_iff_iff, Bucket.under_iff, here, Function.comp_apply, decide_eq_true_eq, eq_comm]

theorem Placed.renamed {st : Store} (placed : Placed st) {now : Time} {name newName : GoString}
    {r : Outcome Service} (run : st.renameService now name newName = .ok r) {key : Key}
    {inst : Instance} (present : st.instances.get key = some inst)
    (other : inst.serviceName ≠ trimSpace name) : r.store.instances.get key = some inst := by
  obtain ⟨_, _, ⟨_, svc, _, rfl⟩ | ⟨_, moves⟩⟩ := renameService_eq_ok.mp run
  · exact present
  · have outside : ¬servicePrefix (trimSpace name) <+: key := fun pre =>
      other ((placed.prefix_iff present _).mp pre).symm
    rcases moves.get_instances key with ⟨same, _⟩ | ⟨i, _, rfl, _⟩
    · rw [same, if_neg fun both => outside both.1, present]
    · exact (placed.fresh moves.1 present).elim

theorem Placed.isolated {st : Store} (placed : Placed st) : Isolated st where
  listed := placed.listInstances_eq
  distinct s i s' i' stored same := by
    obtain ⟨inst, present⟩ := Option.isSome_iff_exists.mp stored
    obtain ⟨bare, _, id, single, key⟩ := placed.place _ inst present
    obtain ⟨rfl, rfl⟩ := instanceKey_unique bare single key
    obtain ⟨rfl, rfl⟩ := instanceKey_unique bare single same.symm
    exact ⟨rfl, rfl⟩
  deleted name r run key inst present other := by
    obtain ⟨_, rfl⟩ := deleteService_eq_ok.mp run
    rw [Bucket.get_deletePrefix, if_neg fun pre => other ((placed.prefix_iff present _).mp pre).symm,
      present]
  renamed now name newName r run key inst present other := placed.renamed run present other

theorem Placed.empty : Placed empty where
  place key inst present := by simp [Store.empty] at present
  owned key inst present := by simp [Store.empty] at present

/-- The invariant survives if services only come in and each instance is an old one or a record in
its place. -/
theorem Placed.extend {st st' : Store} (placed : Placed st)
    (services : ∀ name, (st.services.get name).isSome → (st'.services.get name).isSome)
    (instances : ∀ key inst, st'.instances.get key = some inst →
      st.instances.get key = some inst ∨
        InPlace key inst ∧ (st'.services.get inst.serviceName).isSome) : Placed st' where
  place key inst present := by
    rcases instances key inst present with old | new
    · exact placed.place key inst old
    · exact new.1
  owned key inst present := by
    rcases instances key inst present with old | new
    · exact services _ (placed.owned key inst old)
    · exact new.2

/-- A changed record stays in its place when name and id are kept. -/
theorem Placed.update {st : Store} (placed : Placed st) {key : Key} {prev : Instance}
    (present : st.instances.get key = some prev) (inst : Instance) (name : inst.serviceName = prev.serviceName)
    (id : inst.id = prev.id) (fits : KeyFits key) : Placed (st.withInstance key inst fits) := by
  refine placed.extend (fun _ old => old) fun j stored lookup => ?_
  rw [withInstance, Bucket.get_insert] at lookup
  split at lookup
  next here =>
    right
    obtain rfl := Option.some.inj lookup
    obtain ⟨sameName, sameId⟩ := Instance.json_key (Bucket.clean present) name id
    rw [Instance.roundTrip_eq, InPlace, sameName, sameId, here]
    exact ⟨placed.place key prev present, placed.owned key prev present⟩
  next => exact Or.inl lookup

theorem Placed.deleteService {st : Store} (placed : Placed st) {name : GoString} {r : Outcome Unit}
    (run : st.deleteService name = .ok r) : Placed r.store := by
  obtain ⟨_, rfl⟩ := deleteService_eq_ok.mp run
  have kept {key : Key} {inst : Instance}
      (present : (st.instances.deletePrefix (servicePrefix name)).get key = some inst) :
      ¬servicePrefix name <+: key ∧ st.instances.get key = some inst := by
    rw [Bucket.get_deletePrefix] at present
    split at present
    · simp at present
    next outside => exact ⟨outside, present⟩
  refine ⟨fun key inst present => placed.place key inst (kept present).2, fun key inst present => ?_⟩
  obtain ⟨outside, old⟩ := kept present
  have other : inst.serviceName ≠ name := fun same =>
    outside ((placed.prefix_iff old name).mpr same.symm)
  rw [Bucket.get_delete, if_neg other]
  exact placed.owned key inst old

theorem Placed.moves {st : Store} (placed : Placed st) {now : Time} {src dst : GoString}
    {r : Outcome Service} (moves : st.Moves now src dst r)
    (clean : st.listInstances src ≠ [] → slash ∉ dst ∧ ValidUTF8 dst) : Placed r.store := by
  have services := moves.get_services
  have dstStored : (r.store.services.get dst).isSome := by
    rw [services, if_neg moves.ne, if_pos rfl]
    rfl
  -- where a record found after the move comes from
  have origin {key : Key} {inst : Instance} (present : r.store.instances.get key = some inst) :
      (¬servicePrefix src <+: key ∧ st.instances.get key = some inst) ∨
        InPlace key inst ∧ inst.serviceName = dst := by
    rcases moves.get_instances key with ⟨same, _⟩ | ⟨i, listed, rfl, value⟩
    · rw [same] at present
      split at present
      · cases present
      next kept =>
        exact Or.inl ⟨fun pre => kept ⟨pre, Option.isSome_of_eq_some present⟩, present⟩
    · rw [value] at present
      split at present
      · cases present
      · obtain rfl := Option.some.inj present
        obtain ⟨bare, valid⟩ := clean (List.ne_nil_of_mem listed)
        obtain ⟨key, stored, _⟩ := mem_listInstances.mp listed
        have name : (i.moved now dst).json.serviceName = dst := valid
        have single : slash ∉ i.id := (placed.place key i stored).2.1
        have id : slash ∉ (i.moved now dst).json.id := mt slash_mem_jsonString.mp single
        refine Or.inr ⟨⟨?_, id, i.id, single, ?_⟩, name⟩
        · rwa [name]
        · rw [name]
  constructor
  · intro key inst present
    rcases origin present with ⟨_, old⟩ | ⟨new, _⟩
    · exact placed.place key inst old
    · exact new
  · intro key inst present
    rcases origin present with ⟨outside, old⟩ | ⟨_, name⟩
    · have other : inst.serviceName ≠ src := fun same =>
        outside ((placed.prefix_iff old src).mpr same.symm)
      have owned := placed.owned key inst old
      rw [services, if_neg other]
      split
      · rfl
      · exact owned
    · rw [name]
      exact dstStored

theorem Placed.putInstance {st : Store} (placed : Placed st) {now : Time} {inst : Instance}
    {r : Outcome Instance} (run : st.putInstance now inst = .ok r)
    (bare : slash ∉ inst.serviceName) (valid : ValidUTF8 inst.serviceName)
    (single : slash ∉ inst.id) : Placed r.store := by
  obtain ⟨v, checked, services, stubbed, fits, value, store, _⟩ := putInstance_eq_ok.mp run
  obtain ⟨name, id⟩ := Instance.validate_key checked
  have stored : (r.value.json.serviceName = inst.serviceName) ∧ r.value.json.id = jsonString inst.id := by
    rw [value]
    exact ⟨(congrArg jsonString name).trans valid, congrArg jsonString id⟩
  rw [store]
  refine placed.extend (fun n old => ?_) fun j new present => ?_
  · rcases ensureService_eq_ok.mp stubbed with ⟨_, rfl⟩ | ⟨_, fits', rfl⟩
    · exact old
    · rw [withInstance_services, Bucket.get_insert]
      split
      · rfl
      · exact old
  · rw [withInstance, Bucket.get_insert] at present
    split at present
    next here =>
      right
      obtain rfl := Option.some.inj present
      rw [Instance.roundTrip_eq, InPlace, stored.1, stored.2, here]
      refine ⟨⟨bare, mt slash_mem_jsonString.mp single, inst.id, single, rfl⟩, ?_⟩
      rcases ensureService_eq_ok.mp stubbed with ⟨exists_, rfl⟩ | ⟨_, fits', rfl⟩
      · exact exists_
      · rw [withInstance_services, Bucket.get_insert, if_pos rfl]
        rfl
    next => exact Or.inl present

theorem Placed.catalogStep {st : Store} (placed : Placed st) {op : CatalogOp} (clean : op.Clean st) :
    Placed (st.catalogStep op).1 := by
  cases op with
  | putService now svc =>
    refine settle_store Placed placed fun r run => ?_
    obtain ⟨v, _, fits, rfl⟩ := putService_eq_ok.mp run
    refine placed.extend (fun name old => ?_) fun key inst present => Or.inl present
    rw [Bucket.get_insert]
    split
    · rfl
    · exact old
  | deleteService name => exact settle_store Placed placed fun r run => placed.deleteService run
  | renameService now oldName newName =>
    refine settle_store Placed placed fun r run => ?_
    obtain ⟨_, _, ⟨_, svc, _, rfl⟩ | ⟨_, moves⟩⟩ := renameService_eq_ok.mp run
    · exact placed
    · exact placed.moves moves (clean (moves_iff.mp ⟨r, moves⟩))
  | putInstance now inst =>
    refine settle_store Placed placed fun r run => ?_
    obtain ⟨v, checked, _, _, fits, _⟩ := putInstance_eq_ok.mp run
    obtain ⟨bare, valid, single⟩ := clean ⟨v, checked⟩ fits
    exact placed.putInstance run bare valid single
  | heartbeat now service id status =>
    refine settle_store Placed placed fun r run => ?_
    obtain ⟨prev, present, rfl⟩ := heartbeat_eq_ok.mp run
    exact placed.update present (prev.beat now status) rfl rfl _
  | setLastCheck service id check =>
    refine settle_store Placed placed fun r run => ?_
    obtain ⟨prev, present, rfl⟩ := setLastCheck_eq_ok.mp run
    exact placed.update present (prev.checked check) rfl rfl _
  | setStatus now service id status =>
    refine settle_store Placed placed fun r run => ?_
    obtain ⟨prev, present, ⟨_, rfl⟩ | ⟨_, rfl⟩⟩ := setStatus_eq_ok.mp run
    · exact placed
    · exact placed.update present (prev.withStatus now status) rfl rfl _
  | setBlocked now service id blocked =>
    refine settle_store Placed placed fun r run => ?_
    obtain ⟨prev, present, rfl⟩ := setBlocked_eq_ok.mp run
    exact placed.update present (prev.withBlocked now blocked) rfl rfl _
  | deleteInstance service id =>
    simp only [Store.catalogStep, settle, Store.deleteInstance]
    split
    · exact placed
    · refine placed.extend (fun _ old => old) fun key inst present => ?_
      rw [Bucket.get_delete] at present
      split at present
      · cases present
      · exact Or.inl present

/-- From the empty store, clean operations keep the services' instances apart. -/
theorem isolated_of_clean {ops : List CatalogOp} (run : Meets Store.catalogStep
    (fun st op => op.Clean st) Store.empty ops) :
    Isolated (exec Store.catalogStep Store.empty ops).1 := by
  have placed : Placed (exec Store.catalogStep Store.empty ops).1 :=
    exec_invariant Placed (fun _ _ placed clean => Placed.catalogStep placed clean) Placed.empty run
  exact placed.isolated

/-- Two services, of which one is renamed; one of its instances and the whole other service are deleted. -/
def cleanOps : List CatalogOp :=
  [.putInstance 1 { id := "i", serviceName := "a", address := "10.0.0.1" },
    .putInstance 2 { id := "j", serviceName := "a", address := "10.0.0.2" },
    .putInstance 3 { id := "i", serviceName := "b", address := "10.0.0.3" },
    .renameService 4 "a" " c ", .deleteInstance "c" "j", .deleteService "b"]

theorem isolated_of_clean_several : Isolated (exec Store.catalogStep Store.empty cleanOps).1 :=
  isolated_of_clean ⟨fun _ _ => by decide, fun _ _ => by decide, fun _ _ => by decide, fun _ _ => by decide,
    trivial, trivial, trivial⟩

/-- What is left is the one instance that moved. -/
example : (exec Store.catalogStep Store.empty cleanOps).1.listAllInstances.map (fun i => (i.serviceName, i.id)) =
    [(ofString "c", ofString "i")] := by decide +kernel

/-- A registration whose service name holds a slash shows up under another service. -/
theorem isolation_broken :
    ¬∀ ops : List CatalogOp, Isolated (exec Store.catalogStep Store.empty ops).1 := by
  intro isolated
  have listed := (isolated
    [.putInstance 1 { id := "c", serviceName := "a/b", address := "10.0.0.1" }]).listed "a"
  exact absurd listed (by decide)

end Store
end Discovery
