import Discovery.Store.Catalog

namespace Discovery
open Kv Machine

def statuses : List GoString := [statusUp, statusDown, statusStarting, statusDraining]

/-- The modes the checker's tick has a case for; the empty one counts as heartbeat. -/
def checkModes : List GoString := [[], checkHeartbeat, checkHTTP, checkTCP, checkNone]

structure Instance.WellFormed (i : Instance) : Prop where
  status : i.status ∈ statuses
  mode : i.checkMode ∈ checkModes
  weight : 1 ≤ i.weight
  ttl : 0 ≤ i.ttlSeconds
  ports : ∀ it ∈ i.interfaces, 1 ≤ it.port ∧ it.port ≤ 65535

/-- A name that a service record keeps through validation and storage. -/
def ServiceName (name : GoString) : Prop :=
  trimSpace name = name ∧ Storable name ∧ ValidUTF8 name

/-- When an operation at `st` leaves no ill-formed record behind. Nothing is asked of one that fails. -/
def CatalogOp.Sound (st : Store) : CatalogOp → Prop
  | .putService _ svc => Storable (trimSpace svc.name) → ValidUTF8 (trimSpace svc.name)
  | .putInstance _ inst => Store.Registrable inst →
    (inst.status = [] ∨ inst.status ∈ statuses) ∧ inst.checkMode ∈ checkModes ∧
      (st.services.get inst.serviceName = none → ServiceName inst.serviceName)
  | .renameService _ oldName newName => st.CanMove (trimSpace oldName) (trimSpace newName) →
    ServiceName (trimSpace newName)
  | .heartbeat _ service id status => (st.instances.get (instanceKey service id)).isSome →
    status = [] ∨ status ∈ statuses
  | .setStatus _ service id status => (st.instances.get (instanceKey service id)).isSome →
    status ∈ statuses
  | .deleteService _ | .setLastCheck _ _ _ | .setBlocked _ _ _ _ | .deleteInstance _ _ => True

theorem Interface.validate_port {it v : Interface} (valid : it.validate = .ok v) :
    1 ≤ v.port ∧ v.port ≤ 65535 := by
  simp only [Interface.validate] at valid
  by_cases named : trimSpace it.name = []
  · simp [named] at valid
  by_cases spoken : toLower (trimSpace it.protocol) = []
  · simp [named, spoken] at valid
  by_cases range : (it.port ≤ 0 || 65535 < it.port) = true
  · simp [named, spoken, range] at valid
  rw [if_neg named, if_neg spoken, if_neg range] at valid
  obtain rfl := Except.ok.inj valid
  simp only [Bool.or_eq_true, decide_eq_true_eq, not_or] at range
  show 1 ≤ it.port ∧ it.port ≤ 65535
  omega

/-- A validated instance has ports that exist. -/
theorem validated_port {interfaces checked : List Interface}
    (valid : interfaces.mapM Interface.validate = .ok checked) :
    ∀ it ∈ checked, 1 ≤ it.port ∧ it.port ≤ 65535 := by
  induction interfaces generalizing checked with
  | nil =>
    obtain rfl := Except.ok.inj valid
    intro it member
    cases member
  | cons first rest ih =>
    rw [List.mapM_cons] at valid
    obtain ⟨head, here, tail⟩ := bind_eq_ok.mp valid
    obtain ⟨others, there, done⟩ := bind_eq_ok.mp tail
    obtain rfl := Except.ok.inj done
    intro it member
    rcases List.mem_cons.mp member with rfl | later
    · exact Interface.validate_port here
    · exact ih there it later

/-- A word of a list of plain words is stored as it is, and nothing else is stored as such a word. -/
theorem jsonString_mem_iff {words : List GoString} (plain : ∀ word ∈ words, (0xEF : UInt8) ∉ word)
    (valid : ∀ word ∈ words, ValidUTF8 word) (s : GoString) : jsonString s ∈ words ↔ s ∈ words := by
  constructor
  · intro member
    have same : s = jsonString s := eq_of_jsonString_eq (plain _ member) rfl
    rwa [same]
  · intro member
    have same : jsonString s = s := valid s member
    rwa [same]

theorem status_json_iff {s : GoString} : jsonString s ∈ statuses ↔ s ∈ statuses :=
  jsonString_mem_iff (by decide) (by decide) s

theorem mode_json_iff {s : GoString} : jsonString s ∈ checkModes ↔ s ∈ checkModes :=
  jsonString_mem_iff (by decide) (by decide) s

/-- Storing a record makes no difference. -/
theorem Instance.wellFormed_json {i : Instance} : i.json.WellFormed ↔ i.WellFormed := by
  have ports : (∀ it ∈ i.json.interfaces, 1 ≤ it.port ∧ it.port ≤ 65535) ↔
      ∀ it ∈ i.interfaces, 1 ≤ it.port ∧ it.port ≤ 65535 := List.forall_mem_map
  constructor
  · intro ⟨status, mode, weight, ttl, range⟩
    exact ⟨status_json_iff.mp status, mode_json_iff.mp mode, weight, ttl, ports.mp range⟩
  · intro ⟨status, mode, weight, ttl, range⟩
    exact ⟨status_json_iff.mpr status, mode_json_iff.mpr mode, weight, ttl, ports.mpr range⟩

/-- Where nothing else of a well-formed record changes, the new one is well-formed exactly if its status
is known. -/
theorem Instance.WellFormed.with_status {i : Instance} (formed : i.WellFormed)
    (i' : Instance) (mode : i'.checkMode = i.checkMode) (weight : i'.weight = i.weight)
    (ttl : i'.ttlSeconds = i.ttlSeconds) (interfaces : i'.interfaces = i.interfaces) :
    i'.WellFormed ↔ i'.status ∈ statuses := by
  constructor
  · intro after
    exact after.status
  · intro known
    refine ⟨known, ?_, ?_, ?_, ?_⟩
    · rw [mode]
      exact formed.mode
    · rw [weight]
      exact formed.weight
    · rw [ttl]
      exact formed.ttl
    · rw [interfaces]
      exact formed.ports

namespace Store

/-- What a reader of the catalog may rely on. -/
structure WellFormed (st : Store) : Prop where
  services : ∀ key s, st.services.get key = some s → s.name = key ∧ s.validate = .ok s
  instances : ∀ key i, st.instances.get key = some i → i.WellFormed

variable {st : Store}

theorem WellFormed.empty : WellFormed empty where
  services key s present := by simp [Store.empty] at present
  instances key i present := by simp [Store.empty] at present

/-- A service record that is stored under a key and carries it as its name passes validation exactly if
the name does. -/
theorem stored_service_iff {svc : Service} {name : GoString} (fits : KeyFits name)
    (named : svc.name = name) :
    (svc.json.name = name ∧ svc.json.validate = .ok svc.json) ↔ ServiceName name := by
  have jsonName : svc.json.name = jsonString name := congrArg jsonString named
  rw [jsonName, Service.validate_eq_ok, jsonName]
  constructor
  · rintro ⟨valid, nonempty, clean, same⟩
    rw [valid] at nonempty clean same
    have trimmed : trimSpace name = name := by
      have names := congrArg Service.name same
      rw [jsonName, valid] at names
      exact names.symm
    rw [trimmed] at nonempty clean
    exact ⟨trimmed, ⟨nonempty, clean, fits⟩, valid⟩
  · rintro ⟨trimmed, ⟨nonempty, clean, _⟩, valid⟩
    have kept : jsonString name = name := valid
    rw [kept, trimmed]
    refine ⟨rfl, nonempty, clean, ?_⟩
    have same : svc.json.name = name := jsonName.trans kept
    rw [← same]

/-- A service that is stored under its own name keeps the store well formed exactly when the name is one. -/
theorem WellFormed.withService_iff (formed : WellFormed st) {svc : Service} {name : GoString}
    (fits : KeyFits name) (named : svc.name = name) :
    WellFormed { st with services := st.services.insert name svc fits } ↔ ServiceName name := by
  rw [← stored_service_iff fits named]
  constructor
  · intro after
    exact after.services name svc.json (by rw [Bucket.get_insert, if_pos rfl]; rfl)
  · intro good
    refine ⟨fun key s present => ?_, formed.instances⟩
    rw [Bucket.get_insert] at present
    split at present
    next here =>
      obtain rfl := Option.some.inj present
      exact here ▸ good
    next => exact formed.services key s present

/-- An instance that is stored keeps the store well formed exactly when it is well formed itself. -/
theorem WellFormed.withInstance_iff (formed : WellFormed st) {key : Key} {inst : Instance}
    (fits : KeyFits key) : WellFormed (st.withInstance key inst fits) ↔ inst.WellFormed := by
  rw [← Instance.wellFormed_json]
  constructor
  · intro after
    exact after.instances key inst.json (by rw [get_withInstance, if_pos rfl])
  · intro good
    refine ⟨formed.services, fun key' i present => ?_⟩
    rw [get_withInstance] at present
    split at present
    next =>
      obtain rfl := Option.some.inj present
      exact good
    next => exact formed.instances key' i present

/-- A validated registration is well-formed exactly if it brings a known status and check mode. -/
theorem registered_wellFormed_iff {inst v : Instance} (valid : inst.validate = .ok v) (now : Time)
    (prev : Option Instance) : (v.registered now prev).WellFormed ↔
      (inst.status = [] ∨ inst.status ∈ statuses) ∧ inst.checkMode ∈ checkModes := by
  obtain ⟨_, _, weight, ttl, interfaces, checked, rfl⟩ := Instance.validate_ok valid
  have status : (if inst.status = [] then statusUp else inst.status) ∈ statuses ↔
      inst.status = [] ∨ inst.status ∈ statuses := by
    by_cases missing : inst.status = []
    · rw [if_pos missing]
      exact iff_of_true (by decide) (Or.inl missing)
    · rw [if_neg missing]
      exact ⟨Or.inr, fun known => known.resolve_left missing⟩
  constructor
  · intro formed
    exact ⟨status.mp formed.status, formed.mode⟩
  · rintro ⟨known, mode⟩
    refine ⟨status.mpr known, mode, ?_, ttl, validated_port checked⟩
    show 1 ≤ if inst.weight = 0 then 1 else inst.weight
    split <;> omega

theorem WellFormed.putService_iff (formed : WellFormed st) {now : Time} {svc : Service}
    {r : Outcome Service} (run : st.putService now svc = .ok r) :
    WellFormed r.store ↔ ValidUTF8 (trimSpace svc.name) := by
  have storable := putService_ok_iff.mp ⟨r, run⟩
  obtain ⟨v, valid, fits, rfl⟩ := putService_eq_ok.mp run
  obtain ⟨_, _, rfl⟩ := Service.validate_eq_ok.mp valid
  have named (v : Service) : (v.stamped now).name = v.name := rfl
  refine (formed.withService_iff fits (named _)).trans ?_
  constructor
  · intro name
    exact name.2.2
  · intro utf8
    exact ⟨trimSpace_idem svc.name, storable, utf8⟩

/-- The stub of a missing service is a record like any other. -/
theorem WellFormed.ensureService_iff (formed : WellFormed st) {now : Time} {name : GoString}
    {services : Bucket Service} (run : st.ensureService now name = .ok services) :
    WellFormed { st with services } ↔ (st.services.get name = none → ServiceName name) := by
  rcases ensureService_eq_ok.mp run with ⟨present, rfl⟩ | ⟨missing, fits, rfl⟩
  · refine iff_of_true formed fun missing => ?_
    rw [missing] at present
    cases present
  · rw [formed.withService_iff fits rfl]
    exact ⟨fun name _ => name, fun name => name missing⟩

/-- A registration keeps the store well formed exactly when its status and its mode are known ones, and its
service, if it has to be stubbed, has a proper name. -/
theorem WellFormed.putInstance_iff (formed : WellFormed st) {now : Time} {inst : Instance}
    {r : Outcome Instance} (run : st.putInstance now inst = .ok r) :
    WellFormed r.store ↔
      (inst.status = [] ∨ inst.status ∈ statuses) ∧ inst.checkMode ∈ checkModes ∧
        (st.services.get inst.serviceName = none → ServiceName inst.serviceName) := by
  obtain ⟨v, valid, services, stubbed, fits, value, store, _⟩ := putInstance_eq_ok.mp run
  have record := registered_wellFormed_iff valid now
    (st.instances.get (instanceKey inst.serviceName inst.id))
  rw [← value] at record
  rw [← formed.ensureService_iff stubbed, ← and_assoc, ← record, store]
  constructor
  · intro after
    have stub : WellFormed { st with services } := ⟨after.services, formed.instances⟩
    exact ⟨(stub.withInstance_iff fits).mp after, stub⟩
  · intro ⟨good, stub⟩
    exact (stub.withInstance_iff fits).mpr good

theorem WellFormed.moves_iff (formed : WellFormed st) {now : Time} {src dst : GoString}
    {r : Outcome Service} (moves : st.Moves now src dst r) :
    WellFormed r.store ↔ ServiceName dst := by
  have services := moves.get_services
  have ⟨_, old, _, fits, _, _, value⟩ := moves
  have named : r.value.name = dst := by
    rw [value]
    rfl
  rw [← stored_service_iff fits named]
  constructor
  · intro after
    have stored := services dst
    rw [if_neg moves.ne, if_pos rfl] at stored
    exact after.services dst r.value.json stored
  · intro good
    constructor
    · intro key s present
      rw [services] at present
      split at present
      · cases present
      split at present
      next here =>
        obtain rfl := Option.some.inj present
        exact here ▸ good
      next => exact formed.services key s present
    · intro key j present
      rcases moves.get_instances key with ⟨same, _⟩ | ⟨i, listed, _, written⟩
      · rw [same] at present
        split at present
        · cases present
        · exact formed.instances key j present
      · rw [written] at present
        split at present
        · cases present
        · obtain rfl := Option.some.inj present
          obtain ⟨key', stored, _⟩ := mem_listInstances.mp listed
          have ⟨status, mode, weight, ttl, ports⟩ := formed.instances key' i stored
          exact Instance.wellFormed_json.mpr ⟨status, mode, weight, ttl, ports⟩

/-- An operation that goes through exactly if `C` holds, and then leaves a well-formed store exactly if
`Q` does. -/
theorem WellFormed.settle_iff {α : Type} (formed : WellFormed st) {x : Except Err (Outcome α)} {C Q : Prop}
    (succeeds : (∃ r, x = .ok r) ↔ C) (done : ∀ r, x = .ok r → (WellFormed r.store ↔ Q)) :
    WellFormed (st.settle x).1 ↔ (C → Q) := by
  cases run : x with
  | error e =>
    refine iff_of_true formed fun holds => ?_
    obtain ⟨r, ok⟩ := succeeds.mpr holds
    rw [run] at ok
    cases ok
  | ok r =>
    have holds : C := succeeds.mp ⟨r, run⟩
    exact (done r run).trans ⟨fun good _ => good, fun good => good holds⟩

/-- A rename does exactly when it fails or the new name is a proper one. -/
theorem WellFormed.renameService_iff (formed : WellFormed st) (now : Time) (oldName newName : GoString) :
    WellFormed (st.settle (st.renameService now oldName newName)).1 ↔
      (st.CanMove (trimSpace oldName) (trimSpace newName) → ServiceName (trimSpace newName)) := by
  by_cases same : trimSpace oldName = trimSpace newName
  · have stays : ¬st.CanMove (trimSpace oldName) (trimSpace newName) := by
      rintro ⟨free, present, _⟩
      rw [same, free] at present
      cases present
    refine iff_of_true (settle_store WellFormed formed fun r run => ?_) fun movable => absurd movable stays
    obtain ⟨_, _, ⟨_, svc, _, rfl⟩ | ⟨differs, _⟩⟩ := renameService_eq_ok.mp run
    · exact formed
    · exact absurd same differs
  · refine formed.settle_iff ⟨?_, fun movable => ?_⟩ fun r run => ?_
    · rintro ⟨r, run⟩
      obtain ⟨_, _, ⟨equal, _⟩ | ⟨_, moves⟩⟩ := renameService_eq_ok.mp run
      · exact absurd equal same
      · exact Store.moves_iff.mp ⟨r, moves⟩
    · obtain ⟨r, moves⟩ : ∃ r, st.Moves now (trimSpace oldName) (trimSpace newName) r :=
        Store.moves_iff.mpr movable
      have ⟨_, old, present, fits, _⟩ := moves
      exact ⟨r, renameService_eq_ok.mpr
        ⟨(Bucket.fits_of_get present).1, fits.1, Or.inr ⟨same, moves⟩⟩⟩
    · obtain ⟨_, _, ⟨equal, _⟩ | ⟨_, moves⟩⟩ := renameService_eq_ok.mp run
      · exact absurd equal same
      · exact formed.moves_iff moves

/-- A heartbeat does exactly when it reports no status or a known one, or there is no instance. -/
theorem WellFormed.heartbeat_iff (formed : WellFormed st) (now : Time) (service id status : GoString) :
    WellFormed (st.settle (st.heartbeat now service id status)).1 ↔
      ((st.instances.get (instanceKey service id)).isSome → status = [] ∨ status ∈ statuses) := by
  have succeeds : (∃ r, st.heartbeat now service id status = .ok r) ↔
      (st.instances.get (instanceKey service id)).isSome := by
    simp [heartbeat_eq_ok, Option.isSome_iff_exists]
  refine formed.settle_iff succeeds fun r run => ?_
  obtain ⟨prev, present, rfl⟩ := heartbeat_eq_ok.mp run
  have before := formed.instances _ prev present
  have known : (prev.beat now status).status ∈ statuses ↔ status = [] ∨ status ∈ statuses := by
    rw [Instance.beat]
    by_cases silent : status = []
    · have lifted : (if prev.status = statusDown then statusUp else prev.status) ∈ statuses := by
        split
        · decide
        · exact before.status
      simpa [silent] using lifted
    · simp [silent]
  rw [formed.withInstance_iff, before.with_status (prev.beat now status) rfl rfl rfl rfl, known]

theorem WellFormed.setStatus_iff (formed : WellFormed st) (now : Time) (service id status : GoString) :
    WellFormed (st.settle (st.setStatus now service id status)).1 ↔
      ((st.instances.get (instanceKey service id)).isSome → status ∈ statuses) := by
  have succeeds : (∃ r, st.setStatus now service id status = .ok r) ↔
      (st.instances.get (instanceKey service id)).isSome := by
    constructor
    · rintro ⟨r, run⟩
      obtain ⟨prev, present, _⟩ := setStatus_eq_ok.mp run
      exact Option.isSome_of_eq_some present
    · intro stored
      obtain ⟨prev, present⟩ := Option.isSome_iff_exists.mp stored
      by_cases same : prev.status = status
      · exact ⟨_, setStatus_eq_ok.mpr ⟨prev, present, Or.inl ⟨same, rfl⟩⟩⟩
      · exact ⟨_, setStatus_eq_ok.mpr ⟨prev, present, Or.inr ⟨same, rfl⟩⟩⟩
  refine formed.settle_iff succeeds fun r run => ?_
  obtain ⟨prev, present, ⟨same, rfl⟩ | ⟨_, rfl⟩⟩ := setStatus_eq_ok.mp run
  · have before := formed.instances _ prev present
    exact iff_of_true formed (same ▸ before.status)
  · have before := formed.instances _ prev present
    rw [formed.withInstance_iff, before.with_status (prev.withStatus now status) rfl rfl rfl rfl]
    exact Iff.rfl

/-- Deleting leaves well-formed what it leaves. -/
theorem WellFormed.of_subset (formed : WellFormed st) {st' : Store}
    (services : ∀ key s, st'.services.get key = some s → st.services.get key = some s)
    (instances : ∀ key i, st'.instances.get key = some i → st.instances.get key = some i) : WellFormed st' :=
  ⟨fun key s present => formed.services key s (services key s present),
    fun key i present => formed.instances key i (instances key i present)⟩

/-- One operation at a well-formed store. -/
theorem WellFormed.catalogStep_iff (formed : WellFormed st) (op : CatalogOp) :
    WellFormed (st.catalogStep op).1 ↔ op.Sound st := by
  cases op with
  | putService now svc => exact formed.settle_iff putService_ok_iff fun r run => formed.putService_iff run
  | putInstance now inst => exact formed.settle_iff putInstance_ok_iff fun r run => formed.putInstance_iff run
  | renameService now oldName newName => exact formed.renameService_iff now oldName newName
  | heartbeat now service id status => exact formed.heartbeat_iff now service id status
  | setStatus now service id status => exact formed.setStatus_iff now service id status
  | deleteService name =>
    refine iff_of_true (settle_store WellFormed formed fun r run => ?_) trivial
    obtain ⟨_, rfl⟩ := deleteService_eq_ok.mp run
    refine formed.of_subset (fun key s present => ?_) fun key i present => ?_
    · rw [Bucket.get_delete] at present
      split at present
      · cases present
      · exact present
    · rw [Bucket.get_deletePrefix] at present
      split at present
      · cases present
      · exact present
  | setLastCheck service id check =>
    refine iff_of_true (settle_store WellFormed formed fun r run => ?_) trivial
    obtain ⟨prev, present, rfl⟩ := setLastCheck_eq_ok.mp run
    have before := formed.instances _ prev present
    have after := (before.with_status (prev.checked check) rfl rfl rfl rfl).mpr before.status
    exact (formed.withInstance_iff _).mpr after
  | setBlocked now service id blocked =>
    refine iff_of_true (settle_store WellFormed formed fun r run => ?_) trivial
    obtain ⟨prev, present, rfl⟩ := setBlocked_eq_ok.mp run
    have before := formed.instances _ prev present
    have after := (before.with_status (prev.withBlocked now blocked) rfl rfl rfl rfl).mpr before.status
    exact (formed.withInstance_iff _).mpr after
  | deleteInstance service id =>
    refine iff_of_true (formed.of_subset (fun key s present => ?_) fun key i present => ?_) trivial
    · have kept : (st.deleteInstance service id).store.services.get key = some s := present
      rwa [services_deleteInstance] at kept
    · have kept : (st.deleteInstance service id).store.instances.get key = some i := present
      rw [get_deleteInstance] at kept
      split at kept
      · cases kept
      · exact kept

/-- On a node driven by local operations the stored records are well-formed all along exactly the runs
whose every step is sound. -/
theorem well_formed_iff (ops : List CatalogOp) :
    Always Store.catalogStep WellFormed Store.empty ops ↔
      Meets Store.catalogStep (fun st op => op.Sound st) Store.empty ops :=
  always_iff_meets (fun _ op formed => formed.catalogStep_iff op) WellFormed.empty

/-- A registration creates a service under a name that its own validation refuses. -/
theorem stub_ill_formed :
    ¬∀ ops : List CatalogOp, WellFormed (exec Store.catalogStep Store.empty ops).1 := by
  intro formed
  have stub := (formed [.putInstance 1 { id := "i", serviceName := "a/b", address := "10.0.0.1" }]).services
    "a/b" (stub "a/b" 1) (by decide)
  exact absurd stub.2 (by decide)

end Store
end Discovery
