import Discovery.Directory
import Discovery.Store.Isolation
import Discovery.Store.Ownership

namespace Discovery
open Kv Machine

/-- What the catalog is for: services by name, each with its instances by id. -/
abbrev Registry : Type := Directory GoString GoString Service Instance

namespace Registry

/-- `src` exists, `dst` is free, and no name or key gets too long. -/
def Movable (d : Registry) (src dst : GoString) : Prop :=
  d.owner dst = none ∧ (d.owner src).isSome ∧ KeyFits dst ∧
    ∀ id, (d.member src id).isSome → KeyFits (instanceKey dst id)

/-- A registration that creates its service on the way. -/
def register (d : Registry) (now : Time) (inst v : Instance) : Registry :=
  let d' := if (d.owner inst.serviceName).isSome then d else d.putOwner inst.serviceName (stub inst.serviceName now).json
  d'.setMember inst.serviceName inst.id (some (v.registered now (d.member inst.serviceName inst.id)).json)

open Classical in
/-- The catalog operations on the registry. -/
noncomputable def step (d : Registry) : CatalogOp → Registry
  | .putService now svc =>
    let name := trimSpace svc.name
    if Storable name then d.putOwner name ({ svc with name }.stamped now).json else d
  | .deleteService name => if (d.owner name).isSome then d.remove name else d
  | .renameService now oldName newName =>
    let src := trimSpace oldName
    let dst := trimSpace newName
    if d.Movable src dst then d.move src dst (fun s => (s.renamed now dst).json) (fun i => (i.moved now dst).json) else d
  | .putInstance now inst =>
    match inst.validate with
    | .error _ => d
    | .ok v => if KeyFits (instanceKey inst.serviceName inst.id) then d.register now inst v else d
  | .heartbeat now service id status => d.alter service id fun i => (i.beat now status).json
  | .setLastCheck service id check => d.alter service id fun i => (i.checked check).json
  | .setStatus now service id status =>
    d.alter service id fun i => if i.status = status then i else (i.withStatus now status).json
  | .setBlocked now service id blocked => d.alter service id fun i => (i.withBlocked now blocked).json
  | .deleteInstance service id => d.setMember service id none

end Registry

/-- The names of the operation make no key that another name and id make, and are stored as they are. -/
def CatalogOp.Named (st : Store) (op : CatalogOp) : Prop := op.Clean st ∧ op.ValidNames

namespace Store

/-- The registry that the buckets hold. -/
def registry (st : Store) : Registry where
  owner := st.services.get
  member service id := st.instances.get (instanceKey service id)

theorem registry_empty : empty.registry = Directory.empty :=
  Directory.ext (funext fun _ => Bucket.get_empty _) (funext fun _ => funext fun _ => Bucket.get_empty _)

/-- The records of the catalog, each in its place and with its service. -/
structure Registered (st : Store) : Prop where
  placed : Placed st
  owned : EachOwned st

theorem Registered.catalogStep {st : Store} (registered : Registered st) {op : CatalogOp} (named : op.Named st) :
    Registered (st.catalogStep op).1 :=
  ⟨registered.placed.catalogStep named.1, registered.owned.catalogStep named.2⟩

variable {st : Store}

/-- Only plain names and ids are found. -/
theorem Placed.bare {st : Store} (placed : Placed st) {service id : GoString} {inst : Instance}
    (present : st.instances.get (instanceKey service id) = some inst) :
    slash ∉ service ∧ slash ∉ id ∧ service = inst.serviceName := by
  obtain ⟨bare, _, id', single, same⟩ := placed.place _ inst present
  obtain ⟨rfl, rfl⟩ := instanceKey_unique bare single same
  exact ⟨bare, single, rfl⟩

/-- Writing an instance under names without slashes sets one member of the directory. -/
theorem registry_withInstance (st : Store) {service id : GoString} (inst : Instance) (bare : slash ∉ service)
    (single : slash ∉ id) (fits : KeyFits (instanceKey service id)) :
    (st.withInstance _ inst fits).registry = st.registry.setMember service id (some inst.json) := by
  refine Directory.ext rfl (funext fun service' => funext fun id' => ?_)
  rw [Directory.member_setMember]
  refine (st.get_withInstance inst fits _).trans ?_
  by_cases same : instanceKey service' id' = instanceKey service id
  · rw [if_pos same, if_pos (instanceKey_unique bare single same)]
  · rw [if_neg same, if_neg]
    · rfl
    · rintro ⟨rfl, rfl⟩
      exact same rfl

/-- An update of one record, where it is found, is an update of one member. -/
theorem Placed.registry_update {β : Type} (placed : Placed st) (service id : GoString) (f : Instance → Instance)
    (value : Instance → β) (events : Instance → List Event) :
    (st.settle (st.updateInstance service id f value events)).1.registry =
      st.registry.alter service id fun i => (f i).json := by
  rw [Directory.alter]
  cases present : st.instances.get (instanceKey service id) with
  | none =>
    have member : st.registry.member service id = none := present
    have failed : ∀ r, st.updateInstance service id f value events ≠ .ok r := by
      intro r run
      obtain ⟨prev, found, _⟩ := updateInstance_eq_ok.mp run
      rw [present] at found
      cases found
    rw [member, Option.map_none, ← member, Directory.setMember_self]
    cases run : st.updateInstance service id f value events with
    | error e => rfl
    | ok r => exact absurd run (failed r)
  | some prev =>
    have member : st.registry.member service id = some prev := present
    obtain ⟨bare, single, _⟩ := placed.bare present
    rw [updateInstance_eq_ok.mpr ⟨prev, present, rfl⟩, member, Option.map_some]
    exact registry_withInstance st (f prev) bare single _

theorem Placed.registry_setStatus (placed : Placed st) (now : Time) (service id status : GoString) :
    (st.settle (st.setStatus now service id status)).1.registry =
      st.registry.alter service id fun i => if i.status = status then i else (i.withStatus now status).json := by
  have update := placed.registry_update service id (·.withStatus now status) (·) ([.instanceStatus ·])
  cases present : st.instances.get (instanceKey service id) with
  | none =>
    have member : st.registry.member service id = none := present
    have failed : st.setStatus now service id status = .error .notFound := by
      rw [setStatus, read, present]
      rfl
    rw [failed, Directory.alter, member, Option.map_none, ← member, Directory.setMember_self]
    rfl
  | some prev =>
    have member : st.registry.member service id = some prev := present
    have found : st.setStatus now service id status =
        if prev.status = status then .ok ⟨prev, st, []⟩
        else st.updateInstance service id (·.withStatus now status) (·) ([.instanceStatus ·]) := by
      rw [setStatus, read, present]
      rfl
    rw [found, Directory.alter, member, Option.map_some]
    split
    next =>
      rw [← member, Directory.setMember_self]
      rfl
    next =>
      rw [update, Directory.alter, member, Option.map_some]

theorem Placed.registry_deleteInstance (placed : Placed st) (service id : GoString) :
    (st.settle (.ok (st.deleteInstance service id))).1.registry = st.registry.setMember service id none := by
  have after : (st.settle (.ok (st.deleteInstance service id))).1 = (st.deleteInstance service id).store := rfl
  rw [after]
  refine Directory.ext (congrArg Bucket.get (services_deleteInstance st service id)) ?_
  refine funext fun service' => funext fun id' => ?_
  rw [Directory.member_setMember]
  refine (st.get_deleteInstance service id _).trans ?_
  by_cases same : instanceKey service' id' = instanceKey service id
  · rw [if_pos same]
    split
    next => rfl
    next differs =>
      -- a record found under the one key would have the one name and id
      cases present : st.instances.get (instanceKey service' id') with
      | none => exact present.symm
      | some inst =>
        obtain ⟨bare, single, _⟩ := placed.bare present
        obtain ⟨rfl, rfl⟩ := instanceKey_unique bare single same.symm
        exact absurd ⟨rfl, rfl⟩ differs
  · rw [if_neg same, if_neg]
    · rfl
    · rintro ⟨rfl, rfl⟩
      exact same rfl

theorem registry_putService (st : Store) (now : Time) (svc : Service) :
    (st.settle (st.putService now svc)).1.registry = Registry.step st.registry (.putService now svc) := by
  rw [Registry.step]
  split
  next storable =>
    obtain ⟨r, run⟩ := putService_ok_iff.mpr storable
    rw [run]
    refine Directory.ext (funext fun name => ?_) ?_
    · refine (get_putService run name).trans ?_
      simp only [Directory.putOwner, Function.update_apply]
      rfl
    · obtain ⟨v, _, fits, rfl⟩ := putService_eq_ok.mp run
      rfl
  next refused =>
    cases run : st.putService now svc with
    | error e => rfl
    | ok r => exact absurd (putService_ok_iff.mp ⟨r, run⟩) refused

/-- A service is deleted from the directory with its members. -/
theorem Placed.registry_deleteService (placed : Placed st) (name : GoString) :
    (st.settle (st.deleteService name)).1.registry = Registry.step st.registry (.deleteService name) := by
  rw [Registry.step]
  split
  next present =>
    rw [deleteService_eq_ok.mpr ⟨present, rfl⟩]
    refine Directory.ext (funext fun name' => ?_) (funext fun service => funext fun id => ?_)
    · refine (Bucket.get_delete _ _ _).trans ?_
      simp only [Directory.remove, Function.update_apply]
      rfl
    · refine (Bucket.get_deletePrefix _ _ _).trans ?_
      simp only [Directory.remove, Function.update_apply]
      by_cases same : service = name
      · rw [if_pos (same ▸ servicePrefix_prefix_instanceKey service id), if_pos same]
      · rw [if_neg same]
        split
        next under =>
          cases found : st.instances.get (instanceKey service id) with
          | none => exact found.symm
          | some inst =>
            obtain ⟨_, _, named⟩ := placed.bare found
            have mine := (placed.prefix_iff found name).mp under
            exact absurd (named.trans mine.symm) same
        next => rfl
  next absent =>
    cases run : st.deleteService name with
    | error e => rfl
    | ok r => exact absurd (deleteService_eq_ok.mp run).1 absent

/-- A registration adds the service, if it was unknown, and sets the member. -/
theorem registry_putInstance (st : Store) (now : Time) (inst : Instance)
    (clean : Registrable inst → slash ∉ inst.serviceName ∧ slash ∉ inst.id) :
    (st.settle (st.putInstance now inst)).1.registry = Registry.step st.registry (.putInstance now inst) := by
  rw [Registry.step]
  cases checked : inst.validate with
  | error e =>
    cases run : st.putInstance now inst with
    | error e => rfl
    | ok r =>
      obtain ⟨⟨v, valid⟩, _⟩ := putInstance_ok_iff.mp ⟨r, run⟩
      rw [checked] at valid
      cases valid
  | ok v =>
    dsimp only
    split
    next fits =>
      obtain ⟨bare, single⟩ := clean ⟨⟨v, checked⟩, fits⟩
      obtain ⟨r, run⟩ : ∃ r, st.putInstance now inst = .ok r := putInstance_ok_iff.mpr ⟨⟨v, checked⟩, fits⟩
      obtain ⟨v', same, services, stubbed, fits', value, store, _⟩ := putInstance_eq_ok.mp run
      rw [checked] at same
      cases same
      rw [run, settle, store, registry_withInstance _ _ bare single, value, Registry.register]
      have owners : ({ st with services } : Store).registry =
          if (st.registry.owner inst.serviceName).isSome then st.registry
          else st.registry.putOwner inst.serviceName (stub inst.serviceName now).json := by
        rcases ensureService_eq_ok.mp stubbed with ⟨exists_, rfl⟩ | ⟨absent, named, rfl⟩
        · exact (if_pos exists_).symm
        · have unknown : st.registry.owner inst.serviceName = none := absent
          rw [unknown, if_neg (by simp)]
          refine Directory.ext (funext fun name => ?_) rfl
          refine (Bucket.get_insert _ _ _ _ named).trans ?_
          simp only [Directory.putOwner, Function.update_apply]
          rfl
      rw [owners]
      rfl
    next large =>
      cases run : st.putInstance now inst with
      | error e => rfl
      | ok r => exact absurd (putInstance_ok_iff.mp ⟨r, run⟩).2 large

/-- A service lists its members. -/
theorem Registered.mem_listInstances (registered : Registered st) {service : GoString} {i : Instance} :
    i ∈ st.listInstances service ↔ st.registry.member service i.id = some i := by
  rw [Store.mem_listInstances]
  constructor
  · rintro ⟨key, present, under⟩
    have owns : key = instanceKey i.serviceName i.id := (registered.owned key i present).1
    subst owns
    rw [(registered.placed.prefix_iff present service).mp under]
    exact present
  · intro present
    exact ⟨_, present, servicePrefix_prefix_instanceKey service i.id⟩

/-- A member is filed under its own names. -/
theorem Registered.member_id (registered : Registered st) {service id : GoString} {i : Instance}
    (present : st.registry.member service id = some i) : i.id = id ∧ i.serviceName = service := by
  obtain ⟨bare, single, named⟩ := registered.placed.bare present
  obtain ⟨owns, _⟩ := registered.owned _ i present
  obtain ⟨name, id⟩ := instanceKey_unique bare single owns.symm
  exact ⟨id, name⟩

/-- A service can be renamed in the store exactly when it can be in the directory. -/
theorem Registered.canMove_iff (registered : Registered st) {src dst : GoString} :
    st.CanMove src dst ↔ st.registry.Movable src dst := by
  refine and_congr_right fun _ => and_congr_right fun _ => and_congr_right fun _ => ?_
  constructor
  · intro fits id stored
    obtain ⟨i, present⟩ := Option.isSome_iff_exists.mp stored
    obtain ⟨rfl, _⟩ := registered.member_id present
    exact fits i (registered.mem_listInstances.mpr present)
  · intro fits i listed
    exact fits i.id (Option.isSome_of_eq_some (registered.mem_listInstances.mp listed))

/-- A move renames the service in the directory and takes its members along. -/
theorem Registered.registry_moves (registered : Registered st) {now : Time} {src dst : GoString} {r : Outcome Service}
    (moves : st.Moves now src dst r) (bare : st.listInstances src ≠ [] → slash ∉ dst) :
    r.store.registry =
      st.registry.move src dst (fun s => (s.renamed now dst).json) fun i => (i.moved now dst).json := by
  have free : st.services.get dst = none := moves.1
  -- no record of the free name is stored
  have vacant (id : GoString) : st.instances.get (instanceKey dst id) = none := by
    cases present : st.instances.get (instanceKey dst id) with
    | none => rfl
    | some i => exact (registered.placed.fresh free present).elim
  refine Directory.ext (funext fun name => ?_) (funext fun service => funext fun id => ?_)
  · refine (moves.get_services name).trans ?_
    obtain ⟨_, old, present, _, _, _, rfl⟩ := moves
    have owner : st.registry.owner src = some old := present
    simp only [Directory.move, Function.update_apply, owner]
    split
    next => rfl
    next => split <;> rfl
  · simp only [Directory.move, Function.update_apply]
    rcases moves.get_instances (instanceKey service id) with ⟨value, other⟩ | ⟨i, listed, same, value⟩
    · refine value.trans ?_
      by_cases isSrc : service = src
      · rw [if_pos isSrc]
        subst isSrc
        cases present : st.instances.get (instanceKey service id) with
        | none => exact ite_self none
        | some i => exact if_pos ⟨servicePrefix_prefix_instanceKey service id, rfl⟩
      · rw [if_neg isSrc, if_neg]
        · split
          next isDst =>
            subst isDst
            rw [vacant]
            cases member : st.registry.member src id with
            | none => simp only [member, Option.map_none]
            | some i =>
              obtain ⟨rfl, _⟩ := registered.member_id member
              exact absurd rfl (other i (registered.mem_listInstances.mpr member))
          next => rfl
        · rintro ⟨under, stored⟩
          obtain ⟨i, present⟩ := Option.isSome_iff_exists.mp stored
          have mine := (registered.placed.prefix_iff present src).mp under
          exact isSrc ((registered.placed.bare present).2.2.trans mine.symm)
    · have plain := bare (List.ne_nil_of_mem listed)
      have member := registered.mem_listInstances.mp listed
      have single : slash ∉ i.id := (registered.placed.bare member).2.1
      obtain ⟨rfl, rfl⟩ := instanceKey_unique plain single same.symm
      refine value.trans ?_
      rw [vacant, if_neg (fun both => absurd both.2 (by simp)), if_neg moves.ne, if_pos rfl, member]
      rfl

theorem Registered.registry_renameService (registered : Registered st) {now : Time} {oldName newName : GoString}
    (named : (CatalogOp.renameService now oldName newName).Named st) :
    (st.settle (st.renameService now oldName newName)).1.registry =
      Registry.step st.registry (.renameService now oldName newName) := by
  rw [Registry.step]
  split
  next movable =>
    have can := registered.canMove_iff.mpr movable
    obtain ⟨r, moves⟩ := moves_iff.mpr can
    obtain ⟨svc, present⟩ := Option.isSome_iff_exists.mp can.2.1
    have run : st.renameService now oldName newName = .ok r :=
      renameService_eq_ok.mpr ⟨(Bucket.fits_of_get present).1, can.2.2.1.1, .inr ⟨moves.ne.symm, moves⟩⟩
    rw [run]
    exact registered.registry_moves moves fun some => (named.1 can some).1
  next stays =>
    cases run : st.renameService now oldName newName with
    | error e => rfl
    | ok r =>
      obtain ⟨_, _, ⟨_, _, _, rfl⟩ | ⟨_, moves⟩⟩ := renameService_eq_ok.mp run
      · rfl
      · exact absurd (registered.canMove_iff.mp (moves_iff.mp ⟨r, moves⟩)) stays

/-- Each operation on the buckets is the one on the registry. -/
theorem Registered.registry_catalogStep (registered : Registered st) {op : CatalogOp} (named : op.Named st) :
    (st.catalogStep op).1.registry = Registry.step st.registry op := by
  have placed := registered.placed
  cases op with
  | putService now svc => exact registry_putService st now svc
  | deleteService name => exact placed.registry_deleteService name
  | renameService now oldName newName => exact registered.registry_renameService named
  | putInstance now inst =>
    refine registry_putInstance st now inst fun ⟨valid, fits⟩ => ?_
    obtain ⟨bare, _, single⟩ := named.1 valid fits
    exact ⟨bare, single⟩
  | heartbeat now service id status => exact placed.registry_update service id _ _ _
  | setLastCheck service id check => exact placed.registry_update service id _ _ _
  | setStatus now service id status => exact placed.registry_setStatus now service id status
  | setBlocked now service id blocked => exact placed.registry_update service id _ _ _
  | deleteInstance service id => exact placed.registry_deleteInstance service id

/-- What a reader of the catalog sees of a registry. -/
structure Shows (st : Store) (d : Registry) : Prop where
  service : ∀ name, st.services.get name = d.owner name
  instances : ∀ service id, st.instances.get (instanceKey service id) = d.member service id
  listed : ∀ service, ∃ ids : List GoString, ids.Pairwise (fun a b => compare a b = .lt) ∧
    (∀ id, id ∈ ids ↔ (d.member service id).isSome) ∧ st.listInstances service = ids.filterMap (d.member service)

theorem compare_append_left (p a b : Key) : compare (p ++ a) (p ++ b) = compare a b := by
  induction p with
  | nil => rfl
  | cons c p ih =>
    have first : compare c c = .eq := Std.ReflCmp.compare_self
    rw [List.cons_append, List.cons_append, List.compare_cons_cons, first, ih]
    rfl

/-- The listings of the store show the directory: no service and no member is missing, and none is shown under
another name. -/
theorem Registered.shows (registered : Registered st) : Shows st st.registry where
  service _ := rfl
  instances _ _ := rfl
  listed service := by
    have scanned {e : Key × Instance} (member : e ∈ st.instances.scan (servicePrefix service)) :
        st.registry.member service e.2.id = some e.2 :=
      registered.mem_listInstances.mp (List.mem_map_of_mem member)
    have key {e : Key × Instance} (member : e ∈ st.instances.scan (servicePrefix service)) :
        e.1 = servicePrefix service ++ e.2.id := by
      obtain ⟨present, _⟩ := Bucket.mem_scan.mp member
      have owns : e.1 = instanceKey e.2.serviceName e.2.id := (registered.owned _ _ present).1
      rw [owns, (registered.member_id (scanned member)).2, instanceKey, servicePrefix, List.append_assoc]
      rfl
    refine ⟨(st.instances.scan (servicePrefix service)).map (·.2.id), ?_, fun id => ?_, ?_⟩
    · rw [List.pairwise_map]
      have sorted : (st.instances.scan (servicePrefix service)).Pairwise fun a b => compare a.1 b.1 = .lt := by
        rw [Bucket.scan_eq_filter]
        exact st.instances.toList_sorted.filter _
      refine sorted.imp_of_mem fun {a b} inA inB less => ?_
      rwa [key inA, key inB, compare_append_left] at less
    · rw [List.mem_map, Option.isSome_iff_exists]
      constructor
      · rintro ⟨e, member, rfl⟩
        exact ⟨e.2, scanned member⟩
      · rintro ⟨i, present⟩
        obtain ⟨rfl, _⟩ := registered.member_id present
        obtain ⟨e, member, rfl⟩ := List.mem_map.mp (registered.mem_listInstances.mpr present)
        exact ⟨e, member, rfl⟩
    · rw [List.filterMap_map, listInstances]
      have found : ∀ e ∈ st.instances.scan (servicePrefix service),
          (st.registry.member service ∘ fun e => e.2.id) e = some e.2 := fun e member => scanned member
      rw [List.filterMap_congr found, ← List.filterMap_eq_map]
      rfl

theorem registered_empty : Registered empty := ⟨Placed.empty, EachOwned.empty⟩

/-- The buckets, with their composite keys and prefix scans, are a registry of services with instances of their own. -/
theorem catalog_refines {ops : List CatalogOp} (run : Meets Store.catalogStep (fun st op => op.Named st) empty ops) :
    Shows (exec Store.catalogStep empty ops).1 (ops.foldl Registry.step Directory.empty) := by
  have refined : (exec Store.catalogStep empty ops).1.registry = ops.foldl Registry.step empty.registry :=
    exec_refines registry Registered (fun _ _ registered named => registered.catalogStep named)
      (fun _ _ registered named => registered.registry_catalogStep named) registered_empty run
  rw [registry_empty] at refined
  rw [← refined]
  exact (exec_invariant Registered (fun _ _ registered named => registered.catalogStep named) registered_empty run).shows

/-- Two services, one of them renamed and the other deleted. -/
def renamedAndDeleted : List CatalogOp :=
  [.putInstance 1 { id := "i", serviceName := "a", address := "10.0.0.1" },
    .putInstance 2 { id := "j", serviceName := "b", address := "10.0.0.1" }, .renameService 3 "a" "c",
    .heartbeat 4 "c" "i" [], .deleteService "b"]

theorem renamedAndDeleted_named : Meets Store.catalogStep (fun st op => op.Named st) empty renamedAndDeleted := by
  refine ⟨⟨fun _ _ => by decide, by decide, by decide⟩, ⟨fun _ _ => by decide, by decide, by decide⟩,
    ⟨fun _ _ => by decide, ?_⟩, ⟨trivial, trivial⟩, ⟨trivial, trivial⟩, trivial⟩
  exact (by decide : ValidUTF8 "c")

theorem catalog_refines_renamed : Shows (exec Store.catalogStep empty renamedAndDeleted).1
    (renamedAndDeleted.foldl Registry.step Directory.empty) :=
  catalog_refines renamedAndDeleted_named

theorem Registered.sound (registered : Registered st) : st.registry.Sound := by
  intro service id stored
  obtain ⟨i, present⟩ := Option.isSome_iff_exists.mp stored
  rw [← (registered.member_id present).2]
  exact (registered.owned _ i present).2

/-- Where a service went, it can go back. -/
theorem movable_back {src dst : GoString} (there : st.registry.Movable src dst) (f : Service → Service)
    (g : Instance → Instance) : Registry.Movable (st.registry.move src dst f g) dst src := by
  obtain ⟨free, stored, _, _⟩ := there
  obtain ⟨svc, present⟩ := Option.isSome_iff_exists.mp stored
  have ne : dst ≠ src := by
    rintro rfl
    rw [free] at present
    cases present
  refine ⟨?_, ?_, Bucket.fits_of_get present, fun id moved => ?_⟩
  · exact Function.update_self _ _ _
  · simp only [Directory.move, Function.update_of_ne ne, Function.update_self, present, Option.map_some,
      Option.isSome_some]
  · simp only [Directory.move, Function.update_of_ne ne, Function.update_self, Option.isSome_map] at moved
    obtain ⟨i, member⟩ := Option.isSome_iff_exists.mp moved
    exact Bucket.fits_of_get member

/-- A service that is renamed and renamed back is as it was, but for the times of the change. -/
theorem rename_back {ops : List CatalogOp} (run : Meets Store.catalogStep (fun st op => op.Named st) empty ops)
    {now : Time} {oldName newName : GoString} {r : Outcome Service} (differs : trimSpace oldName ≠ trimSpace newName)
    (there : (exec Store.catalogStep empty ops).1.renameService now oldName newName = .ok r)
    (named : (CatalogOp.renameService now oldName newName).Named (exec Store.catalogStep empty ops).1)
    (valid : ValidUTF8 oldName) (now' : Time) : ∃ r', r.store.renameService now' newName oldName = .ok r' ∧
      r'.store.registry = (exec Store.catalogStep empty ops).1.registry.mapAt (trimSpace oldName)
        (fun s => { s with name := trimSpace oldName, updatedAt := now' }) fun i => { i with updatedAt := now' } := by
  have registered :=
    exec_invariant Registered (fun _ _ registered named => registered.catalogStep named) registered_empty run
  generalize (exec Store.catalogStep empty ops).1 = st at there named registered ⊢
  obtain ⟨_, nonempty, ⟨same, _⟩ | ⟨_, moves⟩⟩ := renameService_eq_ok.mp there
  · exact absurd same differs
  have movable := registered.canMove_iff.mp (moves_iff.mp ⟨r, moves⟩)
  have moved := registered.registry_moves moves fun some => (named.1 (moves_iff.mp ⟨r, moves⟩) some).1
  have after : Registered r.store := by
    have next := registered.catalogStep named
    rwa [Store.catalogStep, there] at next
  -- the way back
  have back : r.store.CanMove (trimSpace newName) (trimSpace oldName) := by
    rw [after.canMove_iff, moved]
    exact movable_back movable _ _
  obtain ⟨r', returns⟩ := moves_iff.mpr back
  have ran : r.store.renameService now' newName oldName = .ok r' :=
    renameService_eq_ok.mpr ⟨nonempty, back.2.2.1.1, .inr ⟨moves.ne, returns⟩⟩
  have plain : r.store.listInstances (trimSpace newName) ≠ [] → slash ∉ trimSpace oldName := by
    intro listed
    obtain ⟨i, member⟩ := List.exists_mem_of_ne_nil _ listed
    have found := after.mem_listInstances.mp member
    rw [moved] at found
    simp only [Directory.move, Function.update_of_ne moves.ne, Function.update_self, Option.map_eq_some_iff] at found
    obtain ⟨i₀, before, _⟩ := found
    exact (registered.placed.bare before).1
  refine ⟨r', ran, ?_⟩
  rw [after.registry_moves returns plain, moved, Directory.move_move registered.sound movable.1 moves.ne.symm]
  refine Directory.mapAt_congr (fun s present => ?_) fun id i member => ?_
  · have clean : s.json = s := Bucket.clean present
    have stored : ((s.renamed now (trimSpace newName)).json.renamed now' (trimSpace oldName)).json =
        { s.json.json with name := jsonString (trimSpace oldName), updatedAt := now' } := rfl
    rw [Function.comp_apply, stored, clean, clean, show jsonString (trimSpace oldName) = _ from valid.trimSpace]
  · have clean : i.json = i := Bucket.clean member
    have stored : ((i.moved now (trimSpace newName)).json.moved now' (trimSpace oldName)).json =
        { i.json.json with serviceName := jsonString (trimSpace oldName), updatedAt := now' } := rfl
    rw [Function.comp_apply, stored, clean, clean, show jsonString (trimSpace oldName) = _ from valid.trimSpace,
      ← (registered.member_id member).2]

def oneService : List CatalogOp := [.putInstance 1 { id := "i", serviceName := "a", address := "10.0.0.1" }]

theorem oneService_back : ∃ r r', (exec Store.catalogStep empty oneService).1.renameService 3 "a" "c" = .ok r ∧
    r.store.renameService 4 "c" "a" = .ok r' ∧
      r'.store.registry = (exec Store.catalogStep empty oneService).1.registry.mapAt (trimSpace "a")
        (fun s => { s with name := trimSpace "a", updatedAt := 4 }) fun i => { i with updatedAt := 4 } := by
  have run : Meets Store.catalogStep (fun st op => op.Named st) empty oneService :=
    ⟨⟨fun _ _ => by decide, by decide, by decide⟩, trivial⟩
  have there : ((exec Store.catalogStep empty oneService).1.renameService 3 "a" "c").isOk := by decide
  obtain ⟨r, there⟩ : ∃ r, (exec Store.catalogStep empty oneService).1.renameService 3 "a" "c" = .ok r := by
    cases renamed : (exec Store.catalogStep empty oneService).1.renameService 3 "a" "c" with
    | error e =>
      rw [renamed] at there
      cases there
    | ok r => exact ⟨r, rfl⟩
  obtain ⟨r', back, same⟩ := rename_back run (by decide) there ⟨fun _ _ => by decide, (by decide : ValidUTF8 "c")⟩
    (by decide : ValidUTF8 "a") 4
  exact ⟨r, r', there, back, same⟩

end Store
end Discovery
