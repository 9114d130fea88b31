import Discovery.Server.Instances

namespace Discovery
open Kv

/-- The caller may write instances under the name: it has write access, and the service is missing
or open to it. -/
def MayWrite (st : Store) (id : Identity) (name : GoString) : Prop :=
  .write ≤ id.role ∧ ∀ own, st.services.get name = some own → canEditService own id

def MayEditManaged (st : Store) (id : Identity) (key : Key) : Prop :=
  ∀ inst, st.instances.get key = some inst → inst.managed → id.system

/-- The service exists and is open to the caller. -/
def MayEdit (st : Store) (id : Identity) (name : GoString) : Prop :=
  .write ≤ id.role ∧ ∃ own, st.services.get name = some own ∧ canEditService own id

/-- The request passes every check of its handler and then writes or deletes the record at `key`. -/
def InstanceRequest.Touches (st : Store) (id : Identity) (key : Key) : InstanceRequest → Prop
  | .registerInstance name body uuid => MayWrite st id name ∧ ∃ input, body = some input ∧
    Store.Registrable (input.toModel name (if input.id = [] then uuid else input.id)) ∧
      key = instanceKey name (if input.id = [] then uuid else input.id)
  | .upsertInstance name instID body => MayWrite st id name ∧
    MayEditManaged st id (instanceKey name instID) ∧ ∃ input, body = some input ∧
      Store.Registrable (input.toModel name instID) ∧ key = instanceKey name instID
  | .deleteInstance name instID => MayWrite st id name ∧
    MayEditManaged st id (instanceKey name instID) ∧ key = instanceKey name instID ∧
      (st.instances.get key).isSome
  | .heartbeat name instID _ => MayWrite st id name ∧ key = instanceKey name instID ∧
    (st.instances.get key).isSome
  | .checkInstance name instID probe => MayWrite st id name ∧ probe.isSome ∧
    key = instanceKey name instID ∧ (st.instances.get key).isSome
  | .blockInstance name instID body => MayWrite st id name ∧ body.isSome ∧
    key = instanceKey name instID ∧ (st.instances.get key).isSome
  | .deleteService name => MayEdit st id name ∧ servicePrefix name <+: key ∧
    (st.instances.get key).isSome
  | .renameService name body => MayEdit st id name ∧ ∃ req, body = some req ∧
    st.CanMove (trimSpace name) (trimSpace req.newName) ∧
      (servicePrefix (trimSpace name) <+: key ∧ (st.instances.get key).isSome ∨
        ∃ i ∈ st.listInstances (trimSpace name), key = instanceKey (trimSpace req.newName) i.id)

/-- The record carries the present time, as its last update or as the time of its last probe. -/
def Instance.Stamped (i : Instance) (now : Time) : Prop :=
  i.updatedAt = now ∨ i.lastCheck.map (·.timestamp) = some now

namespace Server

/-- What a request did to one key: nothing, or it removed the record, or it left one that carries
the present time. -/
def Touched (st st' : Store) (now : Time) (key : Key) : Prop :=
  (st'.instances.get key = none ∧ (st.instances.get key).isSome) ∨
    ∃ i, st'.instances.get key = some i ∧ i.Stamped now

theorem registerInstance_eq_ok {st : Store} {now : Time} {id : Identity} {name uuid : GoString}
    {body : Option InstanceInput} {r : Reply Instance} :
    registerInstance st now id name body uuid = .ok r ↔
      MayWrite st id name ∧ ∃ input, body = some input ∧
        ∃ o, st.putInstance now (input.toModel name (if input.id = [] then uuid else input.id)) = .ok o ∧
          r = ⟨201, o.value, o.store, o.events⟩ := by
  simp only [registerInstance, bind_eq_ok, allowInstanceWrite_eq_ok, decode_eq_ok,
    mapError_eq_ok, Except.ok.injEq, exists_const, MayWrite, eq_comm (b := r)]

theorem upsertInstance_eq_ok {st : Store} {now : Time} {id : Identity} {name instID : GoString}
    {body : Option InstanceInput} {r : Reply Instance} :
    upsertInstance st now id name instID body = .ok r ↔
      MayWrite st id name ∧ MayEditManaged st id (instanceKey name instID) ∧
        ∃ input, body = some input ∧ ∃ o, st.putInstance now (input.toModel name instID) = .ok o ∧
          r = ⟨200, o.value, o.store, o.events⟩ := by
  simp only [upsertInstance, bind_eq_ok, allowInstanceWrite_eq_ok, rejectManagedEdit_eq_ok,
    decode_eq_ok, mapError_eq_ok, Except.ok.injEq, exists_const, MayWrite, MayEditManaged,
    eq_comm (b := r)]

theorem deleteInstance_eq_ok {st : Store} {id : Identity} {name instID : GoString} {r : Reply Unit} :
    deleteInstance st id name instID = .ok r ↔
      MayWrite st id name ∧ MayEditManaged st id (instanceKey name instID) ∧
        r = ⟨204, (), (st.deleteInstance name instID).store,
          (st.deleteInstance name instID).events⟩ := by
  simp only [deleteInstance, bind_eq_ok, allowInstanceWrite_eq_ok, rejectManagedEdit_eq_ok,
    Except.ok.injEq, exists_const, MayWrite, MayEditManaged, eq_comm (b := r)]

theorem heartbeat_eq_ok {st : Store} {now : Time} {id : Identity} {name instID : GoString}
    {body : Option HeartbeatReq} {r : Reply Instance} :
    heartbeat st now id name instID body = .ok r ↔
      MayWrite st id name ∧ ∃ o, st.heartbeat now name instID (body.getD {}).status = .ok o ∧
        r = ⟨200, o.value, o.store, o.events⟩ := by
  simp only [heartbeat, bind_eq_ok, allowInstanceWrite_eq_ok, mapError_eq_ok, Except.ok.injEq,
    exists_const, MayWrite, eq_comm (b := r)]

theorem blockInstance_eq_ok {st : Store} {now : Time} {id : Identity} {name instID : GoString}
    {body : Option BlockInput} {r : Reply Instance} :
    blockInstance st now id name instID body = .ok r ↔
      MayWrite st id name ∧ ∃ input, body = some input ∧
        ∃ o, st.setBlocked now name instID input.blocked = .ok o ∧
          r = ⟨200, o.value, o.store, o.events⟩ := by
  simp only [blockInstance, bind_eq_ok, allowInstanceWrite_eq_ok, decode_eq_ok, mapError_eq_ok,
    Except.ok.injEq, exists_const, MayWrite, eq_comm (b := r)]

theorem checkInstance_eq_ok {st : Store} {now : Time} {id : Identity} {name instID : GoString}
    {probe : Option (Bool × List ProbeResult)} {r : Reply CheckResponse} :
    checkInstance st now id name instID probe = .ok r ↔
      MayWrite st id name ∧ ∃ ok results, probe = some (ok, results) ∧
        ∃ inst, st.instances.get (instanceKey name instID) = some inst ∧
          ∃ o, recordProbe st now name instID
            { timestamp := now, ok, mode := inst.effectiveCheckMode, results } = o ∧
            r = ⟨200, { ok, status := o.value, mode := inst.effectiveCheckMode, results }, o.store,
              o.events⟩ := by
  simp only [checkInstance, bind_eq_ok, allowInstanceWrite_eq_ok, exists_const, MayWrite]
  refine and_congr_right fun _ => ?_
  cases probe with
  | none => simp [writeErr]
  | some report =>
    obtain ⟨ok, results⟩ := report
    simp only [bind_eq_ok, mapError_eq_ok, Store.getInstance, read_eq_ok, Except.ok.injEq,
      Option.some.injEq, Prod.mk.injEq, exists_eq_left', exists_and_left, and_assoc, eq_comm (b := r)]

/-- A probe of a stored instance leaves a record with the probe's time, and no other key changes. -/
theorem recordProbe_store {st : Store} {now : Time} {name instID : GoString} {check : InstanceCheck}
    (time : check.timestamp = now) {prev : Instance}
    (present : st.instances.get (instanceKey name instID) = some prev) :
    (∃ i, (recordProbe st now name instID check).store.instances.get (instanceKey name instID) =
        some i ∧ i.Stamped now) ∧
      ∀ key, key ≠ instanceKey name instID →
        (recordProbe st now name instID check).store.instances.get key = st.instances.get key := by
  obtain ⟨o, checked, after⟩ :
      ∃ o, st.setLastCheck name instID check = .ok o ∧ ∀ key, o.store.instances.get key =
        if key = instanceKey name instID then some (prev.checked check).json
        else st.instances.get key := Store.get_updateInstance _ _ _ present
  have mine := after (instanceKey name instID)
  rw [if_pos rfl] at mine
  have probed : (prev.checked check).json.Stamped now := Or.inr (congrArg some time)
  simp only [recordProbe, checked, Store.settle]
  cases set : o.store.setStatus now name instID (if check.ok then statusUp else statusDown) with
  | error e => exact ⟨⟨_, mine, probed⟩, fun key other => by rw [after, if_neg other]⟩
  | ok r =>
    obtain ⟨p, stored, ⟨_, rfl⟩ | ⟨_, rfl⟩⟩ := Store.setStatus_eq_ok.mp set
    · exact ⟨⟨_, mine, probed⟩, fun key other => by rw [after, if_neg other]⟩
    · constructor
      · refine ⟨(p.withStatus now (if check.ok then statusUp else statusDown)).json, ?_, Or.inl rfl⟩
        rw [Store.get_withInstance, if_pos rfl]
      · intro key other
        rw [Store.get_withInstance, if_neg other, after, if_neg other]

/-- A key that a request does not touch keeps its record. -/
theorem kept_of_not_touches {st : Store} {now : Time} {id : Identity} {req : InstanceRequest}
    {key : Key} (other : ¬req.Touches st id key) :
    (serveInstance st now id req).instances.get key = st.instances.get key := by
  cases req with
  | registerInstance name body uuid =>
    refine settle_eq (·.instances.get key = st.instances.get key) rfl fun r run => ?_
    obtain ⟨may, input, given, o, put, rfl⟩ := registerInstance_eq_ok.mp run
    have registrable := Store.putInstance_ok_iff.mp ⟨o, put⟩
    exact (Store.get_putInstance put).2 key |>.trans
      (if_neg fun here => other ⟨may, input, given, registrable, here⟩)
  | upsertInstance name instID body =>
    refine settle_eq (·.instances.get key = st.instances.get key) rfl fun r run => ?_
    obtain ⟨may, unmanaged, input, given, o, put, rfl⟩ := upsertInstance_eq_ok.mp run
    have registrable := Store.putInstance_ok_iff.mp ⟨o, put⟩
    exact (Store.get_putInstance put).2 key |>.trans
      (if_neg fun here => other ⟨may, unmanaged, input, given, registrable, here⟩)
  | deleteInstance name instID =>
    refine settle_eq (·.instances.get key = st.instances.get key) rfl fun r run => ?_
    obtain ⟨may, unmanaged, rfl⟩ := deleteInstance_eq_ok.mp run
    rw [Store.get_deleteInstance]
    split
    next here =>
      have absent : ¬(st.instances.get key).isSome :=
        fun present => other ⟨may, unmanaged, here, present⟩
      exact (Option.not_isSome_iff_eq_none.mp absent).symm
    next => rfl
  | heartbeat name instID body =>
    refine settle_eq (·.instances.get key = st.instances.get key) rfl fun r run => ?_
    obtain ⟨may, o, beat, rfl⟩ := heartbeat_eq_ok.mp run
    obtain ⟨prev, present, rfl⟩ := Store.heartbeat_eq_ok.mp beat
    rw [Store.get_withInstance, if_neg fun here => other ⟨may, here, ?_⟩]
    exact Option.isSome_of_eq_some (here ▸ present)
  | checkInstance name instID probe =>
    refine settle_eq (·.instances.get key = st.instances.get key) rfl fun r run => ?_
    obtain ⟨may, ok, results, given, inst, present, o, rfl, rfl⟩ := checkInstance_eq_ok.mp run
    refine (recordProbe_store rfl present).2 key fun here => other ⟨may, ?_, here, ?_⟩
    · exact Option.isSome_of_eq_some given
    · exact Option.isSome_of_eq_some (here ▸ present)
  | blockInstance name instID body =>
    refine settle_eq (·.instances.get key = st.instances.get key) rfl fun r run => ?_
    obtain ⟨may, input, given, o, blocked, rfl⟩ := blockInstance_eq_ok.mp run
    obtain ⟨prev, present, rfl⟩ := Store.setBlocked_eq_ok.mp blocked
    rw [Store.get_withInstance, if_neg fun here => other ⟨may, ?_, here, ?_⟩]
    · exact Option.isSome_of_eq_some given
    · exact Option.isSome_of_eq_some (here ▸ present)
  | deleteService name =>
    refine settle_eq (·.instances.get key = st.instances.get key) rfl fun r run => ?_
    obtain ⟨role, own, present, allowed, o, deleted, rfl⟩ := deleteService_eq_ok.mp run
    obtain ⟨_, rfl⟩ := Store.deleteService_eq_ok.mp deleted
    rw [Bucket.get_deletePrefix]
    split
    next under =>
      have absent : ¬(st.instances.get key).isSome :=
        fun stored => other ⟨⟨role, own, present, allowed⟩, under, stored⟩
      exact (Option.not_isSome_iff_eq_none.mp absent).symm
    next => rfl
  | renameService name body =>
    refine settle_eq (·.instances.get key = st.instances.get key) rfl fun r run => ?_
    obtain ⟨role, own, present, allowed, req, given, o, renamed, rfl⟩ := renameService_eq_ok.mp run
    obtain ⟨_, _, ⟨_, svc, _, rfl⟩ | ⟨_, moves⟩⟩ := Store.renameService_eq_ok.mp renamed
    · rfl
    · have touches : (servicePrefix (trimSpace name) <+: key ∧ (st.instances.get key).isSome ∨
          ∃ i ∈ st.listInstances (trimSpace name), key = instanceKey (trimSpace req.newName) i.id) →
            False := fun t => other
        ⟨⟨role, own, present, allowed⟩, req, given, Store.moves_iff.mp ⟨o, moves⟩, t⟩
      rcases moves.get_instances key with ⟨after, _⟩ | ⟨i, listed, here, _⟩
      · exact after.trans (if_neg fun gone => touches (Or.inl gone))
      · exact absurd (Or.inr ⟨i, listed, here.symm⟩) touches

/-- A put that a request gets as far as leaves a record of the present time under its key. -/
theorem touched_putInstance {st : Store} {now : Time} {inst : Instance} {o : Outcome Instance}
    (run : st.putInstance now inst = .ok o) :
    Touched st o.store now (instanceKey inst.serviceName inst.id) := by
  obtain ⟨stamp, after⟩ := Store.get_putInstance run
  refine Or.inr ⟨o.value.json, ?_, Or.inl stamp⟩
  rw [after, if_pos rfl]

theorem touched_of_touches {st : Store} {now : Time} {id : Identity} {req : InstanceRequest} {key : Key}
    (touches : req.Touches st id key) : Touched st (serveInstance st now id req) now key := by
  cases req with
  | registerInstance name body uuid =>
    obtain ⟨may, input, given, registrable, rfl⟩ := touches
    obtain ⟨o, put⟩ : ∃ o, st.putInstance now _ = .ok o := Store.putInstance_ok_iff.mpr registrable
    have run := registerInstance_eq_ok.mpr ⟨may, input, given, o, put, rfl⟩
    rw [serveInstance, run]
    exact touched_putInstance put
  | upsertInstance name instID body =>
    obtain ⟨may, unmanaged, input, given, registrable, rfl⟩ := touches
    obtain ⟨o, put⟩ : ∃ o, st.putInstance now _ = .ok o := Store.putInstance_ok_iff.mpr registrable
    have run := upsertInstance_eq_ok.mpr ⟨may, unmanaged, input, given, o, put, rfl⟩
    rw [serveInstance, run]
    exact touched_putInstance put
  | deleteInstance name instID =>
    obtain ⟨may, unmanaged, rfl, present⟩ := touches
    have run := deleteInstance_eq_ok.mpr ⟨may, unmanaged, rfl⟩
    rw [serveInstance, run, settle]
    refine Or.inl ⟨?_, present⟩
    rw [Store.get_deleteInstance, if_pos rfl]
  | heartbeat name instID body =>
    obtain ⟨may, rfl, present⟩ := touches
    obtain ⟨prev, stored⟩ := Option.isSome_iff_exists.mp present
    obtain ⟨o, beat, after⟩ : ∃ o, st.heartbeat now name instID (body.getD {}).status = .ok o ∧
        ∀ key, o.store.instances.get key = if key = instanceKey name instID then
          some (prev.beat now (body.getD {}).status).json else st.instances.get key :=
      Store.get_updateInstance _ _ _ stored
    have run := heartbeat_eq_ok.mpr ⟨may, o, beat, rfl⟩
    rw [serveInstance, run]
    exact Or.inr ⟨_, (after _).trans (if_pos rfl), Or.inl rfl⟩
  | checkInstance name instID probe =>
    obtain ⟨may, reported, rfl, present⟩ := touches
    obtain ⟨⟨ok, results⟩, given⟩ := Option.isSome_iff_exists.mp reported
    obtain ⟨prev, stored⟩ := Option.isSome_iff_exists.mp present
    have run := checkInstance_eq_ok.mpr ⟨may, ok, results, given, prev, stored,
      recordProbe st now name instID { timestamp := now, ok, mode := prev.effectiveCheckMode, results },
      rfl, rfl⟩
    rw [serveInstance, run, settle]
    exact Or.inr (recordProbe_store rfl stored).1
  | blockInstance name instID body =>
    obtain ⟨may, provided, rfl, present⟩ := touches
    obtain ⟨input, given⟩ := Option.isSome_iff_exists.mp provided
    obtain ⟨prev, stored⟩ := Option.isSome_iff_exists.mp present
    obtain ⟨o, blocked, after⟩ : ∃ o, st.setBlocked now name instID input.blocked = .ok o ∧
        ∀ key, o.store.instances.get key = if key = instanceKey name instID then
          some (prev.withBlocked now input.blocked).json else st.instances.get key :=
      Store.get_updateInstance _ _ _ stored
    have run := blockInstance_eq_ok.mpr ⟨may, input, given, o, blocked, rfl⟩
    rw [serveInstance, run]
    exact Or.inr ⟨_, (after _).trans (if_pos rfl), Or.inl rfl⟩
  | deleteService name =>
    obtain ⟨⟨role, own, stored, allowed⟩, under, present⟩ := touches
    rw [serveInstance, deleteService_of_get role stored allowed, settle]
    refine Or.inl ⟨?_, present⟩
    rw [Bucket.get_deletePrefix, if_pos under]
  | renameService name body =>
    obtain ⟨⟨role, own, stored, allowed⟩, req, rfl, movable, touched⟩ := touches
    obtain ⟨o, moves, run⟩ := renameService_of_canMove now role stored allowed movable
    rw [serveInstance, run, settle]
    rcases moves.get_instances key with ⟨after, none⟩ | ⟨i, listed, here, after⟩
    · -- no moved record comes to this key, so it is one of the old keys
      rcases touched with gone | ⟨i, listed, here⟩
      · exact Or.inl ⟨after.trans (if_pos gone), gone.2⟩
      · exact absurd here.symm (none i listed)
    · by_cases gone : servicePrefix (trimSpace name) <+: key ∧ (st.instances.get key).isSome
      · exact Or.inl ⟨after.trans (if_pos gone), gone.2⟩
      · exact Or.inr ⟨_, after.trans (if_neg gone), Or.inl rfl⟩

end Server
end Discovery
