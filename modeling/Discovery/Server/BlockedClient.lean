import Discovery.Health.Checker
import Discovery.Server.InstanceWrites

namespace Discovery
open Kv Machine

/-- The requests of a self-registering client about its instance `instID`, with any payload. -/
def InstanceRequest.ByClient (service instID : GoString) : InstanceRequest → Prop
  | .registerInstance name body uuid => name = service ∧
    ∀ input, body = some input → (if input.id = [] then uuid else input.id) = instID
  | .upsertInstance name id _ | .heartbeat name id _ | .deleteInstance name id =>
    name = service ∧ id = instID
  | _ => False

def InstanceRequest.registers : InstanceRequest → Bool
  | .registerInstance _ _ _ | .upsertInstance _ _ _ => true
  | _ => false

/-- A request, or the evaluation of one instance in a health tick. The evaluated copy was listed
earlier and may be out of date. -/
inductive ClientStep
  | request (now : Time) (caller : Identity) (req : InstanceRequest)
  | evaluate (now clock : Time) (copy : Instance) (report : Option (Bool × List ProbeResult))
  deriving DecidableEq

def ClientStep.ByClient (service instID : GoString) : ClientStep → Prop
  | .request _ _ req => req.ByClient service instID
  | .evaluate _ _ _ _ => True

/-- A registration that passes its checks finds the record of the instance, so it does not follow a
deletion. -/
def ClientStep.Finds (key : Key) (st : Store) : ClientStep → Prop
  | .request _ caller req => req.registers → req.Touches st caller key →
    (st.instances.get key).isSome
  | .evaluate _ _ _ _ => True

namespace Server

def clientStep (st : Store) : ClientStep → Store × List Unit
  | .request now caller req => (serveInstance st now caller req, [])
  | .evaluate now clock copy report => ((st.evalInstance now clock (fun _ => report) copy).1, [])

/-- The instances eligible for discovery never include the id. Ids are served as their JSON form. -/
def Hidden (service instID : GoString) (st : Store) : Prop :=
  ∀ matchVersion constraint, ∀ i ∈ upInstances matchVersion (st.listInstances service) constraint,
    i.id ≠ jsonString instID

/-- Every stored record was there before, with the same id and the same block. -/
def SameBlocks (st st' : Store) : Prop :=
  ∀ key i, st'.instances.get key = some i →
    ∃ prev, st.instances.get key = some prev ∧ i.blocked = prev.blocked ∧ i.id = prev.id

theorem SameBlocks.refl (st : Store) : SameBlocks st st :=
  fun _ i present => ⟨i, present, rfl, rfl⟩

theorem SameBlocks.trans {st st' st'' : Store} (first : SameBlocks st st') (second : SameBlocks st' st'') :
    SameBlocks st st'' := by
  intro key i present
  obtain ⟨mid, stored, blocked, id⟩ := second key i present
  obtain ⟨prev, found, blocked', id'⟩ := first key mid stored
  exact ⟨prev, found, blocked.trans blocked', id.trans id'⟩

theorem SameBlocks.withInstance {st : Store} {key : Key} {prev : Instance}
    (present : st.instances.get key = some prev) (inst : Instance) (blocked : inst.blocked = prev.blocked)
    (id : inst.id = prev.id) (fits : KeyFits key) : SameBlocks st (st.withInstance key inst fits) := by
  intro j i stored
  rw [Store.get_withInstance] at stored
  split at stored
  next here =>
    obtain rfl := Option.some.inj stored
    have clean : jsonString prev.id = prev.id := congrArg Instance.id (Bucket.clean present)
    refine ⟨prev, here ▸ present, blocked, ?_⟩
    show jsonString inst.id = prev.id
    rw [id, clean]
  next => exact ⟨i, stored, rfl, rfl⟩

theorem sameBlocks_setStatus (st : Store) (clock : Time) (name id status : GoString) :
    SameBlocks st (st.settle (st.setStatus clock name id status)).1 := by
  refine Store.settle_store (SameBlocks st) (SameBlocks.refl st) fun r run => ?_
  obtain ⟨prev, present, ⟨_, rfl⟩ | ⟨_, rfl⟩⟩ := Store.setStatus_eq_ok.mp run
  · exact SameBlocks.refl st
  · exact SameBlocks.withInstance present (prev.withStatus clock status) rfl rfl _

theorem sameBlocks_setLastCheck (st : Store) (name id : GoString) (check : InstanceCheck) :
    SameBlocks st (st.settle (st.setLastCheck name id check)).1 := by
  refine Store.settle_store (SameBlocks st) (SameBlocks.refl st) fun r run => ?_
  obtain ⟨prev, present, rfl⟩ := Store.setLastCheck_eq_ok.mp run
  exact SameBlocks.withInstance present (prev.checked check) rfl rfl _

/-- The health checker leaves ids and blocks alone. -/
theorem sameBlocks_evalInstance (st : Store) (now clock : Time)
    (probe : Instance → Option (Bool × List ProbeResult)) (copy : Instance) :
    SameBlocks st (st.evalInstance now clock probe copy).1 := by
  have unchanged : SameBlocks st (st, ([] : List Event)).1 := SameBlocks.refl st
  simp only [Store.evalInstance]
  split
  · unfold Store.evalHeartbeat
    split
    · exact unchanged
    · split
      · exact unchanged
      · exact sameBlocks_setStatus st _ _ _ _
  · split
    · cases probe copy with
      | none => exact unchanged
      | some report =>
        obtain ⟨ok, results⟩ := report
        have checked := sameBlocks_setLastCheck st copy.serviceName copy.id
        simp only [Store.evalProbe]
        generalize (if ok = true then statusUp else statusDown) = desired
        split
        · exact checked _
        · exact (checked _).trans (sameBlocks_setStatus _ _ _ _ _)
    · exact unchanged

/-- The record of the instance, if it is stored, is blocked, and so is everything listed under its
service with its id. -/
structure Barred (service instID : GoString) (st : Store) : Prop where
  own : ∀ i, st.instances.get (instanceKey service instID) = some i → i.blocked = true
  listed : ∀ i ∈ st.listInstances service, i.id = jsonString instID → i.blocked = true

theorem Barred.hidden {service instID : GoString} {st : Store} (barred : Barred service instID st) :
    Hidden service instID st := by
  intro matchVersion constraint i member id
  obtain ⟨listed, eligible⟩ := List.mem_filter.mp member
  rw [barred.listed i listed id] at eligible
  simp at eligible

theorem Barred.sameBlocks {service instID : GoString} {st st' : Store} (barred : Barred service instID st)
    (same : SameBlocks st st') : Barred service instID st' where
  own i present := by
    obtain ⟨prev, stored, blocked, _⟩ := same _ i present
    rw [blocked, barred.own prev stored]
  listed i listed id := by
    obtain ⟨key, present, under⟩ := Store.mem_listInstances.mp listed
    obtain ⟨prev, stored, blocked, sameId⟩ := same key i present
    rw [blocked]
    exact barred.listed prev (Store.mem_listInstances.mpr ⟨key, stored, under⟩) (sameId ▸ id)

/-- A write of the instance's own record that keeps it blocked, or a deletion of it. -/
theorem Barred.write {service instID : GoString} {st st' : Store} (barred : Barred service instID st)
    (own : ∀ i, st'.instances.get (instanceKey service instID) = some i → i.blocked = true)
    (others : ∀ key, key ≠ instanceKey service instID → st'.instances.get key = st.instances.get key) :
    Barred service instID st' where
  own := own
  listed i listed id := by
    obtain ⟨key, present, under⟩ := Store.mem_listInstances.mp listed
    by_cases here : key = instanceKey service instID
    · exact own i (here ▸ present)
    · rw [others key here] at present
      exact barred.listed i (Store.mem_listInstances.mpr ⟨key, present, under⟩) id

/-- A registration of a blocked instance that is stored takes over the block. -/
theorem blocked_of_putInstance {st : Store} {now : Time} {inst : Instance} {o : Outcome Instance}
    (run : st.putInstance now inst = .ok o) {key : Key}
    (here : key = instanceKey inst.serviceName inst.id) (stored : (st.instances.get key).isSome)
    (blocked : ∀ i, st.instances.get key = some i → i.blocked = true) {i : Instance}
    (present : o.store.instances.get key = some i) : i.blocked = true := by
  obtain ⟨prev, found⟩ := Option.isSome_iff_exists.mp stored
  obtain ⟨v, _, _, _, _, value, _, _⟩ := Store.putInstance_eq_ok.mp run
  rw [(Store.get_putInstance run).2, if_pos here] at present
  obtain rfl := Option.some.inj present
  have flag : o.value.json.blocked = prev.blocked := by
    rw [value, ← here, found]
    rfl
  rw [flag, blocked prev found]

theorem Barred.request {service instID : GoString} {st : Store} (barred : Barred service instID st)
    (now : Time) (caller : Identity) {req : InstanceRequest} (client : req.ByClient service instID)
    (finds : req.registers → req.Touches st caller (instanceKey service instID) →
      (st.instances.get (instanceKey service instID)).isSome) :
    Barred service instID (serveInstance st now caller req) := by
  cases req with
  | registerInstance name body uuid =>
    obtain ⟨rfl, named⟩ := client
    refine settle_eq (Barred name instID) barred fun r run => ?_
    obtain ⟨may, input, given, o, put, rfl⟩ := registerInstance_eq_ok.mp run
    rw [named input given] at put
    have registrable := Store.putInstance_ok_iff.mp ⟨o, put⟩
    have touches : (InstanceRequest.registerInstance name body uuid).Touches st caller
        (instanceKey name instID) := by
      refine ⟨may, input, given, ?_, ?_⟩ <;> rw [named input given]
      exact registrable
    refine barred.write (fun i => ?_) fun key other => ?_
    · exact blocked_of_putInstance put rfl (finds rfl touches) barred.own
    · exact ((Store.get_putInstance put).2 key).trans (if_neg other)
  | upsertInstance name id body =>
    obtain ⟨rfl, rfl⟩ := client
    refine settle_eq (Barred name id) barred fun r run => ?_
    obtain ⟨may, unmanaged, input, given, o, put, rfl⟩ := upsertInstance_eq_ok.mp run
    have registrable := Store.putInstance_ok_iff.mp ⟨o, put⟩
    have stored := finds rfl ⟨may, unmanaged, input, given, registrable, rfl⟩
    refine barred.write (fun i => ?_) fun key other => ?_
    · exact blocked_of_putInstance put rfl stored barred.own
    · exact ((Store.get_putInstance put).2 key).trans (if_neg other)
  | deleteInstance name id =>
    obtain ⟨rfl, rfl⟩ := client
    refine settle_eq (Barred name id) barred fun r run => ?_
    obtain ⟨_, _, rfl⟩ := deleteInstance_eq_ok.mp run
    refine barred.write (fun i present => ?_) fun key other => ?_
    · rw [Store.get_deleteInstance, if_pos rfl] at present
      cases present
    · rw [Store.get_deleteInstance, if_neg other]
  | heartbeat name id body =>
    obtain ⟨rfl, rfl⟩ := client
    refine settle_eq (Barred name id) barred fun r run => ?_
    obtain ⟨_, o, beat, rfl⟩ := heartbeat_eq_ok.mp run
    obtain ⟨prev, present, rfl⟩ := Store.heartbeat_eq_ok.mp beat
    exact barred.sameBlocks (SameBlocks.withInstance present (prev.beat now (body.getD {}).status) rfl rfl _)
  | _ => exact client.elim

/-- As long as no registration of it follows a deletion, a blocked instance stays out of discovery,
whatever its client requests and the health checker finds. -/
theorem block_lasts {st : Store} {service instID : GoString} {inst : Instance}
    (present : st.instances.get (instanceKey service instID) = some inst) (blocked : inst.blocked = true)
    (alone : ∀ i ∈ st.listInstances service, i.id = jsonString instID → i.blocked = true)
    {run : List ClientStep} (client : ∀ step ∈ run, step.ByClient service instID)
    (finds : Meets clientStep (fun st step => step.Finds (instanceKey service instID) st) st run) :
    Always clientStep (Hidden service instID) st run := by
  have start : Barred service instID st := by
    refine ⟨fun i stored => ?_, alone⟩
    rw [present] at stored
    exact Option.some.inj stored ▸ blocked
  refine always_of_invariant (Barred service instID) ?_ (fun _ barred => barred.hidden) start
    (finds.and client)
  rintro s step barred ⟨found, byClient⟩
  cases step with
  | request now caller req => exact barred.request now caller byClient found
  | evaluate now clock copy report => exact barred.sameBlocks (sameBlocks_evalInstance s _ _ _ copy)

/-- An administrator's token, and an instance of the service "s" that the operator has blocked. -/
def adminCaller : Identity := { system := true, role := .admin }

def blockedStore : Store :=
  { Store.empty with
    services := Bucket.empty.insert "s" { name := "s" } Store.fits_s
    instances := Bucket.empty.insert "s/i"
      { id := "i", serviceName := "s", address := "10.0.0.1", status := statusUp, blocked := true }
      Store.fits_s_i }

def registration : InstanceRequest :=
  .registerInstance "s" (some { id := "i", address := "10.0.0.1" }) []

/-- The client registers again and heartbeats. -/
theorem block_lasts_again : Always clientStep (Hidden "s" "i") blockedStore
    [.request 5 adminCaller registration, .request 6 adminCaller (.heartbeat "s" "i" none)] := by
  have present : blockedStore.instances.get (instanceKey "s" "i") = some
      { id := "i", serviceName := "s", address := "10.0.0.1", status := statusUp, blocked := true } := by
    decide
  refine block_lasts present rfl (by decide) ?_ ⟨fun _ _ => by decide, fun asks => ?_, trivial⟩
  · intro step member
    simp only [List.mem_cons, List.not_mem_nil, or_false] at member
    rcases member with rfl | rfl
    · refine ⟨rfl, fun input given => ?_⟩
      obtain rfl := Option.some.inj given
      rfl
    · exact ⟨rfl, rfl⟩
  · cases asks

/-- A client that stops and starts again is back in discovery. -/
theorem block_lifted :
    ¬∀ (st : Store) (service instID : GoString) (inst : Instance) (run : List ClientStep),
      st.instances.get (instanceKey service instID) = some inst → inst.blocked = true →
        (∀ i ∈ st.listInstances service, i.id = jsonString instID → i.blocked = true) →
          (∀ step ∈ run, step.ByClient service instID) →
            Always clientStep (Hidden service instID) st run := by
  intro lasts
  have always := lasts blockedStore "s" "i"
    { id := "i", serviceName := "s", address := "10.0.0.1", status := statusUp, blocked := true }
    [.request 5 adminCaller (.deleteInstance "s" "i"), .request 6 adminCaller registration]
    (by decide) rfl (by decide) ?_
  · have hidden := always.2.2 (fun _ _ => true) []
    exact absurd hidden (by decide)
  · intro step member
    simp only [List.mem_cons, List.not_mem_nil, or_false] at member
    rcases member with rfl | rfl
    · exact ⟨rfl, rfl⟩
    · refine ⟨rfl, fun input given => ?_⟩
      obtain rfl := Option.some.inj given
      rfl

end Server
end Discovery
