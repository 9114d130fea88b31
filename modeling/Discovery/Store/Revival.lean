import Discovery.Store.Absence

namespace Discovery
open Kv Machine

/-- The steps that delete the service or instance record under a key on this node. A deletion or a move
that the node performs takes the service's record and every instance key under `name/` with it, the
move only those it visits; a deletion event of another node takes the one record it names. -/
inductive Deletes (st : Store) : NodeStep → RecordKey → Prop
  | deleteService {name : GoString} {r : Outcome Unit} (run : st.deleteService name = .ok r) :
    Deletes st (.catalog (.deleteService name)) ⟨.service, name⟩
  | cascade {name : GoString} {r : Outcome Unit} (run : st.deleteService name = .ok r) {key : Key}
    (under : servicePrefix name <+: key) : Deletes st (.catalog (.deleteService name)) ⟨.inst, key⟩
  | renameService {now : Time} {oldName newName : GoString} {r : Outcome Service}
    (run : st.renameService now oldName newName = .ok r)
    (differs : trimSpace oldName ≠ trimSpace newName) :
    Deletes st (.catalog (.renameService now oldName newName)) ⟨.service, trimSpace oldName⟩
  | movedAway {now : Time} {oldName newName : GoString} {r : Outcome Service}
    (run : st.renameService now oldName newName = .ok r)
    (differs : trimSpace oldName ≠ trimSpace newName) {key : Key}
    (under : servicePrefix (trimSpace oldName) <+: key) (visited : (st.instances.get key).isSome) :
    Deletes st (.catalog (.renameService now oldName newName)) ⟨.inst, key⟩
  | deleteInstance (service id : GoString) :
    Deletes st (.catalog (.deleteInstance service id)) ⟨.inst, instanceKey service id⟩
  | serviceDeleted (name : GoString) :
    Deletes st (.applyRemote (.serviceDeleted name)) ⟨.service, name⟩
  | instanceDeleted (service id : GoString) :
    Deletes st (.applyRemote (.instanceDeleted service id)) ⟨.inst, instanceKey service id⟩

/-- The steps that revoke the secret `token`: a successful revocation by id, and a deletion event. -/
inductive Revokes (st : Store) : NodeStep → GoString → Prop
  | byID {id token : GoString} {found : ClientToken}
    (success : st.findTokenByID id = some (token, found)) :
    Revokes st (.deleteClientTokenByID id) token
  | event (t : ClientToken) : Revokes st (.applyRemote (.tokenDeleted t)) t.json.token

namespace Store

/-- Config events touch none of the replicated records. -/
theorem lookup_configApplied (st : Store) (p : ConfigRevision) (k : RecordKey) :
    (st.apply (.configApplied p)).lookup k = st.lookup k := by
  refine settle_store (·.lookup k = st.lookup k) rfl fun r run => ?_
  simp only [applyRemote, bind_eq_ok] at run
  obtain ⟨st', raw, done⟩ := run
  obtain rfl := Except.ok.inj done
  simp only [putConfigRevisionRaw] at raw
  split at raw
  · obtain rfl := Except.ok.inj raw
    rfl
  · simp only [bind_eq_ok] at raw
    obtain ⟨revs, _, rest⟩ := raw
    split at rest
    · obtain ⟨active, _, last⟩ := bind_eq_ok.mp rest
      obtain rfl := Except.ok.inj last
      rfl
    · obtain rfl := Except.ok.inj rest
      rfl

theorem lookup_configDraftSaved (st : Store) (p : ConfigDraft) (k : RecordKey) :
    (st.apply (.configDraftSaved p)).lookup k = st.lookup k := by
  refine settle_store (·.lookup k = st.lookup k) rfl fun r run => ?_
  simp only [applyRemote, putDraftRaw, bind_eq_ok] at run
  obtain ⟨st', ⟨drafts, _, raw⟩, done⟩ := run
  obtain rfl := Except.ok.inj done
  obtain rfl := Except.ok.inj raw
  rfl

/-- An event that does not carry an absent record leaves it absent. -/
theorem absent_apply {st : Store} {k : RecordKey} (absent : st.lookup k = none) {ev : Event}
    (other : ∀ r, ev.record ≠ some (k, r)) : (st.apply ev).lookup k = none := by
  cases carried : ev.carried with
  | some entry =>
    obtain ⟨k₀, r⟩ := entry
    rw [lookup_apply carried]
    split
    next both =>
      obtain ⟨rfl, fits⟩ := both
      exact absurd (record_of_carried carried fits) (other r)
    next => exact absent
  | none =>
    cases ev with
    | serviceDeleted name => exact (lookup_delete_none absent name).1
    | instanceDeleted service id => exact (lookup_delete_none absent _).2.1
    | affinityDeleted a => exact (lookup_delete_none absent _).2.2.1
    | tokenDeleted t => exact (lookup_delete_none absent _).2.2.2
    | configApplied p => rw [lookup_configApplied, absent]
    | configDraftSaved p => rw [lookup_configDraftSaved, absent]
    | configDraftDeleted scope => exact absent
    | configDeleted scope => exact absent
    | _ => cases carried

/-- Events that carry no record for the key do not bring it back. -/
theorem absent_applyAll {st : Store} {k : RecordKey} (absent : st.lookup k = none)
    {evs : List Event} (other : ∀ ev ∈ evs, ∀ r, ev.record ≠ some (k, r)) :
    (st.applyAll evs).lookup k = none := by
  induction evs generalizing st with
  | nil => exact absent
  | cons ev evs ih =>
    obtain ⟨first, rest⟩ := List.forall_mem_cons.mp other
    exact ih (absent_apply absent first) rest

/-- A record that is absent takes the value of the first event that carries it. Its time does not
matter. -/
theorem revived_apply {st : Store} {k : RecordKey} {r : Record} {ev : Event}
    (absent : st.lookup k = none) (record : ev.record = some (k, r)) :
    (st.apply ev).lookup k = some r := by
  have fits : KeyFits k.key := by simpa using (Option.filter_eq_some_iff.mp record).2
  rw [lookup_apply (carried_of_record record), if_pos ⟨rfl, fits⟩, absent]
  rfl

/-- Only deletion events make a record absent. -/
theorem present_apply {st : Store} {k : RecordKey} (present : st.lookup k ≠ none) {ev : Event}
    (keeps : ev.isDeletion = false) : (st.apply ev).lookup k ≠ none := by
  cases carried : ev.carried with
  | some entry =>
    obtain ⟨k₀, r⟩ := entry
    rw [lookup_apply carried]
    split
    · cases stored : st.lookup k with
      | none => exact absurd stored present
      | some w =>
        simp only [Lww.merge]
        split <;> simp
    · exact present
  | none =>
    cases ev with
    | configApplied p => rwa [lookup_configApplied]
    | configDraftSaved p => rwa [lookup_configDraftSaved]
    | serviceDeleted _ | instanceDeleted _ _ | affinityDeleted _ | tokenDeleted _
    | configDraftDeleted _ | configDeleted _ => cases keeps
    | _ => cases carried

/-- A snapshot holds records and no deletions. -/
theorem Snapshot.isDeletion_eq_false {snap : Snapshot} {ev : Event} (member : ev ∈ snap.events) :
    ev.isDeletion = false := by
  simp only [Snapshot.events, List.mem_append, List.mem_map] at member
  rcases member with ((((⟨_, _, rfl⟩ | ⟨_, _, rfl⟩) | ⟨_, _, rfl⟩) | ⟨_, _, rfl⟩) | ⟨_, _, rfl⟩) |
    ⟨_, _, rfl⟩ <;> rfl

/-- Without deletions a record that is there stays there. -/
theorem present_applyAll {st : Store} {k : RecordKey} (present : st.lookup k ≠ none)
    {evs : List Event} (keeps : ∀ ev ∈ evs, ev.isDeletion = false) :
    (st.applyAll evs).lookup k ≠ none := by
  induction evs generalizing st with
  | nil => exact present
  | cons ev evs ih =>
    obtain ⟨first, rest⟩ := List.forall_mem_cons.mp keeps
    exact ih (present_apply present first) rest

/-- A sequence without deletions leaves an absent record absent exactly if no event carries it. -/
theorem applyAll_absent_iff {st : Store} {k : RecordKey} (absent : st.lookup k = none)
    {evs : List Event} (keeps : ∀ ev ∈ evs, ev.isDeletion = false) :
    (st.applyAll evs).lookup k = none ↔ ∀ ev ∈ evs, ∀ r, ev.record ≠ some (k, r) := by
  refine ⟨fun final => ?_, absent_applyAll absent⟩
  induction evs generalizing st with
  | nil => exact fun ev member => absurd member List.not_mem_nil
  | cons ev evs ih =>
    obtain ⟨_, rest⟩ := List.forall_mem_cons.mp keeps
    have quiet : ∀ r, ev.record ≠ some (k, r) := by
      intro r record
      have revived : (st.apply ev).lookup k ≠ none := by
        rw [revived_apply absent record]
        exact Option.some_ne_none r
      exact present_applyAll revived rest final
    exact List.forall_mem_cons.mpr ⟨quiet, ih (absent_apply absent quiet) rest final⟩

/-- One step of a node on an absent record that the node does not store itself: it stays absent
exactly if no merged event carries it. -/
theorem nodeStep_absent_iff {st : Store} {k : RecordKey} (absent : st.lookup k = none)
    {step : NodeStep} (other : ¬step.stores st k) :
    (st.nodeStep step).1.lookup k = none ↔ ∀ ev ∈ step.remote, ∀ r, ev.record ≠ some (k, r) := by
  by_cases localStep : step.remote = []
  · simp only [absent_nodeStep absent other localStep, localStep, List.not_mem_nil, false_imp_iff,
      implies_true]
  · cases step with
    | applyRemote ev =>
      simp only [NodeStep.remote, List.mem_singleton, forall_eq]
      refine ⟨fun final r record => ?_, absent_apply absent⟩
      rw [nodeStep, applyStep] at final
      exact Option.some_ne_none r ((revived_apply absent record).symm.trans final)
    | pullSnapshot snap =>
      rw [nodeStep, pullSnapshot_store]
      exact applyAll_absent_iff absent fun ev member => Snapshot.isDeletion_eq_false member
    | _ => exact absurd rfl localStep

/-- Over a whole run: the record is absent in every state exactly if no merged event carries it. -/
theorem run_absent_iff {st : Store} {k : RecordKey} (absent : st.lookup k = none)
    {steps : List NodeStep} (others : Meets nodeStep (fun s step => ¬step.stores s k) st steps) :
    (∀ done, done <+: steps → (exec nodeStep st done).1.lookup k = none) ↔
      ∀ step ∈ steps, ∀ ev ∈ step.remote, ∀ r, ev.record ≠ some (k, r) := by
  induction steps generalizing st with
  | nil =>
    refine ⟨fun _ step member => absurd member List.not_mem_nil, fun _ done pre => ?_⟩
    rw [List.prefix_nil.mp pre]
    exact absent
  | cons step steps ih =>
    obtain ⟨now, later⟩ := others
    have first := nodeStep_absent_iff absent now
    rw [List.forall_mem_cons, ← first]
    constructor
    · intro all
      have next : (st.nodeStep step).1.lookup k = none :=
        all [step] (List.cons_prefix_cons.mpr ⟨rfl, List.nil_prefix⟩)
      refine ⟨next, (ih next later).mp fun done pre => ?_⟩
      exact all (step :: done) (List.cons_prefix_cons.mpr ⟨rfl, pre⟩)
    · intro ⟨next, rest⟩ done pre
      cases done with
      | nil => exact absent
      | cons head done =>
        obtain ⟨rfl, inside⟩ := List.cons_prefix_cons.mp pre
        exact (ih next later).mpr rest done inside

/-- What a step has deleted is gone after it, in each of the ways of deleting. -/
theorem absent_of_deletes {st : Store} {step : NodeStep} {k : RecordKey} (deletes : Deletes st step k) :
    (st.nodeStep step).1.lookup k = none := by
  cases deletes with
  | deleteService run =>
    obtain ⟨_, rfl⟩ := deleteService_eq_ok.mp run
    simp [nodeStep, catalogStep, run, settle, Bucket.get_delete]
  | cascade run under =>
    obtain ⟨_, rfl⟩ := deleteService_eq_ok.mp run
    simp [nodeStep, catalogStep, run, settle, Bucket.get_deletePrefix, under]
  | renameService run differs =>
    obtain ⟨_, _, ⟨same, _⟩ | ⟨_, moves⟩⟩ := renameService_eq_ok.mp run
    · exact absurd same differs
    · simp [nodeStep, catalogStep, run, settle, moves.get_services]
  | movedAway run differs under visited =>
    obtain ⟨_, _, ⟨same, _⟩ | ⟨_, moves⟩⟩ := renameService_eq_ok.mp run
    · exact absurd same differs
    · simp only [nodeStep, catalogStep, run, settle, lookup_inst, Option.map_eq_none_iff]
      -- a record that the move writes over an old key goes with the old keys
      rcases moves.get_instances _ with ⟨left, _⟩ | ⟨_, _, _, left⟩ <;>
        rw [left, if_pos ⟨under, visited⟩]
  | deleteInstance service id =>
    simp only [nodeStep, catalogStep, settle, deleteInstance]
    split
    next absent => simp [absent]
    next => simp [Bucket.get_delete]
  | serviceDeleted name => simp [nodeStep, applyStep, applyRemote, settle, Bucket.get_delete]
  | instanceDeleted service id => simp [nodeStep, applyStep, applyRemote, settle, Bucket.get_delete]

/-- The bindings, sessions, tokens and configuration of a node have no part in its catalog: a local step
on them leaves the services and instances alone. -/
theorem catalog_kept (st : Store) {step : NodeStep} (localStep : step.remote = [])
    (other : ∀ op, step ≠ .catalog op) :
    (st.nodeStep step).1.services = st.services ∧ (st.nodeStep step).1.instances = st.instances := by
  cases step with
  | catalog op => exact absurd rfl (other op)
  | applyRemote ev => exact absurd localStep (List.cons_ne_nil _ _)
  | pullSnapshot snap =>
    simp only [NodeStep.remote] at localStep
    simp only [nodeStep, pullSnapshot_store, localStep, applyAll_nil, and_self]
  | putAffinity now a emit =>
    refine settle_store (fun s => s.services = _ ∧ s.instances = _) ⟨rfl, rfl⟩ fun r run => ?_
    simp only [putAffinity, bind_eq_ok] at run
    obtain ⟨_, _, done⟩ := run
    obtain rfl := Except.ok.inj done
    exact ⟨rfl, rfl⟩
  | getAffinity now service token =>
    simp only [nodeStep, getAffinity]
    split
    · exact ⟨rfl, rfl⟩
    · split <;> exact ⟨rfl, rfl⟩
  | putSession now sess =>
    simp only [nodeStep]
    cases run : st.putSession now sess with
    | error e => exact ⟨rfl, rfl⟩
    | ok st' =>
      simp only [putSession, bind_eq_ok] at run
      obtain ⟨_, _, done⟩ := run
      obtain rfl := Except.ok.inj done
      exact ⟨rfl, rfl⟩
  | getSession now token =>
    simp only [nodeStep, getSession]
    split
    · exact ⟨rfl, rfl⟩
    · split <;> exact ⟨rfl, rfl⟩
  | putClientToken now t =>
    refine settle_store (fun s => s.services = _ ∧ s.instances = _) ⟨rfl, rfl⟩ fun r run => ?_
    simp only [putClientToken, bind_eq_ok] at run
    obtain ⟨st', raw, done⟩ := run
    obtain rfl := Except.ok.inj done
    have result := putClientTokenRaw_eq_ok.mp raw
    split at result
    · rw [result]
      exact ⟨rfl, rfl⟩
    · obtain ⟨_, rfl⟩ := result
      exact ⟨rfl, rfl⟩
  | deleteClientTokenByID id =>
    refine settle_store (fun s => s.services = _ ∧ s.instances = _) ⟨rfl, rfl⟩ fun r run => ?_
    obtain ⟨key, found, _, rfl⟩ := deleteClientTokenByID_eq_ok.mp run
    exact ⟨rfl, rfl⟩
  | config _ _ _ _ | deleteAffinity _ _ | sweepExpiredAffinity _ | deleteSession _
    | sweepExpiredSessions _ => exact ⟨rfl, rfl⟩

/-- The operations that only write records take none away. -/
theorem present_catalogStep {st : Store} {op : CatalogOp} {k : RecordKey}
    (kind : k.kind = .service ∨ k.kind = .inst) (present : st.lookup k ≠ none)
    (service : ∀ name, op ≠ .deleteService name) (inst : ∀ service id, op ≠ .deleteInstance service id)
    (rename : ∀ now oldName newName, op ≠ .renameService now oldName newName) :
    (st.catalogStep op).1.lookup k ≠ none := by
  have written {key : Key} (inst : Instance) (fits : KeyFits key) :
      (st.withInstance key inst fits).lookup k ≠ none := by
    rw [lookup_withInstance]
    split
    · exact Option.some_ne_none _
    · exact present
  have updated {β : Type} {service id : GoString} {f : Instance → Instance} {value : Instance → β}
      {events : Instance → List Event} :
      (st.settle (st.updateInstance service id f value events)).1.lookup k ≠ none := by
    refine settle_store (·.lookup k ≠ none) present fun r run => ?_
    obtain ⟨prev, stored, rfl⟩ := updateInstance_eq_ok.mp run
    exact written _ _
  cases op with
  | putService now svc =>
    refine settle_store (·.lookup k ≠ none) present fun r run => ?_
    by_cases here : k = ⟨.service, trimSpace svc.name⟩
    · subst here
      simp [get_putService run]
    · rwa [lookup_putService run here]
  | putInstance now inst =>
    refine settle_store (·.lookup k ≠ none) present fun r run => ?_
    obtain ⟨v, valid, services, stubbed, fits, _, store, _⟩ := putInstance_eq_ok.mp run
    rw [store, lookup_withInstance]
    split
    · exact Option.some_ne_none _
    · rcases ensureService_eq_ok.mp stubbed with ⟨_, rfl⟩ | ⟨free, fits, rfl⟩
      · exact present
      · obtain ⟨_, key⟩ := k
        rcases kind with rfl | rfl
        · simp only [lookup_service, Bucket.get_insert]
          split
          · simp
          · exact present
        · exact present
  | heartbeat now service id status => exact updated
  | setLastCheck service id check => exact updated
  | setBlocked now service id blocked => exact updated
  | setStatus now service id status =>
    refine settle_store (·.lookup k ≠ none) present fun r run => ?_
    obtain ⟨prev, stored, ⟨_, rfl⟩ | ⟨changed, rfl⟩⟩ := setStatus_eq_ok.mp run
    · exact present
    · exact written _ _
  | deleteInstance name id => exact absurd rfl (inst name id)
  | deleteService name => exact absurd rfl (service name)
  | renameService now oldName newName => exact absurd rfl (rename now oldName newName)

/-- Deleting one service record takes away no other record. -/
theorem eq_of_service_gone {st : Store} {k : RecordKey} {name : Key} (present : st.lookup k ≠ none)
    (gone : { st with services := st.services.delete name }.lookup k = none) : k = ⟨.service, name⟩ := by
  obtain ⟨kind, key⟩ := k
  cases kind with
  | service =>
    by_contra differs
    have other : key ≠ name := fun same => differs (congrArg (RecordKey.mk .service) same)
    refine absurd gone ?_
    simpa [Bucket.get_delete, other] using present
  | _ => exact absurd gone present

/-- Deleting one instance record takes away no other record. -/
theorem eq_of_instance_gone {st : Store} {k : RecordKey} {own : Key} (present : st.lookup k ≠ none)
    (gone : { st with instances := st.instances.delete own }.lookup k = none) : k = ⟨.inst, own⟩ := by
  obtain ⟨kind, key⟩ := k
  cases kind with
  | inst =>
    by_contra differs
    have other : key ≠ own := fun same => differs (congrArg (RecordKey.mk .inst) same)
    refine absurd gone ?_
    simpa [Bucket.get_delete, other] using present
  | _ => exact absurd gone present

/-- An operation that takes a service or instance record away is a deletion of it: the others write
records and remove none. -/
theorem deletes_of_catalog {st : Store} {op : CatalogOp} {k : RecordKey}
    (kind : k.kind = .service ∨ k.kind = .inst) (present : st.lookup k ≠ none)
    (gone : (st.catalogStep op).1.lookup k = none) : Deletes st (.catalog op) k := by
  cases op with
  | deleteInstance service id =>
    simp only [catalogStep, settle, deleteInstance] at gone
    split at gone
    · exact absurd gone present
    · obtain rfl := eq_of_instance_gone present gone
      exact .deleteInstance service id
  | deleteService name =>
    cases run : st.deleteService name with
    | error e =>
      simp only [catalogStep, run, settle] at gone
      exact absurd gone present
    | ok r =>
      obtain ⟨_, rfl⟩ := deleteService_eq_ok.mp run
      simp only [catalogStep, run, settle] at gone
      obtain ⟨_, key⟩ := k
      rcases kind with rfl | rfl
      · have same : (⟨.service, key⟩ : RecordKey) = ⟨.service, name⟩ := eq_of_service_gone present gone
        exact same ▸ .deleteService run
      · by_cases under : servicePrefix name <+: key
        · exact .cascade run under
        · refine absurd gone ?_
          simpa [Bucket.get_deletePrefix, under] using present
  | renameService now oldName newName =>
    cases run : st.renameService now oldName newName with
    | error e =>
      simp only [catalogStep, run, settle] at gone
      exact absurd gone present
    | ok r =>
      simp only [catalogStep, run, settle] at gone
      obtain ⟨_, _, ⟨_, _, _, rfl⟩ | ⟨differs, moves⟩⟩ := renameService_eq_ok.mp run
      · exact absurd gone present
      · obtain ⟨_, key⟩ := k
        rcases kind with rfl | rfl
        · by_cases here : key = trimSpace oldName
          · exact here ▸ .renameService run differs
          · refine absurd gone ?_
            simp only [lookup_service, moves.get_services, if_neg here, Option.map_eq_none_iff]
            split
            · exact Option.some_ne_none _
            · simpa using present
        · by_cases visited : servicePrefix (trimSpace oldName) <+: key ∧ (st.instances.get key).isSome
          · exact .movedAway run differs visited.1 visited.2
          · refine absurd gone ?_
            rcases moves.get_instances key with ⟨left, _⟩ | ⟨_, _, _, left⟩
            · simpa [left, visited] using present
            · simp [left, visited]
  | _ => exact absurd gone (present_catalogStep kind present (by simp) (by simp) (by simp))

/-- What vanishes from the catalog is deleted: every step of a node that takes a service or instance
record away is one of `Deletes`. -/
theorem deletes_of_vanishes {st : Store} {step : NodeStep} {k : RecordKey}
    (kind : k.kind = .service ∨ k.kind = .inst) (present : st.lookup k ≠ none)
    (gone : (st.nodeStep step).1.lookup k = none) : Deletes st step k := by
  have kept {st' : Store} (services : st'.services = st.services)
      (instances : st'.instances = st.instances) : st'.lookup k ≠ none := by
    obtain ⟨_, key⟩ := k
    rcases kind with rfl | rfl <;> simpa [services, instances] using present
  by_cases onCatalog : ∃ op, step = .catalog op
  · obtain ⟨op, rfl⟩ := onCatalog
    exact deletes_of_catalog kind present gone
  by_cases localStep : step.remote = []
  · obtain ⟨services, instances⟩ := catalog_kept st localStep (not_exists.mp onCatalog)
    exact absurd gone (kept services instances)
  cases step with
  | applyRemote ev =>
    cases deletion : ev.isDeletion with
    | false => exact absurd gone (present_apply present deletion)
    | true =>
      cases ev with
      | serviceDeleted name =>
        obtain rfl := eq_of_service_gone present gone
        exact .serviceDeleted name
      | instanceDeleted service id =>
        obtain rfl := eq_of_instance_gone present gone
        exact .instanceDeleted service id
      | affinityDeleted _ | tokenDeleted _ | configDraftDeleted _ | configDeleted _ =>
        exact absurd gone (kept rfl rfl)
      | _ => cases deletion
  | pullSnapshot snap =>
    rw [nodeStep, pullSnapshot_store] at gone
    exact absurd gone (present_applyAll present fun ev member => Snapshot.isDeletion_eq_false member)
  | _ => exact absurd rfl localStep

/-- A revoked token is gone from the store. -/
theorem absent_of_revokes {st : Store} {step : NodeStep} {token : GoString}
    (revokes : Revokes st step token) : (st.nodeStep step).1.lookup ⟨.token, token⟩ = none := by
  cases revokes with
  | @byID id token found success =>
    have run := deleteClientTokenByID_eq_ok.mpr ⟨token, found, success, rfl⟩
    simp [nodeStep, run, settle, Bucket.get_delete]
  | event t => simp [nodeStep, applyStep, applyRemote, settle, deleteClientTokenRaw, Bucket.get_delete]

/-- After a deletion a service or instance record that the node does not register again stays absent
exactly as long as no upsert or status event for it is applied. Times play no part in this. -/
theorem deletion_lasts_iff {st : Store} {step : NodeStep} {k : RecordKey} (deletes : Deletes st step k)
    {steps : List NodeStep}
    (others : Meets nodeStep (fun s later => ¬later.stores s k) (st.nodeStep step).1 steps) :
    (∀ done, done <+: steps → (exec nodeStep (st.nodeStep step).1 done).1.lookup k = none) ↔
      ∀ later ∈ steps, ∀ ev ∈ later.remote, ∀ r, ev.record ≠ some (k, r) :=
  run_absent_iff (absent_of_deletes deletes) others

/-- An instance that went with its service stays absent while the service is registered again with
another instance and a peer's service and instance arrive. -/
theorem deletion_lasts_other :
    ((empty.catalogStep (.putInstance 5 { id := "i", serviceName := "s", address := "h" })).1.lookup
        ⟨.inst, "s/i"⟩).isSome ∧
      (exec nodeStep
        ((empty.catalogStep (.putInstance 5 { id := "i", serviceName := "s", address := "h" })).1.nodeStep
          (.catalog (.deleteService "s"))).1
        [.catalog (.putInstance 7 { id := "j", serviceName := "s", address := "h" }),
          .pullSnapshot { services := [{ name := "s", updatedAt := 4 }] },
          .applyRemote (.instanceUpserted
            { id := "i", serviceName := "t", address := "h", updatedAt := 3 })]).1.lookup
        ⟨.inst, "s/i"⟩ = none := by
  refine ⟨by decide, (deletion_lasts_iff
    (.cascade (deleteService_eq_ok.mpr ⟨by decide, rfl⟩) (by decide)) ?_).mpr ?_ _ (List.prefix_refl _)⟩
  · refine ⟨?_, id, id, trivial⟩
    rintro (same | same) <;> exact absurd same (by decide)
  · intro later member ev applied r record
    have key : ev.carried.map Prod.fst = some ⟨.inst, "s/i"⟩ :=
      congrArg (Option.map Prod.fst) (carried_of_record record)
    simp only [List.mem_cons, List.not_mem_nil, or_false] at member
    rcases member with rfl | rfl | rfl
    · exact absurd applied List.not_mem_nil
    all_goals
      obtain rfl := List.mem_singleton.mp applied
      exact absurd key (by decide)

/-- An upsert that is older than the deletion undoes it. -/
theorem deletion_undone :
    ¬∀ (st : Store) (step : NodeStep) (k : RecordKey), Deletes st step k → ∀ (now : Time)
      (steps : List NodeStep), (∀ later ∈ steps, later.remote ≠ [] ∧ ∀ ev ∈ later.remote, ∀ r,
        ev.carried = some (k, r) → r.updatedAt < now) →
      (exec nodeStep (st.nodeStep step).1 steps).1.lookup k = none := by
  intro lasts
  have absent := lasts (empty.catalogStep (.putService 5 { name := "s" })).1
    (.catalog (.deleteService "s")) ⟨.service, "s"⟩ (.deleteService (deleteService_eq_ok.mpr ⟨by decide, rfl⟩))
    10 [.applyRemote (.serviceUpserted { name := "s", createdAt := 5, updatedAt := 5 })] (by
      intro later member
      obtain rfl := List.mem_singleton.mp member
      refine ⟨List.cons_ne_nil _ _, fun ev applied r carried => ?_⟩
      obtain rfl := List.mem_singleton.mp applied
      cases carried
      decide)
  exact absurd absent (by decide)

/-- The same for the secret of a revoked client token. -/
theorem revocation_lasts_iff {st : Store} {step : NodeStep} {token : GoString}
    (revokes : Revokes st step token) {steps : List NodeStep}
    (others : Meets nodeStep (fun s later => ¬later.stores s ⟨.token, token⟩)
      (st.nodeStep step).1 steps) :
    (∀ done, done <+: steps →
        (exec nodeStep (st.nodeStep step).1 done).1.getClientToken token = .error .notFound) ↔
      ∀ later ∈ steps, ∀ ev ∈ later.remote, ∀ r, ev.record ≠ some (⟨.token, token⟩, r) := by
  rw [← run_absent_iff (absent_of_revokes revokes) others]
  have missing (s : Store) :
      s.getClientToken token = .error .notFound ↔ s.lookup ⟨.token, token⟩ = none := by
    rw [getClientToken, read, lookup_token]
    cases s.clientTokens.get token <;> simp
  simp only [missing]

def sampleToken : ClientToken :=
  { id := "i", token := "dsc_k", name := "ci", role := "admin", createdAt := 5, updatedAt := 5 }

def otherToken : ClientToken :=
  { id := "j", token := "dsc_o", name := "cd", role := "read", createdAt := 3, updatedAt := 3 }

/-- A revoked secret stays unknown while a snapshot and an event of a peer bring another token. -/
theorem revocation_lasts_other :
    (exec nodeStep ((empty.apply (.tokenUpserted sampleToken)).nodeStep (.deleteClientTokenByID "i")).1
      [.pullSnapshot { clientTokens := [otherToken] },
        .applyRemote (.tokenUpserted { otherToken with role := "write", updatedAt := 9 })]).1.getClientToken
      "dsc_k" = .error .notFound := by
  have success : (empty.apply (.tokenUpserted sampleToken)).findTokenByID "i" =
      some (ofString "dsc_k", sampleToken) := by decide
  refine (revocation_lasts_iff (.byID success) (by exact ⟨id, id, trivial⟩)).mpr ?_ _ (List.prefix_refl _)
  intro later member ev applied r record
  have key : ev.carried.map Prod.fst = some ⟨.token, "dsc_k"⟩ :=
    congrArg (Option.map Prod.fst) (carried_of_record record)
  simp only [List.mem_cons, List.not_mem_nil, or_false] at member
  rcases member with rfl | rfl
  all_goals
    obtain rfl := List.mem_singleton.mp applied
    exact absurd key (by decide)

/-- A peer's snapshot that still holds the secret makes it valid again. -/
theorem revocation_undone :
    ¬∀ (st : Store) (step : NodeStep) (token : GoString), Revokes st step token → ∀ (now : Time)
      (steps : List NodeStep), (∀ later ∈ steps, later.remote ≠ [] ∧ ∀ ev ∈ later.remote, ∀ r,
        ev.carried = some (⟨.token, token⟩, r) → r.updatedAt < now) →
      (exec nodeStep (st.nodeStep step).1 steps).1.getClientToken token = .error .notFound := by
  intro lasts
  have success : (empty.apply (.tokenUpserted sampleToken)).findTokenByID "i" =
      some (ofString "dsc_k", sampleToken) := by decide
  have missing := lasts _ _ _ (.byID success) 10 [.pullSnapshot { clientTokens := [sampleToken] }] (by
    intro later member
    obtain rfl := List.mem_singleton.mp member
    refine ⟨List.cons_ne_nil _ _, fun ev applied r carried => ?_⟩
    obtain rfl := List.mem_singleton.mp applied
    cases carried
    decide)
  have present : ((exec nodeStep ((empty.apply (.tokenUpserted sampleToken)).nodeStep
      (.deleteClientTokenByID "i")).1 [.pullSnapshot { clientTokens := [sampleToken] }]).1.clientTokens.get
        "dsc_k").isSome := by decide
  obtain ⟨t, stored⟩ := Option.isSome_iff_exists.mp present
  rw [getClientToken, read, stored] at missing
  cases missing

end Store
end Discovery
