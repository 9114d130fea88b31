import Discovery.Store.Node

namespace Discovery
open Kv

/-- A local operation that may store a record under the key. -/
def CatalogOp.stores (st : Store) (k : RecordKey) : CatalogOp → Prop
  | .putService _ svc => k = ⟨.service, trimSpace svc.name⟩
  | .putInstance _ inst =>
    k = ⟨.service, inst.serviceName⟩ ∨ k = ⟨.inst, instanceKey inst.serviceName inst.id⟩
  | .renameService _ oldName newName =>
    k = ⟨.service, trimSpace newName⟩ ∨
      ∃ i ∈ st.listInstances (trimSpace oldName), k = ⟨.inst, instanceKey (trimSpace newName) i.id⟩
  | _ => False

def NodeStep.stores (st : Store) (k : RecordKey) : NodeStep → Prop
  | .catalog op => op.stores st k
  | .putAffinity _ a _ => k = ⟨.affinity, affinityKey a.serviceName a.token⟩
  | .putClientToken _ t => k = ⟨.token, t.token⟩
  | _ => False

namespace Store

@[simp] theorem lookup_service (st : Store) (key : Key) :
    st.lookup ⟨.service, key⟩ = (st.services.get key).map .service := rfl

@[simp] theorem lookup_inst (st : Store) (key : Key) :
    st.lookup ⟨.inst, key⟩ = (st.instances.get key).map .inst := rfl

@[simp] theorem lookup_affinity (st : Store) (key : Key) :
    st.lookup ⟨.affinity, key⟩ = (st.affinity.get key).map .affinity := rfl

@[simp] theorem lookup_token (st : Store) (key : Key) :
    st.lookup ⟨.token, key⟩ = (st.clientTokens.get key).map .token := rfl

/-- Writing an instance changes one record. -/
theorem lookup_withInstance (st : Store) {key : Key} (inst : Instance) (fits : KeyFits key)
    (k : RecordKey) :
    (st.withInstance key inst fits).lookup k =
      if k = ⟨.inst, key⟩ then some (.inst inst.json) else st.lookup k := by
  obtain ⟨kind, j⟩ := k
  cases kind with
  | inst =>
    simp only [lookup_inst, withInstance, Bucket.get_insert, RecordKey.mk.injEq, true_and]
    split <;> rfl
  | _ => simp [withInstance]

theorem lookup_putService {st : Store} {now : Time} {svc : Service} {r : Outcome Service}
    (run : st.putService now svc = .ok r) {k : RecordKey}
    (other : k ≠ ⟨.service, trimSpace svc.name⟩) : r.store.lookup k = st.lookup k := by
  obtain ⟨v, valid, fits, rfl⟩ := putService_eq_ok.mp run
  obtain ⟨_, _, rfl⟩ := Service.validate_eq_ok.mp valid
  obtain ⟨kind, key⟩ := k
  cases kind with
  | service =>
    have differs : key ≠ trimSpace svc.name := by simpa using other
    simp only [lookup_service, Bucket.get_insert, if_neg differs]
  | _ => rfl

theorem lookup_ensureService {st : Store} {now : Time} {name : GoString} {b : Bucket Service}
    (run : st.ensureService now name = .ok b) {k : RecordKey} (other : k ≠ ⟨.service, name⟩) :
    ({ st with services := b }).lookup k = st.lookup k := by
  rcases ensureService_eq_ok.mp run with ⟨_, rfl⟩ | ⟨_, fits, rfl⟩
  · rfl
  · obtain ⟨kind, key⟩ := k
    cases kind with
    | service =>
      have differs : key ≠ name := by simpa using other
      simp only [lookup_service, Bucket.get_insert, if_neg differs]
    | _ => rfl

theorem lookup_putInstance {st : Store} {now : Time} {inst : Instance} {r : Outcome Instance}
    (run : st.putInstance now inst = .ok r) {k : RecordKey}
    (service : k ≠ ⟨.service, inst.serviceName⟩)
    (other : k ≠ ⟨.inst, instanceKey inst.serviceName inst.id⟩) :
    r.store.lookup k = st.lookup k := by
  obtain ⟨v, valid, services, stubbed, fits, _, store, _⟩ := putInstance_eq_ok.mp run
  rw [store, lookup_withInstance, if_neg other]
  exact lookup_ensureService stubbed service

/-- Writing back a record that exists brings no other record into being. -/
theorem absent_withInstance {st : Store} {key : Key} {prev : Instance}
    (present : st.instances.get key = some prev) (inst : Instance) (fits : KeyFits key)
    {k : RecordKey} (absent : st.lookup k = none) :
    (st.withInstance key inst fits).lookup k = none := by
  have other : k ≠ ⟨.inst, key⟩ := by
    intro same
    rw [same, lookup_inst, present] at absent
    exact absurd absent (by simp)
  rw [lookup_withInstance, if_neg other, absent]

theorem absent_updateInstance {β : Type} {st : Store} {service id : GoString}
    {f : Instance → Instance} {value : Instance → β} {events : Instance → List Event}
    {r : Outcome β} (run : st.updateInstance service id f value events = .ok r) {k : RecordKey}
    (absent : st.lookup k = none) : r.store.lookup k = none := by
  obtain ⟨prev, present, rfl⟩ := updateInstance_eq_ok.mp run
  exact absent_withInstance present _ _ absent

theorem absent_moves {st : Store} {now : Time} {src dst : GoString} {r : Outcome Service}
    (moves : st.Moves now src dst r) {k : RecordKey} (service : k ≠ ⟨.service, dst⟩)
    (moved : ¬∃ i ∈ st.listInstances src, k = ⟨.inst, instanceKey dst i.id⟩)
    (absent : st.lookup k = none) : r.store.lookup k = none := by
  obtain ⟨kind, key⟩ := k
  cases kind with
  | service =>
    have differs : key ≠ dst := by simpa using service
    rw [lookup_service, Option.map_eq_none_iff] at absent ⊢
    rw [moves.get_services, if_neg differs, absent, ite_self]
  | inst =>
    rw [lookup_inst, Option.map_eq_none_iff] at absent ⊢
    rcases moves.get_instances key with ⟨same, _⟩ | ⟨i, listed, here, _⟩
    · rw [same, absent, ite_self]
    · exact absurd ⟨i, listed, by rw [here]⟩ moved
  | affinity =>
    obtain ⟨_, _, _, _, _, _, rfl⟩ := moves
    exact absent
  | token =>
    obtain ⟨_, _, _, _, _, _, rfl⟩ := moves
    exact absent

theorem lookup_delete_none {st : Store} {k : RecordKey} (absent : st.lookup k = none) (j : Key) :
    ({ st with services := st.services.delete j }).lookup k = none ∧
      ({ st with instances := st.instances.delete j }).lookup k = none ∧
      ({ st with affinity := st.affinity.delete j }).lookup k = none ∧
      ({ st with clientTokens := st.clientTokens.delete j }).lookup k = none := by
  obtain ⟨kind, key⟩ := k
  cases kind <;> simp_all [Bucket.get_delete]

/-- No catalog operation brings a record into being but the ones that store its key. -/
theorem absent_catalogStep {st : Store} {k : RecordKey} (absent : st.lookup k = none)
    {op : CatalogOp} (other : ¬op.stores st k) : (st.catalogStep op).1.lookup k = none := by
  cases op with
  | putService now svc =>
    refine settle_store (·.lookup k = none) absent fun r run => ?_
    rw [lookup_putService run other, absent]
  | deleteService name =>
    refine settle_store (·.lookup k = none) absent fun r run => ?_
    obtain ⟨_, rfl⟩ := deleteService_eq_ok.mp run
    obtain ⟨kind, key⟩ := k
    cases kind <;> simp_all [Bucket.get_delete, Bucket.get_deletePrefix]
  | renameService now oldName newName =>
    refine settle_store (·.lookup k = none) absent fun r run => ?_
    obtain ⟨_, _, ⟨_, svc, _, rfl⟩ | ⟨_, moves⟩⟩ := renameService_eq_ok.mp run
    · exact absent
    · obtain ⟨service, moved⟩ := not_or.mp other
      exact absent_moves moves service moved absent
  | putInstance now inst =>
    refine settle_store (·.lookup k = none) absent fun r run => ?_
    obtain ⟨service, key⟩ := not_or.mp other
    rw [lookup_putInstance run service key, absent]
  | heartbeat now service id status =>
    exact settle_store (·.lookup k = none) absent fun r run => absent_updateInstance run absent
  | setLastCheck service id check =>
    exact settle_store (·.lookup k = none) absent fun r run => absent_updateInstance run absent
  | setBlocked now service id blocked =>
    exact settle_store (·.lookup k = none) absent fun r run => absent_updateInstance run absent
  | setStatus now service id status =>
    refine settle_store (·.lookup k = none) absent fun r run => ?_
    obtain ⟨prev, present, ⟨_, rfl⟩ | ⟨changed, rfl⟩⟩ := setStatus_eq_ok.mp run
    · exact absent
    · exact absent_withInstance present _ _ absent
  | deleteInstance service id =>
    simp only [catalogStep, settle, deleteInstance]
    split
    · exact absent
    · exact (lookup_delete_none absent _).2.1

theorem lookup_deleteAll_affinity {st : Store} {k : RecordKey} (absent : st.lookup k = none)
    (js : List Key) : ({ st with affinity := st.affinity.deleteAll js }).lookup k = none := by
  obtain ⟨kind, key⟩ := k
  cases kind <;> simp_all [Bucket.get_deleteAll]

/-- The same for every step that merges nothing of other nodes. -/
theorem absent_nodeStep {st : Store} {k : RecordKey} (absent : st.lookup k = none)
    {step : NodeStep} (other : ¬step.stores st k) (localStep : step.remote = []) :
    (st.nodeStep step).1.lookup k = none := by
  cases step with
  | catalog op => exact absent_catalogStep absent other
  | config active revs drafts evs => exact absent
  | putAffinity now a emit =>
    refine settle_store (·.lookup k = none) absent fun r run => ?_
    simp only [putAffinity, bind_eq_ok, write_eq_ok] at run
    obtain ⟨_, ⟨fits, rfl⟩, done⟩ := run
    obtain rfl := Except.ok.inj done
    obtain ⟨kind, key⟩ := k
    cases kind with
    | affinity =>
      have differs : key ≠ affinityKey a.serviceName a.token := by simpa [NodeStep.stores] using other
      simpa [Bucket.get_insert, differs] using absent
    | _ => exact absent
  | getAffinity now service token =>
    simp only [nodeStep, getAffinity]
    split
    · exact absent
    · split
      · exact (lookup_delete_none absent _).2.2.1
      · exact absent
  | deleteAffinity service token => exact (lookup_delete_none absent _).2.2.1
  | sweepExpiredAffinity now => exact lookup_deleteAll_affinity absent _
  | putSession now sess =>
    simp only [nodeStep]
    cases run : st.putSession now sess with
    | error e => exact absent
    | ok st' =>
      simp only [putSession, bind_eq_ok, write_eq_ok] at run
      obtain ⟨_, _, done⟩ := run
      obtain rfl := Except.ok.inj done
      exact absent
  | getSession now token =>
    simp only [nodeStep, getSession]
    split
    · exact absent
    · split <;> exact absent
  | deleteSession token => exact absent
  | sweepExpiredSessions now => exact absent
  | putClientToken now t =>
    refine settle_store (·.lookup k = none) absent fun r run => ?_
    simp only [putClientToken, bind_eq_ok] at run
    obtain ⟨st', raw, done⟩ := run
    obtain rfl := Except.ok.inj done
    have result := putClientTokenRaw_eq_ok.mp raw
    split at result
    · rw [result, absent]
    · obtain ⟨fits, rfl⟩ := result
      obtain ⟨kind, key⟩ := k
      cases kind with
      | token =>
        have differs : key ≠ t.token := by simpa [NodeStep.stores] using other
        simpa [Bucket.get_insert, differs] using absent
      | _ => exact absent
  | deleteClientTokenByID id =>
    refine settle_store (·.lookup k = none) absent fun r run => ?_
    obtain ⟨key, found, _, rfl⟩ := deleteClientTokenByID_eq_ok.mp run
    exact (lookup_delete_none absent key).2.2.2
  | applyRemote ev => exact absurd localStep (List.cons_ne_nil _ _)
  | pullSnapshot snap =>
    simp only [NodeStep.remote] at localStep
    simp only [nodeStep, pullSnapshot_store, localStep, applyAll_nil, absent]

end Store
end Discovery
