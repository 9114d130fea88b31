import Discovery.Store.BlockDelivery
import Discovery.Store.Revival

namespace Discovery
open Kv Machine

/-- The key a deletion event removes. -/
def Event.removes : Event → Option RecordKey
  | .serviceDeleted name => some ⟨.service, name⟩
  | .instanceDeleted service id => some ⟨.inst, instanceKey service id⟩
  | .affinityDeleted a => some ⟨.affinity, affinityKey a.json.serviceName a.json.token⟩
  | .tokenDeleted t => some ⟨.token, t.json.token⟩
  | _ => none

/-- The record a local write stamps. -/
def CatalogOp.target : CatalogOp → Option RecordKey
  | .putService _ svc => some ⟨.service, trimSpace svc.name⟩
  | .putInstance _ inst => some ⟨.inst, instanceKey inst.serviceName inst.id⟩
  | .heartbeat _ service id _ | .setStatus _ service id _ | .setBlocked _ service id _ =>
    some ⟨.inst, instanceKey service id⟩
  | _ => none

/-- The stub of a service that a registration is the first to name. -/
def CatalogOp.stubs (st : Store) (k : RecordKey) : CatalogOp → Prop
  | .putInstance _ inst =>
    k = ⟨.service, inst.serviceName⟩ ∧ st.services.get inst.serviceName = none
  | _ => False

def CatalogOp.writes (st : Store) (k : RecordKey) (op : CatalogOp) : Prop :=
  op.target = some k ∨ op.stubs st k

/-- The clock a local operation on the catalog reads. -/
def NodeStep.clock : NodeStep → Option Time
  | .catalog op => some op.clock
  | _ => none

/-- The events of other nodes that a run merges. -/
def merged (steps : List NodeStep) : List Event := steps.flatMap NodeStep.remote

namespace Store

/-- A local write that emits leaves a record of the present time. -/
theorem stamped_of_target {st : Store} {op : CatalogOp} {k : RecordKey} (target : op.target = some k)
    (success : (st.catalogStep op).2 ≠ []) :
    ∃ r, (st.catalogStep op).1.lookup k = some r ∧ r.updatedAt = op.clock := by
  cases op with
  | putService now svc =>
    obtain rfl := Option.some.inj target
    obtain ⟨r, run, done⟩ := settle_of_events success
    rw [catalogStep, done, lookup_service, get_putService run, if_pos rfl]
    exact ⟨_, rfl, rfl⟩
  | putInstance now inst =>
    obtain rfl := Option.some.inj target
    obtain ⟨r, run, done⟩ := settle_of_events success
    obtain ⟨stamp, stored⟩ := get_putInstance run
    rw [catalogStep, done, lookup_inst, stored, if_pos rfl]
    exact ⟨_, rfl, stamp⟩
  | heartbeat now service id status =>
    obtain rfl := Option.some.inj target
    obtain ⟨r, run, done⟩ := settle_of_events success
    obtain ⟨prev, present, rfl⟩ := heartbeat_eq_ok.mp run
    rw [catalogStep, done, lookup_withInstance, if_pos rfl]
    exact ⟨_, rfl, rfl⟩
  | setStatus now service id status =>
    obtain rfl := Option.some.inj target
    obtain ⟨r, run, done⟩ := settle_of_events success
    obtain ⟨prev, present, ⟨_, rfl⟩ | ⟨_, rfl⟩⟩ := setStatus_eq_ok.mp run
    · rw [catalogStep, done] at success
      exact absurd rfl success
    · rw [catalogStep, done, lookup_withInstance, if_pos rfl]
      exact ⟨_, rfl, rfl⟩
  | setBlocked now service id blocked =>
    obtain rfl := Option.some.inj target
    obtain ⟨r, run, done⟩ := settle_of_events success
    obtain ⟨prev, present, rfl⟩ := setBlocked_eq_ok.mp run
    rw [catalogStep, done, lookup_withInstance, if_pos rfl]
    exact ⟨_, rfl, rfl⟩
  | _ => cases target

theorem stamped_of_writes {st : Store} {op : CatalogOp} {k : RecordKey} (writes : op.writes st k)
    (success : (st.catalogStep op).2 ≠ []) :
    ∃ r, (st.catalogStep op).1.lookup k = some r ∧ r.updatedAt = op.clock := by
  rcases writes with target | stubs
  · exact stamped_of_target target success
  · cases op with
    | putInstance now inst =>
      obtain ⟨rfl, missing⟩ := stubs
      obtain ⟨r, run, done⟩ := settle_of_events success
      obtain ⟨_, _, services, stubbed, _, _, store, _⟩ := putInstance_eq_ok.mp run
      rcases ensureService_eq_ok.mp stubbed with ⟨present, _⟩ | ⟨_, fits, rfl⟩
      · rw [missing] at present
        cases present
      · rw [catalogStep, done, store, lookup_withInstance, if_neg (by simp), lookup_service,
          Bucket.get_insert, if_pos rfl]
        exact ⟨_, rfl, rfl⟩
    | _ => exact stubs.elim

theorem target_kind {op : CatalogOp} {k : RecordKey} (target : op.target = some k) :
    k.kind = .service ∨ k.kind = .inst := by
  cases op with
  | putService =>
    cases target
    exact Or.inl rfl
  | putInstance | heartbeat | setStatus | setBlocked =>
    cases target
    exact Or.inr rfl
  | _ => cases target

theorem writes_kind {st : Store} {op : CatalogOp} {k : RecordKey} (writes : op.writes st k) :
    k.kind ≠ .token := by
  rcases writes with target | stubs
  · rcases target_kind target with service | inst
    · simp [service]
    · simp [inst]
  · cases op with
    | putInstance =>
      obtain ⟨rfl, _⟩ := stubs
      simp
    | _ => exact stubs.elim

theorem replaces_of_kind {kind : Kind} (other : kind ≠ .token) (stored incoming : Time) :
    kind.replaces stored incoming = decide (stored < incoming) := by
  cases kind with
  | token => exact absurd rfl other
  | _ => rfl

theorem map_get_delete {α : Type} [JsonCodec α] (b : Bucket α) (f : α → Record) (d k : Key) :
    ((b.delete d).get k).map f = if k = d then none else (b.get k).map f := by
  rw [Bucket.get_delete]
  split <;> rfl

theorem lookup_removes {ev : Event} {k₀ : RecordKey} (removes : ev.removes = some k₀) (st : Store)
    (k : RecordKey) : (st.apply ev).lookup k = if k = k₀ then none else st.lookup k := by
  obtain ⟨kind, key⟩ := k
  cases ev with
  | serviceDeleted | instanceDeleted | affinityDeleted | tokenDeleted =>
    cases removes
    cases kind <;> simp [apply, applyStep, applyRemote, settle, deleteAffinity, deleteClientTokenRaw,
      map_get_delete]
  | _ => cases removes

/-- Events that carry no record and remove none are about the config. -/
theorem lookup_neither {ev : Event} (carried : ev.carried = none) (removes : ev.removes = none)
    (st : Store) (k : RecordKey) : (st.apply ev).lookup k = st.lookup k := by
  cases ev with
  | configApplied p => exact st.lookup_configApplied p k
  | configDraftSaved p => exact st.lookup_configDraftSaved p k
  | configDraftDeleted scope => rfl
  | configDeleted scope => rfl
  | serviceDeleted | instanceDeleted | affinityDeleted | tokenDeleted => cases removes
  | _ => cases carried

/-- The event leaves a record of time `t` under the key as it is. -/
def Spares (k : RecordKey) (t : Time) (ev : Event) : Prop :=
  ev.removes ≠ some k ∧ ∀ r, ev.record = some (k, r) → r.updatedAt ≤ t

theorem apply_stays_iff {st : Store} {k : RecordKey} {r : Record} (stored : st.lookup k = some r)
    (other : k.kind ≠ .token) (ev : Event) :
    (st.apply ev).lookup k = some r ↔ Spares k r.updatedAt ev := by
  unfold Spares
  cases removes : ev.removes with
  | some k₀ =>
    have silent : ev.record = none := by
      cases ev <;> first | rfl | cases removes
    rw [lookup_removes removes, silent]
    by_cases here : k = k₀
    · simp [here]
    · simp [here, Ne.symm here, stored]
  | none =>
    cases carried : ev.carried with
    | none =>
      have silent : ev.record = none := by rw [Event.record, carried]; rfl
      simp [lookup_neither carried removes, stored, silent]
    | some entry =>
      obtain ⟨k₀, v⟩ := entry
      rw [lookup_apply carried, Event.record, carried, stored]
      by_cases here : k = k₀ ∧ KeyFits k₀.key
      · obtain ⟨rfl, fits⟩ := here
        by_cases later : r.updatedAt < v.updatedAt
        · have differs : v ≠ r := by
            rintro rfl
            exact Int.lt_irrefl _ later
          simp [fits, Lww.merge, replaces_of_kind other, later, differs]
        · have within : v.updatedAt ≤ r.updatedAt := Int.not_lt.mp later
          simp [fits, Lww.merge, replaces_of_kind other, later, within]
      · rw [if_neg here]
        refine iff_of_true rfl ⟨(Option.some_ne_none k).symm, fun w same => ?_⟩
        obtain ⟨whole, fits⟩ := Option.filter_eq_some_iff.mp same
        obtain ⟨rfl, rfl⟩ := Prod.mk.inj (Option.some.inj whole)
        exact absurd ⟨rfl, of_decide_eq_true fits⟩ here

theorem applyAll_stays {st : Store} {k : RecordKey} {r : Record} (stored : st.lookup k = some r)
    (other : k.kind ≠ .token) {es : List Event}
    (spare : ∀ ev ∈ es, Spares k r.updatedAt ev) : (st.applyAll es).lookup k = some r := by
  induction es generalizing st with
  | nil => exact stored
  | cons ev es ih =>
    obtain ⟨first, rest⟩ := List.forall_mem_cons.mp spare
    exact ih ((apply_stays_iff stored other ev).mpr first) rest

/-- What a node writes itself withstands every repetition of the events it merged before exactly if
none of these removes the record or carries a version of it that is stamped later than the write. -/
theorem write_lasts_iff {st : Store} {steps : List NodeStep} {op : CatalogOp} {k : RecordKey}
    (writes : op.writes (exec nodeStep st steps).1 k)
    (success : ((exec nodeStep st steps).1.catalogStep op).2 ≠ []) :
    (∀ es, (∀ ev ∈ es, ev ∈ merged steps) →
        (((exec nodeStep st steps).1.catalogStep op).1.applyAll es).lookup k =
          ((exec nodeStep st steps).1.catalogStep op).1.lookup k) ↔
      ∀ ev ∈ merged steps, Spares k op.clock ev := by
  obtain ⟨r, stored, stamp⟩ := stamped_of_writes writes success
  have other := writes_kind writes
  rw [stored, ← stamp]
  constructor
  · intro lasts ev earlier
    refine (apply_stays_iff stored other ev).mp (lasts [ev] fun e member => ?_)
    exact List.mem_singleton.mp member ▸ earlier
  · intro spare es drawn
    exact applyAll_stays stored other fun ev member => spare ev (drawn ev member)

/-- The record of `servingStore` as a peer sends it. -/
def servingAt (t : Time) : Instance :=
  { id := "i", serviceName := "s", address := "10.0.0.1", status := statusUp, updatedAt := t }

theorem writes_setBlocked (st : Store) (now : Time) :
    (CatalogOp.setBlocked now "s" "i" true).writes st ⟨.inst, "s/i"⟩ :=
  Or.inl (show some (⟨.inst, instanceKey "s" "i"⟩ : RecordKey) = some ⟨.inst, "s/i"⟩ by decide)

/-- A block stays when the peer's clock is behind. -/
theorem write_lasts_behind :
    (((exec nodeStep servingStore [.applyRemote (.instanceStatus (servingAt 20))]).1.catalogStep
        (.setBlocked 50 "s" "i" true)).1.applyAll [.instanceStatus (servingAt 20)]).lookup ⟨.inst, "s/i"⟩ =
      ((exec nodeStep servingStore [.applyRemote (.instanceStatus (servingAt 20))]).1.catalogStep
        (.setBlocked 50 "s" "i" true)).1.lookup ⟨.inst, "s/i"⟩ := by
  refine (write_lasts_iff (writes_setBlocked _ 50) (by decide)).mpr ?_ _ (by simp [merged, NodeStep.remote])
  intro ev earlier
  obtain rfl := List.mem_singleton.mp earlier
  refine ⟨fun removed => ?_, fun r record => ?_⟩
  · cases removed
  · cases carried_of_record record
    decide

/-- A peer whose clock is ahead undoes a block with an event that came before it. -/
theorem block_undone :
    ¬∀ (st : Store) (steps : List NodeStep) (op : CatalogOp) (k : RecordKey),
      op.writes (exec nodeStep st steps).1 k →
      ((exec nodeStep st steps).1.catalogStep op).2 ≠ [] →
      (steps.filterMap NodeStep.clock ++ [op.clock]).Pairwise (· ≤ ·) →
      ∀ ev ∈ merged steps, (((exec nodeStep st steps).1.catalogStep op).1.apply ev).lookup k =
        ((exec nodeStep st steps).1.catalogStep op).1.lookup k := by
  intro lasts
  have same := lasts servingStore [.applyRemote (.instanceStatus (servingAt 100))]
    (.setBlocked 50 "s" "i" true) ⟨.inst, "s/i"⟩ (writes_setBlocked _ 50) (by decide)
    (List.pairwise_singleton _ _)
    (.instanceStatus (servingAt 100)) (by simp [merged, NodeStep.remote])
  exact absurd same (by decide)

end Store
end Discovery
