import Discovery.Store.Instances

namespace Discovery
open Kv

def Service.renamed (s : Service) (now : Time) (newName : GoString) : Service :=
  { s with name := newName, updatedAt := now }

def Instance.moved (i : Instance) (now : Time) (newName : GoString) : Instance :=
  { i with serviceName := newName, updatedAt := now }

namespace Store

/-- The instances under `oldName/`, as the move writes them. -/
def movedInstances (st : Store) (now : Time) (oldName newName : GoString) : List Instance :=
  (st.listInstances oldName).map (·.moved now newName)

/-- The update transaction of a rename. The scan's cursor is taken to visit the keys present when it
starts. Where `newName` begins with `oldName/` the new keys lie under the scanned prefix, and the cursor of the
source, which writes while it scans, can come upon them and collect them too: of a hundred instances of `a` that
are renamed to `a/z` it deletes every one. Here such a move leaves them listed under both names. -/
def moveService (st : Store) (now : Time) (oldName newName : GoString) :
    Except Err (Outcome Service) := do
  let old ← read st.services oldName
  if (st.services.get newName).isSome then throw .conflict
  let svc := old.renamed now newName
  let services ← write st.services newName svc
  let moved := st.movedInstances now oldName newName
  let instances ← (st.instances.putAll
    (moved.map (fun i => (instanceKey newName i.id, i)))).mapError .put
  let oldKeys := (st.instances.scan (servicePrefix oldName)).map Prod.fst
  .ok ⟨svc, { st with
      services := services.delete oldName
      instances := instances.deleteAll oldKeys },
    .serviceDeleted oldName :: .serviceUpserted svc :: moved.map .instanceUpserted⟩

/-- Moves a service and its instances to a new name. -/
def renameService (st : Store) (now : Time) (oldName newName : GoString) :
    Except Err (Outcome Service) :=
  let oldName := trimSpace oldName
  let newName := trimSpace newName
  if oldName = [] ∨ newName = [] then .error (.text "names required")
  else if oldName = newName then do
    let svc ← st.getService oldName
    .ok ⟨svc, st, []⟩
  else st.moveService now oldName newName

/-- The store after `src` was moved to `dst`, with `b` the instance bucket before the old keys are
deleted. -/
def afterRename (st : Store) (src dst : GoString) (svc : Service) (fits : KeyFits dst)
    (b : Bucket Instance) : Store :=
  { st with
    services := (st.services.insert dst svc fits).delete src
    instances := b.deleteAll ((st.instances.scan (servicePrefix src)).map Prod.fst) }

/-- A move that commits. -/
def Moves (st : Store) (now : Time) (src dst : GoString) (r : Outcome Service) : Prop :=
  st.services.get dst = none ∧ ∃ old, st.services.get src = some old ∧
    ∃ fits : KeyFits dst, ∃ b,
      st.instances.putAll ((st.movedInstances now src dst).map
        (fun i => (instanceKey dst i.id, i))) = .ok b ∧
      r = ⟨old.renamed now dst, st.afterRename src dst (old.renamed now dst) fits b,
        .serviceDeleted src :: .serviceUpserted (old.renamed now dst) ::
          (st.movedInstances now src dst).map .instanceUpserted⟩

theorem moveService_eq_ok {st : Store} {now : Time} {src dst : GoString} {r : Outcome Service} :
    st.moveService now src dst = .ok r ↔ st.Moves now src dst r := by
  unfold moveService Moves
  cases taken : st.services.get dst with
  | some other => simp [bind_eq_ok, throw, throwThe, MonadExceptOf.throw]
  | none =>
    simp only [Option.isSome_none, Bool.false_eq_true, if_false, bind_eq_ok, read_eq_ok, write_eq_ok,
      mapError_eq_ok]
    constructor
    · rintro ⟨old, present, _, ⟨fits, services⟩, b, moved, done⟩
      subst services
      exact ⟨trivial, old, present, fits, b, moved, (Except.ok.inj done).symm⟩
    · rintro ⟨_, old, present, fits, b, moved, done⟩
      exact ⟨old, present, _, ⟨fits, rfl⟩, b, moved, congrArg Except.ok done.symm⟩

theorem renameService_eq_ok {st : Store} {now : Time} {oldName newName : GoString}
    {r : Outcome Service} :
    st.renameService now oldName newName = .ok r ↔
      trimSpace oldName ≠ [] ∧ trimSpace newName ≠ [] ∧
        (trimSpace oldName = trimSpace newName ∧
            (∃ svc, st.services.get (trimSpace oldName) = some svc ∧ r = ⟨svc, st, []⟩) ∨
          trimSpace oldName ≠ trimSpace newName ∧
            st.Moves now (trimSpace oldName) (trimSpace newName) r) := by
  rw [← moveService_eq_ok]
  unfold renameService
  generalize trimSpace oldName = src
  generalize trimSpace newName = dst
  by_cases unnamed : src = [] ∨ dst = []
  · simp only [unnamed, if_true, reduceCtorEq, false_iff]
    exact fun ⟨hsrc, hdst, _⟩ => unnamed.elim hsrc hdst
  · obtain ⟨hsrc, hdst⟩ := not_or.mp unnamed
    by_cases same : src = dst
    · simp only [same, hdst, or_self, if_false, if_true, bind_eq_ok, getService_eq_ok, Except.ok.injEq,
        ne_eq, not_true_eq_false, not_false_eq_true, true_and, false_and, or_false, eq_comm (b := r)]
    · simp only [hsrc, hdst, same, or_self, if_false, ne_eq, not_false_eq_true, true_and, false_and,
        false_or]

/-- The source exists, the target is free and the buckets take the new keys. -/
def CanMove (st : Store) (src dst : GoString) : Prop :=
  st.services.get dst = none ∧ (st.services.get src).isSome ∧ KeyFits dst ∧
    ∀ i ∈ st.listInstances src, KeyFits (instanceKey dst i.id)

theorem moves_iff {st : Store} {now : Time} {src dst : GoString} :
    (∃ r, st.Moves now src dst r) ↔ st.CanMove src dst := by
  have keys : (∃ b, st.instances.putAll ((st.movedInstances now src dst).map
      (fun i => (instanceKey dst i.id, i))) = .ok b) ↔
      ∀ i ∈ st.listInstances src, KeyFits (instanceKey dst i.id) := by
    rw [Bucket.putAll_ok_iff]
    simp only [movedInstances, List.forall_mem_map]
    rfl
  rw [CanMove, ← keys, Option.isSome_iff_exists]
  constructor
  · intro ⟨r, free, old, present, fits, b, moved, _⟩
    exact ⟨free, ⟨old, present⟩, fits, b, moved⟩
  · intro ⟨free, ⟨old, present⟩, fits, b, moved⟩
    exact ⟨_, free, old, present, fits, b, moved, rfl⟩

theorem Moves.ne {st : Store} {now : Time} {src dst : GoString} {r : Outcome Service}
    (moves : st.Moves now src dst r) : dst ≠ src := by
  obtain ⟨free, old, present, _⟩ := moves
  intro same
  rw [same, present] at free
  cases free

/-- The service records after a move: `src` is gone, `dst` holds the renamed record. -/
theorem Moves.get_services {st : Store} {now : Time} {src dst : GoString} {r : Outcome Service}
    (moves : st.Moves now src dst r) (name : GoString) :
    r.store.services.get name =
      if name = src then none
      else if name = dst then some r.value.json
      else st.services.get name := by
  obtain ⟨_, old, _, fits, b, _, rfl⟩ := moves
  simp only [afterRename, Bucket.get_delete, Bucket.get_insert, Service.roundTrip_eq]

/-- The instance records after a move: keys under `src/` are gone, the moved records are stored
under `dst`, and no other key changes. -/
theorem Moves.get_instances {st : Store} {now : Time} {src dst : GoString} {r : Outcome Service}
    (moves : st.Moves now src dst r) (key : Key) :
    r.store.instances.get key =
        (if servicePrefix src <+: key ∧ (st.instances.get key).isSome then none
          else st.instances.get key) ∧
        (∀ i ∈ st.listInstances src, instanceKey dst i.id ≠ key) ∨
      (∃ i ∈ st.listInstances src, instanceKey dst i.id = key ∧
        r.store.instances.get key =
          if servicePrefix src <+: key ∧ (st.instances.get key).isSome then none
          else some (i.moved now dst).json) := by
  obtain ⟨_, old, _, fits, b, run, rfl⟩ := moves
  have visited : key ∈ (st.instances.scan (servicePrefix src)).map Prod.fst ↔
      servicePrefix src <+: key ∧ (st.instances.get key).isSome := by
    simp only [List.mem_map, Prod.exists, Bucket.mem_scan, Option.isSome_iff_exists]
    constructor
    · intro ⟨_, v, ⟨present, pre⟩, same⟩
      exact same ▸ ⟨pre, v, present⟩
    · intro ⟨pre, v, present⟩
      exact ⟨key, v, ⟨present, pre⟩, rfl⟩
  simp only [afterRename, Bucket.get_deleteAll, visited]
  rcases Bucket.get_putAll run key with ⟨e, member, here, value⟩ | ⟨fresh, value⟩
  · right
    obtain ⟨j, moved, rfl⟩ := List.mem_map.mp member
    obtain ⟨i, listed, rfl⟩ := List.mem_map.mp moved
    exact ⟨i, listed, here, by rw [value]; rfl⟩
  · left
    rw [value]
    refine ⟨rfl, fun i listed here => fresh ?_⟩
    exact List.mem_map.mpr ⟨_, List.mem_map.mpr ⟨_, List.mem_map.mpr ⟨i, listed, rfl⟩, rfl⟩, here⟩

end Store
end Discovery
