import Discovery.Store.Causality

namespace Discovery
open Kv Machine

/-- A node with calls of `ApplyRemote` under way. `waiting` are the events whose call has done its
read transaction and goes on to its write transaction. -/
structure Merging where
  store : Store
  waiting : List Event := []

/-- The read transaction of a call, the write transaction of the `i`-th waiting one, or a local
write. -/
inductive MergeStep
  | read (ev : Event)
  | write (i : Nat)
  | own (op : CatalogOp)
  deriving DecidableEq

/-- The event upserts the record. -/
def Event.Upserts (k : RecordKey) (ev : Event) : Prop :=
  k.kind ≠ .token ∧ ∃ r, ev.carried = some (k, r)

/-- The step is about one service, instance or affinity record. -/
def MergeStep.About (k : RecordKey) : MergeStep → Prop
  | .read ev => ev.Upserts k
  | .write _ => True
  | .own op => op.target = some k

def MergeStep.call : MergeStep → Option Event
  | .read ev => some ev
  | _ => none

namespace Store

/-- What the read transaction of `ApplyRemote` finds: a stored record that is not older ends the
call. -/
def keeps (st : Store) : Event → Bool
  | .serviceUpserted payload =>
    let svc := payload.json
    keepsExisting ((st.services.get svc.name).map (·.updatedAt)) svc.updatedAt
  | .instanceUpserted payload | .instanceStatus payload =>
    let inst := payload.json
    keepsExisting ((st.instances.get (instanceKey inst.serviceName inst.id)).map (·.updatedAt))
      inst.updatedAt
  | .affinityUpserted payload =>
    let a := payload.json
    keepsExisting ((st.affinity.get (affinityKey a.serviceName a.token)).map (·.updatedAt)) a.updatedAt
  | _ => false

/-- The write transaction. It does not look at what is stored by then. -/
def putRaw (st : Store) (ev : Event) : Except Err (Outcome Unit) :=
  match ev with
  | .serviceUpserted payload => do
    let svc := payload.json
    let services ← write st.services svc.name svc
    .ok ⟨(), { st with services }, [ev]⟩
  | .instanceUpserted payload | .instanceStatus payload => do
    let inst := payload.json
    let instances ← write st.instances (instanceKey inst.serviceName inst.id) inst
    .ok ⟨(), { st with instances }, [ev]⟩
  | .affinityUpserted payload => do
    let a := payload.json
    let affinity ← write st.affinity (affinityKey a.serviceName a.token) a
    .ok ⟨(), { st with affinity }, [ev]⟩
  | _ => st.applyRemote ev

/-- The two transactions in a row are the call. -/
theorem applyRemote_eq (st : Store) (ev : Event) :
    st.applyRemote ev = if st.keeps ev then .ok ⟨(), st, []⟩ else st.putRaw ev := by
  cases ev <;> rfl

/-- The first transaction of a merge keeps the record exactly when the stored one is not older. -/
theorem keeps_iff {st : Store} {ev : Event} {k : RecordKey} {r : Record} (other : k.kind ≠ .token)
    (carried : ev.carried = some (k, r)) :
    st.keeps ev = true ↔ ∃ w, st.lookup k = some w ∧ r.updatedAt ≤ w.updatedAt := by
  cases ev with
  | serviceUpserted p =>
    cases carried
    cases found : st.services.get p.json.name <;>
      simp [keeps, keepsExisting, found, Record.updatedAt]
  | instanceUpserted p | instanceStatus p =>
    cases carried
    cases found : st.instances.get (instanceKey p.json.serviceName p.json.id) <;>
      simp [keeps, keepsExisting, found, Record.updatedAt]
  | affinityUpserted p =>
    cases carried
    cases found : st.affinity.get (affinityKey p.json.serviceName p.json.token) <;>
      simp [keeps, keepsExisting, found, Record.updatedAt]
  | tokenUpserted p =>
    cases carried
    exact absurd rfl other
  | _ => cases carried

/-- The second one writes whatever it finds by then. -/
theorem lookup_putRaw (st : Store) {ev : Event} {k : RecordKey} {r : Record} (other : k.kind ≠ .token)
    (carried : ev.carried = some (k, r)) :
    (st.settle (st.putRaw ev)).1.lookup k = if KeyFits k.key then some r else st.lookup k := by
  cases ev with
  | serviceUpserted p =>
    cases carried
    rw [putRaw, settle_write]
    by_cases fits : KeyFits p.json.name <;> simp [fits, Bucket.get_insert]
  | instanceUpserted p | instanceStatus p =>
    cases carried
    rw [putRaw, settle_write]
    by_cases fits : KeyFits (instanceKey p.json.serviceName p.json.id) <;> simp [fits, Bucket.get_insert]
  | affinityUpserted p =>
    cases carried
    rw [putRaw, settle_write]
    by_cases fits : KeyFits (affinityKey p.json.serviceName p.json.token) <;> simp [fits, Bucket.get_insert]
  | tokenUpserted p =>
    cases carried
    exact absurd rfl other
  | _ => cases carried

/-- The record a local write has stored. -/
def ownRecord (st : Store) (op : CatalogOp) : Option (RecordKey × Record) :=
  if (st.catalogStep op).2 = [] then none
  else op.target.bind fun k => ((st.catalogStep op).1.lookup k).map (k, ·)

/-- The outputs are the records that count: what a call or a local write stores, and what a call
leaves out because it is superseded. -/
def mergeStep (m : Merging) : MergeStep → Merging × List (RecordKey × Record)
  | .read ev =>
    if m.store.keeps ev then (m, ev.record.toList)
    else ({ m with waiting := m.waiting ++ [ev] }, [])
  | .write i =>
    match m.waiting[i]? with
    | none => (m, [])
    | some ev =>
      ({ store := (m.store.settle (m.store.putRaw ev)).1, waiting := m.waiting.eraseIdx i },
        ev.record.toList)
  | .own op =>
    ({ m with store := (m.store.catalogStep op).1 }, (m.store.ownRecord op).toList)

/-- Nothing stored under the key is later than `t`. -/
def NothingLater (st : Store) (k : RecordKey) (t : Time) : Prop :=
  ∀ w, st.lookup k = some w → w.updatedAt ≤ t

/-- The write transactions find no later record than the one they put. -/
def InOrder (k : RecordKey) (m : Merging) : MergeStep → Prop
  | .read _ => True
  | .write i => ∀ ev, m.waiting[i]? = some ev → ∀ r, ev.record = some (k, r) →
    m.store.NothingLater k r.updatedAt
  | .own op => (m.store.catalogStep op).2 ≠ [] → m.store.NothingLater k op.clock

instance (st : Store) (k : RecordKey) (t : Time) : Decidable (NothingLater st k t) :=
  decidable_of_iff ((st.lookup k).all (·.updatedAt ≤ t) = true) (by
    unfold NothingLater
    cases st.lookup k <;> simp)

instance (k : RecordKey) (m : Merging) : (step : MergeStep) → Decidable (InOrder k m step)
  | .read _ => inferInstanceAs (Decidable True)
  | .write i =>
    decidable_of_iff (∀ entry ∈ m.waiting[i]?.bind Event.record, entry.1 = k →
        m.store.NothingLater k entry.2.updatedAt) (by
      simp only [InOrder, Option.mem_def, Option.bind_eq_some_iff, forall_exists_index, and_imp,
        Prod.forall]
      exact ⟨fun all ev found r record => all k r ev found record rfl,
        fun all j r ev found record here => all ev found r (here ▸ record)⟩)
  | .own _ => inferInstanceAs (Decidable (_ → _))

/-- The values of a record that count over a run: the initial one and the outputs. -/
def counted (k : RecordKey) (m : Merging) (steps : List MergeStep) : Set Record :=
  {r | m.store.lookup k = some r ∨ (k, r) ∈ (exec mergeStep m steps).2}

/-- One more record is counted if it goes to the key. -/
def count (k : RecordKey) (C : Set Record) (entry : RecordKey × Record) : Set Record :=
  if entry.1 = k then insert entry.2 C else C

theorem foldl_count (k : RecordKey) (C : Set Record) (entries : List (RecordKey × Record)) :
    entries.foldl (count k) C = {r | r ∈ C ∨ (k, r) ∈ entries} := by
  induction entries generalizing C with
  | nil => simp
  | cons entry entries ih =>
    obtain ⟨j, r⟩ := entry
    rw [List.foldl_cons, ih]
    ext w
    by_cases here : j = k
    · subst here
      simp [count, or_assoc, or_comm (a := w = r)]
    · simp [count, here, Ne.symm here]

/-- The calls under way upsert the record. -/
def WaitingFor (k : RecordKey) (m : Merging) : Prop := ∀ ev ∈ m.waiting, ev.Upserts k

/-- The stored record is the newest of those that count. -/
structure Newest (k : RecordKey) (m : Merging) (C : Set Record) : Prop where
  newest : Lww.IsNewest Record.updatedAt C (m.store.lookup k)
  waiting : WaitingFor k m

/-- A local write that emits nothing stores nothing. -/
theorem silent_of_target {st : Store} {op : CatalogOp} {k : RecordKey} (target : op.target = some k)
    (silent : (st.catalogStep op).2 = []) : (st.catalogStep op).1 = st := by
  cases op with
  | putService now svc =>
    refine settle_of_silent (fun r run quiet => ?_) silent
    obtain ⟨_, _, _, rfl⟩ := putService_eq_ok.mp run
    cases quiet
  | putInstance now inst =>
    refine settle_of_silent (fun r run quiet => ?_) silent
    obtain ⟨_, _, _, _, _, _, _, events⟩ := putInstance_eq_ok.mp run
    cases events.symm.trans quiet
  | heartbeat now service id status =>
    refine settle_of_silent (fun r run quiet => ?_) silent
    obtain ⟨_, _, rfl⟩ := heartbeat_eq_ok.mp run
    cases quiet
  | setStatus now service id status =>
    refine settle_of_silent (fun r run quiet => ?_) silent
    obtain ⟨_, _, ⟨_, rfl⟩ | ⟨_, rfl⟩⟩ := setStatus_eq_ok.mp run
    · rfl
    · cases quiet
  | setBlocked now service id blocked =>
    refine settle_of_silent (fun r run quiet => ?_) silent
    obtain ⟨_, _, rfl⟩ := setBlocked_eq_ok.mp run
    cases quiet
  | _ => cases target

variable {k : RecordKey} {m : Merging} {C : Set Record}

theorem record_eq {ev : Event} {r : Record} (carried : ev.carried = some (k, r)) :
    ev.record = if KeyFits k.key then some (k, r) else none := by
  rw [Event.record, carried]
  by_cases fits : KeyFits k.key <;> simp [Option.filter, fits]

/-- Every call that is between its transactions waits with an event about the record. -/
theorem WaitingFor.step (waiting : WaitingFor k m) (step : MergeStep) (about : step.About k) :
    WaitingFor k (mergeStep m step).1 := by
  intro e member
  cases step with
  | read ev =>
    rw [mergeStep] at member
    split at member
    · exact waiting e member
    · rcases List.mem_append.mp member with old | new
      · exact waiting e old
      · exact List.mem_singleton.mp new ▸ about
  | write i =>
    rw [mergeStep] at member
    split at member
    · exact waiting e member
    · exact waiting e (List.mem_of_mem_eraseIdx member)
  | own op => exact waiting e member

/-- A call that reads either waits, or is superseded by the stored record. -/
theorem Newest.read (related : Newest k m C) {ev : Event} (upserts : ev.Upserts k) :
    Newest k (mergeStep m (.read ev)).1 ((mergeStep m (.read ev)).2.foldl (count k) C) := by
  refine ⟨?_, related.waiting.step (.read ev) upserts⟩
  obtain ⟨other, r, carried⟩ := upserts
  rw [mergeStep]
  split
  next kept =>
    obtain ⟨w, stored, older⟩ := (keeps_iff other carried).mp kept
    have newest := related.newest
    rw [stored] at newest ⊢
    rw [record_eq carried]
    split
    · simpa [count] using newest.absorb older
    · exact newest
  next => exact related.newest

/-- A late write keeps the record the newest exactly when it finds nothing later in the store. -/
theorem Newest.write_iff (related : Newest k m C) (i : Nat) :
    Newest k (mergeStep m (.write i)).1 ((mergeStep m (.write i)).2.foldl (count k) C) ↔
      InOrder k m (.write i) := by
  have waiting := related.waiting.step (.write i) trivial
  rw [mergeStep, InOrder]
  rw [mergeStep] at waiting
  cases found : m.waiting[i]? with
  | none => simpa using related
  | some ev =>
    obtain ⟨other, r, carried⟩ := related.waiting ev (List.mem_of_getElem? found)
    have stored := lookup_putRaw m.store other carried
    rw [found] at waiting
    have entry := record_eq carried
    by_cases fits : KeyFits k.key
    · rw [if_pos fits] at stored entry
      simp only [entry, Option.toList_some, List.foldl_cons, List.foldl_nil, count, if_true,
        Option.some.injEq, forall_eq', Prod.mk.injEq, true_and]
      rw [NothingLater, ← related.newest.overwrite_iff]
      constructor
      · intro next
        exact stored ▸ next.newest
      · intro newest
        exact ⟨stored ▸ newest, waiting⟩
    · rw [if_neg fits] at stored entry
      simp only [entry, Option.toList_none, List.foldl_nil]
      refine iff_of_true ⟨stored ▸ related.newest, waiting⟩ fun e same r record => ?_
      obtain rfl := Option.some.inj same
      rw [entry] at record
      cases record

/-- A local write does exactly when it finds nothing later in the store. -/
theorem Newest.own_iff (related : Newest k m C) {op : CatalogOp} (target : op.target = some k) :
    Newest k (mergeStep m (.own op)).1 ((mergeStep m (.own op)).2.foldl (count k) C) ↔
      InOrder k m (.own op) := by
  rw [mergeStep, InOrder, ownRecord]
  by_cases silent : (m.store.catalogStep op).2 = []
  · rw [silent_of_target target silent]
    simpa [silent] using related
  · obtain ⟨r, stored, stamp⟩ := stamped_of_target target silent
    simp only [silent, if_false, target, Option.bind_some, stored, Option.map_some, Option.toList_some,
      List.foldl_cons, List.foldl_nil, count, if_true]
    rw [NothingLater, ← stamp, ← related.newest.overwrite_iff]
    constructor
    · intro next _
      exact stored ▸ next.newest
    · intro newest
      exact ⟨stored ▸ newest silent, related.waiting⟩

theorem Newest.step_iff (related : Newest k m C) {step : MergeStep} (about : step.About k) :
    Newest k (mergeStep m step).1 ((mergeStep m step).2.foldl (count k) C) ↔
      InOrder k m step := by
  cases step with
  | read ev => exact iff_of_true (related.read about) trivial
  | write i => exact related.write_iff i
  | own op => exact related.own_iff about

theorem waiting_run (waiting : WaitingFor k m) {steps : List MergeStep}
    (about : ∀ step ∈ steps, step.About k) : WaitingFor k (exec mergeStep m steps).1 :=
  exec_invariant (WaitingFor k) (fun _ _ holds about => holds.step _ about) waiting (meets_of_forall about)

/-- A call stays under way until a step puts out its payload. -/
theorem call_step {step : MergeStep} {ev : Event} (called : ev ∈ m.waiting ∨ step = .read ev) :
    ev ∈ (mergeStep m step).1.waiting ∨
      ∀ r, ev.record = some (k, r) → (k, r) ∈ (mergeStep m step).2 := by
  cases step with
  | read e =>
    rw [mergeStep]
    split
    · refine called.imp_right fun here r record => ?_
      obtain rfl := MergeStep.read.inj here
      simp [record]
    · rcases called with under | here
      · exact Or.inl (List.mem_append_left _ under)
      · obtain rfl := MergeStep.read.inj here
        exact Or.inl (List.mem_append_right _ (List.mem_singleton.mpr rfl))
  | write i =>
    have under : ev ∈ m.waiting := called.resolve_right nofun
    rw [mergeStep]
    cases found : m.waiting[i]? with
    | none => exact Or.inl under
    | some e =>
      by_cases same : ev = e
      · exact Or.inr fun r record => by simp [← same, record]
      · obtain ⟨j, bound, here⟩ := List.getElem_of_mem under
        have other : j ≠ i := by
          rintro rfl
          rw [List.getElem?_eq_getElem bound, here] at found
          exact same (Option.some.inj found)
        refine Or.inl (List.mem_eraseIdx_iff_getElem?.mpr ⟨j, other, ?_⟩)
        rw [List.getElem?_eq_getElem bound, here]
  | own op => exact Or.inl (called.resolve_right nofun)

/-- Once no call is under way, the payload of every call counts. -/
theorem counted_of_call {steps : List MergeStep} (finished : (exec mergeStep m steps).1.waiting = [])
    {ev : Event} (called : ev ∈ m.waiting ∨ .read ev ∈ steps) {r : Record}
    (record : ev.record = some (k, r)) : r ∈ counted k m steps := by
  refine Or.inr ?_
  induction steps generalizing m with
  | nil =>
    have under := called.resolve_right List.not_mem_nil
    rw [show m.waiting = [] from finished] at under
    exact absurd under List.not_mem_nil
  | cons step steps ih =>
    by_cases now : ev ∈ m.waiting ∨ step = .read ev
    · rcases call_step now with under | put
      · exact List.mem_append_right _ (ih finished (Or.inl under))
      · exact List.mem_append_left _ (put r record)
    · obtain ⟨notUnder, notNow⟩ := not_or.mp now
      rcases List.mem_cons.mp (called.resolve_left notUnder) with here | rest
      · exact absurd here.symm notNow
      · exact List.mem_append_right _ (ih finished (Or.inr rest))

/-- At every moment of any interleaving the stored record is the newest of the initial one and those
written so far exactly if every write transaction finds nothing later than what it puts. -/
theorem merges_atomically_iff {st : Store} {k : RecordKey} {steps : List MergeStep}
    (about : ∀ step ∈ steps, step.About k) :
    (∀ pre, pre <+: steps → Lww.IsNewest Record.updatedAt (counted k { store := st } pre)
        ((exec mergeStep { store := st } pre).1.store.lookup k)) ↔
      Meets mergeStep (InOrder k) { store := st } steps := by
  have start : Newest k { store := st } {r | st.lookup k = some r} :=
    ⟨Lww.IsNewest.self _, fun ev member => absurd member List.not_mem_nil⟩
  rw [← replay_iff_meets (count k) (fun _ _ _ related good => related.step_iff good) start about]
  simp only [foldl_count]
  refine forall_congr' fun pre => imp_congr_right fun short => ⟨fun newest => ⟨newest, ?_⟩, (·.newest)⟩
  exact waiting_run start.waiting fun step member => about step (short.subset member)

/-- Two calls that both read first and write in the order of their times. -/
def mergesInOrder : List MergeStep :=
  [.read (.instanceUpserted (servingAt 10)), .read (.instanceUpserted (servingAt 20)), .write 0,
    .write 0]

/-- The same calls, with the writes the other way round. -/
def mergesReversed : List MergeStep :=
  [.read (.instanceUpserted (servingAt 10)), .read (.instanceUpserted (servingAt 20)), .write 1,
    .write 0]

theorem about_merges {step : MergeStep} (member : step ∈ mergesInOrder ∨ step ∈ mergesReversed) :
    step.About ⟨.inst, "s/i"⟩ := by
  have upserts (t : Time) : (Event.instanceUpserted (servingAt t)).Upserts ⟨.inst, "s/i"⟩ :=
    ⟨nofun, .inst (servingAt t).json, rfl⟩
  simp only [mergesInOrder, mergesReversed, List.mem_cons, List.not_mem_nil, or_false] at member
  rcases member with (rfl | rfl | rfl | rfl) | (rfl | rfl | rfl | rfl)
  all_goals first | exact upserts _ | exact trivial

theorem merges_atomically_in_order :
    Lww.IsNewest Record.updatedAt (counted ⟨.inst, "s/i"⟩ { store := servingStore } mergesInOrder)
      ((exec mergeStep { store := servingStore } mergesInOrder).1.store.lookup ⟨.inst, "s/i"⟩) :=
  (merges_atomically_iff fun _ member => about_merges (Or.inl member)).mpr (by decide) _ (List.prefix_refl _)

/-- Two calls that both read before they write leave the older record. -/
theorem newer_merge_lost :
    ¬∀ (st : Store) (k : RecordKey) (steps : List MergeStep), (∀ step ∈ steps, step.About k) →
      (steps.filterMap MergeStep.call).length = 2 →
      (exec mergeStep { store := st } steps).1.waiting = [] →
      Lww.IsNewest Record.updatedAt (counted k { store := st } steps)
        ((exec mergeStep { store := st } steps).1.store.lookup k) := by
  intro newest
  have wrong := newest servingStore ⟨.inst, "s/i"⟩ mergesReversed
    (fun _ member => about_merges (Or.inr member)) rfl (by decide)
  have called : .read (.instanceUpserted (servingAt 20)) ∈ mergesReversed := by decide
  have counts : Record.inst (servingAt 20).json ∈
      counted ⟨.inst, "s/i"⟩ { store := servingStore } mergesReversed :=
    counted_of_call (by decide) (Or.inr called) (record_of_carried rfl fits_s_i)
  have stored : (exec mergeStep { store := servingStore } mergesReversed).1.store.lookup ⟨.inst, "s/i"⟩ =
      some (.inst (servingAt 10).json) := by decide
  rw [stored] at wrong
  exact absurd (wrong.2 _ counts) (by decide)

end Store
end Discovery
