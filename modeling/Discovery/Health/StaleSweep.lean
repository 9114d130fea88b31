import Discovery.Health.Checker
import Discovery.Store.Causality

namespace Discovery
open Kv Machine

/-- A tick of the health checker between its listing and its end. `listed` are the instances it has
still to evaluate; `base` is a history variable, what each key held at the listing or after the last
call on it since. -/
structure Sweep where
  store : Store
  now : Time
  listed : List Instance
  base : Key → Option Instance

/-- The tick evaluates the next instance, writing at `clock`, or a call of another goroutine
commits. -/
inductive SweepStep
  | eval (clock : Time)
  | call (op : CatalogOp)
  deriving DecidableEq

/-- The key of the instance a client's call is about. -/
def CatalogOp.clientKey : CatalogOp → Option Key
  | .putInstance _ inst => some (instanceKey inst.serviceName inst.id)
  | .heartbeat _ service id _ | .deleteInstance service id => some (instanceKey service id)
  | _ => none

/-- The calls are heartbeats, registrations and deletions. -/
def SweepStep.OfClients : SweepStep → Prop
  | .eval _ => True
  | .call op => op.clientKey ≠ none

/-- A record the checker may leave down: it is down already, or its TTL has run out. -/
def Instance.Lapsed (now : Time) (inst : Instance) : Prop :=
  inst.status = statusDown ∨ inst.effectiveCheckMode = checkHeartbeat ∧ inst.expired now

instance (now : Time) (inst : Instance) : Decidable (inst.Lapsed now) :=
  inferInstanceAs (Decidable (_ ∨ _ ∧ _))

namespace Store

def sweepStart (st : Store) (now : Time) : Sweep where
  store := st
  now := now
  listed := st.listAllInstances
  base := st.instances.get

def sweepStep (s : Sweep) : SweepStep → Sweep × List Event
  | .eval clock =>
    match s.listed with
    | [] => (s, [])
    | inst :: listed =>
      let r := s.store.evalInstance s.now clock (fun _ => none) inst
      ({ s with store := r.1, listed }, r.2)
  | .call op =>
    let r := s.store.catalogStep op
    let base key := if op.clientKey = some key then r.1.instances.get key else s.base key
    ({ s with store := r.1, base }, r.2)

theorem exec_evals (s : Sweep) (clock : Time) :
    (exec sweepStep s (s.listed.map fun _ => .eval clock)).1.store =
      (exec (evalInstance s.now clock (fun _ => none)) s.store s.listed).1 := by
  obtain ⟨st, now, listed, base⟩ := s
  induction listed generalizing st with
  | nil => rfl
  | cons inst listed ih => exact ih _

/-- Undisturbed, the steps are the tick. -/
theorem sweep_undisturbed (st : Store) (now clock : Time) :
    (exec sweepStep (st.sweepStart now) (st.listAllInstances.map fun _ => .eval clock)).1.store =
      (st.tick now clock (fun _ => none)).1 :=
  exec_evals (st.sweepStart now) clock

/-- Every record the step changes is, when it is changed, in heartbeat mode and expired at the tick. -/
def Justified (s : Sweep) : SweepStep → Prop
  | .eval clock => ∀ key prev, s.store.instances.get key = some prev →
    (sweepStep s (.eval clock)).1.store.instances.get key ≠ some prev →
      prev.effectiveCheckMode = checkHeartbeat ∧ prev.expired s.now
  | .call _ => True

/-- What the key held at the listing, or after the last call on it, is lapsed. -/
def LapsedAt (now : Time) (held : Option Instance) : Prop := ∀ prev ∈ held, prev.Lapsed now

instance (now : Time) (held : Option Instance) : Decidable (LapsedAt now held) :=
  inferInstanceAs (Decidable (∀ prev ∈ held, prev.Lapsed now))

/-- The instance the tick writes down had lapsed at the listing or after the last call on it. -/
def Founded (s : Sweep) : SweepStep → Prop
  | .eval _ => ∀ inst ∈ s.listed.head?,
    let key := instanceKey inst.serviceName inst.id
    SetsDown s.now key inst → LapsedAt s.now (s.base key)
  | .call _ => True

instance (s : Sweep) : (step : SweepStep) → Decidable (Founded s step)
  | .eval _ => inferInstanceAs (Decidable (∀ inst ∈ s.listed.head?,
      SetsDown s.now (instanceKey inst.serviceName inst.id) inst →
        LapsedAt s.now (s.base (instanceKey inst.serviceName inst.id))))
  | .call _ => inferInstanceAs (Decidable True)

theorem forall_setsDown_iff {now : Time} {inst : Instance} {P : Key → Prop} :
    (∀ key, SetsDown now key inst → P key) ↔
      (SetsDown now (instanceKey inst.serviceName inst.id) inst →
        P (instanceKey inst.serviceName inst.id)) := by
  refine ⟨fun all => all _, fun one key down => ?_⟩
  obtain ⟨mode, expired, status, rfl⟩ := down
  exact one ⟨mode, expired, status, rfl⟩

theorem justified_eval_iff {s : Sweep} {clock : Time} :
    Justified s (.eval clock) ↔
      ∀ inst ∈ s.listed.head?, ∀ key, SetsDown s.now key inst →
        LapsedAt s.now (s.store.instances.get key) := by
  rw [Justified, sweepStep]
  cases s.listed with
  | nil =>
    refine iff_of_true (fun _ _ present changed => absurd present changed) fun inst none => ?_
    exact absurd none (by simp)
  | cons inst listed =>
    simp only [get_evalInstance, List.head?_cons, Option.mem_def, Option.some.injEq, forall_eq']
    refine forall_congr' fun key => ?_
    by_cases down : SetsDown s.now key inst
    · simp only [down, if_true, true_imp_iff, LapsedAt, Option.mem_def]
      refine forall_congr' fun prev => imp_congr_right fun present => ?_
      rw [present, Option.map_some, Instance.Lapsed]
      by_cases already : prev.status = statusDown
      · simp [already, downed]
      · have changed : downed clock prev ≠ prev := by
          intro same
          have status := downed_status clock prev
          rw [same] at status
          exact already status
        simp [already, changed]
    · simp only [down, if_false, false_imp_iff, iff_true]
      exact fun _ present changed => absurd present changed

/-- A client's call leaves the records under other keys alone. -/
theorem get_clientCall {st : Store} {op : CatalogOp} {key : Key} (client : op.clientKey = some key)
    {other : Key} (differs : other ≠ key) :
    (st.catalogStep op).1.instances.get other = st.instances.get other := by
  cases op with
  | putInstance now inst =>
    obtain rfl := Option.some.inj client
    refine settle_store (·.instances.get other = st.instances.get other) rfl fun r run => ?_
    rw [(get_putInstance run).2, if_neg differs]
  | heartbeat now service id status =>
    obtain rfl := Option.some.inj client
    refine settle_store (·.instances.get other = st.instances.get other) rfl fun r run => ?_
    obtain ⟨_, _, rfl⟩ := heartbeat_eq_ok.mp run
    rw [get_withInstance, if_neg differs]
  | deleteInstance service id =>
    obtain rfl := Option.some.inj client
    refine (st.get_deleteInstance service id other).trans ?_
    rw [if_neg differs]
  | _ => cases client

/-- Since the listing, or the last call on it, a key has kept its record, or a lapsed record has been
left or set down. -/
def Traced (s : Sweep) : Prop :=
  ∀ key, s.store.instances.get key = s.base key ∨
    LapsedAt s.now (s.base key) ∧ LapsedAt s.now (s.store.instances.get key)

theorem Traced.lapsedAt_iff {s : Sweep} (traced : Traced s) (key : Key) :
    LapsedAt s.now (s.store.instances.get key) ↔ LapsedAt s.now (s.base key) := by
  rcases traced key with same | both
  · rw [same]
  · exact iff_of_true both.2 both.1

theorem Traced.justified_iff {s : Sweep} (traced : Traced s) (step : SweepStep) :
    Justified s step ↔ Founded s step := by
  cases step with
  | eval clock =>
    rw [justified_eval_iff, Founded]
    simp only [traced.lapsedAt_iff, forall_setsDown_iff]
  | call op => exact Iff.rfl

theorem Traced.step {s : Sweep} (traced : Traced s) {step : SweepStep} (client : step.OfClients)
    (justified : Justified s step) : Traced (sweepStep s step).1 := by
  intro key
  cases step with
  | eval clock =>
    rw [justified_eval_iff] at justified
    rw [sweepStep]
    cases listed : s.listed with
    | nil => exact traced key
    | cons inst rest =>
      simp only [get_evalInstance]
      by_cases down : SetsDown s.now key inst
      · have lapsed := justified inst (by rw [listed]; rfl) key down
        rw [if_pos down]
        refine Or.inr ⟨(traced.lapsedAt_iff key).mp lapsed, fun prev member => ?_⟩
        obtain ⟨old, _, rfl⟩ := Option.map_eq_some_iff.mp member
        exact Or.inl (downed_status clock old)
      · rw [if_neg down]
        exact traced key
  | call op =>
    rw [sweepStep]
    by_cases here : op.clientKey = some key
    · exact Or.inl (by simp only [here, if_true])
    · obtain ⟨touched, other⟩ := Option.ne_none_iff_exists'.mp client
      have differs : key ≠ touched := fun same => here (same ▸ other)
      simp only [here, if_false, get_clientCall other differs]
      exact traced key

/-- The health checker writes only what is true when it writes exactly if every instance it writes
down had lapsed under its key at the listing or after the last heartbeat, registration or deletion
that came in between. -/
theorem sweep_justified_iff {st : Store} {now : Time} {steps : List SweepStep}
    (clients : ∀ step ∈ steps, step.OfClients) :
    Meets sweepStep Justified (st.sweepStart now) steps ↔
      Meets sweepStep Founded (st.sweepStart now) steps := by
  have start : Traced (st.sweepStart now) := fun _ => Or.inl rfl
  have keep (s : Sweep) (step : SweepStep) (traced : Traced s) (client : step.OfClients)
      (justified : Justified s step) : Traced (sweepStep s step).1 := traced.step client justified
  exact meets_iff Traced (fun _ step traced _ => traced.justified_iff step) keep start clients

/-- At the listing, what the tick is to write down has lapsed where records are stored under their own
names. -/
theorem lapsedAt_listed {st : Store} {now : Time}
    (named : ∀ key prev, st.instances.get key = some prev → instanceKey prev.serviceName prev.id = key)
    {inst : Instance} (listed : inst ∈ st.listAllInstances) {key : Key} (down : SetsDown now key inst) :
    LapsedAt now (st.instances.get key) := by
  obtain ⟨mode, expired, _, here⟩ := down
  obtain ⟨stored, present⟩ := Bucket.mem_values.mp listed
  obtain rfl : key = stored := here.symm.trans (named stored inst present)
  intro prev member
  obtain rfl := Option.some.inj (present.symm.trans member)
  exact Or.inr ⟨mode, expired⟩

/-- An instance with a TTL of ten seconds, registered at time 1. -/
def lateInstance : Instance where
  id := "i"
  serviceName := "s"
  address := "10.0.0.1"
  status := statusUp
  ttlSeconds := 10
  lastHeartbeat := 1
  updatedAt := 1

def lateStore : Store :=
  { empty with instances := Bucket.empty.insert "s/i" lateInstance fits_s_i }

/-- A registration that keeps the last heartbeat, before the checker's write. -/
theorem sweep_justified_registered :
    Meets sweepStep Justified (lateStore.sweepStart 20000000000)
      [.call (.putInstance 20000000001 lateInstance), .eval 20000000002] := by
  refine (sweep_justified_iff fun step member => ?_).mpr (by decide)
  simp only [List.mem_cons, List.not_mem_nil, or_false] at member
  rcases member with rfl | rfl
  · exact nofun
  · exact trivial

/-- A heartbeat between the listing and the write. -/
theorem sweep_unjustified :
    ¬∀ (st : Store) (now : Time) (steps : List SweepStep),
      (∀ key prev, st.instances.get key = some prev → instanceKey prev.serviceName prev.id = key) →
      (∀ step ∈ steps, step.OfClients) → Meets sweepStep Justified (st.sweepStart now) steps := by
  intro justified
  have named (key : Key) (prev : Instance) (present : lateStore.instances.get key = some prev) :
      instanceKey prev.serviceName prev.id = key := by
    rw [lateStore, Bucket.get_insert] at present
    split at present
    next here =>
      obtain rfl := Option.some.inj present
      rw [here]
      decide
    next => cases present
  obtain ⟨_, wrong, _⟩ := justified lateStore 20000000000
    [.call (.heartbeat 20000000001 "s" "i" []), .eval 20000000002] named (fun step member => by
      simp only [List.mem_cons, List.not_mem_nil, or_false] at member
      rcases member with rfl | rfl
      · exact nofun
      · exact trivial)
  rw [justified_eval_iff] at wrong
  have head : lateInstance.json ∈ (sweepStep (lateStore.sweepStart 20000000000)
      (.call (.heartbeat 20000000001 "s" "i" []))).1.listed.head? := by decide
  have down : SetsDown 20000000000 (instanceKey "s" "i") lateInstance.json := by decide
  have alive : ¬LapsedAt 20000000000 ((lateStore.catalogStep
      (.heartbeat 20000000001 "s" "i" [])).1.instances.get (instanceKey "s" "i")) := by decide
  exact alive (wrong lateInstance.json head (instanceKey "s" "i") down)

end Store
end Discovery
