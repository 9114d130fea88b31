import Discovery.Health.Checker
import Discovery.Server.Instances

namespace Discovery
open Kv Machine

/-- A heartbeat that names no status, or a tick at which no probe is due. -/
inductive HealthStep
  | heartbeat (now : Time) (service id : GoString)
  | tick (now clock : Time)
  deriving DecidableEq

def HealthStep.time : HealthStep → Time
  | .heartbeat now _ _ => now
  | .tick now _ => now

/-- A heartbeat of the instance under the key. -/
def HealthStep.Beats (key : Key) : HealthStep → Prop
  | .heartbeat _ service id => instanceKey service id = key
  | .tick _ _ => False

instance (key : Key) (step : HealthStep) : Decidable (step.Beats key) :=
  match step with
  | .heartbeat _ _ _ => inferInstanceAs (Decidable (_ = _))
  | .tick _ _ => inferInstanceAs (Decidable False)

namespace Store

def healthStep (st : Store) : HealthStep → Store × List Event
  | .heartbeat now service id => st.settle (st.heartbeat now service id [])
  | .tick now clock => st.tick now clock (fun _ => none)

/-- A tick at `now` lists the instance of the key as expired. -/
def Expires (st : Store) (now : Time) (key : Key) : Prop :=
  ∃ inst ∈ st.listAllInstances, SetsDown now key inst

instance (st : Store) (now : Time) (key : Key) : Decidable (st.Expires now key) :=
  inferInstanceAs (Decidable (∃ inst ∈ _, _))

/-- Some tick of the run finds the instance expired, and a heartbeat of it comes later. -/
def Lifted (key : Key) (st : Store) : List HealthStep → Prop
  | [] => False
  | .heartbeat now service id :: run => Lifted key (st.healthStep (.heartbeat now service id)).1 run
  | .tick now clock :: run =>
    (st.Expires now key ∧ ∃ later ∈ run, later.Beats key) ∨
      Lifted key (st.healthStep (.tick now clock)).1 run

instance decidableLifted (key : Key) (st : Store) : (run : List HealthStep) →
    Decidable (Lifted key st run)
  | [] => inferInstanceAs (Decidable False)
  | .heartbeat now service id :: run =>
    decidableLifted key (st.healthStep (.heartbeat now service id)).1 run
  | .tick now clock :: run =>
    have := decidableLifted key (st.healthStep (.tick now clock)).1 run
    inferInstanceAs (Decidable (_ ∨ _))

/-- The instance is not up, and in no list of instances eligible for discovery. -/
def NotServed (key : Key) (st : Store) : Prop :=
  ∀ inst, st.instances.get key = some inst → inst.status ≠ statusUp ∧
    ∀ matchVersion insts constraint, inst ∉ Server.upInstances matchVersion insts constraint

theorem notServed_iff {key : Key} {st : Store} :
    NotServed key st ↔ st.statusAt key ≠ some statusUp := by
  unfold NotServed statusAt
  constructor
  · intro notServed up
    obtain ⟨inst, present, status⟩ := Option.map_eq_some_iff.mp up
    exact (notServed inst present).1 status
  · intro notUp inst present
    have status : inst.status ≠ statusUp := by
      intro up
      rw [present, Option.map_some, up] at notUp
      exact notUp rfl
    refine ⟨status, fun matchVersion insts constraint member => ?_⟩
    have eligible := (List.mem_filter.mp member).2
    rw [decide_eq_false status] at eligible
    exact absurd eligible Bool.false_ne_true

/-- An empty heartbeat changes the status of its instance from "down" to "up", and no other. -/
theorem statusAt_heartbeat (st : Store) (now : Time) (service id : GoString) (key : Key) :
    (st.settle (st.heartbeat now service id [])).1.statusAt key =
      if instanceKey service id = key then
        (st.statusAt key).map (fun status => if status = statusDown then statusUp else status)
      else st.statusAt key := by
  unfold statusAt
  cases run : st.heartbeat now service id [] with
  | error e =>
    have absent : st.instances.get (instanceKey service id) = none := by
      cases present : st.instances.get (instanceKey service id) with
      | none => rfl
      | some prev =>
        rw [heartbeat_eq_ok.mpr ⟨prev, present, rfl⟩] at run
        cases run
    rw [settle]
    split
    next here => rw [← here, absent]; rfl
    next => rfl
  | ok r =>
    obtain ⟨prev, present, rfl⟩ := heartbeat_eq_ok.mp run
    have clean : jsonString prev.status = prev.status :=
      congrArg Instance.status (Bucket.clean present)
    rw [settle, get_withInstance]
    by_cases here : key = instanceKey service id
    · rw [if_pos here, if_pos here.symm, here, present, Option.map_some, Option.map_some, Option.map_some]
      have status : (prev.beat now []).json.status =
          jsonString (if prev.status = statusDown then statusUp else prev.status) := rfl
      rw [status]
      split
      · rfl
      · rw [clean]
    · rw [if_neg here, if_neg (Ne.symm here)]

theorem statusAt_healthTick (st : Store) (now clock : Time) (key : Key) :
    (st.healthStep (.tick now clock)).1.statusAt key =
      if st.Expires now key then (st.statusAt key).map (fun _ => statusDown)
      else st.statusAt key := by
  rw [healthStep, statusAt_tick]
  congr

/-- Once the instance is down, it stays so until its next heartbeat, which serves it. -/
theorem always_notServed_of_down {key : Key} {st : Store} {run : List HealthStep}
    (down : st.statusAt key = some statusDown) :
    Always healthStep (NotServed key) st run ↔ ¬∃ step ∈ run, step.Beats key := by
  have here : NotServed key st := notServed_iff.mpr (by rw [down]; decide)
  induction run generalizing st with
  | nil => simpa [Always] using here
  | cons step run ih =>
    rw [Always, List.exists_mem_cons_iff, not_or]
    cases step with
    | tick now clock =>
      have still : (st.healthStep (.tick now clock)).1.statusAt key = some statusDown := by
        rw [statusAt_healthTick, down]
        split <;> rfl
      have later := ih still (notServed_iff.mpr (by rw [still]; decide))
      simp [later, here, HealthStep.Beats]
    | heartbeat now service id =>
      by_cases mine : instanceKey service id = key
      · have up : (st.healthStep (.heartbeat now service id)).1.statusAt key = some statusUp := by
          rw [healthStep, statusAt_heartbeat, if_pos mine, down]
          rfl
        have served : ¬Always healthStep (NotServed key)
            (st.healthStep (.heartbeat now service id)).1 run := by
          intro always
          have first : NotServed key (st.healthStep (.heartbeat now service id)).1 := by
            cases run with
            | nil => exact always
            | cons _ _ => exact always.1
          exact notServed_iff.mp first up
        simp [served, HealthStep.Beats, mine]
      · have still : (st.healthStep (.heartbeat now service id)).1.statusAt key = some statusDown := by
          rw [healthStep, statusAt_heartbeat, if_neg mine, down]
        have later := ih still (notServed_iff.mpr (by rw [still]; decide))
        simp [later, here, HealthStep.Beats, mine]

theorem Lifted.beats {key : Key} {st : Store} {run : List HealthStep} (lifted : Lifted key st run) :
    ∃ step ∈ run, step.Beats key := by
  induction run generalizing st with
  | nil => exact lifted.elim
  | cons step run ih =>
    have rest {st : Store} (lifted : Lifted key st run) : ∃ later ∈ step :: run, later.Beats key := by
      obtain ⟨later, member, beats⟩ := ih lifted
      exact ⟨later, List.mem_cons_of_mem _ member, beats⟩
    cases step with
    | heartbeat now service id => exact rest lifted
    | tick now clock =>
      rcases lifted with ⟨_, later, member, beats⟩ | lifted
      · exact ⟨later, List.mem_cons_of_mem _ member, beats⟩
      · exact rest lifted

/-- The status an operator or client chose lasts until the TTL runs out. -/
theorem always_notServed_iff {key : Key} {st : Store} {status : GoString} {run : List HealthStep}
    (chosen : st.statusAt key = some status) (notUp : status ≠ statusUp) (notDown : status ≠ statusDown) :
    Always healthStep (NotServed key) st run ↔ ¬Lifted key st run := by
  have here : NotServed key st := notServed_iff.mpr (by simpa [chosen] using notUp)
  induction run generalizing st with
  | nil => simpa [Always, Lifted] using here
  | cons step run ih =>
    rw [Always]
    cases step with
    | heartbeat now service id =>
      have still : (st.healthStep (.heartbeat now service id)).1.statusAt key = some status := by
        rw [healthStep, statusAt_heartbeat, chosen]
        simp [notDown]
      have later := ih still (notServed_iff.mpr (by simpa [still] using notUp))
      simp [later, here, Lifted]
    | tick now clock =>
      by_cases expires : st.Expires now key
      · have down : (st.healthStep (.tick now clock)).1.statusAt key = some statusDown := by
          rw [statusAt_healthTick, if_pos expires, chosen]
          rfl
        rw [always_notServed_of_down down, Lifted, not_or]
        constructor
        · rintro ⟨_, quiet⟩
          exact ⟨fun both => quiet both.2, fun lifted => quiet lifted.beats⟩
        · rintro ⟨quiet, _⟩
          exact ⟨here, fun beats => quiet ⟨expires, beats⟩⟩
      · have still : (st.healthStep (.tick now clock)).1.statusAt key = some status := by
          rw [statusAt_healthTick, if_neg expires, chosen]
        have later := ih still (notServed_iff.mpr (by simpa [still] using notUp))
        simp [later, here, expires, Lifted]

/-- An instance that was set to draining or starting is kept out of discovery by empty heartbeats and
health ticks exactly as long as no heartbeat comes after a tick that found its TTL run out. -/
theorem draining_sticky_iff {st : Store} {key : Key} {inst : Instance} {run : List HealthStep}
    (present : st.instances.get key = some inst)
    (chosen : inst.status = statusDraining ∨ inst.status = statusStarting) :
    Always healthStep (NotServed key) st run ↔ ¬Lifted key st run := by
  have status : st.statusAt key = some inst.status := by rw [statusAt, present]; rfl
  apply always_notServed_iff status
  · rcases chosen with draining | starting
    · rw [draining]; decide
    · rw [starting]; decide
  · rcases chosen with draining | starting
    · rw [draining]; decide
    · rw [starting]; decide

/-- A draining instance with a TTL of ten seconds. -/
def drainingInstance : Instance where
  id := "i"
  serviceName := "s"
  address := "10.0.0.1"
  status := statusDraining
  ttlSeconds := 10
  lastHeartbeat := 1
  updatedAt := 1

def drainingStore : Store :=
  { empty with instances := Bucket.empty.insert "s/i" drainingInstance fits_s_i }

/-- Two heartbeats in time, with a tick between them. -/
theorem draining_sticky_iff_in_time : Always healthStep (NotServed "s/i") drainingStore
    [.heartbeat 5000000000 "s" "i", .tick 9000000000 9000000001, .heartbeat 9500000000 "s" "i"] :=
  (draining_sticky_iff (show drainingStore.instances.get "s/i" = some drainingInstance.json by decide)
    (Or.inl rfl)).mpr (by decide)

/-- A tick after the TTL and the heartbeat that ends the outage put a draining instance back into
discovery. -/
theorem draining_lifted :
    ¬∀ (st : Store) (key : Key) (inst : Instance) (run : List HealthStep),
      st.instances.get key = some inst → inst.effectiveCheckMode = checkHeartbeat →
        inst.status = statusDraining ∨ inst.status = statusStarting →
          run.Pairwise (fun a b => a.time < b.time) → Always healthStep (NotServed key) st run := by
  intro sticky
  have always := sticky drainingStore "s/i" drainingInstance.json
    [.tick 20000000000 20000000001, .heartbeat 21000000000 "s" "i"] (by decide) (by decide) (Or.inl rfl)
    (by decide)
  exact notServed_iff.mp always.2.2 (by decide)

end Store
end Discovery
