import Discovery.Machine
import Discovery.Store.Instances

namespace Discovery
open Kv Machine
namespace Store

/-- Sets a listed instance down when its TTL has run out. `now` is the tick, `clock` the moment the
status is written. -/
def evalHeartbeat (st : Store) (now clock : Time) (inst : Instance) : Store × List Event :=
  if !inst.expired now then (st, [])
  else if inst.status = statusDown then (st, [])
  else st.settle (st.setStatus clock inst.serviceName inst.id statusDown)

/-- Records what a probe of a listed instance reports, then the status it implies. -/
def evalProbe (st : Store) (clock : Time) (inst : Instance) (ok : Bool)
    (results : List ProbeResult) : Store × List Event :=
  let check := { timestamp := clock, ok, mode := inst.effectiveCheckMode, results }
  let checked := st.settle (st.setLastCheck inst.serviceName inst.id check)
  let desired := if ok then statusUp else statusDown
  if inst.status = desired then checked
  else
    let settled := checked.1.settle (checked.1.setStatus clock inst.serviceName inst.id desired)
    (settled.1, checked.2 ++ settled.2)

/-- What a tick does with one listed instance. `probe` is the report of a probe that is due. -/
def evalInstance (now clock : Time) (probe : Instance → Option (Bool × List ProbeResult))
    (st : Store) (inst : Instance) : Store × List Event :=
  let mode := inst.effectiveCheckMode
  if mode = checkHeartbeat then st.evalHeartbeat now clock inst
  else if mode = checkHTTP ∨ mode = checkTCP then
    match probe inst with
    | none => (st, [])
    | some (ok, results) => st.evalProbe clock inst ok results
  else (st, [])

/-- Evaluates the instances listed when the tick starts. -/
def tick (st : Store) (now clock : Time) (probe : Instance → Option (Bool × List ProbeResult)) :
    Store × List Event :=
  exec (evalInstance now clock probe) st st.listAllInstances

/-- The listed copy makes the checker write "down" under the key. -/
def SetsDown (now : Time) (key : Key) (inst : Instance) : Prop :=
  inst.effectiveCheckMode = checkHeartbeat ∧ inst.expired now ∧ inst.status ≠ statusDown ∧
    instanceKey inst.serviceName inst.id = key

instance (now : Time) (key : Key) (inst : Instance) : Decidable (SetsDown now key inst) :=
  inferInstanceAs (Decidable (_ ∧ _ ∧ _ ∧ _))

/-- The status of a stored record. -/
def statusAt (st : Store) (key : Key) : Option GoString := (st.instances.get key).map (·.status)

/-- The record set down at `clock`, unless it is down already. -/
def downed (clock : Time) (inst : Instance) : Instance :=
  if inst.status = statusDown then inst else (inst.withStatus clock statusDown).json

theorem downed_status (clock : Time) (inst : Instance) : (downed clock inst).status = statusDown := by
  unfold downed
  split
  next down => exact down
  next =>
    have valid : ValidUTF8 statusDown := by decide
    exact valid

theorem downed_downed (clock : Time) (inst : Instance) :
    downed clock (downed clock inst) = downed clock inst :=
  if_pos (downed_status clock inst)

/-- Setting an instance down changes the record under one key, if it is there. -/
theorem get_setDown (st : Store) (clock : Time) (service id : GoString) (key : Key) :
    (st.settle (st.setStatus clock service id statusDown)).1.instances.get key =
      if instanceKey service id = key then (st.instances.get key).map (downed clock)
      else st.instances.get key := by
  cases present : st.instances.get (instanceKey service id) with
  | none =>
    have failed : st.setStatus clock service id statusDown = .error .notFound := by
      rw [setStatus, read, present]
      rfl
    rw [failed, settle]
    split
    next here => rw [← here, present, Option.map_none]
    next => rfl
  | some prev =>
    by_cases same : prev.status = statusDown
    · rw [setStatus_eq_ok.mpr ⟨prev, present, Or.inl ⟨same, rfl⟩⟩, settle]
      split
      next here => rw [← here, present, Option.map_some, downed, if_pos same]
      next => rfl
    · rw [setStatus_eq_ok.mpr ⟨prev, present, Or.inr ⟨same, rfl⟩⟩, settle, get_withInstance]
      by_cases here : instanceKey service id = key
      · rw [if_pos here.symm, if_pos here, ← here, present, Option.map_some, downed, if_neg same]
      · rw [if_neg (Ne.symm here), if_neg here]

/-- What an evaluation without a probe does to the record under a key. -/
theorem get_evalInstance (now clock : Time) (st : Store) (inst : Instance) (key : Key) :
    (evalInstance now clock (fun _ => none) st inst).1.instances.get key =
      if SetsDown now key inst then (st.instances.get key).map (downed clock)
      else st.instances.get key := by
  unfold evalInstance SetsDown
  by_cases mode : inst.effectiveCheckMode = checkHeartbeat
  · unfold evalHeartbeat
    by_cases expired : inst.expired now = true
    · by_cases down : inst.status = statusDown
      · simp [mode, expired, down]
      · have written := st.get_setDown clock inst.serviceName inst.id key
        simpa [mode, expired, down] using written
    · simp [mode, expired]
  · simp only [mode, if_false, false_and]
    split <;> rfl

/-- A tick without probes sets the record under a key down exactly if it lists an expired instance
that names the key. -/
theorem get_tick (st : Store) (now clock : Time) (key : Key) :
    (st.tick now clock (fun _ => none)).1.instances.get key =
      if ∃ inst ∈ st.listAllInstances, SetsDown now key inst then
        (st.instances.get key).map (downed clock)
      else st.instances.get key := by
  unfold tick
  generalize st.listAllInstances = listed
  induction listed generalizing st with
  | nil => simp [exec]
  | cons inst listed ih =>
    rw [exec, ih, get_evalInstance]
    simp only [List.exists_mem_cons_iff]
    by_cases first : SetsDown now key inst <;>
      by_cases later : ∃ i ∈ listed, SetsDown now key i <;>
        simp [first, later, Function.comp_def, downed_downed]

theorem statusAt_tick (st : Store) (now clock : Time) (key : Key) :
    (st.tick now clock (fun _ => none)).1.statusAt key =
      if ∃ inst ∈ st.listAllInstances, SetsDown now key inst then
        (st.statusAt key).map (fun _ => statusDown)
      else st.statusAt key := by
  unfold statusAt
  rw [get_tick]
  split
  · simp [Function.comp_def, downed_status]
  · rfl

end Store
end Discovery
