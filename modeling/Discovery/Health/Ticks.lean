import Discovery.Health.Durations
import Discovery.Health.Probes
import Discovery.Interleave

namespace Discovery
open Kv Machine Interleave

def Instance.ownKey (i : Instance) : Key := instanceKey i.serviceName i.id

namespace Health

/-- One transaction: of the checker, or of anyone else. -/
inductive Act
  | check (service id : GoString) (check : InstanceCheck)
  | status (clock : Time) (service id status : GoString)
  | other (write : Store → Store)

def Act.apply (st : Store) : Act → Store
  | .check service id c => (st.settle (st.setLastCheck service id c)).1
  | .status clock service id s => (st.settle (st.setStatus clock service id s)).1
  | .other write => write st

def Act.own : Act → Bool
  | .other _ => false
  | _ => true

/-- The checker's transaction is about the record under the key. -/
def Act.touches (key : Key) : Act → Bool
  | .check service id _ | .status _ service id _ => instanceKey service id = key
  | .other _ => false

/-- The environment of a tick: what the network answers to each instance's probes, when they are done and when
the statuses are written. -/
structure World where
  answers : Instance → Answers
  checkedAt : Instance → Time
  writtenAt : Instance → Time

/-- A probe that was made. -/
structure Probe where
  time : Time
  inst : Instance
  answers : Answers
  check : InstanceCheck

/-- The status that a probe implies. -/
def Probe.verdict (p : Probe) : GoString := if p.check.ok then statusUp else statusDown

def evalHeartbeat (now : Time) (w : World) (inst : Instance) : List Act :=
  if !inst.expired now then []
  else if inst.status = statusDown then []
  else [.status (w.writtenAt inst) inst.serviceName inst.id statusDown]

def probe (now : Time) (w : World) (inst : Instance) : Probe where
  time := now
  inst
  answers := w.answers inst
  check :=
    let (ok, results) := checkInstance (w.checkedAt inst) (w.answers inst) inst
    { timestamp := w.checkedAt inst, ok, mode := inst.effectiveCheckMode, results }

def evalProbe (now : Time) (w : World) (inst : Instance) : List Act :=
  let desired := (probe now w inst).verdict
  .check inst.serviceName inst.id (probe now w inst).check ::
    if inst.status = desired then [] else [.status (w.writtenAt inst) inst.serviceName inst.id desired]

/-- A tick's loop: the transactions of the loop itself, those of each goroutine, the times of the last probes, and
the probes it makes. -/
structure Round where
  main : List Act := []
  probes : List (List Act) := []
  lastProbed : Key → Option Time
  made : List Probe := []

def Round.eval (now : Time) (w : World) (r : Round) (inst : Instance) : Round :=
  let mode := inst.effectiveCheckMode
  if mode = checkHeartbeat then { r with main := r.main ++ evalHeartbeat now w inst }
  else if Probed inst then
    let (due, lastProbed) := Store.dueForProbe r.lastProbed inst now
    if !due then r
    else
      { r with
        lastProbed
        probes := r.probes ++ [evalProbe now w inst]
        made := r.made ++ [probe now w inst] }
  else r

def round (now : Time) (w : World) (lastProbed : Key → Option Time) (insts : List Instance) : Round :=
  insts.foldl (Round.eval now w) { lastProbed }

structure Checker where
  store : Store
  lastProbed : Key → Option Time

/-- A tick, with the order in which its transactions and everyone else's came until the next one. -/
structure Tick where
  now : Time
  world : World
  schedule : List Act

def Checker.round (c : Checker) (t : Tick) : Round := Health.round t.now t.world c.lastProbed c.store.listAllInstances

def step (c : Checker) (t : Tick) : Checker × List Probe :=
  let r := c.round t
  (⟨t.schedule.foldl Act.apply c.store, r.lastProbed⟩, r.made)

/-- The schedule takes the loop and the goroutines in turns, whichever way. At most 32 goroutines run at a time,
and none before the loop comes to its instance; neither is asked for. -/
def Turns (c : Checker) (t : Tick) : Prop :=
  Interleaves ((c.round t).main :: (c.round t).probes) (t.schedule.filter Act.own)

/-- Every instance lies under the key made of its own fields. -/
def Keyed (st : Store) : Prop := ∀ key inst, st.instances.get key = some inst → inst.ownKey = key

def Act.on (i : Instance) : Act → Instance
  | .check _ _ c => (i.checked c).json
  | .status clock _ _ s => if i.status = s then i else (i.withStatus clock s).json
  | .other _ => i

/-- `j` is the instance after some of the checker's transactions. -/
structure Alike (i j : Instance) : Prop where
  same : j = { i with status := j.status, updatedAt := j.updatedAt, lastCheck := j.lastCheck }

theorem Alike.refl (i : Instance) : Alike i i := ⟨rfl⟩

/-- Records that differ in what is reported of them only are registrations of the same instance. -/
theorem Alike.trans {i j k : Instance} (first : Alike i j) (second : Alike j k) : Alike i k := by
  constructor
  rw [second.same, first.same]

theorem Alike.ownKey {i j : Instance} (alike : Alike i j) : j.ownKey = i.ownKey := by
  rw [alike.same]
  rfl

theorem Alike.probed {i j : Instance} (alike : Alike i j) : Probed j ↔ Probed i := by
  rw [alike.same]
  rfl

/-- What a probe finds depends on the registration alone. -/
theorem Alike.passes {i j : Instance} (alike : Alike i j) (answers : Answers) : Passes answers j ↔ Passes answers i := by
  rw [alike.same]
  rfl

/-- Storing a record that was read changes nothing but what was written into it. -/
theorem alike_json {i : Instance} (clean : i.json = i) (status : GoString) (updatedAt : Time)
    (lastCheck : Option InstanceCheck) : Alike i { i with status, updatedAt, lastCheck : Instance }.json := by
  constructor
  conv_rhs => rw [← clean]
  rfl

/-- A transaction of the checker changes what is reported of an instance, and not its registration. -/
theorem Act.alike {i : Instance} (clean : i.json = i) (a : Act) : Alike i (a.on i) := by
  cases a with
  | check service id c => exact alike_json clean i.status i.updatedAt (some c)
  | status clock service id s =>
    rw [Act.on]
    split
    · exact .refl i
    · exact alike_json clean s clock i.lastCheck
  | other write => exact .refl i

theorem Act.on_clean {i : Instance} (clean : i.json = i) (a : Act) : (a.on i).json = a.on i := by
  cases a with
  | check service id c => exact Instance.json_idem _
  | status clock service id s =>
    rw [Act.on]
    split
    · exact clean
    · exact Instance.json_idem _
  | other write => exact clean

theorem get_settle_update {β : Type} (st : Store) (service id : GoString) (f : Instance → Instance)
    (value : Instance → β) (events : Instance → List Event) (key : Key) :
    (st.settle (st.updateInstance service id f value events)).1.instances.get key =
      if instanceKey service id = key then (st.instances.get key).map fun i => (f i).json
      else st.instances.get key := by
  cases present : st.instances.get (instanceKey service id) with
  | none =>
    have failed : st.updateInstance service id f value events = .error .notFound := by
      rw [Store.updateInstance, read, present]
      rfl
    rw [failed, Store.settle]
    split
    next here => rw [← here, present, Option.map_none]
    next => rfl
  | some prev =>
    obtain ⟨r, done, after⟩ := Store.get_updateInstance f value events present
    rw [done, Store.settle, after]
    by_cases here : instanceKey service id = key
    · rw [if_pos here.symm, if_pos here, ← here, present, Option.map_some]
    · rw [if_neg (Ne.symm here), if_neg here]

/-- A transaction of the checker updates the record it is about, if it is there. -/
theorem Act.get_apply (st : Store) {a : Act} (own : a.own = true) (key : Key) :
    (a.apply st).instances.get key =
      if a.touches key then (st.instances.get key).map fun i => a.on i else st.instances.get key := by
  cases a with
  | check service id c =>
    simp only [Act.touches, decide_eq_true_eq]
    exact get_settle_update st service id _ _ _ key
  | status clock service id s =>
    simp only [Act.touches, decide_eq_true_eq, Act.apply]
    cases present : st.instances.get (instanceKey service id) with
    | none =>
      have failed : st.setStatus clock service id s = .error .notFound := by
        rw [Store.setStatus, read, present]
        rfl
      rw [failed, Store.settle]
      split
      next here => rw [← here, present, Option.map_none]
      next => rfl
    | some prev =>
      by_cases same : prev.status = s
      · rw [Store.setStatus_eq_ok.mpr ⟨prev, present, Or.inl ⟨same, rfl⟩⟩, Store.settle]
        split
        next here => rw [← here, present, Option.map_some, Act.on, if_pos same]
        next => rfl
      · rw [Store.setStatus_eq_ok.mpr ⟨prev, present, Or.inr ⟨same, rfl⟩⟩, Store.settle, Store.get_withInstance]
        by_cases here : instanceKey service id = key
        · rw [if_pos here.symm, if_pos here, ← here, present, Option.map_some, Act.on, if_neg same]
        · rw [if_neg (Ne.symm here), if_neg here]
  | other write => cases own

/-- It finds the record under its own key and leaves it there. -/
theorem Keyed.apply {st : Store} (keyed : Keyed st) {a : Act} (own : a.own = true) : Keyed (a.apply st) := by
  intro key inst present
  rw [Act.get_apply st own] at present
  split at present
  · obtain ⟨prev, stored, rfl⟩ := Option.map_eq_some_iff.mp present
    rw [(a.alike (Bucket.clean stored)).ownKey]
    exact keyed key prev stored
  · exact keyed key inst present

/-- The time between two probes of the instance. -/
def probeInterval (inst : Instance) : Int :=
  if seconds inst.checkIntervalSec ≤ 0 then defaultCheckInterval else seconds inst.checkIntervalSec

/-- An instance is never probed without a pause. -/
theorem probeInterval_pos (inst : Instance) : 0 < probeInterval inst := by
  rw [probeInterval]
  split
  · decide
  · omega

/-- Saturation makes no difference: no interval is as long as the longest duration. -/
theorem timeSub_lt_interval (inst : Instance) (now last : Time) :
    timeSub now last < probeInterval inst ↔ now < last + probeInterval inst := by
  have positive := probeInterval_pos inst
  have short : probeInterval inst < 2 ^ 63 - 1 := by
    have limit := seconds_lt inst.checkIntervalSec
    rw [probeInterval]
    split
    · decide
    · exact limit
  rw [timeSub]
  constructor
  · intro soon
    by_contra late
    lia
  · intro soon
    lia

/-- A probe is due unless there was one within the interval. -/
theorem dueForProbe_eq (probed : Key → Option Time) (inst : Instance) (now : Time) :
    Store.dueForProbe probed inst now =
      if ∀ last, probed inst.ownKey = some last → last + probeInterval inst ≤ now then
        (true, fun k => if k = inst.ownKey then some now else probed k)
      else (false, probed) := by
  have same : Store.dueForProbe probed inst now =
      if (probed inst.ownKey).any (fun last => timeSub now last < probeInterval inst) then (false, probed)
      else (true, fun k => if k = inst.ownKey then some now else probed k) := rfl
  rw [same]
  cases probed inst.ownKey with
  | none => simp
  | some last =>
    simp only [Option.any_some, decide_eq_true_eq, timeSub_lt_interval, Option.some.injEq, forall_eq']
    by_cases soon : now < last + probeInterval inst
    · rw [if_pos soon, if_neg (Int.not_le.mpr soon)]
    · rw [if_neg soon, if_pos (Int.not_lt.mp soon)]

section
variable (now : Time) (w : World) (lastProbed : Key → Option Time)

def beats (inst : Instance) : List Act :=
  if inst.effectiveCheckMode = checkHeartbeat then evalHeartbeat now w inst else []

/-- The tick makes a probe of the instance. -/
def Due (inst : Instance) : Prop :=
  Probed inst ∧ ∀ last, lastProbed inst.ownKey = some last → last + probeInterval inst ≤ now

instance (inst : Instance) : Decidable (Due now lastProbed inst) := inferInstanceAs (Decidable (_ ∧ _))

/-- Everything the tick does about one instance. -/
def actsOf (inst : Instance) : List Act :=
  beats now w inst ++ if Due now lastProbed inst then evalProbe now w inst else []

/-- Instances that report themselves are not probed. -/
theorem not_due_of_heartbeat {inst : Instance} (heart : inst.effectiveCheckMode = checkHeartbeat) :
    ¬Due now lastProbed inst := by
  rintro ⟨http | tcp, -⟩
  · exact absurd (heart.symm.trans http) (by decide)
  · exact absurd (heart.symm.trans tcp) (by decide)

/-- What the loop adds for one instance. -/
theorem Round.eval_eq (r : Round) (inst : Instance) : r.eval now w inst =
    if Due now r.lastProbed inst then
      { r with
        probes := r.probes ++ [evalProbe now w inst]
        lastProbed := fun k => if k = inst.ownKey then some now else r.lastProbed k
        made := r.made ++ [probe now w inst] }
    else { r with main := r.main ++ beats now w inst } := by
  rw [Round.eval, dueForProbe_eq]
  by_cases heart : inst.effectiveCheckMode = checkHeartbeat
  · rw [if_neg (not_due_of_heartbeat now r.lastProbed heart), beats, if_pos heart, if_pos heart]
  · rw [if_neg heart, beats, if_neg heart, List.append_nil]
    by_cases probed : Probed inst
    · rw [if_pos probed]
      by_cases late : ∀ last, r.lastProbed inst.ownKey = some last → last + probeInterval inst ≤ now
      · rw [if_pos late, if_pos ⟨probed, late⟩]
        rfl
      · rw [if_neg late, if_neg fun due => late due.2]
        rfl
    · rw [if_neg probed, if_neg fun due => probed due.1]

/-- The instances of a tick are looked at one after the other. -/
theorem round_concat (insts : List Instance) (inst : Instance) :
    round now w lastProbed (insts ++ [inst]) = (round now w lastProbed insts).eval now w inst := by
  rw [round, List.foldl_append, ← round, List.foldl_cons, List.foldl_nil]

/-- The loop leaves alone the times of the instances it does not come to. -/
theorem lastProbed_round {insts : List Instance} {key : Key} (other : key ∉ insts.map Instance.ownKey) :
    (round now w lastProbed insts).lastProbed key = lastProbed key := by
  induction insts using List.reverseRecOn with
  | nil => rfl
  | append_singleton insts inst ih =>
    rw [List.map_append, List.mem_append, not_or] at other
    obtain ⟨before, last⟩ := other
    rw [round_concat, Round.eval_eq]
    split
    next =>
      have fresh : key ≠ inst.ownKey := fun same => last (List.mem_singleton.mpr same)
      exact (if_neg fresh).trans (ih before)
    next => exact ih before

/-- With each instance listed once, whether it is due does not depend on the ones before. -/
theorem due_round {insts : List Instance} {inst : Instance}
    (nodup : ((insts ++ [inst]).map Instance.ownKey).Nodup) :
    Due now (round now w lastProbed insts).lastProbed inst ↔ Due now lastProbed inst := by
  have fresh : inst.ownKey ∉ insts.map Instance.ownKey := by
    intro member
    rw [List.map_append, List.nodup_append] at nodup
    exact nodup.2.2 _ member _ List.mem_cons_self rfl
  rw [Due, Due, lastProbed_round now w lastProbed fresh]

/-- For instances of different keys the round is made of the rounds of each, since none of them looks at the last
probe of another. -/
theorem round_eq {insts : List Instance} (nodup : (insts.map Instance.ownKey).Nodup) :
    round now w lastProbed insts =
      { main := insts.flatMap (beats now w)
        probes := (insts.filter (Due now lastProbed ·)).map (evalProbe now w)
        lastProbed := fun k => if k ∈ (insts.filter (Due now lastProbed ·)).map Instance.ownKey then some now
          else lastProbed k
        made := (insts.filter (Due now lastProbed ·)).map (probe now w) } := by
  induction insts using List.reverseRecOn with
  | nil => rfl
  | append_singleton insts inst ih =>
    have unseen := due_round now w lastProbed nodup
    rw [List.map_append, List.nodup_append] at nodup
    have first := ih nodup.1
    rw [round_concat, Round.eval_eq, if_congr unseen rfl rfl, List.flatMap_append, List.flatMap_singleton,
      List.filter_append, first]
    by_cases due : Due now lastProbed inst
    · have silent : beats now w inst = [] := by
        rw [beats, if_neg fun heart => not_due_of_heartbeat now lastProbed heart due]
      have listed : [inst].filter (Due now lastProbed ·) = [inst] := List.filter_cons_of_pos (decide_eq_true due)
      rw [if_pos due, listed, silent, List.append_nil, List.map_append, List.map_append, List.map_append]
      simp only [Round.mk.injEq, List.map_cons, List.map_nil, List.mem_append, List.mem_singleton, true_and, and_true]
      funext k
      split_ifs <;> grind
    · have passed : [inst].filter (Due now lastProbed ·) = [] :=
        List.filter_cons_of_neg (by simpa using due)
      rw [if_neg due, passed, List.append_nil]

/-- What is done about an instance touches its own record only. -/
theorem touches_actsOf {inst : Instance} {a : Act} (member : a ∈ actsOf now w lastProbed inst) :
    a.own = true ∧ ∀ key, a.touches key = decide (inst.ownKey = key) := by
  have shape : (∃ c, a = .check inst.serviceName inst.id c) ∨
      ∃ clock s, a = .status clock inst.serviceName inst.id s := by
    rw [actsOf, beats, evalHeartbeat, evalProbe, List.mem_append] at member
    rcases member with beat | probe
    · split_ifs at beat <;> simp only [List.mem_singleton, List.not_mem_nil] at beat
      exact Or.inr ⟨_, _, beat⟩
    · split at probe
      · rcases List.mem_cons.mp probe with check | status
        · exact Or.inl ⟨_, check⟩
        · split_ifs at status
          · cases status
          · exact Or.inr ⟨_, _, List.mem_singleton.mp status⟩
      · cases probe
  rcases shape with ⟨c, rfl⟩ | ⟨clock, s, rfl⟩
  · exact ⟨rfl, fun key => rfl⟩
  · exact ⟨rfl, fun key => rfl⟩

end

/-- Of the transactions of one instance all concern its key, or none. -/
theorem filter_own {inst : Instance} {acts : List Act}
    (own : ∀ a ∈ acts, ∀ key, a.touches key = decide (inst.ownKey = key)) (key : Key) :
    acts.filter (Act.touches key) = if inst.ownKey = key then acts else [] := by
  split
  next same =>
    refine List.filter_eq_self.mpr fun a member => ?_
    rw [own a member]
    exact decide_eq_true same
  next other =>
    refine List.filter_eq_nil_iff.mpr fun a member => ?_
    rw [own a member]
    simpa using other

section
variable {now : Time} {w : World} {lastProbed : Key → Option Time} {inst : Instance}

theorem filter_beats (key : Key) : (beats now w inst).filter (Act.touches key) =
    if inst.ownKey = key then beats now w inst else [] :=
  filter_own (fun _ member => (touches_actsOf now w (fun _ => none) (List.mem_append_left _ member)).2) key

theorem filter_evalProbe (due : Due now lastProbed inst) (key : Key) :
    (evalProbe now w inst).filter (Act.touches key) = if inst.ownKey = key then evalProbe now w inst else [] := by
  refine filter_own (fun _ member => (touches_actsOf now w lastProbed (List.mem_append_right _ ?_)).2) key
  rwa [if_pos due]

/-- An instance that is probed is not asked for its heartbeat. -/
theorem beats_of_due (due : Due now lastProbed inst) : beats now w inst = [] :=
  if_neg fun heart => not_due_of_heartbeat now lastProbed heart due

end

end Health
end Discovery
