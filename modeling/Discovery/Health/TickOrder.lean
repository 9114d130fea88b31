import Discovery.Health.Ticks

namespace Discovery
open Kv Machine Interleave
namespace Health

/-- No two listed instances have the same key. -/
theorem Keyed.nodup {st : Store} (keyed : Keyed st) : (st.listAllInstances.map Instance.ownKey).Nodup := by
  have keys : st.listAllInstances.map Instance.ownKey = st.instances.toList.map Prod.fst := by
    rw [Store.listAllInstances, Bucket.values, List.map_map]
    exact List.map_congr_left fun e member => keyed e.1 e.2 (Bucket.mem_toList.mp member)
  rw [keys]
  refine List.pairwise_map.mpr ((Bucket.toList_sorted st.instances).imp fun {e f} below same => ?_)
  have self : compare f.1 f.1 = .eq := Std.ReflCmp.compare_self
  rw [same, self] at below
  cases below

/-- A listed instance is the one stored under its own key. -/
theorem Keyed.mem_iff {st : Store} (keyed : Keyed st) {inst : Instance} :
    inst ∈ st.listAllInstances ↔ st.instances.get inst.ownKey = some inst := by
  rw [Store.listAllInstances, Bucket.mem_values]
  constructor
  · rintro ⟨key, present⟩
    rwa [keyed key inst present]
  · intro present
    exact ⟨_, present⟩

/-- At most one listed instance has the key. -/
theorem Keyed.filter_listed {st : Store} (keyed : Keyed st) (key : Key) :
    st.listAllInstances.filter (·.ownKey = key) = (st.instances.get key).toList := by
  have nodup : st.listAllInstances.Nodup :=
    List.Pairwise.of_map _ (fun _ _ different same => different (same ▸ rfl)) keyed.nodup
  cases present : st.instances.get key with
  | none =>
    refine List.filter_eq_nil_iff.mpr fun i listed same => ?_
    obtain rfl := of_decide_eq_true same
    rw [keyed.mem_iff.mp listed] at present
    cases present
  | some inst =>
    obtain rfl := keyed key inst present
    refine List.perm_singleton.mp ((List.perm_ext_iff_of_nodup (nodup.filter _) (List.pairwise_singleton _ inst)).mpr ?_)
    intro i
    rw [List.mem_filter, List.mem_singleton, decide_eq_true_eq]
    constructor
    · rintro ⟨listed, same⟩
      have stored := keyed.mem_iff.mp listed
      rw [same, present] at stored
      exact (Option.some.inj stored).symm
    · rintro rfl
      exact ⟨keyed.mem_iff.mpr present, rfl⟩

theorem flatMap_ite {ι α : Type} (l : List ι) (p : ι → Prop) [DecidablePred p] (f : ι → List α) :
    l.flatMap (fun i => if p i then f i else []) = (l.filter (p ·)).flatMap f := by
  induction l with
  | nil => rfl
  | cons i l ih =>
    rw [List.flatMap_cons, ih]
    by_cases chosen : p i
    · simp [chosen]
    · simp [chosen]

/-- Everyone else's transactions of the tick keep the records under their keys, and leave this one alone. -/
def Tick.Spares (key : Key) (t : Tick) : Prop :=
  ∀ write, .other write ∈ t.schedule →
    (∀ st, Keyed st → Keyed (write st)) ∧ ∀ st, (write st).instances.get key = st.instances.get key

/-- Someone else's heartbeat of another instance leaves the record alone. -/
theorem spares_heartbeat {key : Key} {service id : GoString} (other : instanceKey service id ≠ key) (now : Time)
    (status : GoString) :
    (∀ st, Keyed st → Keyed (st.settle (st.heartbeat now service id status)).1) ∧
      ∀ st : Store, (st.settle (st.heartbeat now service id status)).1.instances.get key = st.instances.get key := by
  constructor
  · intro st keyed j inst present
    rw [Store.heartbeat, get_settle_update] at present
    split at present
    · obtain ⟨prev, stored, rfl⟩ := Option.map_eq_some_iff.mp present
      obtain ⟨name, own⟩ := Instance.json_key (i := prev.beat now status) (Bucket.clean stored) rfl rfl
      rw [Instance.ownKey, name, own]
      exact keyed j prev stored
    · exact keyed j inst present
  · intro st
    rw [Store.heartbeat, get_settle_update, if_neg other]

section
variable {c : Checker} {t : Tick} {key : Key}

/-- One thread at most has something to do about a record. -/
theorem threads_apart (keyed : Keyed c.store) (key : Key) :
    ((c.round t).main :: (c.round t).probes).Pairwise fun u v =>
      u.filter (Act.touches key) = [] ∨ v.filter (Act.touches key) = [] := by
  have nodup := keyed.nodup
  have distinct := List.pairwise_map.mp nodup
  have dueOf {i : Instance} (kept : i ∈ c.store.listAllInstances.filter (Due t.now c.lastProbed ·)) :
      Due t.now c.lastProbed i := of_decide_eq_true (List.mem_filter.mp kept).2
  rw [Checker.round, round_eq t.now t.world c.lastProbed nodup]
  refine List.pairwise_cons.mpr ⟨fun probe member => ?_, ?_⟩
  · obtain ⟨i, kept, rfl⟩ := List.mem_map.mp member
    rw [filter_evalProbe (dueOf kept)]
    by_cases own : i.ownKey = key
    · left
      rw [List.filter_flatMap, List.flatMap_eq_nil_iff]
      intro j listed
      rw [filter_beats]
      split
      next same =>
        have stored := keyed.mem_iff.mp listed
        rw [same, ← own, keyed.mem_iff.mp (List.mem_of_mem_filter kept)] at stored
        obtain rfl := Option.some.inj stored
        exact beats_of_due (dueOf kept)
      next => rfl
    · exact Or.inr (if_neg own)
  · refine List.pairwise_map.mpr ((distinct.filter _).imp_of_mem fun {i j} kept kept' different => ?_)
    rw [filter_evalProbe (dueOf kept), filter_evalProbe (dueOf kept')]
    by_cases own : i.ownKey = key
    · exact Or.inr (if_neg fun same => different (own.trans same.symm))
    · exact Or.inl (if_neg own)

/-- What a tick does about the record under a key, in the order of the one thread that does it. -/
theorem filter_schedule (keyed : Keyed c.store) (turns : Turns c t) (key : Key) :
    t.schedule.filter (Act.touches key) =
      (c.store.instances.get key).toList.flatMap (actsOf t.now t.world c.lastProbed) := by
  have owned : t.schedule.filter (Act.touches key) = (t.schedule.filter Act.own).filter (Act.touches key) := by
    rw [List.filter_filter]
    refine List.filter_congr fun a _ => ?_
    cases a <;> simp [Act.own, Act.touches]
  have shape : c.round t = _ := round_eq t.now t.world c.lastProbed keyed.nodup
  have main : (c.round t).main.filter (Act.touches key) =
      (c.store.instances.get key).toList.flatMap (beats t.now t.world) := by
    rw [shape, List.filter_flatMap, ← keyed.filter_listed, ← flatMap_ite]
    exact List.flatMap_congr fun i _ => filter_beats key
  have probes : (c.round t).probes.flatten.filter (Act.touches key) =
      ((c.store.instances.get key).toList.filter (Due t.now c.lastProbed ·)).flatMap (evalProbe t.now t.world) := by
    have swap : ((c.store.instances.get key).toList.filter (Due t.now c.lastProbed ·)) =
        (c.store.listAllInstances.filter (Due t.now c.lastProbed ·)).filter (·.ownKey = key) := by
      rw [← keyed.filter_listed, List.filter_filter, List.filter_filter]
      exact List.filter_congr fun i _ => Bool.and_comm _ _
    rw [shape, ← List.flatMap_def, List.filter_flatMap, swap]
    refine (List.flatMap_congr fun i kept => ?_).trans (flatMap_ite _ _ _)
    exact filter_evalProbe (of_decide_eq_true (List.mem_filter.mp kept).2) key
  rw [owned, turns.filter_eq (threads_apart keyed key), List.flatten_cons, List.filter_append, main, probes]
  cases c.store.instances.get key with
  | none => rfl
  | some inst =>
    rw [Option.toList_some, List.flatMap_singleton, List.flatMap_singleton, actsOf]
    by_cases due : Due t.now c.lastProbed inst
    · simp [due]
    · simp [due]

theorem foldl_map_on (acts : List Act) (i : Option Instance) :
    acts.foldl (fun i a => i.map fun i => a.on i) i = i.map fun i => acts.foldl Act.on i := by
  cases i with
  | none =>
    induction acts with
    | nil => rfl
    | cons a acts ih => exact ih
  | some i =>
    induction acts generalizing i with
    | nil => rfl
    | cons a acts ih => exact ih (a.on i)

/-- Whatever turns the goroutines take, a record goes through the transactions that are about it. -/
theorem get_step (keyed : Keyed c.store) (turns : Turns c t) (spares : t.Spares key) :
    (step c t).1.store.instances.get key = (c.store.instances.get key).map fun inst =>
      (actsOf t.now t.world c.lastProbed inst).foldl Act.on inst := by
  have own (a : Act) (_ : a ∈ t.schedule) (touches : a.touches key = true) (st : Store) :
      (a.apply st).instances.get key = (st.instances.get key).map fun i => a.on i := by
    have mine : a.own = true := by
      cases a <;> first | rfl | cases touches
    rw [Act.get_apply st mine, if_pos touches]
  have frame (a : Act) (member : a ∈ t.schedule) (passes : a.touches key = false) (st : Store) :
      (a.apply st).instances.get key = st.instances.get key := by
    by_cases mine : a.own = true
    · rw [Act.get_apply st mine, if_neg (by simp [passes])]
    · cases a with
      | other write => exact (spares write member).2 st
      | check service id check => exact absurd rfl mine
      | status clock service id status => exact absurd rfl mine
  have run := read_foldl (fun st : Store => st.instances.get key) (fun i a => i.map fun i => a.on i) own frame c.store
  rw [step, run, filter_schedule keyed turns, foldl_map_on]
  cases c.store.instances.get key with
  | none => rfl
  | some inst => rw [Option.toList_some, List.flatMap_singleton, Option.map_some, Option.map_some]

/-- A tick keeps every record under the key made of its own fields, unless something else replaces it. -/
theorem keyed_step (keyed : Keyed c.store) (spares : t.Spares key) : Keyed (step c t).1.store := by
  have keeps : ∀ a ∈ t.schedule, ∀ st, Keyed st → Keyed (a.apply st) := by
    intro a member st before
    cases a with
    | other write => exact (spares write member).1 st before
    | check service id check => exact before.apply rfl
    | status clock service id status => exact before.apply rfl
  rw [step]
  generalize t.schedule = schedule at keeps
  revert keyed
  generalize c.store = st
  intro keyed
  induction schedule generalizing st with
  | nil => exact keyed
  | cons a schedule ih =>
    obtain ⟨first, rest⟩ := List.forall_mem_cons.mp keeps
    exact ih rest _ (first st keyed)

/-- The probe that the tick makes of the record under a key, if it is due. -/
theorem made_step (keyed : Keyed c.store) (key : Key) : (step c t).2.filter (·.inst.ownKey = key) =
    ((c.store.instances.get key).toList.filter (Due t.now c.lastProbed ·)).map (probe t.now t.world) := by
  have made : (step c t).2 = (c.store.listAllInstances.filter (Due t.now c.lastProbed ·)).map (probe t.now t.world) :=
    congrArg Round.made (round_eq t.now t.world c.lastProbed keyed.nodup)
  rw [made, List.filter_map, List.filter_filter, ← keyed.filter_listed, List.filter_filter]
  refine congrArg _ (List.filter_congr fun i _ => ?_)
  exact Bool.and_comm _ _

/-- A tick notes its own time for the instances that were due, and for no others. -/
theorem lastProbed_step (keyed : Keyed c.store) {inst : Instance} (present : c.store.instances.get key = some inst) :
    (step c t).1.lastProbed key = if Due t.now c.lastProbed inst then some t.now else c.lastProbed key := by
  have own := keyed key inst present
  have shape : (step c t).1.lastProbed key = _ :=
    congrFun (congrArg Round.lastProbed (round_eq t.now t.world c.lastProbed keyed.nodup)) key
  rw [shape]
  refine if_congr ⟨fun member => ?_, fun due => ?_⟩ rfl rfl
  · obtain ⟨j, kept, same⟩ := List.mem_map.mp member
    obtain ⟨listed, due⟩ := List.mem_filter.mp kept
    obtain rfl : j = inst := by
      have stored := keyed.mem_iff.mp listed
      rw [same, present] at stored
      exact (Option.some.inj stored).symm
    exact of_decide_eq_true due
  · refine List.mem_map.mpr ⟨inst, List.mem_filter.mpr ⟨?_, decide_eq_true due⟩, own⟩
    exact keyed.mem_iff.mpr (own ▸ present)

end

/-- The evaluation of one listed instance, its transactions one right after the other. -/
def Checker.eval (now : Time) (w : World) (c : Checker) (inst : Instance) : Checker :=
  let mode := inst.effectiveCheckMode
  if mode = checkHeartbeat then { c with store := (evalHeartbeat now w inst).foldl Act.apply c.store }
  else if Probed inst then
    let (due, lastProbed) := Store.dueForProbe c.lastProbed inst now
    if !due then c else ⟨(evalProbe now w inst).foldl Act.apply c.store, lastProbed⟩
  else c

/-- A tick without goroutines: it evaluates one instance after the other, each report and each status written
at its own time. -/
def Checker.serialTick (c : Checker) (t : Tick) : Checker :=
  c.store.listAllInstances.foldl (Checker.eval t.now t.world) c

/-- The evaluation of one instance is the list of its transactions, one after the other. -/
theorem Checker.eval_eq (now : Time) (w : World) (c : Checker) (inst : Instance) : c.eval now w inst =
    { store := (actsOf now w c.lastProbed inst).foldl Act.apply c.store
      lastProbed := if Due now c.lastProbed inst then fun k => if k = inst.ownKey then some now else c.lastProbed k
        else c.lastProbed } := by
  rw [Checker.eval, dueForProbe_eq, actsOf, beats]
  by_cases heart : inst.effectiveCheckMode = checkHeartbeat
  · have idle := not_due_of_heartbeat now c.lastProbed heart
    rw [if_pos heart, if_pos heart, if_neg idle, if_neg idle, List.append_nil]
  · rw [if_neg heart, if_neg heart, List.nil_append]
    by_cases probed : Probed inst
    · rw [if_pos probed]
      by_cases late : ∀ last, c.lastProbed inst.ownKey = some last → last + probeInterval inst ≤ now
      · rw [if_pos late, if_pos ⟨probed, late⟩, if_pos ⟨probed, late⟩]
        rfl
      · rw [if_neg late, if_neg fun due => late due.2, if_neg fun due => late due.2]
        rfl
    · rw [if_neg probed, if_neg fun due => probed due.1, if_neg fun due => probed due.1]
      rfl

/-- Serially the loop does the transactions of each instance in turn; the times of the probes are the same. -/
theorem foldl_eval (now : Time) (w : World) (c : Checker) {insts : List Instance}
    (nodup : (insts.map Instance.ownKey).Nodup) : insts.foldl (Checker.eval now w) c =
      { store := (insts.flatMap (actsOf now w c.lastProbed)).foldl Act.apply c.store
        lastProbed := (round now w c.lastProbed insts).lastProbed } := by
  induction insts using List.reverseRecOn with
  | nil => rfl
  | append_singleton insts inst ih =>
    have before : (insts.map Instance.ownKey).Nodup := by
      rw [List.map_append] at nodup
      exact (List.nodup_append.mp nodup).1
    have unseen := due_round now w c.lastProbed nodup
    have acts : actsOf now w (round now w c.lastProbed insts).lastProbed inst = actsOf now w c.lastProbed inst := by
      rw [actsOf, actsOf, if_congr unseen rfl rfl]
    rw [List.foldl_append, ih before, List.foldl_cons, List.foldl_nil, Checker.eval_eq, acts, List.flatMap_append,
      List.flatMap_singleton, List.foldl_append]
    rw [round_concat, Round.eval_eq]
    split <;> rfl

/-- The report that an evaluation of a listed instance gets, where a probe is due. -/
def report (c : Checker) (t : Tick) (inst : Instance) : Option (Bool × List ProbeResult) :=
  if (Store.dueForProbe c.lastProbed inst t.now).1 then
    some (checkInstance (t.world.checkedAt inst) (t.world.answers inst) inst)
  else none

/-- The report and the status of a probe are two transactions, each on the record as it finds it. -/
theorem evalProbe_eq (now : Time) {w : World} {inst : Instance} (clock : w.checkedAt inst = w.writtenAt inst)
    (st : Store) :
    (st.evalProbe (w.writtenAt inst) inst (checkInstance (w.checkedAt inst) (w.answers inst) inst).1
      (checkInstance (w.checkedAt inst) (w.answers inst) inst).2).1 =
      (evalProbe now w inst).foldl Act.apply st := by
  rw [Store.evalProbe, evalProbe, Probe.verdict, probe, ← clock]
  by_cases same : inst.status = if (checkInstance (w.checkedAt inst) (w.answers inst) inst).1 then statusUp
      else statusDown
  · rw [if_pos same, if_pos same]
    rfl
  · rw [if_neg same, if_neg same]
    rfl

theorem evalInstance_eq (c : Checker) (t : Tick) (inst : Instance) {clock : Time}
    (checked : t.world.checkedAt inst = clock) (written : t.world.writtenAt inst = clock) (st : Store) :
    (Store.evalInstance t.now clock (report c t) st inst).1 =
      (actsOf t.now t.world c.lastProbed inst).foldl Act.apply st := by
  rw [Store.evalInstance, actsOf]
  by_cases heart : inst.effectiveCheckMode = checkHeartbeat
  · rw [if_pos heart, beats, if_pos heart, if_neg (not_due_of_heartbeat _ _ heart), List.append_nil, evalHeartbeat,
      Store.evalHeartbeat]
    split_ifs
    · rfl
    · rfl
    · rw [written]
      rfl
  · rw [if_neg heart, beats, if_neg heart, List.nil_append, report, dueForProbe_eq]
    by_cases probed : Probed inst
    · have mode : inst.effectiveCheckMode = checkHTTP ∨ inst.effectiveCheckMode = checkTCP := probed
      rw [if_pos mode]
      by_cases late : ∀ last, c.lastProbed inst.ownKey = some last → last + probeInterval inst ≤ t.now
      · rw [if_pos late, if_pos rfl, if_pos ⟨probed, late⟩, ← written]
        exact evalProbe_eq t.now (checked.trans written.symm) st
      · rw [if_neg late, if_neg Bool.false_ne_true, if_neg fun due => late due.2]
        rfl
    · have mode : ¬(inst.effectiveCheckMode = checkHTTP ∨ inst.effectiveCheckMode = checkTCP) := probed
      rw [if_neg mode, if_neg fun due => probed due.1]
      rfl

/-- Where every report and status of a tick is written at the same moment, it is the tick of the store. -/
theorem serialTick_store {c : Checker} {t : Tick} (keyed : Keyed c.store) {clock : Time}
    (checked : ∀ i, t.world.checkedAt i = clock) (written : ∀ i, t.world.writtenAt i = clock) :
    (c.serialTick t).store = (c.store.tick t.now clock (report c t)).1 := by
  rw [Checker.serialTick, foldl_eval t.now t.world c keyed.nodup, Store.tick]
  generalize c.store.listAllInstances = insts
  generalize c.store = st
  induction insts generalizing st with
  | nil => rfl
  | cons inst insts ih =>
    rw [exec, evalInstance_eq c t inst (checked inst) (written inst), List.flatMap_cons, List.foldl_append]
    exact ih _

/-- The health checker writes instances and nothing else. -/
theorem Act.instances_only (st : Store) {a : Act} (own : a.own = true) :
    a.apply st = { st with instances := (a.apply st).instances } := by
  cases a with
  | check service id c =>
    refine Store.settle_store (fun st' => st' = { st with instances := st'.instances }) rfl fun r done => ?_
    obtain ⟨_, _, rfl⟩ := Store.setLastCheck_eq_ok.mp done
    rfl
  | status clock service id s =>
    refine Store.settle_store (fun st' => st' = { st with instances := st'.instances }) rfl fun r done => ?_
    obtain ⟨_, _, ⟨_, rfl⟩ | ⟨_, rfl⟩⟩ := Store.setStatus_eq_ok.mp done
    · rfl
    · rfl
  | other write => cases own

/-- Transactions of the checker that do the same to every record leave the same store. -/
theorem foldl_apply_eq {st : Store} {acts acts' : List Act} (own : ∀ a ∈ acts, a.own = true)
    (own' : ∀ a ∈ acts', a.own = true)
    (same : ∀ key, acts.filter (Act.touches key) = acts'.filter (Act.touches key)) :
    acts.foldl Act.apply st = acts'.foldl Act.apply st := by
  have only (acts : List Act) (own : ∀ a ∈ acts, a.own = true) :
      acts.foldl Act.apply st = { st with instances := (acts.foldl Act.apply st).instances } := by
    induction acts using List.reverseRecOn with
    | nil => rfl
    | append_singleton acts a ih =>
      rw [List.foldl_append, List.foldl_cons, List.foldl_nil, Act.instances_only _ (own a (by simp)),
        ih fun b member => own b (List.mem_append_left _ member)]
  have records (acts : List Act) (own : ∀ a ∈ acts, a.own = true) (key : Key) :
      (acts.foldl Act.apply st).instances.get key =
        (acts.filter (Act.touches key)).foldl (fun i a => i.map fun i => a.on i) (st.instances.get key) := by
    refine read_foldl (fun st : Store => st.instances.get key) _ (fun a member touches st => ?_)
      (fun a member passes st => ?_) st
    · rw [Act.get_apply st (own a member), if_pos touches]
    · rw [Act.get_apply st (own a member), if_neg (by simp [passes])]
  rw [only acts own, only acts' own']
  have instances : (acts.foldl Act.apply st).instances = (acts'.foldl Act.apply st).instances :=
    Bucket.ext fun key => by rw [records acts own, records acts' own', same]
  rw [instances]

/-- Whatever turns the goroutines of a tick take, it leaves what the evaluation of one instance after the other
leaves, the store and the times of the last probes. -/
theorem tick_serial {c : Checker} {t : Tick} (keyed : Keyed c.store) (turns : Turns c t)
    (alone : ∀ a ∈ t.schedule, a.own = true) : (step c t).1 = c.serialTick t := by
  have same : t.schedule.foldl Act.apply c.store =
      (c.store.listAllInstances.flatMap (actsOf t.now t.world c.lastProbed)).foldl Act.apply c.store := by
    refine foldl_apply_eq alone (fun a member => ?_) fun key => ?_
    · obtain ⟨inst, -, acts⟩ := List.mem_flatMap.mp member
      exact (touches_actsOf t.now t.world c.lastProbed acts).1
    · rw [filter_schedule keyed turns, List.filter_flatMap, ← keyed.filter_listed, ← flatMap_ite]
      refine List.flatMap_congr fun inst _ => ?_
      exact (filter_own (fun a acts => (touches_actsOf t.now t.world c.lastProbed acts).2) key).symm
  rw [Checker.serialTick, foldl_eval t.now t.world c keyed.nodup, step, same, Checker.round]

/-- An instance with one interface, which answers in the examples. -/
def webInstance : Instance where
  id := "i"
  serviceName := "s"
  address := "h"
  interfaces := [{ name := "http", protocol := "http", port := 8080 }]
  weight := 1
  status := statusStarting
  checkMode := checkHTTP

def webChecker : Checker where
  store := Store.empty.withInstance "s/i" webInstance Store.fits_s_i
  lastProbed _ := none

/-- One server answers, at its own URL. -/
def okWorld : World where
  answers _ :=
    { dial := fun _ _ => .error "refused"
      get := fun _ url => if url = "http://h:8080/" then .ok 200 else .error "refused"
      latency := fun _ => 1 }
  checkedAt _ := 7
  writtenAt _ := 8

def webTick : Tick where
  now := 5000000000
  world := okWorld
  schedule := evalProbe 5000000000 okWorld webInstance

theorem keyed_web : Keyed webChecker.store := by
  intro key inst present
  rw [webChecker, Store.get_withInstance] at present
  split at present
  next here =>
    obtain rfl := Option.some.inj present
    exact here.symm
  next => cases present

theorem listed_web : webChecker.store.listAllInstances = [webInstance] := by decide +kernel

theorem turns_web : Turns webChecker webTick := by
  have shape : webChecker.round webTick = _ := round_eq webTick.now webTick.world webChecker.lastProbed keyed_web.nodup
  rw [Turns, shape, listed_web]
  exact interleaves_flatten [[], evalProbe 5000000000 okWorld webInstance]

theorem own_web : ∀ a ∈ webTick.schedule, a.own = true := by
  intro a member
  have acts : a ∈ actsOf webTick.now okWorld webChecker.lastProbed webInstance := List.mem_append_right _ member
  exact (touches_actsOf _ _ _ acts).1

/-- A second one, probed by a goroutine of its own. -/
def otherInstance : Instance :=
  { webInstance with id := "j", interfaces := [{ name := "http", protocol := "http", port := 9090 }] }

def pairChecker : Checker where
  store := webChecker.store.withInstance "s/j" otherInstance (by decide)
  lastProbed _ := none

/-- Each goroutine has its own times. -/
def pairWorld : World :=
  { okWorld with
    checkedAt := fun inst => if inst.id = "i" then 9 else 5
    writtenAt := fun inst => if inst.id = "i" then 10 else 7 }

/-- The report of a probe, then the status. -/
def reportOf (inst : Instance) : Act :=
  .check inst.serviceName inst.id (probe 5000000000 pairWorld inst).check

def statusOf (inst : Instance) : Act :=
  .status (pairWorld.writtenAt inst) inst.serviceName inst.id (probe 5000000000 pairWorld inst).verdict

def pairTick : Tick where
  now := 5000000000
  world := pairWorld
  schedule := [reportOf otherInstance, reportOf webInstance, statusOf otherInstance, statusOf webInstance]

theorem keyed_pair : Keyed pairChecker.store := by
  intro key inst present
  rw [pairChecker, Store.get_withInstance] at present
  split at present
  next here =>
    obtain rfl := Option.some.inj present
    exact here.symm
  next => exact keyed_web key inst present

theorem listed_pair : pairChecker.store.listAllInstances = [webInstance, otherInstance] := by decide +kernel

theorem evalProbe_pair {inst : Instance} (starting : inst.status ≠ (probe 5000000000 pairWorld inst).verdict) :
    evalProbe 5000000000 pairWorld inst = [reportOf inst, statusOf inst] := by
  rw [evalProbe, if_neg starting]
  rfl

theorem turns_pair : Turns pairChecker pairTick := by
  have shape : pairChecker.round pairTick = _ :=
    round_eq pairTick.now pairTick.world pairChecker.lastProbed keyed_pair.nodup
  have due : [webInstance, otherInstance].filter (Due pairTick.now pairChecker.lastProbed ·) =
      [webInstance, otherInstance] := by decide +kernel
  have probes : [webInstance, otherInstance].map (evalProbe pairTick.now pairTick.world) =
      [[reportOf webInstance, statusOf webInstance], [reportOf otherInstance, statusOf otherInstance]] :=
    congrArg₂ (fun t u => [t, u]) (evalProbe_pair (by decide)) (evalProbe_pair (by decide))
  rw [Turns, shape, listed_pair, due, probes]
  refine @Interleaves.next _ [[], [reportOf webInstance, statusOf webInstance]] [] _ [statusOf otherInstance] _ ?_
  refine @Interleaves.next _ [[]] [[statusOf otherInstance]] _ [statusOf webInstance] _ ?_
  refine @Interleaves.next _ [[], [statusOf webInstance]] [] _ [] _ ?_
  exact @Interleaves.next _ [[]] [[]] _ [] _ (.done (by simp))

/-- The goroutine of the second instance begins first and is overtaken; only the first one's server answers. -/
theorem tick_serial_pair :
    (step pairChecker pairTick).1 = pairChecker.serialTick pairTick ∧
      ((pairChecker.serialTick pairTick).store.instances.get "s/i").map (·.status) = some statusUp ∧
      ((pairChecker.serialTick pairTick).store.instances.get "s/j").map (·.status) = some statusDown := by
  have own : ∀ a ∈ pairTick.schedule, a.own = true := by
    simp [pairTick, reportOf, statusOf, Act.own]
  exact ⟨tick_serial keyed_pair turns_pair own, by decide +kernel, by decide +kernel⟩

end Health
end Discovery
