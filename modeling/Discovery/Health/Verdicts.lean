import Discovery.Health.TickOrder

namespace Discovery
open Kv Machine Interleave
namespace Health

/-- The last probe of the record under a key. -/
def latest (made : List Probe) (key : Key) : Option Probe := (made.filter (·.inst.ownKey = key)).getLast?

/-- The latest probe of two runs is the one of the later run, if it has made any. -/
theorem latest_append (made made' : List Probe) (key : Key) :
    latest (made ++ made') key = (latest made' key).or (latest made key) := by
  rw [latest, List.filter_append, List.getLast?_append, latest, latest]

/-- From `i` to `j` the record under the key followed the last of the probes made, if there was one. -/
structure Followed (c c' : Checker) (key : Key) (i j : Instance) (last : Option Probe) : Prop where
  alike : Alike i j
  lastProbed : c'.lastProbed key = (last.map Probe.time).or (c.lastProbed key)
  idle : last = none → j = i
  shown : ∀ p, last = some p → Alike i p.inst ∧ (p.check.ok = true ↔ Passes p.answers p.inst) ∧
    j.status = p.verdict ∧ j.lastCheck = some p.check.json

theorem Followed.refl (c : Checker) (key : Key) (i : Instance) : Followed c c key i i none where
  alike := .refl i
  lastProbed := rfl
  idle _ := rfl
  shown p given := by cases given

/-- An instance can be followed through one run after another, with the latest probe of both. -/
theorem Followed.trans {c₁ c₂ c₃ : Checker} {key : Key} {i j k : Instance} {p q : Option Probe}
    (first : Followed c₁ c₂ key i j p) (second : Followed c₂ c₃ key j k q) : Followed c₁ c₃ key i k (q.or p) where
  alike := first.alike.trans second.alike
  lastProbed := by
    rw [second.lastProbed, first.lastProbed]
    cases q <;> rfl
  idle none := by
    obtain ⟨later, sooner⟩ := Option.or_eq_none_iff.mp none
    rw [second.idle later, first.idle sooner]
  shown r last := by
    cases q with
    | none =>
      rw [second.idle rfl]
      exact first.shown r last
    | some q =>
      obtain rfl := Option.some.inj last
      obtain ⟨alike, passes, shown⟩ := second.shown q rfl
      exact ⟨first.alike.trans alike, passes, shown⟩

theorem foldl_on_alike {i : Instance} (clean : i.json = i) (acts : List Act) : Alike i (acts.foldl Act.on i) := by
  induction acts generalizing i with
  | nil => exact .refl i
  | cons a acts ih => exact (a.alike clean).trans (ih (a.on_clean clean))

/-- A probed record has the verdict and the report. -/
theorem on_evalProbe {inst : Instance} (clean : inst.json = inst) (now : Time) (w : World) :
    let after := (evalProbe now w inst).foldl Act.on inst
    after.status = (probe now w inst).verdict ∧ after.lastCheck = some (probe now w inst).check.json := by
  have status : (inst.checked (probe now w inst).check).json.status = inst.status := by
    show jsonString inst.status = inst.status
    exact congrArg Instance.status clean
  have valid : jsonString (probe now w inst).verdict = (probe now w inst).verdict := by
    rw [Probe.verdict]
    split <;> decide
  rw [evalProbe]
  by_cases same : inst.status = (probe now w inst).verdict
  · rw [if_pos same]
    exact ⟨status.trans same, rfl⟩
  · rw [if_neg same, List.foldl_cons, List.foldl_cons, List.foldl_nil, Act.on, Act.on, if_neg (status ▸ same)]
    refine ⟨valid, ?_⟩
    exact congrArg some (InstanceCheck.json_idem _)

section
variable {c : Checker} {t : Tick} {key : Key}

/-- Through one tick an instance is followed with the probe that the tick has made of it, if any. -/
theorem followed_step (keyed : Keyed c.store) (turns : Turns c t) (spares : t.Spares key) {j : Instance}
    (present : (step c t).1.store.instances.get key = some j) (probed : Probed j) :
    ∃ i, c.store.instances.get key = some i ∧ Followed c (step c t).1 key i j (latest (step c t).2 key) ∧
      ∃ last, (step c t).1.lastProbed key = some last ∧ t.now < last + probeInterval j := by
  rw [get_step keyed turns spares, Option.map_eq_some_iff] at present
  obtain ⟨i, stored, rfl⟩ := present
  have clean : i.json = i := Bucket.clean stored
  have alike := foldl_on_alike clean (actsOf t.now t.world c.lastProbed i)
  have interval : probeInterval ((actsOf t.now t.world c.lastProbed i).foldl Act.on i) = probeInterval i := by
    rw [alike.same]
    rfl
  have mode : Probed i := alike.probed.mp probed
  have heart : beats t.now t.world i = [] := by
    refine if_neg fun heart => ?_
    rcases mode with http | tcp
    · exact absurd (heart.symm.trans http) (by decide)
    · exact absurd (heart.symm.trans tcp) (by decide)
  have at_ := lastProbed_step (t := t) keyed stored
  refine ⟨i, stored, ?_⟩
  rw [latest, made_step keyed, stored, interval]
  by_cases due : Due t.now c.lastProbed i
  · rw [if_pos due] at at_
    have acts : actsOf t.now t.world c.lastProbed i = evalProbe t.now t.world i := by
      rw [actsOf, heart, if_pos due, List.nil_append]
    have only : ((some i).toList.filter (Due t.now c.lastProbed ·)).map (probe t.now t.world) =
        [probe t.now t.world i] := by
      simp [due]
    rw [only]
    have positive := probeInterval_pos i
    refine ⟨⟨alike, at_, fun none => (by cases none), fun p last => ?_⟩, t.now, at_, by lia⟩
    obtain rfl := Option.some.inj last
    rw [acts]
    exact ⟨.refl i, checkInstance_passes mode _ _, on_evalProbe clean t.now t.world⟩
  · rw [if_neg due] at at_
    have acts : actsOf t.now t.world c.lastProbed i = [] := by
      rw [actsOf, heart, if_neg due, List.nil_append]
    have silent : ((some i).toList.filter (Due t.now c.lastProbed ·)).map (probe t.now t.world) = [] := by
      simp [due]
    rw [silent, acts]
    have kept : Followed c (step c t).1 key i i none :=
      { Followed.refl c key i with lastProbed := at_ }
    refine ⟨kept, ?_⟩
    rw [Due, not_and] at due
    obtain ⟨last, late⟩ := not_forall.mp (due mode)
    obtain ⟨probed, soon⟩ := Classical.not_imp.mp late
    rw [keyed key i stored] at probed
    exact ⟨last, at_.trans probed, Int.not_le.mp soon⟩

/-- Ticks that spare the record, from a store whose records lie under their keys. -/
def Undisturbed (key : Key) (c : Checker) (t : Tick) : Prop := Turns c t ∧ t.Spares key

/-- So it is through any number of ticks, and with whatever else is written between them. -/
theorem followed_run {ts : List Tick} (keyed : Keyed c.store) (run : Meets step (Undisturbed key) c ts)
    {j : Instance} (present : (exec step c ts).1.store.instances.get key = some j) (probed : Probed j) :
    ∃ i, c.store.instances.get key = some i ∧
      Followed c (exec step c ts).1 key i j (latest (exec step c ts).2 key) := by
  induction ts generalizing c with
  | nil => exact ⟨j, present, Followed.refl c key j⟩
  | cons t ts ih =>
    obtain ⟨⟨turns, spares⟩, later⟩ := run
    obtain ⟨i₁, stored, rest⟩ := ih (keyed_step keyed spares) later present
    have probed₁ := rest.alike.probed.mp probed
    obtain ⟨i, start, first, -⟩ := followed_step keyed turns spares stored probed₁
    refine ⟨i, start, ?_⟩
    rw [exec, latest_append]
    exact first.trans rest

/-- All that time every record stays under its own key. -/
theorem keyed_run {ts : List Tick} (keyed : Keyed c.store) (run : Meets step (Undisturbed key) c ts) :
    Keyed (exec step c ts).1.store :=
  exec_invariant (fun c => Keyed c.store) (fun _ _ before ok => keyed_step before ok.2) keyed run

/-- At the end of a tick the status of an instance that the checker probes, and that no one else writes, is the
verdict of a probe made within the instance's interval, and its report is that probe's: at the latest when the
interval has passed since the last probe from before. -/
theorem verdict_shown {ts : List Tick} {t : Tick} {inst : Instance} (keyed : Keyed c.store)
    (run : Meets step (Undisturbed key) c (ts ++ [t]))
    (present : (exec step c (ts ++ [t])).1.store.instances.get key = some inst) (probed : Probed inst)
    (passed : ∀ last, c.lastProbed key = some last → last + probeInterval inst ≤ t.now) :
    ∃ p, latest (exec step c (ts ++ [t])).2 key = some p ∧ t.now < p.time + probeInterval inst ∧
      inst.lastCheck = some p.check.json ∧ inst.status = (if p.check.ok then statusUp else statusDown) ∧
      (p.check.ok = true ↔ Passes p.answers inst) := by
  obtain ⟨i, -, followed⟩ := followed_run keyed run present probed
  obtain ⟨before, ⟨turns, spares⟩, -⟩ := meets_append.mp run
  have present' := present
  rw [exec_append] at present'
  obtain ⟨j, -, -, last, at_, soon⟩ := followed_step (keyed_run keyed before) turns spares present' probed
  have lastProbed := followed.lastProbed
  rw [exec_append] at lastProbed
  have latest_ := at_.symm.trans lastProbed
  cases made : latest (exec step c (ts ++ [t])).2 key with
  | none =>
    -- the last probe is from before the run, and too long ago
    rw [made] at latest_
    have late := passed last latest_.symm
    lia
  | some p =>
    rw [made] at latest_
    obtain rfl := Option.some.inj latest_
    obtain ⟨alike, passes, status, report⟩ := followed.shown p made
    refine ⟨p, rfl, soon, report, status, ?_⟩
    rw [passes, alike.passes, followed.alike.passes]

end

/-- A tick at which no probe is due yet, with a heartbeat of another instance in between. -/
def quietTick : Tick where
  now := 10000000000
  world := okWorld
  schedule := [.other fun st => (st.settle (st.heartbeat 9000000000 "s" "j" [])).1]

def shownInstance : Instance :=
  { webInstance with
    status := statusUp
    updatedAt := 8
    lastCheck := some (probe 5000000000 okWorld webInstance).check.json }

theorem spares_web : webTick.Spares "s/i" := by
  intro write member
  exact absurd (own_web _ member) Bool.false_ne_true

theorem keyed_quiet : Keyed (step webChecker webTick).1.store := keyed_step keyed_web spares_web

theorem listed_quiet : (step webChecker webTick).1.store.listAllInstances = [shownInstance] := by decide +kernel

theorem turns_quiet : Turns (step webChecker webTick).1 quietTick := by
  have shape : (step webChecker webTick).1.round quietTick = _ :=
    round_eq quietTick.now quietTick.world (step webChecker webTick).1.lastProbed keyed_quiet.nodup
  rw [Turns, shape, listed_quiet]
  have idle : [shownInstance].filter (Due quietTick.now (step webChecker webTick).1.lastProbed ·) = [] := by
    decide +kernel
  rw [idle]
  exact interleaves_flatten [[]]

theorem verdict_shown_beside_heartbeat :
    ∃ p, latest (exec step webChecker [webTick, quietTick]).2 "s/i" = some p ∧
      10000000000 < p.time + probeInterval shownInstance ∧ shownInstance.lastCheck = some p.check.json ∧
      shownInstance.status = (if p.check.ok then statusUp else statusDown) ∧
      (p.check.ok = true ↔ Passes p.answers shownInstance) := by
  have spares : quietTick.Spares "s/i" := by
    intro write member
    obtain rfl := Act.other.inj (List.mem_singleton.mp member)
    exact spares_heartbeat (by decide) _ _
  have present : (exec step webChecker [webTick, quietTick]).1.store.instances.get "s/i" = some shownInstance := by
    decide +kernel
  have run : Meets step (Undisturbed "s/i") webChecker ([webTick] ++ [quietTick]) :=
    ⟨⟨turns_web, spares_web⟩, ⟨turns_quiet, spares⟩, trivial⟩
  exact verdict_shown keyed_web run present (Or.inl rfl) fun last known => by cases known

/-- From one probe of a record to any later one its interval passes. -/
def Spaced (made : List Probe) : Prop :=
  made.Pairwise fun p q => p.inst.ownKey = q.inst.ownKey → p.time + probeInterval q.inst ≤ q.time

/-- The times of the last probes are those of the probes made, so far `now` at the latest. -/
structure Paced (now : Time) (lastProbed : Key → Option Time) (made : List Probe) : Prop where
  spaced : Spaced made
  known : ∀ p ∈ made, p.time ≤ now ∧ ∃ last, lastProbed p.inst.ownKey = some last ∧ p.time ≤ last

theorem Paced.later {now now' : Time} {lastProbed : Key → Option Time} {made : List Probe}
    (paced : Paced now lastProbed made) (after : now ≤ now') : Paced now' lastProbed made where
  spaced := paced.spaced
  known p member := ⟨Int.le_trans (paced.known p member).1 after, (paced.known p member).2⟩

/-- The evaluation of an instance probes it only where its interval has passed, and notes the time. -/
theorem Paced.eval {now : Time} {w : World} {r : Round} {past : List Probe}
    (paced : Paced now r.lastProbed (past ++ r.made)) (inst : Instance) :
    Paced now (r.eval now w inst).lastProbed (past ++ (r.eval now w inst).made) := by
  rw [Round.eval_eq]
  split
  next due =>
    have appended : past ++ (r.made ++ [probe now w inst]) = past ++ r.made ++ [probe now w inst] :=
      (List.append_assoc _ _ _).symm
    rw [appended]
    constructor
    · refine List.pairwise_append.mpr ⟨paced.spaced, List.pairwise_singleton _ _, fun p member q last same => ?_⟩
      obtain rfl := List.mem_singleton.mp last
      obtain ⟨-, last, known, le⟩ := paced.known p member
      have passed := due.2 last (same ▸ known)
      exact Int.le_trans (Int.add_le_add_right le _) passed
    · intro p member
      rcases List.mem_append.mp member with old | new
      · obtain ⟨le, last, known, after⟩ := paced.known p old
        refine ⟨le, ?_⟩
        by_cases same : p.inst.ownKey = inst.ownKey
        · exact ⟨now, if_pos same, le⟩
        · exact ⟨last, (if_neg same).trans known, after⟩
      · obtain rfl := List.mem_singleton.mp new
        exact ⟨Int.le_refl now, now, if_pos rfl, Int.le_refl now⟩
  next => exact paced

/-- So through a tick the probes of an instance keep their distance. -/
theorem Paced.step {now : Time} {c : Checker} {t : Tick} {past : List Probe} (paced : Paced now c.lastProbed past)
    (after : now ≤ t.now) : Paced t.now (step c t).1.lastProbed (past ++ (step c t).2) := by
  have start : Paced t.now c.lastProbed (past ++ []) := by
    rw [List.append_nil]
    exact paced.later after
  show Paced t.now (c.round t).lastProbed (past ++ (c.round t).made)
  rw [Checker.round, round]
  generalize c.store.listAllInstances = insts
  suffices loop : ∀ r : Round, Paced t.now r.lastProbed (past ++ r.made) →
      Paced t.now (insts.foldl (Round.eval t.now t.world) r).lastProbed
        (past ++ (insts.foldl (Round.eval t.now t.world) r).made) from loop _ start
  induction insts with
  | nil => exact fun r paced => paced
  | cons inst insts ih => exact fun r paced => ih _ (paced.eval inst)

/-- Whatever is written to the store meanwhile, and in whichever order, no instance is probed again before its
interval has passed. -/
theorem probes_spaced {c : Checker} {ts : List Tick} (ordered : ts.Pairwise fun t u => t.now ≤ u.now) :
    Spaced (exec step c ts).2 := by
  suffices run : ∀ (now : Time) (past : List Probe), (∀ t ∈ ts, now ≤ t.now) → Paced now c.lastProbed past →
      Spaced (past ++ (exec step c ts).2) by
    cases ts with
    | nil => exact List.Pairwise.nil
    | cons t ts =>
      have least : ∀ u ∈ t :: ts, t.now ≤ u.now :=
        List.forall_mem_cons.mpr ⟨Int.le_refl _, (List.pairwise_cons.mp ordered).1⟩
      exact run t.now [] least ⟨List.Pairwise.nil, fun p member => (by cases member)⟩
  induction ts generalizing c with
  | nil =>
    intro now past _ paced
    rw [exec, List.append_nil]
    exact paced.spaced
  | cons t ts ih =>
    intro now past least paced
    obtain ⟨first, rest⟩ := List.pairwise_cons.mp ordered
    rw [exec, ← List.append_assoc]
    exact ih rest t.now _ first (paced.step (least t List.mem_cons_self))

def lateTick : Tick where
  now := 20000000000
  world := okWorld
  schedule := evalProbe 20000000000 okWorld shownInstance

/-- The instance is probed at five seconds, left out at ten, and probed again at twenty. -/
theorem probes_spaced_web :
    (exec step webChecker [webTick, quietTick, lateTick]).2.map Probe.time = [5000000000, 20000000000] ∧
      Spaced (exec step webChecker [webTick, quietTick, lateTick]).2 :=
  ⟨by decide +kernel, probes_spaced (by decide)⟩

end Health
end Discovery
