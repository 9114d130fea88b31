import Discovery.Health.StaleSweep
import Discovery.Store.EmitOrder

namespace Discovery
open Kv Machine

/-- Node A, which hears an instance's heartbeats, and node B, which sweeps its copy. `sentA` and
`sentB` are all events a node has emitted; each may reach the other node any number of times, in any
order, or never. -/
structure Watch where
  a : Store
  b : Store
  sentA : List Event := []
  sentB : List Event := []

/-- A heartbeat at A, a health tick at B that starts at `now` and writes at `clock`, or the arrival of
the `i`-th event of the other node. -/
inductive WatchStep
  | beat (now : Time) (status : GoString)
  | sweep (now clock : Time)
  | toA (i : Nat)
  | toB (i : Nat)
  deriving DecidableEq

/-- The time of the last heartbeat of a run, `h` before the first. -/
def latestBeat (h : Time) (steps : List WatchStep) : Time :=
  steps.foldl (fun h step => match step with | .beat now _ => now | _ => h) h

theorem timeSub_mono {t t' : Int} (le : t ≤ t') (u : Int) : timeSub t u ≤ timeSub t' u := by
  unfold timeSub
  omega

/-- What has expired stays expired. -/
theorem Instance.expired_mono {i : Instance} {now later : Time} (expired : i.expired now)
    (le : now ≤ later) : i.expired later := by
  unfold Instance.expired at *
  rw [Bool.and_eq_true, decide_eq_true_eq, decide_eq_true_eq] at *
  exact ⟨expired.1, Int.lt_of_lt_of_le expired.2 (timeSub_mono le i.lastHeartbeat)⟩

/-- A heartbeat that does not report "down" leaves no instance down. -/
theorem Instance.beat_alive {i : Instance} (clean : i.json = i) (now : Time) {status : GoString}
    (reported : jsonString status ≠ statusDown) : (i.beat now status).json.status ≠ statusDown := by
  show jsonString (if status ≠ [] then status else if i.status = statusDown then statusUp else i.status) ≠
    statusDown
  have same : jsonString i.status = i.status := congrArg Instance.status clean
  split
  · exact reported
  · split
    · decide
    next alive => rwa [same]

/-- The moment of a heartbeat, or at which a tick begins. -/
def WatchStep.time : WatchStep → Option Time
  | .beat now _ | .sweep now _ => some now
  | .toA _ | .toB _ => none

namespace Store

/-- What a tick does about one instance: the evaluation of its stored copy. -/
def sweepInstance (st : Store) (now clock : Time) (key : Key) : Store × List Event :=
  match st.instances.get key with
  | none => (st, [])
  | some inst => st.evalInstance now clock (fun _ => none) inst

/-- In a store where records are stored under their own names, the whole tick does the same to the
instance. -/
theorem get_sweepInstance {st : Store}
    (named : ∀ key prev, st.instances.get key = some prev → instanceKey prev.serviceName prev.id = key)
    (now clock : Time) (key : Key) :
    (st.sweepInstance now clock key).1.instances.get key =
      (st.tick now clock (fun _ => none)).1.instances.get key := by
  rw [get_tick, sweepInstance]
  have own : ∀ inst ∈ st.listAllInstances, SetsDown now key inst → st.instances.get key = some inst := by
    intro inst listed down
    obtain ⟨stored, present⟩ := Bucket.mem_values.mp listed
    rwa [← named stored inst present, down.2.2.2] at present
  cases present : st.instances.get key with
  | none =>
    rw [if_neg, present]
    rintro ⟨inst, listed, down⟩
    rw [own inst listed down] at present
    cases present
  | some prev =>
    simp only [get_evalInstance, present]
    refine if_congr ⟨fun down => ⟨prev, Bucket.mem_values.mpr ⟨key, present⟩, down⟩, ?_⟩ rfl rfl
    rintro ⟨inst, listed, down⟩
    obtain rfl := Option.some.inj (present.symm.trans (own inst listed down))
    exact down

def watchStep (service id : GoString) (w : Watch) : WatchStep → Watch × List Event
  | .beat now status =>
    let r := w.a.settle (w.a.heartbeat now service id status)
    ({ w with a := r.1, sentA := w.sentA ++ r.2 }, r.2)
  | .sweep now clock =>
    let r := w.b.sweepInstance now clock (instanceKey service id)
    ({ w with b := r.1, sentB := w.sentB ++ r.2 }, r.2)
  | .toA i =>
    match w.sentB[i]? with
    | none => (w, [])
    | some ev => ({ w with a := w.a.apply ev }, [])
  | .toB i =>
    match w.sentA[i]? with
    | none => (w, [])
    | some ev => ({ w with b := w.b.apply ev }, [])

/-- A tick that sets the instance down has seen A's latest heartbeat; A's clock is behind neither its
own last heartbeat nor what B has written; and no heartbeat reports "down". -/
def Fresh (key : Key) (w : Watch) : WatchStep → Prop
  | .beat now status => jsonString status ≠ statusDown ∧
    (∀ i ∈ w.a.instances.get key, i.lastHeartbeat ≤ now) ∧ ∀ ev ∈ w.sentB, ∀ t ∈ ev.time, t ≤ now
  | .sweep now _ => ∀ i ∈ w.a.instances.get key, ∀ j ∈ w.b.instances.get key,
    SetsDown now key j → i.lastHeartbeat ≤ j.lastHeartbeat
  | .toA _ | .toB _ => True

instance (key : Key) (w : Watch) : (step : WatchStep) → Decidable (Fresh key w step)
  | .beat _ _ => inferInstanceAs (Decidable (_ ∧ _ ∧ _))
  | .sweep _ _ => inferInstanceAs (Decidable (∀ i ∈ _, ∀ j ∈ _, SetsDown _ _ j → _))
  | .toA _ => inferInstanceAs (Decidable True)
  | .toB _ => inferInstanceAs (Decidable True)

/-- The record carries no heartbeat later than `h`, and is down only if its TTL had run out at some
tick of the run. -/
structure Plausible (h : Time) (past : List WatchStep) (i : Instance) : Prop where
  beat : i.lastHeartbeat ≤ h
  swept : i.status = statusDown → ∃ now clock, .sweep now clock ∈ past ∧ i.expired now

theorem Plausible.mono {h h' : Time} {past : List WatchStep} {i : Instance} (likely : Plausible h past i)
    (le : h ≤ h') (step : WatchStep) : Plausible h' (past ++ [step]) i := by
  refine ⟨Int.le_trans likely.beat le, fun down => ?_⟩
  obtain ⟨now, clock, member, expired⟩ := likely.swept down
  exact ⟨now, clock, List.mem_append_left _ member, expired⟩

/-- A's copy `i` carries the latest heartbeat, and what B has sent is as fresh or cannot replace it. -/
structure Heard (key : Key) (h : Time) (past : List WatchStep) (w : Watch) (i : Instance) : Prop where
  storedA : w.a.instances.get key = some i
  namedA : Named key i
  latest : i.lastHeartbeat = h
  likely : Plausible h past i
  storedB : ∀ j, w.b.instances.get key = some j → Named key j ∧ Plausible h past j
  sentA : ∀ ev ∈ w.sentA, ∃ x, Tells key ev x ∧ Plausible h past x
  sentB : ∀ ev ∈ w.sentB, ∃ x, Tells key ev x ∧ Plausible h past x ∧
    (x.lastHeartbeat = h ∨ x.updatedAt ≤ i.updatedAt)

variable {service id : GoString} {h : Time} {past : List WatchStep} {w : Watch} {i : Instance}

theorem latestBeat_append (h : Time) (past : List WatchStep) (step : WatchStep) :
    latestBeat h (past ++ [step]) = match step with
      | .beat now _ => now
      | _ => latestBeat h past := by
  rw [latestBeat, List.foldl_append, List.foldl_cons, List.foldl_nil, ← latestBeat]

/-- A heartbeat at A is the latest one, in A's record and in the event for it. -/
theorem Heard.beat {h₀ : Time} (heard : Heard (instanceKey service id) (latestBeat h₀ past) past w i)
    {now : Time} {status : GoString} (fresh : Fresh (instanceKey service id) w (.beat now status)) :
    ∃ i', Heard (instanceKey service id) (latestBeat h₀ (past ++ [.beat now status]))
      (past ++ [.beat now status]) (watchStep service id w (.beat now status)).1 i' := by
  obtain ⟨reported, clock, sent⟩ := fresh
  have run : w.a.heartbeat now service id status = .ok _ := heartbeat_eq_ok.mpr ⟨i, heard.storedA, rfl⟩
  have le : latestBeat h₀ past ≤ now := heard.latest ▸ clock i heard.storedA
  have alive := Instance.beat_alive (Bucket.clean heard.storedA) now reported
  have wrote := wrote_withInstance w.a (i.beat now status) (Or.inl rfl)
    (heard.namedA.update (i.beat now status) heard.storedA rfl rfl) (Bucket.fits_of_get heard.storedA)
  have kept {x : Instance} (likely : Plausible (latestBeat h₀ past) past x) :=
    likely.mono le (.beat now status)
  rw [latestBeat_append]
  refine ⟨(i.beat now status).json, ?_⟩
  rw [watchStep, run, settle]
  exact {
    storedA := wrote.stored
    namedA := heard.namedA.update (i.beat now status) heard.storedA rfl rfl
    latest := rfl
    likely := ⟨Int.le_refl now, fun down => absurd down alive⟩
    storedB := fun j stored => ⟨(heard.storedB j stored).1, kept (heard.storedB j stored).2⟩
    sentA := fun ev member => by
      rcases List.mem_append.mp member with old | new
      · obtain ⟨x, tells, likely⟩ := heard.sentA ev old
        exact ⟨x, tells, kept likely⟩
      · obtain ⟨e, emitted, tells⟩ := wrote.event
        obtain rfl := List.mem_singleton.mp new
        obtain rfl := List.mem_singleton.mp (emitted ▸ List.mem_singleton.mpr rfl)
        exact ⟨_, tells, Int.le_refl now, fun down => absurd down alive⟩
    sentB := fun ev member => by
      obtain ⟨x, tells, likely, _⟩ := heard.sentB ev member
      refine ⟨x, tells, kept likely, Or.inr (sent ev member x.updatedAt ?_)⟩
      rw [Event.time, tells]
      rfl }

/-- What the evaluation of the stored copy writes and emits. -/
theorem sweepInstance_cases {st : Store} {key : Key} {j : Instance} (present : st.instances.get key = some j)
    (named : Named key j) (now clock : Time) :
    st.sweepInstance now clock key = (st, []) ∨
      SetsDown now key j ∧
        Wrote key clock (st.sweepInstance now clock key) (j.withStatus clock statusDown).json := by
  obtain rfl := named
  rw [sweepInstance, present]
  simp only [evalInstance, evalHeartbeat]
  by_cases down : SetsDown now (instanceKey j.serviceName j.id) j
  · obtain ⟨mode, expired, status, _⟩ := id down
    have run : st.setStatus clock j.serviceName j.id statusDown = .ok _ :=
      setStatus_eq_ok.mpr ⟨j, present, Or.inr ⟨status, rfl⟩⟩
    rw [if_pos mode, expired, Bool.not_true, if_neg Bool.false_ne_true, if_neg status, run, settle]
    have wrote := wrote_withInstance st (j.withStatus clock statusDown) (Or.inl rfl)
      (Named.update rfl (j.withStatus clock statusDown) present rfl rfl) (Bucket.fits_of_get present)
    exact Or.inr ⟨down, wrote⟩
  · left
    split
    · split
      · rfl
      · split
        · rfl
        next mode alive status =>
          refine absurd ⟨mode, ?_, status, rfl⟩ down
          simpa using alive
    · split <;> rfl

/-- Steps other than heartbeats leave what is known of the records. -/
theorem Heard.later {key : Key} (heard : Heard key h past w i) (step : WatchStep) :
    Heard key h (past ++ [step]) w i := by
  have kept {x : Instance} (likely : Plausible h past x) := likely.mono (Int.le_refl h) step
  exact { heard with
    likely := kept heard.likely
    storedB := fun j stored => (heard.storedB j stored).imp_right kept
    sentA := fun ev member => by
      obtain ⟨x, tells, likely⟩ := heard.sentA ev member
      exact ⟨x, tells, kept likely⟩
    sentB := fun ev member => by
      obtain ⟨x, tells, likely, fresh⟩ := heard.sentB ev member
      exact ⟨x, tells, kept likely, fresh⟩ }

/-- A tick at B that sets the instance down does so on a copy with the latest heartbeat, so its event carries that
heartbeat. -/
theorem Heard.sweep (heard : Heard (instanceKey service id) h past w i) {now clock : Time}
    (fresh : Fresh (instanceKey service id) w (.sweep now clock)) :
    Heard (instanceKey service id) h (past ++ [.sweep now clock])
      (watchStep service id w (.sweep now clock)).1 i := by
  have later := heard.later (.sweep now clock)
  rw [watchStep]
  cases present : w.b.instances.get (instanceKey service id) with
  | none =>
    rw [sweepInstance, present]
    simpa using later
  | some j =>
    obtain ⟨named, likely⟩ := heard.storedB j present
    rcases sweepInstance_cases present named now clock with silent | ⟨down, wrote⟩
    · rw [silent]
      simpa using later
    · have expired : j.expired now := down.2.1
      have swept : Plausible h (past ++ [.sweep now clock]) (j.withStatus clock statusDown).json :=
        ⟨likely.beat, fun _ => ⟨now, clock, by simp, expired⟩⟩
      obtain ⟨e, emitted, tells⟩ := wrote.event
      have atLeast := fresh i heard.storedA j present down
      rw [heard.latest] at atLeast
      have latest : (j.withStatus clock statusDown).json.lastHeartbeat = h :=
        Int.le_antisymm likely.beat atLeast
      exact { later with
        storedB := fun x stored => by
          obtain rfl := Option.some.inj (wrote.stored.symm.trans stored)
          exact ⟨tells.named, swept⟩
        sentB := fun ev member => by
          rcases List.mem_append.mp member with old | new
          · exact later.sentB ev old
          · obtain rfl := List.mem_singleton.mp (emitted ▸ new)
            exact ⟨_, tells, swept, Or.inl latest⟩ }

/-- A's copy is replaced only by one that carries the latest heartbeat as well. -/
theorem Heard.toA (heard : Heard (instanceKey service id) h past w i) (n : Nat) :
    ∃ i', Heard (instanceKey service id) h (past ++ [.toA n]) (watchStep service id w (.toA n)).1 i' := by
  have later := heard.later (.toA n)
  rw [watchStep]
  cases found : w.sentB[n]? with
  | none => exact ⟨i, later⟩
  | some ev =>
    obtain ⟨x, tells, likely, fresh⟩ := later.sentB ev (List.mem_of_getElem? found)
    have merged := get_apply_tells heard.storedA tells
    by_cases newer : i.updatedAt < x.updatedAt
    · rw [if_pos newer] at merged
      have latest : x.lastHeartbeat = h := fresh.resolve_right (Int.not_le.mpr newer)
      exact ⟨x, { later with
        storedA := merged
        namedA := tells.named
        latest
        likely
        sentB := fun e member => by
          obtain ⟨y, told, known, recent⟩ := later.sentB e member
          exact ⟨y, told, known, recent.imp_right fun le => Int.le_of_lt (Int.lt_of_le_of_lt le newer)⟩ }⟩
    · rw [if_neg newer] at merged
      exact ⟨i, { later with storedA := merged }⟩

/-- After a merge a node has what it had or what the event brought. -/
theorem get_apply_cases {st : Store} {key : Key} {x j : Instance} {ev : Event} (tells : Tells key ev x)
    (stored : (st.apply ev).instances.get key = some j) : j = x ∨ st.instances.get key = some j := by
  have merged := lookup_apply tells st ⟨.inst, key⟩
  rw [lookup_inst, lookup_inst, stored] at merged
  split at merged
  · rcases Lww.mem_merge merged.symm with new | old
    · exact Or.inl (Record.inst.inj new)
    · obtain ⟨prev, present, same⟩ := Option.map_eq_some_iff.mp old
      exact Or.inr (Record.inst.inj same ▸ present)
  · obtain ⟨prev, present, same⟩ := Option.map_eq_some_iff.mp merged.symm
    exact Or.inr (Record.inst.inj same ▸ present)

/-- What reaches B was in A's record once. -/
theorem Heard.toB (heard : Heard (instanceKey service id) h past w i) (n : Nat) :
    Heard (instanceKey service id) h (past ++ [.toB n]) (watchStep service id w (.toB n)).1 i := by
  have later := heard.later (.toB n)
  rw [watchStep]
  cases found : w.sentA[n]? with
  | none => exact later
  | some ev =>
    obtain ⟨x, tells, likely⟩ := later.sentA ev (List.mem_of_getElem? found)
    exact { later with
      storedB := fun j stored => by
        rcases get_apply_cases tells stored with rfl | old
        · exact ⟨tells.named, likely⟩
        · exact later.storedB j old }

theorem Heard.step {h₀ : Time} (heard : Heard (instanceKey service id) (latestBeat h₀ past) past w i)
    {step : WatchStep} (fresh : Fresh (instanceKey service id) w step) :
    ∃ i', Heard (instanceKey service id) (latestBeat h₀ (past ++ [step])) (past ++ [step])
      (watchStep service id w step).1 i' := by
  cases step with
  | beat now status => exact heard.beat fresh
  | sweep now clock =>
    rw [latestBeat_append]
    exact ⟨i, heard.sweep fresh⟩
  | toA n =>
    rw [latestBeat_append]
    exact heard.toA n
  | toB n =>
    rw [latestBeat_append]
    exact ⟨i, heard.toB n⟩

/-- So A's record carries the latest heartbeat through any interleaving of heartbeats, ticks and deliveries. -/
theorem Heard.run {h₀ : Time} (heard : Heard (instanceKey service id) (latestBeat h₀ past) past w i)
    {steps : List WatchStep} (fresh : Meets (watchStep service id) (Fresh (instanceKey service id)) w steps) :
    ∃ i', Heard (instanceKey service id) (latestBeat h₀ (past ++ steps)) (past ++ steps)
      (exec (watchStep service id) w steps).1 i' := by
  induction steps generalizing past w i with
  | nil => exact ⟨i, by rwa [List.append_nil, exec]⟩
  | cons step steps ih =>
    obtain ⟨now, later⟩ := fresh
    obtain ⟨i', next⟩ := heard.step now
    obtain ⟨i'', last⟩ := ih next later
    rw [List.append_assoc, List.singleton_append] at last
    exact ⟨i'', last⟩

/-- In every state of a run whose ticks see A's latest heartbeat before they set the instance down, and
whose clocks agree, A's record carries the latest heartbeat, no event of B can take it away, and the
instance is not down while its TTL has not run out. -/
theorem heartbeat_kept {a b : Store} {r : Instance}
    (storedA : a.instances.get (instanceKey service id) = some r)
    (storedB : ∀ j, b.instances.get (instanceKey service id) = some j → j = r)
    (named : instanceKey r.serviceName r.id = instanceKey service id) (alive : r.status ≠ statusDown)
    {steps : List WatchStep}
    (fresh : Meets (watchStep service id) (Fresh (instanceKey service id)) { a, b } steps)
    {pre : List WatchStep} (short : pre <+: steps) :
    ∃ i, (exec (watchStep service id) { a, b } pre).1.a.instances.get (instanceKey service id) = some i ∧
      i.lastHeartbeat = latestBeat r.lastHeartbeat pre ∧
      (∀ ev ∈ (exec (watchStep service id) { a, b } pre).1.sentB, ∀ i',
        ((exec (watchStep service id) { a, b } pre).1.a.apply ev).instances.get (instanceKey service id) =
          some i' → i.lastHeartbeat ≤ i'.lastHeartbeat) ∧
      ∀ t, (∀ now clock, .sweep now clock ∈ pre → now ≤ t) → i.expired t = false →
        i.status ≠ statusDown := by
  have likely : Plausible r.lastHeartbeat [] r := ⟨Int.le_refl _, fun down => absurd down alive⟩
  have start : Heard (instanceKey service id) (latestBeat r.lastHeartbeat []) [] { a, b } r := {
    storedA
    namedA := named
    latest := rfl
    likely
    storedB := fun j stored => by
      obtain rfl := storedB j stored
      exact ⟨named, likely⟩
    sentA := fun _ member => absurd member List.not_mem_nil
    sentB := fun _ member => absurd member List.not_mem_nil }
  obtain ⟨i, heard⟩ := start.run (fresh.of_prefix short)
  rw [List.nil_append] at heard
  refine ⟨i, heard.storedA, heard.latest, fun ev sent i' stored => ?_, fun t after unexpired down => ?_⟩
  · obtain ⟨x, tells, _, recent⟩ := heard.sentB ev sent
    rw [get_apply_tells heard.storedA tells] at stored
    obtain rfl := Option.some.inj stored
    split
    next newer =>
      have same := recent.resolve_right (Int.not_le.mpr newer)
      exact Int.le_of_eq (heard.latest.trans same.symm)
    next => exact Int.le_refl _
  · obtain ⟨now, clock, member, expired⟩ := heard.likely.swept down
    have still := Instance.expired_mono expired (after now clock member)
    rw [unexpired] at still
    exact Bool.false_ne_true still

/-- A heartbeat that reaches B, an outage that B's tick finds, and the heartbeat that ends it. -/
def outage : List WatchStep :=
  [.beat 5000000000 [], .toB 0, .sweep 16000000000 16000000001, .toA 0, .beat 17000000000 [], .toA 0]

theorem heartbeat_kept_outage : ∃ i,
    (exec (watchStep "s" "i") { a := lateStore, b := lateStore } outage).1.a.instances.get
        (instanceKey "s" "i") = some i ∧
      i.lastHeartbeat = latestBeat 1 outage ∧
      (∀ ev ∈ (exec (watchStep "s" "i") { a := lateStore, b := lateStore } outage).1.sentB, ∀ i',
        ((exec (watchStep "s" "i") { a := lateStore, b := lateStore } outage).1.a.apply ev).instances.get
          (instanceKey "s" "i") = some i' → i.lastHeartbeat ≤ i'.lastHeartbeat) ∧
      ∀ t, (∀ now clock, .sweep now clock ∈ outage → now ≤ t) → i.expired t = false →
        i.status ≠ statusDown := by
  have stored : lateStore.instances.get (instanceKey "s" "i") = some lateInstance.json := by decide
  have only (j : Instance) (present : lateStore.instances.get (instanceKey "s" "i") = some j) :
      j = lateInstance.json := Option.some.inj (present.symm.trans stored)
  exact heartbeat_kept (r := lateInstance.json) stored only (by decide) (by decide) (by decide)
    (List.prefix_refl outage)

/-- The same with a heartbeat that is lost on its way to B. -/
def lostBeat : List WatchStep := [.beat 9000000000 [], .sweep 12000000000 12000000001]

/-- B's tick takes A's heartbeat away. -/
theorem heartbeat_lost :
    ¬∀ (a b : Store) (service id : GoString) (r : Instance) (steps : List WatchStep),
      a.instances.get (instanceKey service id) = some r → b.instances.get (instanceKey service id) = some r →
      r.effectiveCheckMode = checkHeartbeat → (steps.filterMap WatchStep.time).Pairwise (· < ·) →
      ∀ ev ∈ (exec (watchStep service id) { a, b } steps).1.sentB, ∀ i i',
        (exec (watchStep service id) { a, b } steps).1.a.instances.get (instanceKey service id) = some i →
        ((exec (watchStep service id) { a, b } steps).1.a.apply ev).instances.get (instanceKey service id) =
          some i' → i.lastHeartbeat ≤ i'.lastHeartbeat := by
  intro kept
  have stored : lateStore.instances.get (instanceKey "s" "i") = some lateInstance.json := by decide
  let ev : Event := .instanceStatus (lateInstance.json.withStatus 12000000001 statusDown)
  have sent : ev ∈ (exec (watchStep "s" "i") { a := lateStore, b := lateStore } lostBeat).1.sentB := by
    decide
  have before : (exec (watchStep "s" "i") { a := lateStore, b := lateStore } lostBeat).1.a.instances.get
      (instanceKey "s" "i") = some (lateInstance.json.beat 9000000000 []) := by decide
  have after : ((exec (watchStep "s" "i") { a := lateStore, b := lateStore } lostBeat).1.a.apply
      ev).instances.get (instanceKey "s" "i") = some (lateInstance.json.withStatus 12000000001 statusDown) := by
    decide
  have le := kept lateStore lateStore "s" "i" lateInstance.json lostBeat stored stored (by decide) (by decide)
    ev sent _ _ before after
  exact absurd le (by decide)

end Store
end Discovery
