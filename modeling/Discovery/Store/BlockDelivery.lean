import Discovery.Store.Absence

namespace Discovery
open Kv Machine

/-- Two nodes and the events on their way from one to the other. -/
structure Pair where
  a : Store
  b : Store
  toA : List Event := []
  toB : List Event := []

/-- A local operation on either node, or the delivery of the `i`-th event on its way. -/
inductive PairStep
  | onA (op : CatalogOp)
  | onB (op : CatalogOp)
  | deliverA (i : Nat)
  | deliverB (i : Nat)
  deriving DecidableEq

/-- A blocks the instance; on B its client and the health checker write it. -/
def PairStep.About (service id : GoString) : PairStep → Prop
  | .onA (.setBlocked _ name instID blocked) => name = service ∧ instID = id ∧ blocked = true
  | .onB (.heartbeat _ name instID _) | .onB (.setStatus _ name instID _) =>
    name = service ∧ instID = id
  | .onB (.putInstance _ inst) => inst.serviceName = service ∧ inst.id = id
  | .deliverA _ | .deliverB _ => True
  | _ => False

def CatalogOp.clock : CatalogOp → Time
  | .putService now _ | .renameService now _ _ | .putInstance now _ | .heartbeat now _ _ _
  | .setStatus now _ _ _ | .setBlocked now _ _ _ => now
  | .deleteService _ | .setLastCheck _ _ _ | .deleteInstance _ _ => 0

/-- A status that is set already is not written again. -/
def CatalogOp.Changes (st : Store) : CatalogOp → Prop
  | .setStatus _ service id status => (st.instances.get (instanceKey service id)).all (·.status ≠ status)
  | _ => True

/-- A's block is stamped `t` or later, and what B writes while its copy is not blocked is stamped
before `t`. -/
def PairStep.Timely (t : Time) (key : Key) (p : Pair) : PairStep → Prop
  | .onA op => t ≤ op.clock
  | .onB op => op.Changes p.b → (p.b.instances.get key).any (!·.blocked) → op.clock < t
  | .deliverA _ | .deliverB _ => True

def pairStep (p : Pair) : PairStep → Pair × List Event
  | .onA op =>
    let r := p.a.catalogStep op
    ({ p with a := r.1, toB := p.toB ++ r.2 }, r.2)
  | .onB op =>
    let r := p.b.catalogStep op
    ({ p with b := r.1, toA := p.toA ++ r.2 }, r.2)
  | .deliverA i =>
    match p.toA[i]? with
    | none => (p, [])
    | some ev => ({ p with a := p.a.apply ev, toA := p.toA.eraseIdx i }, [])
  | .deliverB i =>
    match p.toB[i]? with
    | none => (p, [])
    | some ev => ({ p with b := p.b.apply ev, toB := p.toB.eraseIdx i }, [])

namespace Store

/-- The event carries `i` for the key. -/
def Tells (key : Key) (ev : Event) (i : Instance) : Prop := ev.carried = some (⟨.inst, key⟩, .inst i)

/-- A merge of a record that is stored keeps it or takes the event's later one. -/
theorem get_apply_tells {st : Store} {key : Key} {i j : Instance} {ev : Event}
    (present : st.instances.get key = some i) (tells : Tells key ev j) :
    (st.apply ev).instances.get key = some (if i.updatedAt < j.updatedAt then j else i) := by
  have merged := lookup_apply tells st ⟨.inst, key⟩
  rw [if_pos ⟨rfl, Bucket.fits_of_get present⟩, lookup_inst, lookup_inst, present] at merged
  have inj : Function.Injective (Option.map Record.inst) :=
    Option.map_injective fun _ _ => Record.inst.inj
  apply inj
  rw [merged]
  by_cases later : i.updatedAt < j.updatedAt <;>
    simp [Lww.merge, Kind.replaces, Record.updatedAt, later]

/-- The record under the key is named by it. -/
def Named (key : Key) (i : Instance) : Prop := instanceKey i.serviceName i.id = key

theorem Tells.named {key : Key} {ev : Event} {i : Instance} (tells : Tells key ev i) : Named key i := by
  cases ev with
  | instanceUpserted p | instanceStatus p =>
    simp only [Tells, Event.carried, Option.some.injEq, Prod.mk.injEq, RecordKey.mk.injEq, true_and,
      Record.inst.injEq] at tells
    obtain ⟨here, rfl⟩ := tells
    exact here
  | _ => simp [Tells, Event.carried] at tells

/-- One write of the instance: the record it leaves, stamped `now`, and the event for it. -/
structure Wrote (key : Key) (now : Time) (r : Store × List Event) (j : Instance) : Prop where
  stored : r.1.instances.get key = some j
  stamp : j.updatedAt = now
  event : ∃ ev, r.2 = [ev] ∧ Tells key ev j

theorem wrote_withInstance (st : Store) (f : Instance) {key : Key} {ev : Event}
    (event : ev = .instanceStatus f ∨ ev = .instanceUpserted f) (named : Named key f.json)
    (fits : KeyFits key) : Wrote key f.updatedAt (st.withInstance key f fits, [ev]) f.json := by
  refine ⟨?_, rfl, ev, rfl, ?_⟩
  · rw [get_withInstance, if_pos rfl]
  · rcases event with rfl | rfl <;> rw [Tells, Event.carried, named]

/-- A changed record that keeps the name and id of the stored one is named as that is. -/
theorem Named.update {st : Store} {key : Key} {i : Instance} (named : Named key i) (f : Instance)
    (present : st.instances.get key = some i) (name : f.serviceName = i.serviceName)
    (id : f.id = i.id) : Named key f.json := by
  obtain ⟨sameName, sameId⟩ := Instance.json_key (Bucket.clean present) name id
  rw [Named, sameName, sameId]
  exact named

theorem wrote_setBlocked {st : Store} {service id : GoString} {i : Instance}
    (present : st.instances.get (instanceKey service id) = some i)
    (named : Named (instanceKey service id) i) (now : Time) (blocked : Bool) :
    ∃ j, Wrote (instanceKey service id) now (st.catalogStep (.setBlocked now service id blocked)) j ∧
      j.blocked = blocked := by
  have run : st.setBlocked now service id blocked = .ok _ :=
    setBlocked_eq_ok.mpr ⟨i, present, rfl⟩
  rw [catalogStep, run, settle]
  exact ⟨(i.withBlocked now blocked).json,
    wrote_withInstance st _ (Or.inr rfl) (named.update (i.withBlocked now blocked) present rfl rfl) _, rfl⟩

/-- A registration whose name and id are valid UTF-8 is stored and emitted under the same key. -/
theorem wrote_putInstance {st : Store} {now : Time} {inst : Instance} {r : Outcome Instance}
    (clean : ValidUTF8 (instanceKey inst.serviceName inst.id)) (run : st.putInstance now inst = .ok r) :
    Wrote (instanceKey inst.serviceName inst.id) now (r.store, r.events) r.value.json := by
  obtain ⟨v, valid, services, _, fits, value, store, events⟩ := putInstance_eq_ok.mp run
  have here : Named (instanceKey inst.serviceName inst.id) r.value.json := by
    obtain ⟨name, id⟩ := Instance.validate_key valid
    rw [value]
    show instanceKey (jsonString v.serviceName) (jsonString v.id) = _
    rw [name, id, ← jsonString_instanceKey, clean]
  have stamp : r.value.updatedAt = now := by rw [value]; rfl
  have wrote := wrote_withInstance { st with services } r.value (Or.inr rfl) here fits
  rw [stamp] at wrote
  rw [store, events]
  exact wrote

/-- What the client and the health checker write keeps the block as it is stored. -/
theorem wrote_onB {st : Store} {service id : GoString} {i : Instance}
    (present : st.instances.get (instanceKey service id) = some i)
    (named : Named (instanceKey service id) i) {op : CatalogOp}
    (about : (PairStep.onB op).About service id) :
    ((st.catalogStep op).1.instances.get (instanceKey service id) = some i ∧
        (st.catalogStep op).2 = []) ∨
      op.Changes st ∧ ∃ j, Wrote (instanceKey service id) op.clock (st.catalogStep op) j ∧
        j.blocked = i.blocked := by
  cases op with
  | heartbeat now name instID status =>
    obtain ⟨rfl, rfl⟩ := about
    have run : st.heartbeat now name instID status = .ok _ := heartbeat_eq_ok.mpr ⟨i, present, rfl⟩
    right
    refine ⟨trivial, ?_⟩
    rw [catalogStep, run, settle]
    exact ⟨(i.beat now status).json,
      wrote_withInstance st _ (Or.inl rfl) (named.update (i.beat now status) present rfl rfl) _, rfl⟩
  | setStatus now name instID status =>
    obtain ⟨rfl, rfl⟩ := about
    by_cases same : i.status = status
    · have run : st.setStatus now name instID status = .ok _ :=
        setStatus_eq_ok.mpr ⟨i, present, Or.inl ⟨same, rfl⟩⟩
      left
      rw [catalogStep, run, settle]
      exact ⟨present, rfl⟩
    · have run : st.setStatus now name instID status = .ok _ :=
        setStatus_eq_ok.mpr ⟨i, present, Or.inr ⟨same, rfl⟩⟩
      right
      constructor
      · rw [CatalogOp.Changes, present, Option.all_some]
        exact decide_eq_true same
      rw [catalogStep, run, settle]
      exact ⟨(i.withStatus now status).json,
        wrote_withInstance st _ (Or.inl rfl) (named.update (i.withStatus now status) present rfl rfl) _, rfl⟩
  | putInstance now inst =>
    obtain ⟨rfl, rfl⟩ := about
    cases run : st.putInstance now inst with
    | error e =>
      left
      rw [catalogStep, run, settle]
      exact ⟨present, rfl⟩
    | ok r =>
      right
      have clean : ValidUTF8 (instanceKey inst.serviceName inst.id) := by
        obtain ⟨name, sameId⟩ := Instance.json_key (Bucket.clean present) rfl rfl
        have whole := jsonString_instanceKey i.serviceName i.id
        rw [named, show jsonString i.serviceName = i.serviceName from name,
          show jsonString i.id = i.id from sameId] at whole
        exact whole.trans named
      have blocked : r.value.blocked = i.blocked := by
        obtain ⟨v, _, _, _, _, value, _, _⟩ := putInstance_eq_ok.mp run
        rw [value, present]
        rfl
      rw [catalogStep, run, settle]
      exact ⟨trivial, r.value.json, wrote_putInstance clean run, blocked⟩
  | _ => exact about.elim

/-- What holds at any moment of the run, with `i` and `j` the copies A and B hold. -/
structure BlockSpreads (t : Time) (key : Key) (p : Pair) (i j : Instance) : Prop where
  storedA : p.a.instances.get key = some i
  storedB : p.b.instances.get key = some j
  namedA : Named key i
  namedB : Named key j
  early : i.blocked = false → i.updatedAt < t
  late : i.blocked = true → t ≤ i.updatedAt
  earlyB : j.blocked = false → j.updatedAt < t
  toA : ∀ ev ∈ p.toA, ∃ x, Tells key ev x ∧ (x.blocked = false → x.updatedAt < t) ∧
    (i.blocked = false → x.blocked = false)
  toB : ∀ ev ∈ p.toB, ∃ x, Tells key ev x ∧ x.blocked = true ∧ t ≤ x.updatedAt
  quiet : i.blocked = false → j.blocked = false ∧ p.toB = []
  pending : i.blocked = true → j.blocked = true ∨ p.toB ≠ []

variable {t : Time} {service id : GoString} {p : Pair} {i j : Instance}

theorem BlockSpreads.onA (spreads : BlockSpreads t (instanceKey service id) p i j) {now : Time}
    (timely : t ≤ now) :
    ∃ i', BlockSpreads t (instanceKey service id)
      (pairStep p (.onA (.setBlocked now service id true))).1 i' j ∧ i'.blocked = true := by
  obtain ⟨i', ⟨stored, stamp, ev, emitted, tells⟩, blocked⟩ :=
    wrote_setBlocked spreads.storedA spreads.namedA now true
  refine ⟨i', ?_, blocked⟩
  rw [pairStep, emitted]
  exact {
    storedA := stored
    storedB := spreads.storedB
    namedA := tells.named
    namedB := spreads.namedB
    early := fun free => absurd (blocked.symm.trans free) (by decide)
    late := fun _ => stamp ▸ timely
    earlyB := spreads.earlyB
    toA := fun e member => by
      obtain ⟨x, told, old, _⟩ := spreads.toA e member
      exact ⟨x, told, old, fun free => absurd (blocked.symm.trans free) (by decide)⟩
    toB := fun e member => by
      rcases List.mem_append.mp member with earlier | new
      · exact spreads.toB e earlier
      · obtain rfl := List.mem_singleton.mp new
        exact ⟨i', tells, blocked, stamp ▸ timely⟩
    quiet := fun free => absurd (blocked.symm.trans free) (by decide)
    pending := fun _ => Or.inr (by simp) }

theorem BlockSpreads.onB (spreads : BlockSpreads t (instanceKey service id) p i j) {op : CatalogOp}
    (about : (PairStep.onB op).About service id)
    (timely : (PairStep.onB op).Timely t (instanceKey service id) p) :
    ∃ j', BlockSpreads t (instanceKey service id) (pairStep p (.onB op)).1 i j' := by
  rcases wrote_onB spreads.storedB spreads.namedB about with
    ⟨stored, silent⟩ | ⟨changes, j', ⟨stored, stamp, ev, emitted, tells⟩, same⟩
  · refine ⟨j, ?_⟩
    rw [pairStep, silent, List.append_nil]
    exact { spreads with storedB := stored }
  · have early : j'.blocked = false → j'.updatedAt < t := by
      intro free
      rw [stamp]
      apply timely changes
      rw [spreads.storedB, Option.any_some, ← same, free]
      rfl
    refine ⟨j', ?_⟩
    rw [pairStep, emitted]
    exact { spreads with
      storedB := stored
      namedB := tells.named
      earlyB := early
      toA := fun e member => by
        rcases List.mem_append.mp member with earlier | new
        · exact spreads.toA e earlier
        · obtain rfl := List.mem_singleton.mp new
          exact ⟨j', tells, early, fun free => same.trans (spreads.quiet free).1⟩
      quiet := fun free => ⟨same.trans (spreads.quiet free).1, (spreads.quiet free).2⟩
      pending := fun blocked => (spreads.pending blocked).imp_left same.trans }

/-- A's copy is replaced only by a later one, which then is blocked as it is. -/
theorem BlockSpreads.deliverA (spreads : BlockSpreads t (instanceKey service id) p i j) (n : Nat) :
    ∃ i', BlockSpreads t (instanceKey service id) (pairStep p (.deliverA n)).1 i' j ∧
      i'.blocked = i.blocked := by
  cases found : p.toA[n]? with
  | none => exact ⟨i, by rwa [pairStep, found], rfl⟩
  | some ev =>
    obtain ⟨x, tells, old, free⟩ := spreads.toA ev (List.mem_of_getElem? found)
    have merged := get_apply_tells spreads.storedA tells
    have rest {e : Event} (member : e ∈ p.toA.eraseIdx n) : e ∈ p.toA := List.mem_of_mem_eraseIdx member
    by_cases later : i.updatedAt < x.updatedAt
    · have same : x.blocked = i.blocked := by
        cases unblocked : i.blocked with
        | false => exact free unblocked
        | true =>
          -- an unblocked copy is older than the block, so it cannot be the later one
          by_contra released
          have before := old (Bool.eq_false_iff.mpr released)
          have after := spreads.late unblocked
          exact absurd (Int.lt_trans later before) (Int.not_lt.mpr after)
      rw [if_pos later] at merged
      refine ⟨x, ?_, same⟩
      rw [pairStep, found]
      exact { spreads with
        storedA := merged
        namedA := tells.named
        early := old
        late := fun blocked => Int.le_of_lt (Int.lt_of_le_of_lt (spreads.late (same ▸ blocked)) later)
        toA := fun e member => by
          obtain ⟨y, told, earlier, released⟩ := spreads.toA e (rest member)
          exact ⟨y, told, earlier, fun unblocked => released (same ▸ unblocked)⟩
        quiet := fun unblocked => spreads.quiet (same ▸ unblocked)
        pending := fun blocked => spreads.pending (same ▸ blocked) }
    · rw [if_neg later] at merged
      refine ⟨i, ?_, rfl⟩
      rw [pairStep, found]
      exact { spreads with
        storedA := merged
        toA := fun e member => spreads.toA e (rest member) }

/-- B's copy is blocked as soon as it meets an event of A. -/
theorem BlockSpreads.deliverB (spreads : BlockSpreads t (instanceKey service id) p i j) (n : Nat) :
    ∃ j', BlockSpreads t (instanceKey service id) (pairStep p (.deliverB n)).1 i j' := by
  cases found : p.toB[n]? with
  | none => exact ⟨j, by rwa [pairStep, found]⟩
  | some ev =>
    have member := List.mem_of_getElem? found
    obtain ⟨x, tells, blocked, after⟩ := spreads.toB ev member
    have merged := get_apply_tells spreads.storedB tells
    have blockedA : i.blocked = true := by
      by_contra released
      have none := (spreads.quiet (Bool.eq_false_iff.mpr released)).2
      rw [none] at member
      exact absurd member List.not_mem_nil
    have rest {e : Event} (inRest : e ∈ p.toB.eraseIdx n) : e ∈ p.toB := List.mem_of_mem_eraseIdx inRest
    obtain ⟨j', stored, named, blockedB⟩ : ∃ j', (p.b.apply ev).instances.get (instanceKey service id) =
        some j' ∧ Named (instanceKey service id) j' ∧ j'.blocked = true := by
      by_cases later : j.updatedAt < x.updatedAt
      · rw [if_pos later] at merged
        exact ⟨x, merged, tells.named, blocked⟩
      · rw [if_neg later] at merged
        refine ⟨j, merged, spreads.namedB, ?_⟩
        by_contra released
        have before := spreads.earlyB (Bool.eq_false_iff.mpr released)
        exact later (Int.lt_of_lt_of_le before after)
    refine ⟨j', ?_⟩
    rw [pairStep, found]
    exact { spreads with
      storedB := stored
      namedB := named
      earlyB := fun free => absurd (blockedB.symm.trans free) (by decide)
      toB := fun e inRest => spreads.toB e (rest inRest)
      quiet := fun free => absurd (blockedA.symm.trans free) (by decide)
      pending := fun _ => Or.inl blockedB }

theorem BlockSpreads.step (spreads : BlockSpreads t (instanceKey service id) p i j) {step : PairStep}
    (about : step.About service id) (timely : step.Timely t (instanceKey service id) p) :
    ∃ i' j', BlockSpreads t (instanceKey service id) (pairStep p step).1 i' j' ∧
      (i.blocked = true ∨ (∃ op, step = .onA op) → i'.blocked = true) := by
  cases step with
  | onA op =>
    cases op with
    | setBlocked now name instID blocked =>
      obtain ⟨rfl, rfl, rfl⟩ := about
      obtain ⟨i', next, done⟩ := spreads.onA timely
      exact ⟨i', j, next, fun _ => done⟩
    | _ => exact about.elim
  | onB op =>
    obtain ⟨j', next⟩ := spreads.onB about timely
    exact ⟨i, j', next, fun asked => asked.elim (·) (by rintro ⟨_, other⟩; cases other)⟩
  | deliverA n =>
    obtain ⟨i', next, same⟩ := spreads.deliverA n
    exact ⟨i', j, next, fun asked => same.trans (asked.elim (·) (by rintro ⟨_, other⟩; cases other))⟩
  | deliverB n =>
    obtain ⟨j', next⟩ := spreads.deliverB n
    exact ⟨i, j', next, fun asked => asked.elim (·) (by rintro ⟨_, other⟩; cases other)⟩

theorem BlockSpreads.run (spreads : BlockSpreads t (instanceKey service id) p i j) {steps : List PairStep}
    (about : ∀ step ∈ steps, step.About service id)
    (timely : Meets pairStep (fun p step => step.Timely t (instanceKey service id) p) p steps) :
    ∃ i' j', BlockSpreads t (instanceKey service id) (exec pairStep p steps).1 i' j' ∧
      (i.blocked = true ∨ (∃ op, .onA op ∈ steps) → i'.blocked = true) := by
  induction steps generalizing p i j with
  | nil =>
    refine ⟨i, j, spreads, fun asked => asked.elim (·) ?_⟩
    rintro ⟨_, member⟩
    exact absurd member List.not_mem_nil
  | cons step steps ih =>
    obtain ⟨first, rest⟩ := List.forall_mem_cons.mp about
    obtain ⟨now, later⟩ := timely
    obtain ⟨i₁, j₁, next, kept⟩ := spreads.step first now
    obtain ⟨i₂, j₂, last, kept'⟩ := ih next rest later
    refine ⟨i₂, j₂, last, fun asked => kept' ?_⟩
    rcases asked with blocked | ⟨op, member⟩
    · exact Or.inl (kept (Or.inl blocked))
    · rcases List.mem_cons.mp member with here | inRest
      · exact Or.inl (kept (Or.inr ⟨op, here.symm⟩))
      · exact Or.inr ⟨op, inRest⟩

/-- Both nodes end up with the block once everything is delivered, provided that B writes nothing
with a time stamp from the block on before it has seen the block. -/
theorem block_spreads {a b : Store} {r : Instance}
    (storedA : a.instances.get (instanceKey service id) = some r)
    (storedB : b.instances.get (instanceKey service id) = some r) (free : r.blocked = false)
    (named : instanceKey r.serviceName r.id = instanceKey service id) (older : r.updatedAt < t)
    {steps : List PairStep} (about : ∀ step ∈ steps, step.About service id)
    (blocks : ∃ now, .onA (.setBlocked now service id true) ∈ steps)
    (timely : Meets pairStep (fun p step => step.Timely t (instanceKey service id) p) { a, b } steps)
    (delivered : (exec pairStep { a, b } steps).1.toA = [] ∧ (exec pairStep { a, b } steps).1.toB = []) :
    (∃ i, (exec pairStep { a, b } steps).1.a.instances.get (instanceKey service id) = some i ∧
        i.blocked = true) ∧
      ∃ i, (exec pairStep { a, b } steps).1.b.instances.get (instanceKey service id) = some i ∧
        i.blocked = true := by
  have start : BlockSpreads t (instanceKey service id) { a, b } r r := {
    storedA, storedB
    namedA := named
    namedB := named
    early := fun _ => older
    late := fun blocked => absurd (free.symm.trans blocked) (by decide)
    earlyB := fun _ => older
    toA := fun _ member => absurd member List.not_mem_nil
    toB := fun _ member => absurd member List.not_mem_nil
    quiet := fun _ => ⟨free, rfl⟩
    pending := fun blocked => absurd (free.symm.trans blocked) (by decide) }
  obtain ⟨i, j, spreads, done⟩ := start.run about timely
  obtain ⟨now, member⟩ := blocks
  have blockedA := done (Or.inr ⟨_, member⟩)
  refine ⟨⟨i, spreads.storedA, blockedA⟩, j, spreads.storedB, ?_⟩
  exact (spreads.pending blockedA).elim (·) (fun waiting => absurd delivered.2 waiting)

/-- A store that holds one instance, up and not blocked. -/
def servingStore : Store :=
  { empty with
    services := Bucket.empty.insert "s" { name := "s" } fits_s
    instances := Bucket.empty.insert "s/i"
      { id := "i", serviceName := "s", address := "10.0.0.1", status := statusUp, updatedAt := 1 }
      fits_s_i }

/-- Heartbeats on B before the block, and after B has received it. -/
theorem block_spreads_in_time :
    ∃ i, (exec pairStep { a := servingStore, b := servingStore }
      [.onB (.heartbeat 3 "s" "i" []), .onA (.setBlocked 5 "s" "i" true), .deliverB 0,
        .onB (.heartbeat 7 "s" "i" []), .deliverA 0, .deliverA 0]).1.a.instances.get "s/i" = some i ∧
      i.blocked = true := by
  have stored : servingStore.instances.get (instanceKey "s" "i") = some
      { id := "i", serviceName := "s", address := "10.0.0.1", status := statusUp, updatedAt := 1 } := by
    decide
  have timely : Meets pairStep (fun p step => step.Timely 5 (instanceKey "s" "i") p)
      { a := servingStore, b := servingStore }
      [.onB (.heartbeat 3 "s" "i" []), .onA (.setBlocked 5 "s" "i" true), .deliverB 0,
        .onB (.heartbeat 7 "s" "i" []), .deliverA 0, .deliverA 0] :=
    ⟨fun _ _ => by decide, by show (5 : Int) ≤ 5; decide, trivial, fun _ free => absurd free (by decide), trivial,
      trivial, trivial⟩
  refine (block_spreads stored stored rfl (by decide) (by decide) ?_ ⟨5, by simp⟩ timely (by decide)).1
  intro step member
  simp only [List.mem_cons, List.not_mem_nil, or_false] at member
  rcases member with rfl | rfl | rfl | rfl | rfl | rfl <;> simp [PairStep.About]

/-- A heartbeat on B while the block is on its way wins on both nodes. -/
theorem block_overwritten :
    ¬∀ (a b : Store) (service id : GoString) (r : Instance) (steps : List PairStep),
      a.instances.get (instanceKey service id) = some r →
      b.instances.get (instanceKey service id) = some r → r.blocked = false →
      (∀ step ∈ steps, step.About service id) →
      (∃ now, .onA (.setBlocked now service id true) ∈ steps) →
      (exec pairStep { a, b } steps).1.toA = [] ∧ (exec pairStep { a, b } steps).1.toB = [] →
      (∃ i, (exec pairStep { a, b } steps).1.a.instances.get (instanceKey service id) = some i ∧
        i.blocked = true) ∧
      ∃ i, (exec pairStep { a, b } steps).1.b.instances.get (instanceKey service id) = some i ∧
        i.blocked = true := by
  intro spreads
  obtain ⟨⟨i, stored, blocked⟩, _⟩ := spreads servingStore servingStore "s" "i"
    { id := "i", serviceName := "s", address := "10.0.0.1", status := statusUp, updatedAt := 1 }
    [.onA (.setBlocked 5 "s" "i" true), .onB (.heartbeat 7 "s" "i" []), .deliverB 0, .deliverA 0]
    (by decide) (by decide) rfl
    (by
      intro step member
      simp only [List.mem_cons, List.not_mem_nil, or_false] at member
      rcases member with rfl | rfl | rfl | rfl <;> simp [PairStep.About])
    ⟨5, by simp⟩ (by decide)
  have unblocked : ((exec pairStep { a := servingStore, b := servingStore }
      [.onA (.setBlocked 5 "s" "i" true), .onB (.heartbeat 7 "s" "i" []), .deliverB 0,
        .deliverA 0]).1.a.instances.get (instanceKey "s" "i")).map (·.blocked) = some false := by
    decide
  rw [stored, Option.map_some, blocked] at unblocked
  cases unblocked

end Store
end Discovery
