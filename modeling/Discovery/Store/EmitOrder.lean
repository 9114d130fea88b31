import Discovery.Store.Causality

namespace Discovery
open Kv Machine

/-- A node with calls that have committed. `pending` are the events these calls are still to emit, in
the order of the commits. -/
structure Calls where
  store : Store
  pending : List Event := []

/-- The commit of a `PutInstance` call that has read the clock before, the commit of a
`DeleteInstance` call, or the emit of the `i`-th pending call. -/
inductive CallStep
  | put (now : Time) (inst : Instance)
  | delete (service id : GoString)
  | emit (i : Nat)
  deriving DecidableEq

/-- The calls concern one instance key. -/
def CallStep.About (key : Key) : CallStep → Prop
  | .put _ inst => instanceKey inst.serviceName inst.id = key
  | .delete service id => instanceKey service id = key
  | .emit _ => True

def callStep (c : Calls) : CallStep → Calls × List Event
  | .put now inst =>
    let r := c.store.settle (c.store.putInstance now inst)
    ({ store := r.1, pending := c.pending ++ r.2 }, [])
  | .delete service id =>
    let r := c.store.deleteInstance service id
    ({ store := r.store, pending := c.pending ++ r.events }, [])
  | .emit i =>
    match c.pending[i]? with
    | none => (c, [])
    | some ev => ({ c with pending := c.pending.eraseIdx i }, [ev])

/-- The time an upsert event carries. -/
def Event.time (ev : Event) : Option Time := ev.carried.map (·.2.updatedAt)

/-- Two registrations of different times. -/
def Event.Swaps (a b : Event) : Prop := a.time ≠ none ∧ b.time ≠ none ∧ a.time ≠ b.time

instance (a b : Event) : Decidable (a.Swaps b) := inferInstanceAs (Decidable (_ ∧ _ ∧ _))

namespace Store

/-- A registration that is accepted has a key in valid UTF-8 and is stamped later than the record it
replaces, and an event is emitted before one of an earlier commit only if both are registrations. -/
def InTurn (key : Key) (c : Calls) : CallStep → Prop
  | .put now inst => Registrable inst → ValidUTF8 key ∧ (c.store.instances.get key).all (·.updatedAt < now)
  | .delete _ _ => True
  | .emit i => ∀ ev ∈ c.pending[i]?, ∀ earlier ∈ c.pending.take i, earlier.Swaps ev

instance (inst : Instance) : Decidable (Registrable inst) :=
  decidable_of_iff (inst.validate.isOk = true ∧ KeyFits (instanceKey inst.serviceName inst.id)) (by
    unfold Registrable
    cases inst.validate <;> simp [Except.isOk, Except.toBool])

instance (key : Key) (c : Calls) : (step : CallStep) → Decidable (InTurn key c step)
  | .put _ _ => inferInstanceAs (Decidable (_ → _ ∧ _ = true))
  | .delete _ _ => inferInstanceAs (Decidable True)
  | .emit _ => inferInstanceAs (Decidable (∀ ev ∈ _, ∀ earlier ∈ _, Event.Swaps earlier ev))

/-- The event upserts or deletes the instance record. -/
def Concerns (key : Key) (ev : Event) : Prop :=
  (∃ r, ev.record = some (⟨.inst, key⟩, r)) ∨ ev.removes = some ⟨.inst, key⟩

/-- What such an event makes of the record. -/
def told (stored : Option Record) (ev : Event) : Option Record :=
  match ev.carried with
  | some (_, r) => Lww.merge Record.updatedAt Kind.inst.replaces stored r
  | none => none

/-- An event about the record makes of it what the record was and the event says. -/
theorem lookup_told {key : Key} {ev : Event} (concerns : Concerns key ev) (st : Store) :
    (st.apply ev).lookup ⟨.inst, key⟩ = told (st.lookup ⟨.inst, key⟩) ev := by
  rcases concerns with ⟨r, record⟩ | removes
  · have carried := carried_of_record record
    have fits : KeyFits key := by simpa using (Option.filter_eq_some_iff.mp record).2
    rw [lookup_apply carried, if_pos ⟨rfl, fits⟩, told, carried]
  · have silent : ev.carried = none := by
      cases ev <;> first | rfl | cases removes
    rw [lookup_removes removes, if_pos rfl, told, silent]

/-- Two registrations of different times may change places. -/
theorem told_swap {a b : Event} (swaps : a.Swaps b) (stored : Option Record) :
    told (told stored a) b = told (told stored b) a := by
  obtain ⟨first, second, differ⟩ := swaps
  unfold Event.time at first second differ
  cases carriedA : a.carried with
  | none => exact absurd (by rw [carriedA]; rfl) first
  | some entryA =>
    cases carriedB : b.carried with
    | none => exact absurd (by rw [carriedB]; rfl) second
    | some entryB =>
      rw [carriedA, carriedB] at differ
      have stamps : entryA.2.updatedAt ≠ entryB.2.updatedAt := fun same => differ (congrArg some same)
      simp only [told, carriedA, carriedB]
      exact Lww.merge_comm (Kind.settles .inst) stamps stored

/-- The peer's record is the node's once the pending events have reached the peer as well. -/
structure CatchesUp (key : Key) (c : Calls) (peer : Store) : Prop where
  concerns : ∀ ev ∈ c.pending, Concerns key ev
  reaches : c.pending.foldl told (peer.lookup ⟨.inst, key⟩) = c.store.lookup ⟨.inst, key⟩

variable {key : Key} {c : Calls} {peer : Store}

/-- A registration that is later than what it replaces wins on the peer as well, after whatever is still pending. -/
theorem CatchesUp.put (related : CatchesUp key c peer) {now : Time}
    {inst : Instance} (about : instanceKey inst.serviceName inst.id = key)
    (later : InTurn key c (.put now inst)) : CatchesUp key (callStep c (.put now inst)).1 peer := by
  subst about
  rw [callStep]
  cases run : c.store.putInstance now inst with
  | error e =>
    rw [settle, List.append_nil]
    exact related
  | ok r =>
    obtain ⟨clean, after⟩ := later (putInstance_ok_iff.mp ⟨r, run⟩)
    obtain ⟨stored, stamp, ev, emitted, tells⟩ := wrote_putInstance clean run
    obtain ⟨_, _, _, _, fits, _⟩ := putInstance_eq_ok.mp run
    rw [settle, emitted]
    constructor
    · intro e member
      rcases List.mem_append.mp member with old | new
      · exact related.concerns e old
      · obtain rfl := List.mem_singleton.mp new
        exact Or.inl ⟨_, record_of_carried tells fits⟩
    · -- the peer takes the registration over whatever the earlier events leave
      rw [List.foldl_append, related.reaches, List.foldl_cons, List.foldl_nil, told, tells, lookup_inst,
        lookup_inst, stored]
      cases present : c.store.instances.get (instanceKey inst.serviceName inst.id) with
      | none => rfl
      | some prev =>
        rw [present, Option.all_some, decide_eq_true_eq, ← stamp] at after
        have taken : Kind.inst.replaces (Record.inst prev).updatedAt (Record.inst r.value.json).updatedAt =
            true := decide_eq_true after
        exact Lww.merge_of_replaces taken

/-- A deletion is pending last, and takes the record from the peer when it comes. -/
theorem CatchesUp.delete (related : CatchesUp key c peer) {service id : GoString}
    (about : instanceKey service id = key) : CatchesUp key (callStep c (.delete service id)).1 peer := by
  subst about
  have gone := c.store.get_deleteInstance service id (instanceKey service id)
  rw [if_pos rfl] at gone
  constructor
  · intro e member
    rcases List.mem_append.mp member with old | new
    · exact related.concerns e old
    · rw [deleteInstance] at new
      split at new
      · exact absurd new List.not_mem_nil
      · obtain rfl := List.mem_singleton.mp new
        exact Or.inr rfl
  · have emptied : (callStep c (.delete service id)).1.store.lookup ⟨.inst, instanceKey service id⟩ = none :=
      congrArg (Option.map Record.inst) gone
    rw [emptied, callStep, List.foldl_append, related.reaches, lookup_inst, deleteInstance]
    split
    next absent => rw [absent]; rfl
    next => rfl

/-- An event that is emitted before its turn does what it would have done in its turn, since all it overtakes may
change places with it. -/
theorem CatchesUp.emit (related : CatchesUp key c peer) {i : Nat}
    (turn : InTurn key c (.emit i)) :
    CatchesUp key (callStep c (.emit i)).1 ((callStep c (.emit i)).2.foldl apply peer) := by
  rw [callStep]
  cases found : c.pending[i]? with
  | none => exact related
  | some ev =>
    have concerns := related.concerns ev (List.mem_of_getElem? found)
    constructor
    · exact fun e member => related.concerns e (List.mem_of_mem_eraseIdx member)
    · rw [List.foldl_cons, List.foldl_nil, lookup_told concerns]
      have swaps : ∀ earlier ∈ c.pending.take i, ∀ t, told (told t earlier) ev = told (told t ev) earlier :=
        fun earlier before t => told_swap (turn ev found earlier before) t
      exact (foldl_eraseIdx found swaps (peer.lookup ⟨.inst, key⟩)).trans related.reaches

theorem CatchesUp.step (related : CatchesUp key c peer) {step : CallStep}
    (turn : InTurn key c step) (about : step.About key) :
    CatchesUp key (callStep c step).1 ((callStep c step).2.foldl apply peer) := by
  cases step with
  | put now inst => exact related.put about turn
  | delete service id => exact related.delete about
  | emit i => exact related.emit turn

/-- Whenever no call is between its commit and its emit, the peer has the record of the node, provided
that registrations have a key in valid UTF-8 and are stamped later than what they replace, and that no
event overtakes another but a registration a registration. -/
theorem peer_follows {st peer : Store} {key : Key}
    (same : peer.lookup ⟨.inst, key⟩ = st.lookup ⟨.inst, key⟩) {steps : List CallStep}
    (about : ∀ step ∈ steps, step.About key)
    (turn : Meets callStep (InTurn key) { store := st } steps) {pre : List CallStep}
    (short : pre <+: steps) (quiet : (exec callStep { store := st } pre).1.pending = []) :
    (peer.applyAll (exec callStep { store := st } pre).2).lookup ⟨.inst, key⟩ =
      (exec callStep { store := st } pre).1.store.lookup ⟨.inst, key⟩ := by
  have start : CatchesUp key { store := st } peer := ⟨fun e none => absurd none List.not_mem_nil, same⟩
  have met := (turn.of_prefix short).and fun step member => about step (short.subset member)
  have related := exec_replay apply (CatchesUp key)
    (fun c p step holds ok => holds.step ok.1 ok.2) start met
  have reaches := related.reaches
  rw [quiet, List.foldl_nil] at reaches
  exact reaches

/-- A registration of the instance of `servingStore`. -/
def servingRegistration : Instance :=
  { id := "i", serviceName := "s", address := "10.0.0.2" }

/-- Two registrations whose events change places, and a deletion after them. -/
def callsInTurn : List CallStep :=
  [.put 5 servingRegistration, .put 8 servingRegistration, .emit 1, .emit 0, .delete "s" "i", .emit 0]

/-- A deletion whose event is emitted before that of the registration it removes. -/
def callsOvertaken : List CallStep :=
  [.put 5 servingRegistration, .delete "s" "i", .emit 1, .emit 0]

theorem about_calls {step : CallStep} (member : step ∈ callsInTurn ∨ step ∈ callsOvertaken) :
    step.About "s/i" := by
  have key : instanceKey "s" "i" = ofString "s/i" := by decide
  simp only [callsInTurn, callsOvertaken, List.mem_cons, List.not_mem_nil, or_false] at member
  rcases member with (rfl | rfl | rfl | rfl | rfl | rfl) | (rfl | rfl | rfl | rfl)
  all_goals first | exact key | exact trivial

theorem peer_follows_in_turn :
    (servingStore.applyAll (exec callStep { store := servingStore } callsInTurn).2).lookup ⟨.inst, "s/i"⟩ =
      (exec callStep { store := servingStore } callsInTurn).1.store.lookup ⟨.inst, "s/i"⟩ :=
  peer_follows rfl (fun _ member => about_calls (Or.inl member)) (by decide)
    (List.prefix_refl _) (by decide)

theorem deletion_overtakes :
    ¬∀ (st peer : Store) (key : Key) (steps : List CallStep),
      peer.lookup ⟨.inst, key⟩ = st.lookup ⟨.inst, key⟩ → (∀ step ∈ steps, step.About key) →
      (exec callStep { store := st } steps).1.pending = [] →
      (peer.applyAll (exec callStep { store := st } steps).2).lookup ⟨.inst, key⟩ =
        (exec callStep { store := st } steps).1.store.lookup ⟨.inst, key⟩ := by
  intro follows
  have wrong := follows servingStore servingStore "s/i" callsOvertaken rfl
    (fun _ member => about_calls (Or.inr member)) (by decide)
  exact absurd wrong (by decide)

end Store
end Discovery
