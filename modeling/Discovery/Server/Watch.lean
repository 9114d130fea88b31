import Discovery.Server.Hub

/-! From the `emit` calls of a store to its WebSocket clients. -/

namespace Discovery
open Machine

/-- A store's subscribers, and the hub that is one of them. What the hub passes on keeps the call it came from. -/
structure Feed (σ κ α : Type) where
  subs : Subscribers σ α
  hub : Hub κ (Sent α)

/-- What can happen next: a step among the subscribers, or of the hub's clients, or one in which `Hub.Run`
turns to its subscription. -/
inductive FeedStep (σ κ α : Type)
  | store (x : SubscriberStep σ α)
  | clients (x : HubStep κ (Sent α))
  | subscribe
  | run
  | stop
  | unsubscribe

/-- Only the holder of a subscription reads from it and gives it up. -/
def SubscriberStep.OfHolder {σ α : Type} (sub : σ) : SubscriberStep σ α → Prop
  | .subscribe s _ | .unsubscribe s | .receive s => s = sub
  | _ => False

/-- Steps of `Run` that turn to its subscription. -/
def HubStep.OfRun {κ α : Type} : HubStep κ α → Prop
  | .take _ | .stop => True
  | _ => False

namespace Feed
variable {σ κ α : Type}

instance [DecidableEq σ] (sub : σ) : (x : SubscriberStep σ α) → Decidable (x.OfHolder sub)
  | .subscribe s _ | .unsubscribe s | .receive s => inferInstanceAs (Decidable (s = sub))
  | .lock _ | .visit _ _ | .unlock _ => inferInstanceAs (Decidable False)

instance : (x : HubStep κ α) → Decidable x.OfRun
  | .take _ | .stop => inferInstanceAs (Decidable True)
  | .send _ | .unlock | .drop | .add _ | .remove _ | .write _ => inferInstanceAs (Decidable False)

def start : Feed σ κ α where
  subs := Subscribers.start
  hub := Hub.start

def subscribeBuffer : Int := 512

variable [DecidableEq σ] [DecidableEq κ] (sub : σ)

/-- The hub takes an event off its subscription, where it is not busy with the one before. -/
def run (w : Feed σ κ α) : Feed σ κ α :=
  match w.hub.phase, w.subs.receive sub with
  | .idle, (subs, some m) => { subs, hub := w.hub.take m }
  | _, _ => w

def step (w : Feed σ κ α) : FeedStep σ κ α → Feed σ κ α × List (Sent α)
  | .store x => (if x.OfHolder sub then w else { w with subs := (Subscribers.step w.subs x).1 }, [])
  | .clients x =>
    if x.OfRun then (w, [])
    else
      let r := Hub.step w.hub x
      ({ w with hub := r.1 }, r.2)
  | .subscribe => ({ w with subs := w.subs.subscribe sub subscribeBuffer }, [])
  | .run => (w.run sub, [])
  | .stop => ({ w with hub := w.hub.stop }, [])
  | .unsubscribe =>
    match w.hub.phase with
    | .stopped => ({ w with subs := w.subs.unsubscribe sub }, [])
    | _ => (w, [])

section
omit [DecidableEq κ]

def takenFrom (st : Subscribers σ α) : List (Sent α) := (st.subscriber sub).elim [] (·.ch.taken)

variable {sub} {st : Subscribers σ α}

theorem takenFrom_subscribe (other : σ) (buffer : Int) :
    takenFrom sub (st.subscribe other buffer) = takenFrom sub st := by
  rw [Subscribers.subscribe]
  split
  next => rfl
  next guard =>
    simp only [Bool.or_eq_true, not_or, Option.isSome_iff_ne_none, ne_eq, not_not] at guard
    simp only [takenFrom, Function.update_apply]
    split
    next same => rw [same, guard.2, Option.elim_some, Option.elim_none]
    next => rfl

theorem takenFrom_unsubscribe (other : σ) : takenFrom sub (st.unsubscribe other) = takenFrom sub st := by
  rw [Subscribers.unsubscribe]
  split
  next => rfl
  cases found : st.subscriber other with
  | none => rfl
  | some s =>
    cases closes : s.ch.close with
    | none => simp only [closes]; rfl
    | some ch =>
      obtain ⟨_, rfl⟩ := Channel.close_eq_some.mp closes
      simp only [closes, takenFrom, Function.update_apply]
      split
      next same => rw [same, found, Option.elim_some, Option.elim_some]
      next => rfl

theorem takenFrom_visit (i : Nat) (other : σ) : takenFrom sub (st.visit i other) = takenFrom sub st := by
  rw [Subscribers.visit]
  split
  next call s _ found =>
    split
    next => rfl
    cases run : s.ch.offer ⟨i, call.event⟩ with
    | none => rfl
    | some r =>
      obtain ⟨ch, ok⟩ := r
      have taken : ch.taken = s.ch.taken := (Channel.offer_spec run).2.2.2.1
      simp only [takenFrom, Function.update_apply]
      split
      next same => rw [same, found, Option.elim_some, Option.elim_some, taken]
      next => rfl
  next => rfl

theorem takenFrom_receive (other : σ) :
    takenFrom sub (st.receive other).1 =
      takenFrom sub st ++ if other = sub then (st.receive other).2.toList else [] := by
  rw [Subscribers.receive]
  cases found : st.subscriber other with
  | none => simp
  | some s =>
    simp only [takenFrom, Function.update_apply]
    by_cases same : other = sub
    · rw [if_pos same.symm, if_pos same, ← same, found]
      exact s.ch.taken_receive
    · rw [if_neg (Ne.symm same), if_neg same, List.append_nil]

/-- Nobody else reads from a subscription. -/
theorem takenFrom_step {x : SubscriberStep σ α} (other : ¬x.OfHolder sub) :
    takenFrom sub (Subscribers.step st x).1 = takenFrom sub st := by
  cases x with
  | subscribe s buffer => exact takenFrom_subscribe s buffer
  | unsubscribe s => exact takenFrom_unsubscribe s
  | lock event => rfl
  | visit i s => exact takenFrom_visit i s
  | unlock i =>
    rw [Subscribers.step, Subscribers.unlock]
    split
    next => rfl
    next => split <;> rfl
  | receive s =>
    change ¬s = sub at other
    refine (takenFrom_receive s).trans ?_
    rw [if_neg other, List.append_nil]

end

theorem intake_step {h : Hub κ α} {x : HubStep κ α} (other : ¬x.OfRun) : (Hub.step h x).1.intake = h.intake := by
  have removed (c : κ) : (h.removeClient c).intake = h.intake := by
    rw [Hub.removeClient]
    split
    next => rfl
    next =>
      split
      next => rfl
      next => split <;> rfl
  cases x with
  | take ev => exact absurd trivial other
  | stop => exact absurd trivial other
  | send c =>
    rw [Hub.step, Hub.send]
    split
    next =>
      split
      next => rfl
      next => split <;> rfl
    next => rfl
  | unlock =>
    rw [Hub.step, Hub.unlock]
    split <;> rfl
  | drop =>
    rw [Hub.step, Hub.drop]
    split
    next c _ _ => exact removed c
    next => rfl
    next => rfl
  | add c =>
    rw [Hub.step, Hub.add]
    split <;> rfl
  | remove c =>
    rw [Hub.step, Hub.remove]
    split
    next => rfl
    next => exact removed c
  | write c =>
    rw [Hub.step, Hub.write]
    split <;> rfl

/-- What the hub has taken is what was received from its subscription. -/
structure Inv (w : Feed σ κ α) : Prop where
  subs : w.subs.Inv
  hub : w.hub.Inv
  taken : takenFrom sub w.subs = w.hub.intake

variable {sub} {w : Feed σ κ α}

omit [DecidableEq κ] in
theorem Inv.run (inv : w.Inv sub) : (w.run sub).Inv sub := by
  rw [Feed.run]
  split
  next subs m idle received =>
    have got : takenFrom sub (w.subs.receive sub).1 = _ := takenFrom_receive sub
    have subsInv := inv.subs.receive sub
    rw [received] at got subsInv
    refine ⟨subsInv, inv.hub.take m, ?_⟩
    rw [got, inv.taken, if_pos rfl, Hub.take, idle]
    rfl
  next => exact inv

theorem step_keeps (w : Feed σ κ α) (x : FeedStep σ κ α) (inv : w.Inv sub) : (step sub w x).1.Inv sub := by
  cases x with
  | store x =>
    rw [step]
    split
    next => exact inv
    next other => exact ⟨Subscribers.step_keeps w.subs x inv.subs, inv.hub, (takenFrom_step other).trans inv.taken⟩
  | clients x =>
    rw [step]
    split
    next => exact inv
    next other => exact ⟨inv.subs, Hub.step_keeps w.hub x inv.hub, inv.taken.trans (intake_step other).symm⟩
  | subscribe => exact ⟨inv.subs.subscribe sub _, inv.hub, (takenFrom_subscribe sub _).trans inv.taken⟩
  | run => exact inv.run
  | stop =>
    refine ⟨inv.subs, inv.hub.stop, inv.taken.trans ?_⟩
    rw [step, Hub.stop]
    split <;> rfl
  | unsubscribe =>
    rw [step]
    split
    next => exact ⟨inv.subs.unsubscribe sub, inv.hub, (takenFrom_unsubscribe sub).trans inv.taken⟩
    next => exact inv

/-- What a client is sent stems from `emit` calls, from each at most once and in an order the calls allow, and
it has no gaps in what the hub's subscription accepted. -/
structure Follows (w : Feed σ κ α) (sub : σ) (cl : WsClient (Sent α)) : Prop where
  once : (cl.send.stream.map Sent.call).Nodup
  emitted : ∀ m ∈ cl.send.stream, ∃ k ∈ w.subs.calls m.call, k.event = m.event
  ordered : cl.send.stream.Pairwise fun a b => ¬Subscribers.Precedes w.subs.calls b.call a.call
  gapless : cl.send.stream <+: ((w.subs.subscriber sub).elim [] (·.ch.stream)).drop cl.joined

omit [DecidableEq σ] [DecidableEq κ] in
theorem Inv.follows (inv : w.Inv sub) {c : κ} {cl : WsClient (Sent α)} (found : cl ∈ w.hub.client c) :
    w.Follows sub cl := by
  have short := (inv.hub.gapless c cl found).2
  rw [← inv.taken, takenFrom] at short
  cases present : w.subs.subscriber sub with
  | none =>
    rw [present, Option.elim_none, List.drop_nil, List.prefix_nil] at short
    refine ⟨?_, ?_, ?_, ?_⟩
    · rw [short]
      exact List.nodup_nil
    · rw [short]
      exact fun m member => nomatch member
    · rw [short]
      exact List.Pairwise.nil
    · rw [short]
      exact List.nil_prefix
  | some s =>
    rw [present, Option.elim_some] at short
    have whole : cl.send.stream <+: s.ch.stream.drop cl.joined := by
      rw [Channel.stream.eq_def s.ch, List.drop_append]
      exact short.trans (List.prefix_append _ _)
    have part : cl.send.stream.Sublist s.ch.stream := whole.sublist.trans (List.drop_sublist _ _)
    have serves := inv.subs.serves sub s present
    refine ⟨?_, ?_, serves.ordered.sublist part, ?_⟩
    · exact serves.once.sublist ((part.trans (List.sublist_append_left _ _)).map _)
    · intro m member
      obtain ⟨k, called, event, _⟩ := serves.sent m (List.mem_append_left _ (part.subset member))
      exact ⟨k, called, event⟩
    · rw [present]
      exact whole

/-- Whatever the order of the steps, nothing panics, and each WebSocket client follows the `emit` calls of the store. -/
theorem clients_follow (steps : List (FeedStep σ κ α)) :
    let w := (exec (step sub) (start : Feed σ κ α) steps).1
    w.subs.panicked = false ∧ w.hub.panicked = false ∧ ∀ c, ∀ cl ∈ w.hub.client c, w.Follows sub cl := by
  have inv : Inv sub (exec (step sub) (start : Feed σ κ α) steps).1 :=
    exec_invariant (Inv sub) (fun w x inv _ => step_keeps w x inv)
      ⟨Subscribers.start_inv, Hub.start_inv, rfl⟩ (meets_of_forall (P := fun _ => True) fun _ _ => trivial)
  exact ⟨inv.subs.sane, inv.hub.sane, fun c cl found => inv.follows found⟩

end Feed
end Discovery
