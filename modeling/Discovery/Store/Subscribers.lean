import Mathlib.Logic.Function.Basic
import Discovery.Channel
import Discovery.Machine

/-! The fan-out of events to the subscribers of a store. It does not look into the events. -/

namespace Discovery
open Machine

/-- A call of `emit` with the subscribers it has still to visit. `began` and `returned` are history
variables: when it took and when it gave back the read lock. -/
structure EmitCall (κ α : Type) where
  event : α
  pending : List κ
  began : Nat
  returned : Option Nat := none

/-- An event in a channel, with the call that sent it. -/
structure Sent (α : Type) where
  call : Nat
  event : α

/-- `joined` and `left` are history variables: when it subscribed and unsubscribed. -/
structure Subscriber (α : Type) where
  ch : Channel (Sent α)
  joined : Nat
  left : Option Nat := none

/-- The map of subscribers and all `emit` calls so far. A pointer that was removed from the map keeps its
subscriber. The clock ticks when the read lock is taken or given back. -/
structure Subscribers (κ α : Type) where
  subs : List κ
  subscriber : κ → Option (Subscriber α)
  calls : Nat → Option (EmitCall κ α)
  begun : Nat
  clock : Nat
  panicked : Bool

/-- What can happen next: a `Subscribe` call for a new pointer, an `Unsubscribe` call, the three stages of an
`emit` call, or a receive. -/
inductive SubscriberStep (κ α : Type)
  | subscribe (sub : κ) (buffer : Int)
  | unsubscribe (sub : κ)
  | lock (event : α)
  | visit (call : Nat) (sub : κ)
  | unlock (call : Nat)
  | receive (sub : κ)

namespace Subscribers
variable {κ α : Type}

def start : Subscribers κ α where
  subs := []
  subscriber _ := none
  calls _ := none
  begun := 0
  clock := 0
  panicked := false

def running (calls : Nat → Option (EmitCall κ α)) (i : Nat) : Bool :=
  (calls i).any (·.returned.isNone)

/-- Some call holds the read lock. -/
def locked (st : Subscribers κ α) : Bool := (List.range st.begun).any (running st.calls)

section
variable [DecidableEq κ]

/-- Waits for the write lock. A size that is not positive counts as 64. -/
def subscribe (st : Subscribers κ α) (sub : κ) (buffer : Int) : Subscribers κ α :=
  if st.locked || (st.subscriber sub).isSome then st
  else
    let ch : Channel (Sent α) := { capacity := if buffer ≤ 0 then 64 else buffer.toNat }
    { st with
      subs := sub :: st.subs
      subscriber := Function.update st.subscriber sub (some { ch, joined := st.clock }) }

/-- Waits for the write lock. A second call does nothing. -/
def unsubscribe (st : Subscribers κ α) (sub : κ) : Subscribers κ α :=
  if st.locked || sub ∉ st.subs then st
  else match st.subscriber sub with
    | none => st
    | some s => match s.ch.close with
      | none => { st with panicked := true }
      | some ch =>
        { st with
          subs := st.subs.erase sub
          subscriber := Function.update st.subscriber sub (some { s with ch, left := some st.clock }) }

def lock (st : Subscribers κ α) (event : α) : Subscribers κ α :=
  { st with
    calls := Function.update st.calls st.begun (some { event, pending := st.subs, began := st.clock })
    begun := st.begun + 1
    clock := st.clock + 1 }

/-- One turn of the loop. The order of the map is arbitrary. -/
def visit (st : Subscribers κ α) (i : Nat) (sub : κ) : Subscribers κ α :=
  match st.calls i, st.subscriber sub with
  | some call, some s =>
    if sub ∉ call.pending then st
    else match s.ch.offer ⟨i, call.event⟩ with
      | none => { st with panicked := true }
      | some (ch, _) =>
        { st with
          calls := Function.update st.calls i (some { call with pending := call.pending.erase sub })
          subscriber := Function.update st.subscriber sub (some { s with ch }) }
  | _, _ => st

def unlock (st : Subscribers κ α) (i : Nat) : Subscribers κ α :=
  match st.calls i with
  | none => st
  | some call =>
    if call.pending ≠ [] ∨ call.returned.isSome then st
    else
      { st with
        calls := Function.update st.calls i (some { call with returned := some st.clock })
        clock := st.clock + 1 }

def receive (st : Subscribers κ α) (sub : κ) : Subscribers κ α × Option (Sent α) :=
  match st.subscriber sub with
  | none => (st, none)
  | some s =>
    let r := s.ch.receive
    ({ st with subscriber := Function.update st.subscriber sub (some { s with ch := r.1 }) }, r.2)

def step (st : Subscribers κ α) : SubscriberStep κ α → Subscribers κ α × List (Sent α)
  | .subscribe sub buffer => (st.subscribe sub buffer, [])
  | .unsubscribe sub => (st.unsubscribe sub, [])
  | .lock event => (st.lock event, [])
  | .visit i sub => (st.visit i sub, [])
  | .unlock i => (st.unlock i, [])
  | .receive sub =>
    let r := st.receive sub
    (r.1, r.2.toList)

end

/-- The first call returned before the second one began. -/
def Precedes (calls : Nat → Option (EmitCall κ α)) (i j : Nat) : Prop :=
  ∃ k ∈ calls i, ∃ l ∈ calls j, ∃ t ∈ k.returned, t < l.began

/-- The subscriber's channel has accepted or refused the event of each call that began while it was
subscribed and has come by it, once, and it carries the events in an order the calls allow. -/
structure Serves (calls : Nat → Option (EmitCall κ α)) (sub : κ) (s : Subscriber α) : Prop where
  once : (s.ch.offered.map Sent.call).Nodup
  sent : ∀ m ∈ s.ch.offered, ∃ k ∈ calls m.call, k.event = m.event ∧ s.joined ≤ k.began ∧ sub ∉ k.pending
  complete : ∀ i, ∀ k ∈ calls i, s.joined ≤ k.began → (∀ t ∈ s.left, k.began < t) → sub ∉ k.pending →
    ∃ m ∈ s.ch.offered, m.call = i
  ordered : s.ch.stream.Pairwise fun a b => ¬Precedes calls b.call a.call
  bounded : s.ch.Bounded

/-- Nothing has panicked, and all who ever subscribed are served. -/
def Served (st : Subscribers κ α) : Prop :=
  st.panicked = false ∧ ∀ sub, ∀ s ∈ st.subscriber sub, Serves st.calls sub s

/-- Nothing has panicked, and the loop of a running call ranges over subscribers that were there when it began. -/
structure Inv (st : Subscribers κ α) : Prop where
  sane : st.panicked = false
  distinct : st.subs.Nodup
  registered : ∀ sub, sub ∈ st.subs ↔ ∃ s ∈ st.subscriber sub, s.left = none
  opened : ∀ sub, ∀ s ∈ st.subscriber sub, s.ch.closed = s.left.isSome ∧ s.joined ≤ st.clock ∧
    ∀ t ∈ s.left, t ≤ st.clock
  unused : ∀ i, st.begun ≤ i → st.calls i = none
  called : ∀ i, ∀ k ∈ st.calls i, k.pending.Nodup ∧ k.began < st.clock ∧ (k.returned.isSome → k.pending = []) ∧
    ∀ sub ∈ k.pending, ∃ s ∈ st.subscriber sub, s.left = none ∧ s.joined ≤ k.began
  serves : ∀ sub, ∀ s ∈ st.subscriber sub, Serves st.calls sub s

variable {calls : Nat → Option (EmitCall κ α)} {sub : κ} {s : Subscriber α} {i : Nat} {k k' : EmitCall κ α}

/-- A call that moves on changes nothing for a subscriber it does not visit just now. -/
theorem Serves.call (serves : Serves calls sub s) (present : calls i = some k)
    (same : k'.event = k.event ∧ k'.began = k.began) (pending : sub ∈ k'.pending ↔ sub ∈ k.pending)
    (late : ∀ t ∈ k'.returned, t ∈ k.returned ∨ ∀ j, ∀ l ∈ calls j, l.began ≤ t) :
    Serves (Function.update calls i (some k')) sub s := by
  have before {j : Nat} {l : EmitCall κ α} (found : l ∈ Function.update calls i (some k') j) :
      ∃ l₀ ∈ calls j, l.began = l₀.began ∧ (sub ∈ l.pending ↔ sub ∈ l₀.pending) ∧
        ∀ t ∈ l.returned, t ∈ l₀.returned ∨ ∀ j, ∀ l ∈ calls j, l.began ≤ t := by
    rw [Function.update_apply] at found
    split at found
    next here =>
      cases found
      exact ⟨k, here ▸ present, same.2, pending, late⟩
    next => exact ⟨l, found, rfl, Iff.rfl, fun t returned => .inl returned⟩
  refine ⟨serves.once, ?_, ?_, ?_, serves.bounded⟩
  · intro m member
    obtain ⟨l, found, event, joined, visited⟩ := serves.sent m member
    rw [Function.update_apply]
    split
    next here =>
      rw [here, present] at found
      cases found
      exact ⟨k', rfl, same.1.trans event, le_of_le_of_eq joined same.2.symm, mt pending.mp visited⟩
    next => exact ⟨l, found, event, joined, visited⟩
  · intro j l found joined present visited
    obtain ⟨l₀, found₀, began, still, _⟩ := before found
    rw [began] at joined present
    exact serves.complete j l₀ found₀ joined present (mt still.mpr visited)
  · refine serves.ordered.imp fun {a b} apart => ?_
    rintro ⟨l, first, l', second, t, returned, earlier⟩
    obtain ⟨l₀, first₀, _, _, ended⟩ := before first
    obtain ⟨l₁, second₁, began, _⟩ := before second
    rw [began] at earlier
    rcases ended t returned with old | late
    · exact apart ⟨l₀, first₀, l₁, second₁, t, old, earlier⟩
    · exact absurd earlier (Nat.not_lt.mpr (late _ l₁ second₁))

/-- A new call is still to visit those that are subscribed. -/
theorem Serves.lock (serves : Serves calls sub s)
    (present : sub ∈ k.pending ∨ ∃ t ∈ s.left, t ≤ k.began) (latest : ∀ m ∈ s.ch.offered, m.call ≠ i) :
    Serves (Function.update calls i (some k)) sub s := by
  refine ⟨serves.once, ?_, ?_, ?_, serves.bounded⟩
  · intro m member
    rw [Function.update_of_ne (latest m member)]
    exact serves.sent m member
  · intro j l found joined subscribed visited
    rw [Function.update_apply] at found
    split at found
    next =>
      cases found
      rcases present with waiting | ⟨t, left, gone⟩
      · exact absurd waiting visited
      · exact absurd (subscribed t left) (Nat.not_lt.mpr gone)
    next => exact serves.complete j l found joined subscribed visited
  · refine serves.ordered.imp_of_mem fun {a b} inA inB apart => ?_
    rintro ⟨l, first, l', second, order⟩
    rw [Function.update_of_ne (latest _ (List.mem_append_left _ inB))] at first
    rw [Function.update_of_ne (latest _ (List.mem_append_left _ inA))] at second
    exact apart ⟨l, first, l', second, order⟩

/-- A call that visits the subscriber. -/
theorem Serves.visit [DecidableEq κ] (serves : Serves calls sub s) (present : calls i = some k)
    (waiting : sub ∈ k.pending) (distinct : k.pending.Nodup) (joined : s.joined ≤ k.began) (running : k.returned = none)
    {ch : Channel (Sent α)} {ok : Bool} (run : s.ch.offer ⟨i, k.event⟩ = some (ch, ok)) :
    Serves (Function.update calls i (some { k with pending := k.pending.erase sub })) sub { s with ch } := by
  obtain ⟨offered, stream, _, _, bounded, _⟩ := Channel.offer_spec run
  have new : ∀ m ∈ s.ch.offered, m.call ≠ i := by
    intro m member same
    obtain ⟨l, found, _, _, visited⟩ := serves.sent m member
    rw [same, present] at found
    cases found
    exact visited waiting
  have gone : sub ∉ k.pending.erase sub := fun still => (distinct.mem_erase_iff.mp still).1 rfl
  refine ⟨?_, ?_, ?_, ?_, bounded serves.bounded⟩
  · rw [(offered.map Sent.call).nodup_iff, List.map_cons, List.nodup_cons, List.mem_map]
    exact ⟨fun ⟨m, member, same⟩ => new m member same, serves.once⟩
  · intro m member
    rcases List.mem_cons.mp (offered.mem_iff.mp member) with rfl | old
    · rw [Function.update_self]
      exact ⟨_, rfl, rfl, joined, gone⟩
    · rw [Function.update_of_ne (new m old)]
      exact serves.sent m old
  · intro j l found since subscribed visited
    by_cases here : j = i
    · exact ⟨_, offered.mem_iff.mpr List.mem_cons_self, here.symm⟩
    · rw [Function.update_of_ne here] at found
      obtain ⟨m, member, same⟩ := serves.complete j l found since subscribed visited
      exact ⟨m, offered.mem_iff.mpr (List.mem_cons_of_mem _ member), same⟩
  · rw [stream, List.pairwise_append]
    refine ⟨serves.ordered.imp_of_mem fun {a b} inA inB apart => ?_, ?_, ?_⟩
    · rintro ⟨l, first, l', second, order⟩
      rw [Function.update_of_ne (new _ (List.mem_append_left _ inB))] at first
      rw [Function.update_of_ne (new _ (List.mem_append_left _ inA))] at second
      exact apart ⟨l, first, l', second, order⟩
    · cases ok
      · exact List.Pairwise.nil
      · exact List.pairwise_singleton _ _
    · intro a _ b added
      rintro ⟨l, first, _, _, t, returned, _⟩
      have call : b.call = i := by
        cases ok
        · cases added
        · rw [List.mem_singleton.mp added]
      rw [call, Function.update_self] at first
      cases first
      rw [running] at returned
      cases returned

section
variable {st : Subscribers κ α}

theorem Inv.returned (inv : st.Inv) (free : st.locked = false) (found : st.calls i = some k) : k.pending = [] := by
  have began : i < st.begun := by
    by_contra late
    rw [inv.unused i (Nat.le_of_not_lt late)] at found
    cases found
  have idle := List.any_eq_false.mp free i (List.mem_range.mpr began)
  rw [running, found, Option.any_some, Bool.not_eq_true, Option.isNone_eq_false_iff] at idle
  exact (inv.called i k found).2.2.1 idle

theorem start_inv : (start : Subscribers κ α).Inv where
  sane := rfl
  distinct := List.nodup_nil
  registered _ := iff_of_false List.not_mem_nil fun ⟨_, found, _⟩ => nomatch found
  opened _ _ found := nomatch found
  unused _ _ := rfl
  called _ _ found := nomatch found
  serves _ _ found := nomatch found

theorem Inv.lock (inv : st.Inv) (event : α) : (st.lock event).Inv := by
  have unused := inv.unused st.begun (Nat.le_refl _)
  refine ⟨inv.sane, inv.distinct, inv.registered, ?_, ?_, ?_, ?_⟩
  · intro sub s found
    obtain ⟨closed, joined, left⟩ := inv.opened sub s found
    exact ⟨closed, Nat.le_succ_of_le joined, fun t gone => Nat.le_succ_of_le (left t gone)⟩
  · intro i late
    exact (Function.update_of_ne (Nat.ne_of_gt late) _ _).trans (inv.unused i (Nat.le_of_succ_le late))
  · intro i k found
    rcases mem_update_some.mp found with ⟨rfl, rfl⟩ | ⟨ne, found⟩
    · refine ⟨inv.distinct, Nat.lt_succ_self _, (fun ended => nomatch ended), fun sub waiting => ?_⟩
      obtain ⟨s, present, stays⟩ := (inv.registered sub).mp waiting
      exact ⟨s, present, stays, (inv.opened sub s present).2.1⟩
    · obtain ⟨distinct, began, ended, waiting⟩ := inv.called i k found
      exact ⟨distinct, Nat.lt_succ_of_lt began, ended, waiting⟩
  · intro sub s found
    refine (inv.serves sub s found).lock ?_ ?_
    · cases left : s.left with
      | none => exact .inl ((inv.registered sub).mpr ⟨s, found, left⟩)
      | some t => exact .inr ⟨t, rfl, (inv.opened sub s found).2.2 t left⟩
    · intro m member same
      obtain ⟨k, called, _⟩ := (inv.serves sub s found).sent m member
      rw [same, unused] at called
      cases called

theorem Inv.unlock (inv : st.Inv) (i : Nat) : (st.unlock i).Inv := by
  rw [Subscribers.unlock]
  cases found : st.calls i with
  | none => exact inv
  | some k =>
    dsimp only
    split
    next => exact inv
    next done =>
      obtain ⟨empty, running⟩ := not_or.mp done
      rw [not_not] at empty
      refine ⟨inv.sane, inv.distinct, inv.registered, ?_, ?_, ?_, ?_⟩
      · intro sub s present
        obtain ⟨closed, joined, left⟩ := inv.opened sub s present
        exact ⟨closed, Nat.le_succ_of_le joined, fun t gone => Nat.le_succ_of_le (left t gone)⟩
      · intro j late
        refine (Function.update_of_ne ?_ _ _).trans (inv.unused j late)
        rintro rfl
        rw [inv.unused j late] at found
        cases found
      · intro j l called
        rcases mem_update_some.mp called with ⟨rfl, rfl⟩ | ⟨ne, called⟩
        · obtain ⟨distinct, began, _, waiting⟩ := inv.called i k found
          exact ⟨distinct, Nat.lt_succ_of_lt began, fun _ => empty, waiting⟩
        · obtain ⟨distinct, began, ended, waiting⟩ := inv.called j l called
          exact ⟨distinct, Nat.lt_succ_of_lt began, ended, waiting⟩
      · intro sub s present
        refine (inv.serves sub s present).call found ⟨rfl, rfl⟩ Iff.rfl fun t ended => .inr fun j l called => ?_
        rw [← Option.some.inj ended]
        exact Nat.le_of_lt (inv.called j l called).2.1

variable [DecidableEq κ]

theorem Inv.subscribe (inv : st.Inv) (sub : κ) (buffer : Int) : (st.subscribe sub buffer).Inv := by
  rw [Subscribers.subscribe]
  split
  next => exact inv
  next guard =>
    simp only [Bool.or_eq_true, not_or, Bool.not_eq_true, Option.isSome_eq_false_iff,
      Option.isNone_iff_eq_none] at guard
    obtain ⟨free, fresh⟩ := guard
    have absent : sub ∉ st.subs := by
      intro member
      obtain ⟨s, found, _⟩ := (inv.registered sub).mp member
      rw [fresh] at found
      cases found
    refine ⟨inv.sane, List.nodup_cons.mpr ⟨absent, inv.distinct⟩, ?_, ?_, inv.unused, ?_, ?_⟩
    · intro other
      rw [List.mem_cons, inv.registered]
      simp only [Function.update_apply]
      by_cases same : other = sub
      · rw [if_pos same]
        exact iff_of_true (.inl same) ⟨_, rfl, rfl⟩
      · rw [if_neg same, or_iff_right same]
    · intro other s found
      rcases mem_update_some.mp found with ⟨rfl, rfl⟩ | ⟨ne, found⟩
      · exact ⟨rfl, Nat.le_refl _, fun _ gone => nomatch gone⟩
      · exact inv.opened other s found
    · intro i k found
      obtain ⟨distinct, began, ended, _⟩ := inv.called i k found
      refine ⟨distinct, began, ended, fun other waiting => ?_⟩
      rw [inv.returned free found] at waiting
      cases waiting
    · intro other s found
      rcases mem_update_some.mp found with ⟨rfl, rfl⟩ | ⟨ne, found⟩
      · refine ⟨List.nodup_nil, (fun _ member => nomatch member), fun i k called since => ?_, List.Pairwise.nil,
          Nat.zero_le _⟩
        exact absurd (inv.called i k called).2.1 (Nat.not_lt.mpr since)
      · exact inv.serves other s found

theorem Inv.unsubscribe (inv : st.Inv) (sub : κ) : (st.unsubscribe sub).Inv := by
  rw [Subscribers.unsubscribe]
  split
  next => exact inv
  next guard =>
    simp only [Bool.or_eq_true, not_or, Bool.not_eq_true, decide_eq_true_eq, not_not] at guard
    obtain ⟨free, member⟩ := guard
    obtain ⟨s, found, stays⟩ := (inv.registered sub).mp member
    rw [Option.mem_def] at found
    have opened : s.ch.closed = false := by rw [(inv.opened sub s found).1, stays, Option.isSome_none]
    rw [found]
    dsimp only
    rw [Channel.close_eq_some.mpr ⟨opened, rfl⟩]
    refine ⟨inv.sane, inv.distinct.erase sub, ?_, ?_, inv.unused, ?_, ?_⟩
    · intro other
      rw [inv.distinct.mem_erase_iff, inv.registered]
      simp only [Function.update_apply]
      by_cases same : other = sub
      · rw [if_pos same]
        refine iff_of_false (fun both => both.1 same) ?_
        rintro ⟨_, still, left⟩
        cases still
        cases left
      · rw [if_neg same, and_iff_right same]
    · intro other s' present
      rcases mem_update_some.mp present with ⟨rfl, rfl⟩ | ⟨ne, present⟩
      · refine ⟨rfl, (inv.opened sub s found).2.1, fun t gone => ?_⟩
        exact Nat.le_of_eq (Option.some.inj gone).symm
      · exact inv.opened other s' present
    · intro i k called
      obtain ⟨distinct, began, ended, _⟩ := inv.called i k called
      refine ⟨distinct, began, ended, fun other waiting => ?_⟩
      rw [inv.returned free called] at waiting
      cases waiting
    · intro other s' present
      rcases mem_update_some.mp present with ⟨rfl, rfl⟩ | ⟨ne, present⟩
      · obtain ⟨once, sent, complete, ordered, bounded⟩ := inv.serves sub s found
        refine ⟨once, sent, fun i k called since _ visited => ?_, ordered, bounded⟩
        exact complete i k called since (fun _ gone => by rw [stays] at gone; cases gone) visited
      · exact inv.serves other s' present

theorem Inv.receive (inv : st.Inv) (sub : κ) : (st.receive sub).1.Inv := by
  rw [Subscribers.receive]
  cases found : st.subscriber sub with
  | none => exact inv
  | some s =>
    have same {other : κ} {s' : Subscriber α}
        (present : Function.update st.subscriber sub (some { s with ch := s.ch.receive.1 }) other = some s') :
        ∃ s₀, st.subscriber other = some s₀ ∧ s'.left = s₀.left ∧ s'.joined = s₀.joined ∧ s'.ch.closed = s₀.ch.closed ∧
          s'.ch.offered = s₀.ch.offered ∧ s'.ch.stream = s₀.ch.stream ∧ (s₀.ch.Bounded → s'.ch.Bounded) := by
      rw [Function.update_apply] at present
      split at present
      next here =>
        cases present
        exact ⟨s, here ▸ found, rfl, rfl, s.ch.closed_receive, s.ch.offered_receive, s.ch.stream_receive,
          Channel.Bounded.receive⟩
      next => exact ⟨s', present, rfl, rfl, rfl, rfl, rfl, id⟩
    refine ⟨inv.sane, inv.distinct, ?_, ?_, inv.unused, ?_, ?_⟩
    · intro other
      rw [inv.registered]
      simp only [Function.update_apply]
      by_cases here : other = sub
      · rw [if_pos here, here, found]
        simp
      · rw [if_neg here]
    · intro other s' present
      obtain ⟨s₀, before, left, joined, closed, _⟩ := same present
      rw [left, joined, closed]
      exact inv.opened other s₀ before
    · intro i k called
      obtain ⟨distinct, began, ended, waiting⟩ := inv.called i k called
      refine ⟨distinct, began, ended, fun other member => ?_⟩
      obtain ⟨s₀, before, stays, joined⟩ := waiting other member
      simp only [Function.update_apply]
      split
      next here =>
        rw [here, found] at before
        cases before
        exact ⟨_, rfl, stays, joined⟩
      next => exact ⟨s₀, before, stays, joined⟩
    · intro other s' present
      obtain ⟨s₀, before, left, joined, _, offered, stream, bounded⟩ := same present
      obtain ⟨once, sent, complete, ordered, before⟩ := inv.serves other s₀ before
      exact ⟨by rw [offered]; exact once, by rw [offered, joined]; exact sent,
        by rw [offered, joined, left]; exact complete, by rw [stream]; exact ordered, bounded before⟩

theorem Inv.visit (inv : st.Inv) (i : Nat) (sub : κ) : (st.visit i sub).Inv := by
  rw [Subscribers.visit]
  cases called : st.calls i with
  | none => exact inv
  | some k =>
    cases found : st.subscriber sub with
    | none => exact inv
    | some s =>
      dsimp only
      split
      next => exact inv
      next waiting =>
        rw [not_not] at waiting
        obtain ⟨distinct, began, ended, there⟩ := inv.called i k called
        obtain ⟨s', same, stays, joined⟩ := there sub waiting
        rw [found] at same
        cases same
        have opened : s.ch.closed = false := by rw [(inv.opened sub s found).1, stays, Option.isSome_none]
        have running : k.returned = none := by
          cases finished : k.returned with
          | none => rfl
          | some t =>
            rw [ended (by rw [finished, Option.isSome_some])] at waiting
            cases waiting
        obtain ⟨ch, ok, run⟩ := Channel.offer_isSome opened ⟨i, k.event⟩
        have closed : ch.closed = s.ch.closed := (Channel.offer_spec run).2.2.1
        rw [run]
        refine ⟨inv.sane, inv.distinct, ?_, ?_, ?_, ?_, ?_⟩
        · intro other
          rw [inv.registered]
          simp only [Function.update_apply]
          by_cases here : other = sub
          · rw [if_pos here, here, found]
            simp
          · rw [if_neg here]
        · intro other s' present
          rcases mem_update_some.mp present with ⟨rfl, rfl⟩ | ⟨ne, present⟩
          · rw [closed]
            exact inv.opened sub s found
          · exact inv.opened other s' present
        · intro j late
          refine (Function.update_of_ne ?_ _ _).trans (inv.unused j late)
          rintro rfl
          rw [inv.unused j late] at called
          cases called
        · intro j l present
          have still (other : κ) (there : ∃ s ∈ st.subscriber other, s.left = none ∧ s.joined ≤ l.began) :
              ∃ s' ∈ Function.update st.subscriber sub (some { s with ch }) other,
                s'.left = none ∧ s'.joined ≤ l.began := by
            obtain ⟨s₀, before, stays, joined⟩ := there
            rw [Function.update_apply]
            split
            next here =>
              rw [here, found] at before
              cases before
              exact ⟨_, rfl, stays, joined⟩
            next => exact ⟨s₀, before, stays, joined⟩
          rcases mem_update_some.mp present with ⟨rfl, rfl⟩ | ⟨ne, present⟩
          · refine ⟨distinct.erase sub, began, fun finished => ?_, fun other member => ?_⟩
            · rw [ended finished, List.erase_nil]
            · exact still other (there other (List.mem_of_mem_erase member))
          · obtain ⟨distinct, began, ended, waiting⟩ := inv.called j l present
            exact ⟨distinct, began, ended, fun other member => still other (waiting other member)⟩
        · intro other s' present
          rcases mem_update_some.mp present with ⟨rfl, rfl⟩ | ⟨ne, present⟩
          · exact (inv.serves sub s found).visit called waiting distinct joined running run
          · refine (inv.serves other s' present).call called ⟨rfl, rfl⟩ ?_ fun t finished => .inl finished
            rw [distinct.mem_erase_iff, and_iff_right ne]

theorem step_keeps (st : Subscribers κ α) (x : SubscriberStep κ α) (inv : st.Inv) : (step st x).1.Inv := by
  cases x with
  | subscribe sub buffer => exact inv.subscribe sub buffer
  | unsubscribe sub => exact inv.unsubscribe sub
  | lock event => exact inv.lock event
  | visit i sub => exact inv.visit i sub
  | unlock i => exact inv.unlock i
  | receive sub => exact inv.receive sub

theorem exec_inv (steps : List (SubscriberStep κ α)) : (exec step (start : Subscribers κ α) steps).1.Inv :=
  exec_invariant Inv (fun st x inv _ => step_keeps st x inv) start_inv
    (meets_of_forall (P := fun _ => True) fun _ _ => trivial)

end

end Subscribers
end Discovery
