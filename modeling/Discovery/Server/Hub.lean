import Discovery.Store.Subscribers

/-! The fan-out of a store's events to the WebSocket clients. -/

namespace Discovery
open Machine

/-- `joined` is a history variable: how many events the hub had taken when it added the client. -/
structure WsClient (α : Type) where
  send : Channel α
  joined : Nat

/-- Where the goroutine of `Hub.Run` is: in its `select`, in the loop of `broadcast` over the clients it
has still to send to, or removing the clients it could not send to. -/
inductive HubPhase (κ α : Type)
  | idle
  | sending (ev : α) (pending dead : List κ)
  | dropping (dead : List κ)
  | stopped

/-- The map of clients. A pointer that was removed from the map keeps its client. `intake` is a history
variable: the events that were taken off the subscription. -/
structure Hub (κ α : Type) where
  clients : List κ
  client : κ → Option (WsClient α)
  phase : HubPhase κ α
  intake : List α
  panicked : Bool

/-- What can happen next: a step of the goroutine of `Run`, a `watch` call for a new connection, the end of a
connection's reader, or a receive of a connection's writer. -/
inductive HubStep (κ α : Type)
  | take (ev : α)
  | send (c : κ)
  | unlock
  | drop
  | stop
  | add (c : κ)
  | remove (c : κ)
  | write (c : κ)

namespace Hub
variable {κ α : Type}

def sendBuffer : Nat := 64

def start : Hub κ α where
  clients := []
  client _ := none
  phase := .idle
  intake := []
  panicked := false

/-- `broadcast` holds the read lock. -/
def locked (h : Hub κ α) : Bool :=
  match h.phase with
  | .sending _ _ _ => true
  | _ => false

def take (h : Hub κ α) (ev : α) : Hub κ α :=
  match h.phase with
  | .idle => { h with phase := .sending ev h.clients [], intake := h.intake ++ [ev] }
  | _ => h

section
variable [DecidableEq κ]

/-- One turn of the loop. The order of the map is arbitrary. -/
def send (h : Hub κ α) (c : κ) : Hub κ α :=
  match h.phase, h.client c with
  | .sending ev pending dead, some cl =>
    if c ∉ pending then h
    else match cl.send.offer ev with
      | none => { h with panicked := true }
      | some (ch, ok) =>
        { h with
          client := Function.update h.client c (some { cl with send := ch })
          phase := .sending ev (pending.erase c) (if ok then dead else dead ++ [c]) }
  | _, _ => h

def unlock (h : Hub κ α) : Hub κ α :=
  match h.phase with
  | .sending _ [] dead => { h with phase := .dropping dead }
  | _ => h

/-- A client that is in the map no more is left alone. -/
def removeClient (h : Hub κ α) (c : κ) : Hub κ α :=
  if c ∉ h.clients then h
  else match h.client c with
    | none => h
    | some cl => match cl.send.close with
      | none => { h with panicked := true }
      | some ch =>
        { h with
          clients := h.clients.erase c
          client := Function.update h.client c (some { cl with send := ch }) }

def drop (h : Hub κ α) : Hub κ α :=
  match h.phase with
  | .dropping (c :: dead) => { h.removeClient c with phase := .dropping dead }
  | .dropping [] => { h with phase := .idle }
  | _ => h

def stop (h : Hub κ α) : Hub κ α :=
  match h.phase with
  | .idle => { h with phase := .stopped }
  | _ => h

/-- Waits for the write lock. -/
def add (h : Hub κ α) (c : κ) : Hub κ α :=
  if h.locked || (h.client c).isSome then h
  else
    { h with
      clients := c :: h.clients
      client := Function.update h.client c (some { send := { capacity := sendBuffer }, joined := h.intake.length }) }

/-- Waits for the write lock. -/
def remove (h : Hub κ α) (c : κ) : Hub κ α := if h.locked then h else h.removeClient c

def write (h : Hub κ α) (c : κ) : Hub κ α × Option α :=
  match h.client c with
  | none => (h, none)
  | some cl =>
    let r := cl.send.receive
    ({ h with client := Function.update h.client c (some { cl with send := r.1 }) }, r.2)

def step (h : Hub κ α) : HubStep κ α → Hub κ α × List α
  | .take ev => (h.take ev, [])
  | .send c => (h.send c, [])
  | .unlock => (h.unlock, [])
  | .drop => (h.drop, [])
  | .stop => (h.stop, [])
  | .add c => (h.add c, [])
  | .remove c => (h.remove c, [])
  | .write c =>
    let r := h.write c
    (r.1, r.2.toList)

end

/-- The last event that was taken has not reached the client, or did not fit. -/
def HubPhase.Due : HubPhase κ α → κ → Prop
  | .sending _ pending dead, c => c ∈ pending ∨ c ∈ dead
  | .dropping dead, c => c ∈ dead
  | _, _ => False

/-- What a client was sent has no gaps: it is a first part of what was taken since it was added, and all of it
while the client is in the map and no event is on its way. -/
def Served (h : Hub κ α) : Prop :=
  h.panicked = false ∧ ∀ c, ∀ cl ∈ h.client c, cl.send.buffer.length ≤ sendBuffer ∧
    cl.send.stream <+: h.intake.drop cl.joined ∧
      (c ∈ h.clients → ¬HubPhase.Due h.phase c → cl.send.stream = h.intake.drop cl.joined)

structure Inv (h : Hub κ α) : Prop where
  sane : h.panicked = false
  distinct : h.clients.Nodup
  registered : ∀ c, c ∈ h.clients ↔ ∃ cl ∈ h.client c, cl.send.closed = false
  bounded : ∀ c, ∀ cl ∈ h.client c, cl.send.Bounded ∧ cl.send.capacity = sendBuffer
  gapless : ∀ c, ∀ cl ∈ h.client c, cl.joined ≤ h.intake.length ∧ cl.send.stream <+: h.intake.drop cl.joined
  current : ∀ c ∈ h.clients, ¬HubPhase.Due h.phase c → ∀ cl ∈ h.client c,
    cl.send.stream = h.intake.drop cl.joined
  pending : ∀ ev pending dead, h.phase = .sending ev pending dead → pending.Nodup ∧
    ∀ c ∈ pending, c ∈ h.clients ∧ ∀ cl ∈ h.client c, cl.send.stream ++ [ev] = h.intake.drop cl.joined
  known : ∀ c, HubPhase.Due h.phase c → ∃ cl, h.client c = some cl

variable {h : Hub κ α}

/-- In every such state each client has been served what its place in the hub promises. -/
theorem Inv.served (inv : h.Inv) : h.Served := by
  refine ⟨inv.sane, fun c cl found => ⟨?_, (inv.gapless c cl found).2, ?_⟩⟩
  · rw [← (inv.bounded c cl found).2]
    exact (inv.bounded c cl found).1
  · intro member free
    exact inv.current c member free cl found

theorem start_inv : (start : Hub κ α).Inv where
  sane := rfl
  distinct := List.nodup_nil
  registered _ := iff_of_false List.not_mem_nil fun ⟨_, found, _⟩ => nomatch found
  bounded _ _ found := nomatch found
  gapless _ _ found := nomatch found
  current _ member := nomatch member
  pending _ _ _ sending := nomatch sending
  known _ due := due.elim

/-- The hub takes the next event under its lock, for all clients at once. -/
theorem Inv.take (inv : h.Inv) (ev : α) : (h.take ev).Inv := by
  rw [Hub.take]
  split
  next idle =>
    have fresh (c : κ) : ¬HubPhase.Due h.phase c := by
      rw [idle]
      exact id
    have grown {c : κ} {cl : WsClient α} (found : cl ∈ h.client c) :
        (h.intake ++ [ev]).drop cl.joined = h.intake.drop cl.joined ++ [ev] :=
      List.drop_append_of_le_length (inv.gapless c cl found).1
    refine ⟨inv.sane, inv.distinct, inv.registered, inv.bounded, ?_, ?_, ?_, ?_⟩
    · intro c cl found
      obtain ⟨joined, short⟩ := inv.gapless c cl found
      refine ⟨?_, ?_⟩
      · rw [List.length_append]
        exact Nat.le_add_right_of_le joined
      · rw [grown found]
        exact short.trans (List.prefix_append _ _)
    · intro c member free
      exact absurd (.inl member) free
    · intro ev' pending dead same
      cases same
      refine ⟨inv.distinct, fun c member => ⟨member, fun cl found => ?_⟩⟩
      rw [grown found, inv.current c member (fresh c) cl found]
    · intro c due
      rcases due with member | member
      · obtain ⟨cl, found, _⟩ := (inv.registered c).mp member
        exact ⟨cl, found⟩
      · cases member
  next => exact inv

theorem Inv.unlock [DecidableEq κ] (inv : h.Inv) : h.unlock.Inv := by
  rw [Hub.unlock]
  split
  next ev dead sending =>
    have same (c : κ) : HubPhase.Due h.phase c ↔ c ∈ dead := by
      rw [sending]
      exact or_iff_right List.not_mem_nil
    refine ⟨inv.sane, inv.distinct, inv.registered, inv.bounded, inv.gapless, ?_,
      (fun _ _ _ other => nomatch other), ?_⟩
    · intro c member free
      exact inv.current c member (mt (same c).mp free)
    · intro c due
      exact inv.known c ((same c).mpr due)
  next => exact inv

theorem Inv.stop [DecidableEq κ] (inv : h.Inv) : h.stop.Inv := by
  rw [Hub.stop]
  split
  next idle =>
    have free (c : κ) : ¬HubPhase.Due h.phase c := by
      rw [idle]
      exact id
    exact ⟨inv.sane, inv.distinct, inv.registered, inv.bounded, inv.gapless,
      fun c member _ => inv.current c member (free c), (fun _ _ _ other => nomatch other), fun _ due => due.elim⟩
  next => exact inv

variable [DecidableEq κ]

/-- Removing a client, while no event is being sent, keeps all but the phase. -/
theorem Inv.removeClient (inv : h.Inv) (free : h.locked = false) (c : κ) : (h.removeClient c).Inv ∧
    (h.removeClient c).phase = h.phase ∧ c ∉ (h.removeClient c).clients := by
  rw [Hub.removeClient]
  split
  next gone => exact ⟨inv, rfl, gone⟩
  next member =>
    rw [not_not] at member
    obtain ⟨cl, found, opened⟩ := (inv.registered c).mp member
    rw [Option.mem_def] at found
    rw [found]
    dsimp only
    rw [Channel.close_eq_some.mpr ⟨opened, rfl⟩]
    dsimp only
    refine ⟨⟨inv.sane, inv.distinct.erase c, ?_, ?_, ?_, ?_, ?_, ?_⟩, rfl,
      fun still => (inv.distinct.mem_erase_iff.mp still).1 rfl⟩
    · intro other
      rw [inv.distinct.mem_erase_iff, inv.registered]
      simp only [Function.update_apply]
      by_cases same : other = c
      · rw [if_pos same]
        refine iff_of_false (fun both => both.1 same) ?_
        rintro ⟨_, still, closed⟩
        cases still
        cases closed
      · rw [if_neg same, and_iff_right same]
    · intro other cl' present
      rcases mem_update_some.mp present with ⟨rfl, rfl⟩ | ⟨ne, present⟩
      · exact inv.bounded c cl found
      · exact inv.bounded other cl' present
    · intro other cl' present
      rcases mem_update_some.mp present with ⟨rfl, rfl⟩ | ⟨ne, present⟩
      · exact inv.gapless c cl found
      · exact inv.gapless other cl' present
    · intro other member due cl' present
      obtain ⟨ne, member⟩ := inv.distinct.mem_erase_iff.mp member
      rcases mem_update_some.mp present with ⟨rfl, rfl⟩ | ⟨_, present⟩
      · exact absurd rfl ne
      · exact inv.current other member due cl' present
    · intro ev pending dead sending
      rw [locked, sending] at free
      cases free
    · intro other due
      exact exists_mem_update_some (inv.known other due)

/-- A client that has fallen behind is only marked; it is removed when the hub gets to it. -/
theorem Inv.drop (inv : h.Inv) : h.drop.Inv := by
  rw [Hub.drop]
  split
  next c dead dropping =>
    have free : h.locked = false := by rw [locked, dropping]
    obtain ⟨kept, phase, gone⟩ := inv.removeClient free c
    have due (other : κ) (ne : other ≠ c) : HubPhase.Due (h.removeClient c).phase other ↔ other ∈ dead := by
      rw [phase, dropping]
      exact List.mem_cons.trans (or_iff_right ne)
    refine ⟨kept.sane, kept.distinct, kept.registered, kept.bounded, kept.gapless, ?_,
      (fun _ _ _ other => nomatch other), ?_⟩
    · intro other member free
      have ne : other ≠ c := fun same => gone (same ▸ member)
      exact kept.current other member (mt (due other ne).mp free)
    · intro other late
      refine kept.known other ?_
      rw [phase, dropping]
      exact List.mem_cons_of_mem c late
  next dropping =>
    have free (c : κ) : ¬HubPhase.Due h.phase c := by
      rw [dropping]
      exact List.not_mem_nil
    exact ⟨inv.sane, inv.distinct, inv.registered, inv.bounded, inv.gapless,
      fun c member _ => inv.current c member (free c), (fun _ _ _ other => nomatch other), fun _ due => due.elim⟩
  next => exact inv

theorem Inv.remove (inv : h.Inv) (c : κ) : (h.remove c).Inv := by
  rw [Hub.remove]
  split
  next => exact inv
  next free => exact (inv.removeClient (Bool.eq_false_iff.mpr free) c).1

theorem Inv.add (inv : h.Inv) (c : κ) : (h.add c).Inv := by
  rw [Hub.add]
  split
  next => exact inv
  next guard =>
    simp only [Bool.or_eq_true, not_or, Bool.not_eq_true, Option.isSome_eq_false_iff,
      Option.isNone_iff_eq_none] at guard
    obtain ⟨free, fresh⟩ := guard
    have absent : c ∉ h.clients := by
      intro member
      obtain ⟨cl, found, _⟩ := (inv.registered c).mp member
      rw [fresh] at found
      cases found
    refine ⟨inv.sane, List.nodup_cons.mpr ⟨absent, inv.distinct⟩, ?_, ?_, ?_, ?_, ?_, ?_⟩
    · intro other
      rw [List.mem_cons, inv.registered]
      simp only [Function.update_apply]
      by_cases same : other = c
      · rw [if_pos same]
        exact iff_of_true (.inl same) ⟨_, rfl, rfl⟩
      · rw [if_neg same, or_iff_right same]
    · intro other cl present
      rcases mem_update_some.mp present with ⟨rfl, rfl⟩ | ⟨ne, present⟩
      · exact ⟨Nat.zero_le _, rfl⟩
      · exact inv.bounded other cl present
    · intro other cl present
      rcases mem_update_some.mp present with ⟨rfl, rfl⟩ | ⟨ne, present⟩
      · exact ⟨Nat.le_refl _, List.nil_prefix⟩
      · exact inv.gapless other cl present
    · intro other member due cl present
      rcases mem_update_some.mp present with ⟨rfl, rfl⟩ | ⟨ne, present⟩
      · exact List.drop_length.symm
      · exact inv.current other ((List.mem_cons.mp member).resolve_left ne) due cl present
    · intro ev pending dead sending
      rw [locked, sending] at free
      cases free
    · intro other due
      exact exists_mem_update_some (inv.known other due)

theorem Inv.write (inv : h.Inv) (c : κ) : (h.write c).1.Inv := by
  rw [Hub.write]
  cases found : h.client c with
  | none => exact inv
  | some cl =>
    have same {other : κ} {cl' : WsClient α}
        (present : Function.update h.client c (some { cl with send := cl.send.receive.1 }) other = some cl') :
        ∃ cl₀, h.client other = some cl₀ ∧ cl'.joined = cl₀.joined ∧ cl'.send.closed = cl₀.send.closed ∧
          cl'.send.stream = cl₀.send.stream ∧ cl'.send.capacity = cl₀.send.capacity ∧
          (cl₀.send.Bounded → cl'.send.Bounded) := by
      rw [Function.update_apply] at present
      split at present
      next here =>
        cases present
        exact ⟨cl, here ▸ found, rfl, cl.send.closed_receive, cl.send.stream_receive, cl.send.capacity_receive,
          Channel.Bounded.receive⟩
      next => exact ⟨cl', present, rfl, rfl, rfl, rfl, id⟩
    refine ⟨inv.sane, inv.distinct, ?_, ?_, ?_, ?_, ?_, ?_⟩
    · intro other
      rw [inv.registered]
      simp only [Function.update_apply]
      by_cases here : other = c
      · rw [if_pos here, here, found]
        simp
      · rw [if_neg here]
    · intro other cl' present
      obtain ⟨cl₀, before, _, _, _, capacity, bounded⟩ := same present
      rw [capacity]
      exact ⟨bounded (inv.bounded other cl₀ before).1, (inv.bounded other cl₀ before).2⟩
    · intro other cl' present
      obtain ⟨cl₀, before, joined, _, stream, _⟩ := same present
      rw [joined, stream]
      exact inv.gapless other cl₀ before
    · intro other member due cl' present
      obtain ⟨cl₀, before, joined, _, stream, _⟩ := same present
      rw [joined, stream]
      exact inv.current other member due cl₀ before
    · intro ev pending dead sending
      obtain ⟨distinct, waiting⟩ := inv.pending ev pending dead sending
      refine ⟨distinct, fun other member => ⟨(waiting other member).1, fun cl' present => ?_⟩⟩
      obtain ⟨cl₀, before, joined, _, stream, _⟩ := same present
      rw [joined, stream]
      exact (waiting other member).2 cl₀ before
    · intro other due
      exact exists_mem_update_some (inv.known other due)

/-- A client is sent the event or marked as slow, whatever the others do. -/
theorem Inv.send (inv : h.Inv) (c : κ) : (h.send c).Inv := by
  rw [Hub.send]
  split
  next ev pending dead cl sending found =>
    split
    next => exact inv
    next waiting =>
      rw [not_not] at waiting
      obtain ⟨distinct, all⟩ := inv.pending ev pending dead sending
      obtain ⟨member, lacks⟩ := all c waiting
      have next_ := lacks cl found
      obtain ⟨cl', same, opened⟩ := (inv.registered c).mp member
      rw [found] at same
      cases same
      obtain ⟨ch, ok, run⟩ := Channel.offer_isSome opened ev
      obtain ⟨_, stream, closed, _, bounded, _⟩ := Channel.offer_spec run
      have room : ch.capacity = cl.send.capacity := Channel.capacity_offer run
      rw [run]
      dsimp only
      have before {other : κ} (due : ¬(other ∈ pending.erase c ∨ other ∈ if ok then dead else dead ++ [c]))
          (ne : other ≠ c) : ¬HubPhase.Due h.phase other := by
        rw [sending]
        rintro (still | refused)
        · exact due (.inl ((List.mem_erase_of_ne ne).mpr still))
        · refine due (.inr ?_)
          split
          next => exact refused
          next => exact List.mem_append_left _ refused
      refine ⟨inv.sane, inv.distinct, ?_, ?_, ?_, ?_, ?_, ?_⟩
      · intro other
        rw [inv.registered]
        simp only [Function.update_apply]
        by_cases here : other = c
        · rw [if_pos here, here, found]
          simp [closed]
        · rw [if_neg here]
      · intro other cl' present
        rcases mem_update_some.mp present with ⟨rfl, rfl⟩ | ⟨ne, present⟩
        · rw [room]
          exact ⟨bounded (inv.bounded c cl found).1, (inv.bounded c cl found).2⟩
        · exact inv.bounded other cl' present
      · intro other cl' present
        rcases mem_update_some.mp present with ⟨rfl, rfl⟩ | ⟨ne, present⟩
        · refine ⟨(inv.gapless c cl found).1, ?_⟩
          rw [stream, ← next_]
          cases ok with
          | true => exact List.prefix_refl _
          | false => exact (List.append_nil _).symm ▸ List.prefix_append _ _
        · exact inv.gapless other cl' present
      · intro other member due cl' present
        rcases mem_update_some.mp present with ⟨rfl, rfl⟩ | ⟨ne, present⟩
        · cases ok with
          | true =>
            rw [stream, ← next_]
            rfl
          | false => exact absurd (.inr (List.mem_append_right dead (List.mem_singleton_self _))) due
        · exact inv.current other member (before due ne) cl' present
      · intro ev' pending' dead' same
        cases same
        refine ⟨distinct.erase c, fun other member => ?_⟩
        obtain ⟨ne, member⟩ := distinct.mem_erase_iff.mp member
        refine ⟨(all other member).1, fun cl' present => ?_⟩
        rcases mem_update_some.mp present with ⟨rfl, rfl⟩ | ⟨_, present⟩
        · exact absurd rfl ne
        · exact (all other member).2 cl' present
      · intro other due
        by_cases here : other = c
        · exact ⟨_, mem_update_some.mpr (.inl ⟨here.symm, rfl⟩)⟩
        · refine exists_mem_update_some (inv.known other ?_)
          rw [sending]
          rcases due with still | refused
          · exact .inl (List.mem_of_mem_erase still)
          · refine .inr ?_
            cases ok with
            | true => exact refused
            | false => exact (List.mem_append.mp refused).resolve_right fun last => here (List.mem_singleton.mp last)
  next => exact inv

theorem step_keeps (h : Hub κ α) (x : HubStep κ α) (inv : h.Inv) : (step h x).1.Inv := by
  cases x with
  | take ev => exact inv.take ev
  | send c => exact inv.send c
  | unlock => exact inv.unlock
  | drop => exact inv.drop
  | stop => exact inv.stop
  | add c => exact inv.add c
  | remove c => exact inv.remove c
  | write c => exact inv.write c

/-- So it is in every run, however the clients come, go and read. -/
theorem exec_inv (steps : List (HubStep κ α)) : (exec step (start : Hub κ α) steps).1.Inv :=
  exec_invariant Inv (fun h x inv _ => step_keeps h x inv) start_inv
    (meets_of_forall (P := fun _ => True) fun _ _ => trivial)

/-- Whatever the order of the steps, no send and no close panics, and no client misses an event before its last. -/
theorem clients_served (steps : List (HubStep κ α)) : (exec step start steps).1.Served := (exec_inv steps).served

def HubPhase.dead : HubPhase κ α → List κ
  | .sending _ _ dead | .dropping dead => dead
  | _ => []

/-- The client's connection stays, and there is room when it is sent an event. -/
def KeepsUp (c : κ) (h : Hub κ α) : HubStep κ α → Prop
  | .remove c' => c' ≠ c
  | .send c' => c' = c → ∀ cl ∈ h.client c, cl.send.buffer.length < sendBuffer
  | _ => True

instance (c : κ) (h : Hub κ α) : (x : HubStep κ α) → Decidable (KeepsUp c h x)
  | .remove c' => inferInstanceAs (Decidable (c' ≠ c))
  | .send c' => inferInstanceAs (Decidable (c' = c → ∀ cl ∈ h.client c, cl.send.buffer.length < sendBuffer))
  | .take _ | .unlock | .drop | .stop | .add _ | .write _ => inferInstanceAs (Decidable True)

/-- The client is in the map from when it was added, and not about to be removed. -/
def Stays (c : κ) (h : Hub κ α) : Prop := (∀ cl, h.client c = some cl → c ∈ h.clients) ∧ c ∉ HubPhase.dead h.phase

theorem stays_removeClient {c c' : κ} (ne : c' ≠ c) (stays : Stays c h) : Stays c (h.removeClient c') := by
  rw [removeClient]
  split
  next => exact stays
  next =>
    split
    next => exact stays
    next =>
      split
      next => exact stays
      next =>
        refine ⟨fun cl found => (List.mem_erase_of_ne ne.symm).mpr ?_, stays.2⟩
        rcases mem_update_some.mp found with ⟨rfl, _⟩ | ⟨_, old⟩
        · exact absurd rfl ne
        · exact stays.1 cl old

/-- A client that keeps up is neither marked nor removed by the hub. -/
theorem stays_step {c : κ} (inv : h.Inv) (stays : Stays c h) {x : HubStep κ α} (up : KeepsUp c h x) :
    Stays c (step h x).1 := by
  cases x with
  | take ev =>
    rw [step, take]
    split
    next => exact ⟨stays.1, List.not_mem_nil⟩
    next => exact stays
  | send c' =>
    rw [step, send]
    split
    next ev pending dead cl sending found =>
      have alive : c ∉ dead := by
        have alive := stays.2
        rwa [sending] at alive
      split
      next => exact stays
      next waiting =>
        split
        next => exact stays
        next ch ok run =>
          have known (cl' : WsClient α) (new : cl' ∈ Function.update h.client c' (some { cl with send := ch }) c) :
              c ∈ h.clients := by
            rcases mem_update_some.mp new with ⟨rfl, _⟩ | ⟨_, old⟩
            · exact stays.1 cl found
            · exact stays.1 cl' old
          refine ⟨known, ?_⟩
          cases ok with
          | true => exact alive
          | false =>
            have full := ((Channel.offer_spec run).2.2.2.2.2 rfl).2
            intro listed
            rcases List.mem_append.mp listed with old | new
            · exact alive old
            · obtain rfl := List.mem_singleton.mp new
              rw [(inv.bounded c cl found).2] at full
              exact absurd (up rfl cl found) (Nat.not_lt.mpr full)
    next => exact stays
  | unlock =>
    rw [step, unlock]
    split
    next sending =>
      have alive := stays.2
      rw [sending] at alive
      exact ⟨stays.1, alive⟩
    next => exact stays
  | drop =>
    rw [step, drop]
    split
    next c' dead dropping =>
      have alive := stays.2
      rw [dropping] at alive
      have ne : c' ≠ c := fun same => alive (same ▸ List.mem_cons_self)
      exact ⟨(stays_removeClient ne stays).1, fun listed => alive (List.mem_cons_of_mem c' listed)⟩
    next => exact ⟨stays.1, List.not_mem_nil⟩
    next => exact stays
  | stop =>
    rw [step, stop]
    split
    next => exact ⟨stays.1, List.not_mem_nil⟩
    next => exact stays
  | add c' =>
    rw [step, add]
    split
    next => exact stays
    next =>
      refine ⟨fun cl found => ?_, stays.2⟩
      rcases mem_update_some.mp found with ⟨rfl, _⟩ | ⟨_, old⟩
      · exact List.mem_cons_self
      · exact List.mem_cons_of_mem _ (stays.1 cl old)
  | remove c' =>
    rw [step, remove]
    split
    next => exact stays
    next => exact stays_removeClient up stays
  | write c' =>
    rw [step, write]
    split
    next => exact stays
    next cl found =>
      refine ⟨fun cl' new => ?_, stays.2⟩
      rcases mem_update_some.mp new with ⟨rfl, _⟩ | ⟨_, old⟩
      · exact stays.1 cl found
      · exact stays.1 cl' old

/-- A client that keeps up is sent everything that was taken since it was added. -/
theorem sent_all_of_keepsUp {c : κ} {steps : List (HubStep κ α)} (up : Meets step (KeepsUp c) start steps)
    (idle : (exec step start steps).1.phase = .idle) :
    ∀ cl ∈ (exec step start steps).1.client c, cl.send.stream = (exec step start steps).1.intake.drop cl.joined := by
  have kept := exec_invariant (fun h => h.Inv ∧ Stays c h)
    (fun h x both up => ⟨step_keeps h x both.1, stays_step both.1 both.2 up⟩)
    ⟨start_inv, (fun _ found => by cases found), List.not_mem_nil⟩ up
  intro cl found
  refine kept.1.current c (kept.2.1 cl found) ?_ cl found
  rw [idle]
  exact id

def twoEvents : List (HubStep Bool Nat) :=
  [.add true, .take 7, .send true, .unlock, .drop, .write true, .add false, .take 8, .send false, .send true,
    .unlock, .drop]

theorem both_sent : ∃ cl, (exec step start twoEvents).1.client true = some cl ∧ cl.send.stream = [7, 8] := by
  have up : Meets step (KeepsUp true) start twoEvents := by decide
  exact ⟨⟨{ capacity := 64, buffer := [8], taken := [7] }, 0⟩, rfl, sent_all_of_keepsUp up rfl _ rfl⟩

end Hub
end Discovery
