import Discovery.Js.Json
import Discovery.Machine

/-! `watch` of `lib/api.ts`: the connection of a page to the events of the server. -/

namespace Discovery
namespace Ui
open Js Machine

/-- How far a WebSocket is. It is `closed` from its close event on. -/
inductive Ready
  | connecting
  | opened
  | closing
  | closed
  deriving DecidableEq

/-- The variables of a call of `watch`, the WebSockets it made, and the delays of the timers that are set. -/
structure EventStream where
  ws : Option Nat := none
  closed : Bool := false
  backoff : Nat := 500
  sockets : List Ready := []
  timers : List Nat := []

/-- An event of the `i`-th WebSocket, the end of the `i`-th timer, or a call of the function that `watch` returned. -/
inductive StreamStep
  | opened (i : Nat)
  | message (i : Nat) (data : JsString)
  | error (i : Nat)
  | closed (i : Nat)
  | fire (i : Nat)
  | stop

/-- What the outside sees: a new WebSocket, one that opens, an event for the page, a timer. -/
inductive StreamOut
  | connect
  | opened
  | event (v : Json Number)
  | retry (delay : Nat)

namespace EventStream

def closeReady : Ready → Ready
  | .connecting | .opened => .closing
  | r => r

/-- `ws?.close()`. -/
def close (s : EventStream) : EventStream :=
  match s.ws with
  | some i => { s with sockets := s.sockets.modify i closeReady }
  | none => s

def connect (s : EventStream) : EventStream × List StreamOut :=
  if s.closed then (s, [])
  else ({ s with ws := some s.sockets.length, sockets := s.sockets ++ [.connecting] }, [.connect])

/-- The WebSocket exists and has not had its close event. -/
def Live (s : EventStream) (i : Nat) : Prop := ∃ r, s.sockets[i]? = some r ∧ r ≠ .closed

instance (s : EventStream) (i : Nat) : Decidable (s.Live i) :=
  match present : s.sockets[i]? with
  | none => isFalse fun ⟨_, given, _⟩ => by rw [present] at given; cases given
  | some r =>
    if closed : r = .closed then isFalse fun ⟨_, given, other⟩ => by
      obtain rfl := Option.some.inj (present.symm.trans given)
      exact other closed
    else isTrue ⟨r, present, closed⟩

/-- `onclose`. -/
def onclose (s : EventStream) : EventStream × List StreamOut :=
  if s.closed then (s, [])
  else ({ s with timers := s.timers ++ [s.backoff], backoff := min (s.backoff * 2) 8000 }, [.retry s.backoff])

def step (s : EventStream) : StreamStep → EventStream × List StreamOut
  | .opened i =>
    if s.sockets[i]? = some .connecting then
      ({ s with sockets := s.sockets.set i .opened, backoff := 500 }, [.opened])
    else (s, [])
  | .message i data =>
    if s.sockets[i]? = some .opened then
      (s, match parse data with
        | some v => [.event v]
        | none => [])
    else (s, [])
  | .error i => if s.Live i then (s.close, []) else (s, [])
  | .closed i => if s.Live i then onclose { s with sockets := s.sockets.set i .closed } else (s, [])
  | .fire i => if i < s.timers.length then connect { s with timers := s.timers.eraseIdx i } else (s, [])
  | .stop => (close { s with closed := true }, [])

/-- The state after the call. -/
def watch : EventStream := (connect {}).1

/-- There is one live WebSocket, the last one made, or a timer that will make one; after the stop not even that has
to be, and what is live is closing. -/
structure Inv (s : EventStream) : Prop where
  current : ∀ i, s.Live i → s.ws = some i ∧ s.timers = []
  single : s.timers.length ≤ 1
  pending : s.closed = false → (∃ i, s.Live i) ∨ s.timers.length = 1
  stopped : s.closed = true → ∀ (i : Nat) (r : Ready), s.sockets[i]? = some r → r = .closing ∨ r = .closed

section
variable {s : EventStream}

/-- Changing the state of one socket leaves the others. -/
theorem live_set {i j : Nat} {r : Ready} (live : s.Live i) :
    ({ s with sockets := s.sockets.set i r } : EventStream).Live j ↔ if i = j then r ≠ .closed else s.Live j := by
  obtain ⟨_, present, _⟩ := live
  have inside := (List.getElem?_eq_some_iff.mp present).1
  simp only [Live, List.getElem?_set]
  by_cases same : i = j
  · subst same
    simp [inside]
  · simp [same]

theorem close_sockets {i : Nat} :
    s.close.sockets[i]? = if s.ws = some i then s.sockets[i]?.map closeReady else s.sockets[i]? := by
  rw [close]
  cases s.ws with
  | none => rfl
  | some j =>
    rw [List.getElem?_modify]
    by_cases same : j = i
    · rw [if_pos (congrArg some same)]
      simp [same]
    · rw [if_neg fun eq => same (Option.some.inj eq)]
      simp [same]

theorem closeReady_closed {r : Ready} : closeReady r = .closed ↔ r = .closed := by
  cases r <;> decide

theorem live_close {i : Nat} : s.close.Live i ↔ s.Live i := by
  rw [Live, Live, close_sockets]
  split
  · constructor
    · rintro ⟨_, present, other⟩
      obtain ⟨r, before, rfl⟩ := Option.map_eq_some_iff.mp present
      exact ⟨r, before, mt closeReady_closed.mpr other⟩
    · rintro ⟨r, before, other⟩
      exact ⟨closeReady r, Option.map_eq_some_iff.mpr ⟨r, before, rfl⟩, mt closeReady_closed.mp other⟩
  · exact Iff.rfl

theorem close_rest : s.close.ws = s.ws ∧ s.close.timers = s.timers ∧ s.close.closed = s.closed ∧
    s.close.backoff = s.backoff := by
  rw [close]
  split <;> exact ⟨rfl, rfl, rfl, rfl⟩

/-- Where only the current WebSocket can be live, `ws?.close()` leaves none that is not closing. -/
theorem Inv.close_of (current : ∀ i, s.Live i → s.ws = some i ∧ s.timers = []) (single : s.timers.length ≤ 1)
    (pending : s.closed = false → (∃ i, s.Live i) ∨ s.timers.length = 1) : s.close.Inv := by
  obtain ⟨ws, timers, closed, -⟩ := close_rest (s := s)
  constructor
  · intro i live
    rw [ws, timers]
    exact current i (live_close.mp live)
  · rw [timers]
    exact single
  · intro going
    rw [timers]
    exact (pending (closed ▸ going)).imp_left fun ⟨i, live⟩ => ⟨i, live_close.mpr live⟩
  · intro _ i r present
    rw [close_sockets] at present
    by_cases dead : r = .closed
    · exact Or.inr dead
    · split at present
      · obtain ⟨before, -, rfl⟩ := Option.map_eq_some_iff.mp present
        cases before <;> first | exact Or.inl rfl | exact Or.inr rfl
      · next other => exact absurd (current i ⟨r, present, dead⟩).1 other

/-- A connection that opens is the one that was being made, and resets the delay. -/
theorem Inv.opened {i : Nat} (inv : s.Inv) (connecting : s.sockets[i]? = some .connecting) :
    ({ s with sockets := s.sockets.set i .opened, backoff := 500 } : EventStream).Inv := by
  have live : s.Live i := ⟨.connecting, connecting, by decide⟩
  have same {j : Nat} : ({ s with sockets := s.sockets.set i .opened } : EventStream).Live j ↔ s.Live j := by
    rw [live_set live]
    split
    · next eq => exact iff_of_true (by decide) (eq ▸ live)
    · exact Iff.rfl
  have going : s.closed = false := by
    by_contra stop
    cases inv.stopped (Bool.eq_true_of_not_eq_false stop) i .connecting connecting <;> contradiction
  constructor
  · intro j here
    exact inv.current j (same.mp here)
  · exact inv.single
  · intro _
    exact (inv.pending going).imp_left fun ⟨j, here⟩ => ⟨j, same.mpr here⟩
  · intro stop
    cases going.symm.trans stop

/-- A connection that is lost sets the only timer, unless the page has stopped watching. -/
theorem Inv.onclose {i : Nat} (inv : s.Inv) (live : s.Live i) :
    (EventStream.onclose { s with sockets := s.sockets.set i .closed }).1.Inv := by
  have gone (j : Nat) : ¬ ({ s with sockets := s.sockets.set i .closed } : EventStream).Live j := by
    rw [live_set live]
    split
    · exact fun other => other rfl
    · next other =>
      exact fun here => other (Option.some.inj ((inv.current i live).1.symm.trans (inv.current j here).1))
  have idle := (inv.current i live).2
  rw [EventStream.onclose]
  by_cases stop : s.closed = true
  · rw [if_pos stop]
    refine ⟨fun j here => absurd here (gone j), inv.single, fun going => ?_, fun _ j r present => ?_⟩
    · cases stop.symm.trans going
    · by_contra neither
      exact gone j ⟨r, present, fun dead => neither (Or.inr dead)⟩
  · rw [if_neg stop]
    refine ⟨fun j here => absurd here (gone j), ?_, fun _ => Or.inr ?_, fun now => absurd now stop⟩
    all_goals simp [idle]

/-- The timer that fires was the only one, and the connection it makes is the only one. -/
theorem Inv.fire {i : Nat} (inv : s.Inv) (set : i < s.timers.length) :
    (connect { s with timers := s.timers.eraseIdx i }).1.Inv := by
  have one : s.timers.length = 1 := le_antisymm inv.single (Nat.zero_lt_of_lt set)
  have none_left : s.timers.eraseIdx i = [] := by
    rw [← List.length_eq_zero_iff, List.length_eraseIdx_of_lt set, one]
  have gone (j : Nat) : ¬ s.Live j := fun here => by
    rw [(inv.current j here).2] at one
    cases one
  rw [connect, none_left]
  by_cases stop : s.closed = true
  · rw [if_pos stop]
    exact ⟨fun j here => absurd here (gone j), Nat.zero_le _, fun going => (by cases stop.symm.trans going),
      inv.stopped⟩
  · rw [if_neg stop]
    refine ⟨fun j here => ?_, Nat.zero_le _, fun _ => Or.inl ⟨s.sockets.length, .connecting, ?_, by decide⟩,
      fun now => absurd now stop⟩
    · obtain ⟨r, present, other⟩ := here
      rcases Nat.lt_trichotomy j s.sockets.length with before | rfl | beyond
      · exact absurd ⟨r, (List.getElem?_append_left before).symm.trans present, other⟩ (gone j)
      · exact ⟨rfl, rfl⟩
      · rw [List.getElem?_eq_none (by rw [List.length_append]; exact beyond)] at present
        cases present
    · exact List.getElem?_concat_length

end

theorem watch_inv : watch.Inv where
  current i live := by
    obtain ⟨r, present, -⟩ := live
    obtain rfl : i = 0 := Nat.lt_one_iff.mp (List.getElem?_eq_some_iff.mp present).1
    exact ⟨rfl, rfl⟩
  single := Nat.zero_le _
  pending _ := Or.inl ⟨0, .connecting, rfl, by decide⟩
  stopped closed := by cases closed

/-- Whatever happens next, the current connection is the only one alive, and a timer is set only where none is. -/
theorem step_inv (s : EventStream) (i : StreamStep) (inv : s.Inv) : (step s i).1.Inv := by
  cases i with
  | opened i =>
    rw [step]
    split
    · next connecting => exact inv.opened connecting
    · exact inv
  | message i data =>
    rw [step]
    split <;> exact inv
  | error i =>
    rw [step]
    split
    · exact Inv.close_of inv.current inv.single inv.pending
    · exact inv
  | closed i =>
    rw [step]
    split
    · next live => exact inv.onclose live
    · exact inv
  | fire i =>
    rw [step]
    split
    · next set => exact inv.fire set
    · exact inv
  | stop => exact Inv.close_of (s := { s with closed := true }) inv.current inv.single nofun

/-- So it is in every run, in whatever order sockets and timers speak. -/
theorem run_inv (steps : List StreamStep) : (exec step watch steps).1.Inv := by
  have run : Meets step (fun _ _ => True) watch steps := meets_of_forall fun _ _ => trivial
  exact exec_invariant Inv (fun s i inv _ => step_inv s i inv) watch_inv run

theorem onclose_closed {s : EventStream} : (onclose s).1.closed = s.closed := by
  rw [onclose]
  split <;> rfl

theorem connect_closed {s : EventStream} : (connect s).1.closed = s.closed := by
  rw [connect]
  split <;> rfl

theorem step_closed (s : EventStream) (i : StreamStep) :
    (step s i).1.closed = true ↔ i = .stop ∨ s.closed = true := by
  cases i with
  | stop => exact iff_of_true close_rest.2.2.1 (Or.inl rfl)
  | opened i => rw [step]; split <;> exact (or_iff_right nofun).symm
  | message i data => rw [step]; split <;> exact (or_iff_right nofun).symm
  | error i =>
    rw [step]
    split
    · rw [close_rest.2.2.1]
      exact (or_iff_right nofun).symm
    · exact (or_iff_right nofun).symm
  | closed i =>
    rw [step]
    split
    · rw [onclose_closed]
      exact (or_iff_right nofun).symm
    · exact (or_iff_right nofun).symm
  | fire i =>
    rw [step]
    split
    · rw [connect_closed]
      exact (or_iff_right nofun).symm
    · exact (or_iff_right nofun).symm

/-- Watching ends with the first stop. -/
theorem run_closed {s : EventStream} (steps : List StreamStep) :
    (exec step s steps).1.closed = true ↔ .stop ∈ steps ∨ s.closed = true := by
  induction steps generalizing s with
  | nil => exact (or_iff_right List.not_mem_nil).symm
  | cons i steps ih =>
    rw [exec, ih, step_closed, List.mem_cons, or_left_comm, or_assoc, eq_comm]

/-- From the stop on nothing reaches the page, and no timer and no WebSocket is made. -/
theorem step_stopped {s : EventStream} (inv : s.Inv) (stop : s.closed = true) (i : StreamStep) :
    (step s i).2 = [] := by
  have deaf {i : Nat} {r : Ready} (present : s.sockets[i]? = some r) (other : r ≠ .closing ∧ r ≠ .closed) : False :=
    (inv.stopped stop i r present).elim other.1 other.2
  cases i with
  | opened i =>
    rw [step]
    split
    · next connecting => exact (deaf connecting (by decide)).elim
    · rfl
  | message i data =>
    rw [step]
    split
    · next opened => exact (deaf opened (by decide)).elim
    · rfl
  | error i => rw [step]; split <;> rfl
  | closed i =>
    rw [step]
    split
    · exact congrArg Prod.snd (if_pos stop)
    · rfl
  | fire i =>
    rw [step]
    split
    · exact congrArg Prod.snd (if_pos stop)
    · rfl
  | stop => rfl

/-- After that nothing is connected and nothing is delivered. -/
theorem run_stopped {s : EventStream} (inv : s.Inv) (stop : s.closed = true) (steps : List StreamStep) :
    (exec step s steps).2 = [] := by
  induction steps generalizing s with
  | nil => rfl
  | cons i steps ih =>
    have still : (step s i).1.closed = true := (step_closed s i).mpr (Or.inr stop)
    rw [exec, step_stopped inv stop i, ih (step_inv s i inv) still]
    rfl

/-- The delay before the next try after `k` closes in a row without an opening. -/
def delay (k : Nat) : Nat := min (500 * 2 ^ k) 8000

/-- How many times in a row the WebSocket closed without opening. -/
def failures (k : Nat) : StreamOut → Nat
  | .opened => 0
  | .retry _ => k + 1
  | .connect | .event _ => k

/-- The timers of a log have the delays of their places in it, after `k` failures. -/
def BacksOff (k : Nat) : List StreamOut → Prop
  | [] => True
  | o :: rest => (∀ d, o = .retry d → d = delay k) ∧ BacksOff (failures k o) rest

/-- Each connection that fails doubles the delay up to its bound, and one that opens starts over. -/
theorem step_backsOff (s : EventStream) (k : Nat) (i : StreamStep) (now : s.backoff = delay k) :
    BacksOff k (step s i).2 ∧ (step s i).1.backoff = delay ((step s i).2.foldl failures k) := by
  cases i with
  | opened i =>
    rw [step]
    split
    · exact ⟨⟨nofun, trivial⟩, rfl⟩
    · exact ⟨trivial, now⟩
  | message i data =>
    rw [step]
    split
    · split
      · exact ⟨⟨nofun, trivial⟩, now⟩
      · exact ⟨trivial, now⟩
    · exact ⟨trivial, now⟩
  | error i =>
    rw [step]
    split
    · exact ⟨trivial, close_rest.2.2.2.trans now⟩
    · exact ⟨trivial, now⟩
  | closed i =>
    rw [step, onclose]
    split
    · split
      · exact ⟨trivial, now⟩
      · refine ⟨⟨fun d set => ?_, trivial⟩, ?_⟩
        · cases set
          exact now
        · show min (s.backoff * 2) 8000 = delay (k + 1)
          rw [now, delay, delay, pow_succ]
          omega
    · exact ⟨trivial, now⟩
  | fire i =>
    rw [step, connect]
    split
    · split
      · exact ⟨trivial, now⟩
      · exact ⟨⟨nofun, trivial⟩, now⟩
    · exact ⟨trivial, now⟩
  | stop => exact ⟨trivial, (close_rest (s := { s with closed := true })).2.2.2.trans now⟩

theorem backsOff_append (k : Nat) (log rest : List StreamOut) :
    BacksOff k (log ++ rest) ↔ BacksOff k log ∧ BacksOff (log.foldl failures k) rest := by
  induction log generalizing k with
  | nil => exact (and_iff_right trivial).symm
  | cons o log ih => exact (and_congr_right fun _ => ih (failures k o)).trans and_assoc.symm

/-- The delays of a run are those of the failures since the last connection that opened. -/
theorem run_backsOff {s : EventStream} {k : Nat} (steps : List StreamStep) (now : s.backoff = delay k) :
    BacksOff k (exec step s steps).2 := by
  induction steps generalizing s k with
  | nil => exact trivial
  | cons i steps ih =>
    obtain ⟨here, next⟩ := step_backsOff s k i now
    exact (backsOff_append k _ _).mpr ⟨here, ih next⟩

/-- Whatever the order of the events of the WebSockets, of the timers and of the stop: at most one WebSocket is live,
before the stop there is either that one or one timer for the next, after it the page hears nothing and nothing more
is made, and each timer is set for half a second doubled with every failure in a row, up to eight seconds. -/
theorem connected_once (steps : List StreamStep) :
    (∀ i j, (exec step watch steps).1.Live i → (exec step watch steps).1.Live j → i = j) ∧
    (.stop ∉ steps → ((∃ i, (exec step watch steps).1.Live i) ↔ (exec step watch steps).1.timers = []) ∧
      (exec step watch steps).1.timers.length ≤ 1) ∧
    (.stop ∈ steps → ∀ later, (exec step (exec step watch steps).1 later).2 = []) ∧
    BacksOff 0 (exec step watch steps).2 := by
  have inv := run_inv steps
  have ended := run_closed (s := watch) steps
  refine ⟨fun i j live other => ?_, fun going => ⟨⟨fun ⟨i, live⟩ => (inv.current i live).2, fun idle => ?_⟩,
    inv.single⟩, fun stop => run_stopped inv (ended.mpr (Or.inl stop)), run_backsOff steps rfl⟩
  · exact Option.some.inj ((inv.current i live).1.symm.trans (inv.current j other).1)
  · have open_still : (exec step watch steps).1.closed = false :=
      Bool.eq_false_of_not_eq_true fun stop => (ended.mp stop).elim going nofun
    refine (inv.pending open_still).resolve_right fun one => ?_
    rw [idle] at one
    cases one

end EventStream
end Ui
end Discovery
