import Mathlib.Data.List.Basic
import Mathlib.Logic.Function.Basic
import Mathlib.Tactic.Common

/-- A buffered channel. `taken` and `refused` are history variables: what was received from it, and what a
full buffer turned down. -/
structure Channel (α : Type) where
  capacity : Nat
  buffer : List α := []
  closed : Bool := false
  taken : List α := []
  refused : List α := []

namespace Channel
variable {α : Type} {c c' : Channel α} {a : α}

/-- Everything the channel has accepted, in order. -/
def stream (c : Channel α) : List α := c.taken ++ c.buffer

/-- Everything that was sent, accepted or not. -/
def offered (c : Channel α) : List α := c.stream ++ c.refused

/-- A send that does not wait: `none` where it panics, since the channel is closed. -/
def offer (c : Channel α) (a : α) : Option (Channel α × Bool) :=
  if c.closed then none
  else if c.buffer.length < c.capacity then some ({ c with buffer := c.buffer ++ [a] }, true)
  else some ({ c with refused := c.refused ++ [a] }, false)

/-- Closing a closed channel panics. -/
def close (c : Channel α) : Option (Channel α) := if c.closed then none else some { c with closed := true }

/-- The head of the buffer, if there is one. -/
def receive (c : Channel α) : Channel α × Option α :=
  match c.buffer with
  | [] => (c, none)
  | a :: buffer => ({ c with buffer, taken := c.taken ++ [a] }, some a)

/-- No more is waiting than there is room for. -/
def Bounded (c : Channel α) : Prop := c.buffer.length ≤ c.capacity

/-- What an offer to an open channel does: the value joins what was offered, and the stream if there is room. -/
theorem offer_spec {ok : Bool} (run : c.offer a = some (c', ok)) :
    c'.offered.Perm (a :: c.offered) ∧ c'.stream = c.stream ++ (if ok then [a] else []) ∧ c'.closed = c.closed ∧
      c'.taken = c.taken ∧ (c.Bounded → c'.Bounded) ∧ (ok = false → c' = { c with refused := c.refused ++ [a] } ∧
        c.capacity ≤ c.buffer.length) := by
  rw [offer] at run
  split at run
  next => cases run
  split at run
  next room =>
    cases run
    have appended : stream { c with buffer := c.buffer ++ [a] } = c.stream ++ [a] := (List.append_assoc _ _ _).symm
    refine ⟨?_, appended, rfl, rfl, fun _ => ?_, fun failed => nomatch failed⟩
    · rw [offered, appended, List.append_assoc]
      exact List.perm_middle
    · rw [Bounded, List.length_append]
      exact room
  next full =>
    cases run
    refine ⟨?_, (List.append_nil _).symm, rfl, rfl, id, fun _ => ⟨rfl, Nat.le_of_not_lt full⟩⟩
    rw [offered, ← List.append_assoc]
    exact List.perm_append_singleton a _

theorem offer_isSome (isOpen : c.closed = false) (a : α) : ∃ c' ok, c.offer a = some (c', ok) := by
  rw [offer, if_neg (by simp [isOpen])]
  split
  next => exact ⟨_, _, rfl⟩
  next => exact ⟨_, _, rfl⟩

theorem capacity_offer {ok : Bool} (run : c.offer a = some (c', ok)) : c'.capacity = c.capacity := by
  rw [offer] at run
  split at run
  next => cases run
  split at run
  next =>
    cases run
    rfl
  next =>
    cases run
    rfl

theorem close_eq_some : c.close = some c' ↔ c.closed = false ∧ c' = { c with closed := true } := by
  rw [close]
  cases c.closed with
  | true => simp
  | false => simp [eq_comm]

/-- Receiving changes nothing of what the channel takes in all. -/
@[simp] theorem stream_receive (c : Channel α) : c.receive.1.stream = c.stream := by
  rw [receive]
  split
  next => rfl
  next a buffer full =>
    rw [stream, stream, full, List.append_assoc]
    rfl

@[simp] theorem refused_receive (c : Channel α) : c.receive.1.refused = c.refused := by
  rw [receive]
  split <;> rfl

@[simp] theorem offered_receive (c : Channel α) : c.receive.1.offered = c.offered := by
  rw [offered, stream_receive, refused_receive, offered]

@[simp] theorem closed_receive (c : Channel α) : c.receive.1.closed = c.closed := by
  rw [receive]
  split <;> rfl

@[simp] theorem capacity_receive (c : Channel α) : c.receive.1.capacity = c.capacity := by
  rw [receive]
  split <;> rfl

/-- It only moves the first waiting item to the taken ones. -/
theorem taken_receive (c : Channel α) : c.receive.1.taken = c.taken ++ c.receive.2.toList := by
  rw [receive]
  split
  next => exact (List.append_nil _).symm
  next => rfl

/-- And makes room. -/
theorem Bounded.receive (bounded : c.Bounded) : c.receive.1.Bounded := by
  rw [Channel.receive]
  split
  next => exact bounded
  next a buffer full =>
    rw [Bounded, full, List.length_cons] at bounded
    exact Nat.le_of_succ_le bounded

end Channel

section
variable {κ β : Type} [DecidableEq κ] {f : κ → Option β} {a b : κ} {x y : β}

/-- An entry of a map with a new value is the new one, or an old one. -/
theorem mem_update_some : y ∈ Function.update f a (some x) b ↔ a = b ∧ y = x ∨ b ≠ a ∧ y ∈ f b := by
  rw [Option.mem_def, Function.update_apply]
  by_cases same : b = a
  · simp [same, eq_comm]
  · simp [same, Ne.symm same]

theorem exists_mem_update_some (old : ∃ y, y ∈ f b) : ∃ y, y ∈ Function.update f a (some x) b := by
  by_cases same : b = a
  · exact ⟨x, mem_update_some.mpr (.inl ⟨same.symm, rfl⟩)⟩
  · obtain ⟨y, found⟩ := old
    exact ⟨y, mem_update_some.mpr (.inr ⟨same, found⟩)⟩

end
