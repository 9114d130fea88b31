import Mathlib.Data.List.Induction
import Mathlib.Logic.Function.Basic
import Mathlib.Order.Defs.PartialOrder
import Mathlib.Tactic.Common

/-! Counters that several keys share, each stamped with the key it counts and emptied when another one comes. -/

structure Stamped (κ β : Type) where
  stamps : β → κ
  counts : β → Int

namespace Stamped
variable {κ β : Type} [DecidableEq κ] [DecidableEq β] (slot : κ → β)

def incr (r : Stamped κ β) (k : κ) : Stamped κ β :=
  let i := slot k
  let r := if r.stamps i ≠ k then
    { stamps := Function.update r.stamps i k, counts := Function.update r.counts i 0 } else r
  { r with counts := Function.update r.counts i (r.counts i + 1) }

/-- The count of a key, zero where its counter is stamped with another one. -/
def read (r : Stamped κ β) (k : κ) : Int := if r.stamps (slot k) = k then r.counts (slot k) else 0

/-- What one increment does to the count of each key. -/
theorem read_incr (r : Stamped κ β) (k j : κ) : (r.incr slot k).read slot j =
    if j = k then r.read slot j + 1 else if slot j = slot k then 0 else r.read slot j := by
  by_cases same : j = k
  · subst same
    by_cases stamped : r.stamps (slot j) = j
    · simp [incr, read, stamped]
    · simp [incr, read, stamped]
  · rw [if_neg same]
    by_cases shared : slot j = slot k
    · have stamp : (r.incr slot k).stamps (slot k) = k := by
        by_cases stamped : r.stamps (slot k) = k
        · simp [incr, stamped]
        · simp [incr, stamped]
      rw [if_pos shared, read, shared, stamp, if_neg (Ne.symm same)]
    · have stamp : (r.incr slot k).stamps (slot j) = r.stamps (slot j) := by
        by_cases stamped : r.stamps (slot k) = k
        · simp [incr, stamped]
        · simp [incr, stamped, shared]
      have count : (r.incr slot k).counts (slot j) = r.counts (slot j) := by
        by_cases stamped : r.stamps (slot k) = k
        · simp [incr, stamped, shared]
        · simp [incr, stamped, shared]
      rw [if_neg shared, read, stamp, count, read]

/-- No counter has counted more than all the increments there were. -/
theorem counts_foldl_le (r : Stamped κ β) (keys : List κ) (i : β) (fresh : r.counts i = 0) :
    0 ≤ (keys.foldl (incr slot) r).counts i ∧ (keys.foldl (incr slot) r).counts i ≤ keys.length := by
  induction keys using List.reverseRecOn with
  | nil => exact ⟨Int.le_of_eq fresh.symm, Int.le_of_eq fresh⟩
  | append_singleton keys k ih =>
    rw [List.foldl_append, List.foldl_cons, List.foldl_nil, List.length_append, List.length_singleton]
    generalize keys.foldl (incr slot) r = r at ih
    by_cases here : i = slot k
    · subst here
      by_cases stamped : r.stamps (slot k) = k
      · have count : (r.incr slot k).counts (slot k) = r.counts (slot k) + 1 := by simp [incr, stamped]
        omega
      · have count : (r.incr slot k).counts (slot k) = 1 := by simp [incr, stamped]
        omega
    · have count : (r.incr slot k).counts i = r.counts i := by
        by_cases stamped : r.stamps (slot k) = k
        · simp [incr, stamped, here]
        · simp [incr, stamped, here]
      omega

variable [PartialOrder κ] {slot}

/-- Where the keys of each counter come in order, the last key of each is counted exactly. -/
theorem read_foldl {r : Stamped κ β} {keys : List κ} {j : κ} (fresh : r.read slot j = 0)
    (ordered : keys.Pairwise fun s t => slot s = slot t → s ≤ t) (last : ∀ t ∈ keys, slot t = slot j → t ≤ j) :
    (keys.foldl (incr slot) r).read slot j = keys.count j := by
  induction keys using List.reverseRecOn with
  | nil => exact fresh
  | append_singleton keys t ih =>
    rw [List.pairwise_append] at ordered
    obtain ⟨before, _, then_⟩ := ordered
    have counted := ih before fun s member => last s (List.mem_append_left _ member)
    rw [List.foldl_append, List.foldl_cons, List.foldl_nil, read_incr, counted, List.count_append]
    by_cases same : j = t
    · rw [if_pos same, same, List.count_singleton_self]
      rfl
    · have other : [t].count j = 0 := List.count_eq_zero.mpr fun member => same (List.mem_singleton.mp member)
      rw [if_neg same, other, Nat.add_zero]
      split
      next shared =>
        -- an earlier key of the counter empties it before `j` has come
        have absent : j ∉ keys := by
          intro member
          have le : j ≤ t := then_ j member t List.mem_cons_self shared
          exact same (le_antisymm le (last t (List.mem_append_right _ List.mem_cons_self) shared.symm))
        rw [List.count_eq_zero.mpr absent]
        rfl
      next => rfl

end Stamped
