import Mathlib.Algebra.Order.Group.Defs
import Mathlib.Algebra.Order.Group.MinMax
import Mathlib.Tactic.Abel

/-! Token buckets. Tokens are counted in the time that it takes to refill them. -/

structure TokenBucket (K : Type) [Zero K] [LE K] where
  tokens : K
  last : K
  nonneg : 0 ≤ tokens

namespace TokenBucket
variable {K : Type} [AddCommGroup K] [LinearOrder K] [IsOrderedAddMonoid K] (capacity cost : K)

/-- What is in the bucket at a time. -/
def level (b : TokenBucket K) (t : K) : K := min capacity (b.tokens + max 0 (t - b.last))

def allow (b : TokenBucket K) (t : K) : Bool × TokenBucket K :=
  if enough : cost ≤ b.level capacity t then (true, ⟨b.level capacity t - cost, t, sub_nonneg.mpr enough⟩)
  else (false, b)

/-- The times at which the bucket lets a request pass. -/
def passes (b : TokenBucket K) : List K → List K
  | [] => []
  | t :: times =>
    let (ok, b') := b.allow capacity cost t
    if ok then t :: b'.passes times else b'.passes times

variable {capacity cost}

theorem level_nonneg (bound : 0 ≤ capacity) (b : TokenBucket K) (t : K) : 0 ≤ b.level capacity t :=
  le_min bound (add_nonneg b.nonneg (le_max_left _ _))

variable (capacity) in
/-- The bucket fills by no more than the time that has passed. -/
theorem level_le_add (b : TokenBucket K) {s t : K} (order : s ≤ t) :
    b.level capacity t ≤ b.level capacity s + (t - s) := by
  have elapsed : 0 ≤ t - s := sub_nonneg.mpr order
  rw [level, level, min_add]
  refine min_le_min (le_add_of_nonneg_right elapsed) ?_
  rw [add_assoc, max_add, zero_add]
  refine add_le_add_right (max_le_max elapsed ?_) b.tokens
  exact le_of_eq (by abel)

theorem level_allow {b : TokenBucket K} {t : K} (enough : cost ≤ b.level capacity t) (free : 0 ≤ cost) :
    (b.allow capacity cost t).2.level capacity t + cost = b.level capacity t := by
  have spent : b.level capacity t - cost ≤ capacity := (sub_le_self _ free).trans (min_le_left _ _)
  rw [allow, dif_pos enough, level, sub_self, max_self, add_zero, min_eq_right spent, sub_add_cancel]

theorem passes_cons_of_le {b : TokenBucket K} {t : K} (enough : cost ≤ b.level capacity t) (times : List K) :
    b.passes capacity cost (t :: times) = t :: (b.allow capacity cost t).2.passes capacity cost times := by
  rw [passes, allow, dif_pos enough]
  rfl

theorem passes_cons_of_lt {b : TokenBucket K} {t : K} (empty : ¬cost ≤ b.level capacity t) (times : List K) :
    b.passes capacity cost (t :: times) = b.passes capacity cost times := by
  rw [passes, allow, dif_neg empty]
  rfl

theorem passes_sublist (b : TokenBucket K) (times : List K) : (b.passes capacity cost times).Sublist times := by
  induction times generalizing b with
  | nil => exact List.Sublist.slnil
  | cons t times ih =>
    by_cases enough : cost ≤ b.level capacity t
    · rw [passes_cons_of_le enough]
      exact (ih _).cons_cons t
    · rw [passes_cons_of_lt enough]
      exact (ih b).cons t

/-- From a time on, the bucket gives out what it holds then and what it is refilled with. -/
theorem passes_le_level (bound : 0 ≤ capacity) (free : 0 ≤ cost) {times : List K}
    (ordered : times.Pairwise (· ≤ ·)) (b : TokenBucket K) {s u : K} (order : s ≤ u) (later : ∀ t ∈ times, s ≤ t) :
    (b.passes capacity cost times).countP (· ≤ u) • cost ≤ b.level capacity s + (u - s) := by
  have least (b : TokenBucket K) {s : K} (order : s ≤ u) : 0 • cost ≤ b.level capacity s + (u - s) := by
    rw [zero_nsmul]
    exact add_nonneg (level_nonneg bound b s) (sub_nonneg.mpr order)
  induction times generalizing b s with
  | nil => exact least b order
  | cons t times ih =>
    rw [List.pairwise_cons] at ordered
    obtain ⟨first, ordered⟩ := ordered
    have after : s ≤ t := later t List.mem_cons_self
    by_cases beyond : u < t
    · -- neither this request nor a later one is counted
      have none : (b.passes capacity cost (t :: times)).countP (· ≤ u) = 0 := by
        refine List.countP_eq_zero.mpr fun v member => ?_
        have past : t ≤ v := by
          rcases List.mem_cons.mp ((passes_sublist b _).subset member) with same | member
          · exact same.ge
          · exact first v member
        rw [decide_eq_true_eq, not_le]
        exact beyond.trans_le past
      rw [none]
      exact least b order
    · have counted : t ≤ u := not_lt.mp beyond
      by_cases enough : cost ≤ b.level capacity t
      · have rest := ih ordered (b.allow capacity cost t).2 counted first
        have kept := level_allow enough free
        have filled := b.level_le_add capacity after
        rw [passes_cons_of_le enough, List.countP_cons_of_pos (by simpa using counted), succ_nsmul]
        calc _ ≤ (b.allow capacity cost t).2.level capacity t + (u - t) + cost := by gcongr
          _ = b.level capacity t + (u - t) := by rw [← kept]; abel
          _ ≤ b.level capacity s + (t - s) + (u - t) := by gcongr
          _ = b.level capacity s + (u - s) := by abel
      · rw [passes_cons_of_lt enough]
        exact ih ordered b order fun v member => later v (List.mem_cons_of_mem t member)

/-- In a window of time a bucket gives out no more than its capacity and the refill of the window. -/
theorem passes_in_window (bound : 0 ≤ capacity) (free : 0 ≤ cost) {times : List K}
    (ordered : times.Pairwise (· ≤ ·)) (b : TokenBucket K) {s u : K} (order : s ≤ u) :
    (b.passes capacity cost times).countP (fun t => s ≤ t ∧ t ≤ u) • cost ≤ capacity + (u - s) := by
  induction times generalizing b with
  | nil =>
    rw [passes, List.countP_nil, zero_nsmul]
    exact add_nonneg bound (sub_nonneg.mpr order)
  | cons t times ih =>
    by_cases before : t < s
    · have outside : ¬(s ≤ t ∧ t ≤ u) := fun inside => inside.1.not_gt before
      by_cases enough : cost ≤ b.level capacity t
      · rw [passes_cons_of_le enough, List.countP_cons_of_neg (by simpa using outside)]
        exact ih ordered.of_cons _
      · rw [passes_cons_of_lt enough]
        exact ih ordered.of_cons b
    · -- from here on all requests are in the window or behind it
      have later : ∀ v ∈ t :: times, s ≤ v := by
        intro v member
        rcases List.mem_cons.mp member with same | member
        · exact same ▸ not_lt.mp before
        · exact (not_lt.mp before).trans (List.rel_of_pairwise_cons ordered member)
      have inWindow : (b.passes capacity cost (t :: times)).countP (fun t => s ≤ t ∧ t ≤ u) =
          (b.passes capacity cost (t :: times)).countP (· ≤ u) := by
        refine List.countP_congr fun v member => ?_
        have from_s := later v ((passes_sublist b _).subset member)
        simp [from_s]
      rw [inWindow]
      refine (passes_le_level bound free ordered b order later).trans ?_
      exact add_le_add_left (min_le_left _ _) _

end TokenBucket
