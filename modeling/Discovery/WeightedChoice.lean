import Mathlib

/-! A number drawn below the sum of positive weights selects the weight it falls on. -/

namespace WeightedChoice

/-- The position of the weight that `n` falls on, if it falls on one. -/
def select (n : ℤ) : List ℤ → Option ℕ
  | [] => none
  | w :: ws => if n < w then some 0 else (select (n - w) ws).map (· + 1)

theorem select_cons_zero {n w : ℤ} {ws : List ℤ} : select n (w :: ws) = some 0 ↔ n < w := by
  rw [select]
  split
  next first => exact iff_of_true rfl first
  next later =>
    refine iff_of_false ?_ later
    cases select (n - w) ws <;> simp

theorem select_cons_succ {n w : ℤ} {ws : List ℤ} {i : ℕ} :
    select n (w :: ws) = some (i + 1) ↔ w ≤ n ∧ select (n - w) ws = some i := by
  rw [select]
  split
  next first => exact iff_of_false (by simp) fun both => absurd first (Int.not_lt.mpr both.1)
  next later => simp [Int.not_lt.mp later]

theorem sum_nonneg {ws : List ℤ} (positive : ∀ w ∈ ws, 0 < w) : 0 ≤ ws.sum :=
  List.sum_nonneg fun w member => (positive w member).le

theorem sum_pos {ws : List ℤ} (nonempty : ws ≠ []) (positive : ∀ w ∈ ws, 0 < w) : 0 < ws.sum := by
  cases ws with
  | nil => exact absurd rfl nonempty
  | cons w ws =>
    have first := positive w List.mem_cons_self
    have rest := sum_nonneg fun v member => positive v (List.mem_cons_of_mem w member)
    rw [List.sum_cons]
    omega

/-- Each weight is selected by the numbers between the sums of the weights up to it. -/
theorem select_eq_some_iff {ws : List ℤ} (positive : ∀ w ∈ ws, 0 < w) {n : ℤ} (least : 0 ≤ n) {i : ℕ} :
    select n ws = some i ↔ i < ws.length ∧ (ws.take i).sum ≤ n ∧ n < (ws.take (i + 1)).sum := by
  induction ws generalizing n i with
  | nil => simp [select]
  | cons w ws ih =>
    have rest := fun v member => positive v (List.mem_cons_of_mem w member)
    cases i with
    | zero => simp [select_cons_zero, least]
    | succ i =>
      simp only [select_cons_succ, List.length_cons, List.take_succ_cons, List.sum_cons]
      constructor
      · rintro ⟨above, selected⟩
        obtain ⟨bound, lower, upper⟩ := (ih rest (by omega)).mp selected
        exact ⟨by omega, by omega, by omega⟩
      · rintro ⟨bound, lower, upper⟩
        have earlier := sum_nonneg fun v member => rest v (List.mem_of_mem_take (i := i) member)
        exact ⟨by omega, (ih rest (by omega)).mpr ⟨by omega, by omega, by omega⟩⟩

/-- A number below the sum of the weights falls on one of them. -/
theorem select_isSome_iff {ws : List ℤ} (positive : ∀ w ∈ ws, 0 < w) {n : ℤ} (least : 0 ≤ n) :
    (∃ i, select n ws = some i) ↔ n < ws.sum := by
  induction ws generalizing n with
  | nil => simp [select, least]
  | cons w ws ih =>
    have rest := fun v member => positive v (List.mem_cons_of_mem w member)
    have tail := sum_nonneg rest
    rw [List.sum_cons]
    by_cases first : n < w
    · exact iff_of_true ⟨0, select_cons_zero.mpr first⟩ (by omega)
    · have later := ih rest (n := n - w) (by omega)
      constructor
      · rintro ⟨i, selected⟩
        cases i with
        | zero => exact absurd (select_cons_zero.mp selected) first
        | succ i =>
          have below := later.mp ⟨i, (select_cons_succ.mp selected).2⟩
          omega
      · intro below
        obtain ⟨i, selected⟩ := later.mpr (by omega)
        exact ⟨i + 1, select_cons_succ.mpr ⟨Int.not_lt.mp first, selected⟩⟩

/-- The numbers that select a position. -/
noncomputable def draws (ws : List ℤ) (i : ℕ) : Finset ℤ := {n ∈ Finset.Ico 0 ws.sum | select n ws = some i}

theorem draws_eq {ws : List ℤ} (positive : ∀ w ∈ ws, 0 < w) {i : ℕ} (bound : i < ws.length) :
    draws ws i = Finset.Ico (ws.take i).sum (ws.take (i + 1)).sum := by
  have earlier := sum_nonneg fun v member => positive v (List.mem_of_mem_take (i := i) member)
  have later := sum_nonneg fun v member => positive v (List.mem_of_mem_drop (i := i + 1) member)
  have whole := List.sum_take_add_sum_drop ws (i + 1)
  ext n
  simp only [draws, Finset.mem_filter, Finset.mem_Ico]
  constructor
  · rintro ⟨⟨least, _⟩, selected⟩
    exact ((select_eq_some_iff positive least).mp selected).2
  · rintro ⟨lower, upper⟩
    have least : 0 ≤ n := by omega
    exact ⟨⟨least, by omega⟩, (select_eq_some_iff positive least).mpr ⟨bound, lower, upper⟩⟩

/-- Each position is selected by as many numbers as its weight says. -/
theorem card_draws {ws : List ℤ} (positive : ∀ w ∈ ws, 0 < w) {i : ℕ} (bound : i < ws.length) :
    ((draws ws i).card : ℤ) = ws[i] := by
  have own := positive _ (List.getElem_mem bound)
  have step := List.sum_take_succ ws i bound
  rw [draws_eq positive bound, Int.card_Ico, step]
  omega

end WeightedChoice
