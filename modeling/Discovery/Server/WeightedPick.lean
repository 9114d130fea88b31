import Discovery.Server.Sticky
import Discovery.WeightedChoice

namespace Discovery
namespace Server

/-- The weights added up in an `int`, which wraps. -/
def weightTotal (insts : List Instance) : Int :=
  insts.foldl (fun total i => Int.bmod (total + effectiveWeight i.weight) (2 ^ 64)) 0

/-- The index at which the loop returns from inside, `n` being the number drawn. -/
def pickLoop (n : Int) : List Instance → Option ℕ
  | [] => none
  | i :: rest =>
    if n < effectiveWeight i.weight then some 0
    else (pickLoop (Int.bmod (n - effectiveWeight i.weight) (2 ^ 64)) rest).map (· + 1)

def weights (insts : List Instance) : List Int := insts.map (fun i => effectiveWeight i.weight)

/-- The draw does not panic, the loop finds an element, and each element has the share of the draws that its
weight says. -/
structure PicksProportionally (insts : List Instance) : Prop where
  positive : 0 < weightTotal insts
  inside : ∀ n, 0 ≤ n → n < weightTotal insts → ∃ i, pickLoop n insts = some i ∧ i < insts.length
  share : ∀ (i : ℕ) (bound : i < insts.length),
    (({n ∈ Finset.Ico 0 (weightTotal insts) | pickLoop n insts = some i}).card : ℤ) = effectiveWeight insts[i].weight

theorem effectiveWeight_pos (w : Int) : 0 < effectiveWeight w := by
  rw [effectiveWeight]
  split <;> omega

theorem weights_pos (insts : List Instance) : ∀ w ∈ weights insts, 0 < w := by
  intro w member
  obtain ⟨i, _, rfl⟩ := List.mem_map.mp member
  exact effectiveWeight_pos i.weight

/-- The total is the sum of the weights, wrapped once. -/
theorem weightTotal_eq (insts : List Instance) : weightTotal insts = Int.bmod (weights insts).sum (2 ^ 64) := by
  have wrapped (t : Int) : insts.foldl (fun total i => Int.bmod (total + effectiveWeight i.weight) (2 ^ 64))
      (Int.bmod t (2 ^ 64)) = Int.bmod (t + (weights insts).sum) (2 ^ 64) := by
    induction insts generalizing t with
    | nil => simp [weights]
    | cons i rest ih =>
      have step : Int.bmod (Int.bmod t (2 ^ 64) + effectiveWeight i.weight) (2 ^ 64) =
          Int.bmod (t + effectiveWeight i.weight) (2 ^ 64) := Int.bmod_add_bmod
      simp only [List.foldl_cons, step, ih, weights, List.map_cons, List.sum_cons, Int.add_assoc]
  have start := wrapped 0
  rwa [Int.zero_bmod, Int.zero_add] at start

theorem weightTotal_lt (insts : List Instance) : weightTotal insts < 2 ^ 63 := by
  rw [weightTotal_eq, Int.bmod_def]
  omega

theorem weightTotal_of_fits {insts : List Instance} (fits : (weights insts).sum < 2 ^ 63) :
    weightTotal insts = (weights insts).sum := by
  have least := WeightedChoice.sum_nonneg (weights_pos insts)
  rw [weightTotal_eq]
  exact Int.bmod_eq_of_le_mul_two (by push_cast; omega) (by push_cast; omega)

/-- In the range of an `int` the loop selects the weight that the number falls on. -/
theorem pickLoop_eq (insts : List Instance) {n : Int} (least : 0 ≤ n) (most : n < 2 ^ 63) :
    pickLoop n insts = WeightedChoice.select n (weights insts) := by
  induction insts generalizing n with
  | nil => rfl
  | cons i rest ih =>
    have positive := effectiveWeight_pos i.weight
    rw [pickLoop, weights, List.map_cons, WeightedChoice.select]
    by_cases first : n < effectiveWeight i.weight
    · rw [if_pos first, if_pos first]
    · have left : Int.bmod (n - effectiveWeight i.weight) (2 ^ 64) = n - effectiveWeight i.weight :=
        Int.bmod_eq_of_le_mul_two (by push_cast; omega) (by push_cast; omega)
      rw [if_neg first, if_neg first, left, ih (by omega) (by omega), weights]

/-- A number below the sum of the weights picks the element at which the loop returns. -/
theorem weightedPick_eq {insts : List Instance} {n : Int} (least : 0 ≤ n) (below : n < (weights insts).sum)
    (fits : (weights insts).sum < 2 ^ 63) :
    ∃ i, ∃ bound : i < insts.length, pickLoop n insts = some i ∧ weightedPick n insts = some insts[i] := by
  rw [pickLoop_eq insts least (by omega)]
  clear fits
  induction insts generalizing n with
  | nil => exact absurd below (Int.not_lt.mpr least)
  | cons i rest ih =>
    rw [weights, List.map_cons, List.sum_cons] at below
    by_cases first : n < effectiveWeight i.weight
    · refine ⟨0, Nat.zero_lt_succ _, WeightedChoice.select_cons_zero.mpr first, ?_⟩
      cases rest with
      | nil => rfl
      | cons j rest => rw [weightedPick_cons, if_pos first, List.getElem_cons_zero]
    · obtain ⟨k, bound, selected, picked⟩ :=
        ih (n := n - effectiveWeight i.weight) (by omega) (by rw [weights]; omega)
      refine ⟨k + 1, Nat.succ_lt_succ bound, WeightedChoice.select_cons_succ.mpr ⟨Int.not_lt.mp first, selected⟩, ?_⟩
      cases rest with
      | nil => exact absurd bound (Nat.not_lt_zero k)
      | cons j rest => rw [weightedPick_cons, if_neg first, picked, List.getElem_cons_succ]

theorem picksProportionally_of_fits {insts : List Instance} (nonempty : insts ≠ [])
    (fits : (weights insts).sum < 2 ^ 63) : PicksProportionally insts := by
  have all := weights_pos insts
  have total := weightTotal_of_fits fits
  have selects {n : Int} (least : 0 ≤ n) (below : n < (weights insts).sum) :=
    pickLoop_eq insts least (Int.lt_trans below fits)
  refine ⟨?_, fun n least below => ?_, fun i bound => ?_⟩
  · rw [total]
    exact WeightedChoice.sum_pos (by simpa [weights] using nonempty) all
  · rw [total] at below
    obtain ⟨i, selected⟩ := (WeightedChoice.select_isSome_iff all least).mpr below
    have bound := ((WeightedChoice.select_eq_some_iff all least).mp selected).1
    exact ⟨i, (selects least below).trans selected, by simpa [weights] using bound⟩
  · have same : {n ∈ Finset.Ico 0 (weightTotal insts) | pickLoop n insts = some i} =
        WeightedChoice.draws (weights insts) i := by
      rw [total, WeightedChoice.draws]
      refine Finset.filter_congr fun n range => ?_
      obtain ⟨least, below⟩ := Finset.mem_Ico.mp range
      rw [selects least below]
    have within : i < (weights insts).length := by simpa [weights] using bound
    rw [same, WeightedChoice.card_draws all within]
    simp [weights]

/-- When the sum of the weights does not fit, the last element gets less than its share. -/
theorem fits_of_picksProportionally {insts : List Instance} (picks : PicksProportionally insts) :
    insts ≠ [] ∧ (weights insts).sum < 2 ^ 63 := by
  have all := weights_pos insts
  have nonempty : insts ≠ [] := by
    rintro rfl
    exact absurd picks.positive (by decide)
  refine ⟨nonempty, ?_⟩
  by_contra large
  have some := List.length_pos_iff.mpr nonempty
  have last : insts.length - 1 < insts.length := by omega
  have within : insts.length - 1 < (weights insts).length := by simpa [weights] using last
  have upper : ((weights insts).take (insts.length - 1 + 1)).sum = (weights insts).sum := by
    rw [List.take_of_length_le]
    simp only [weights, List.length_map]
    omega
  have split := List.sum_take_succ (weights insts) (insts.length - 1) within
  have lower := WeightedChoice.sum_nonneg fun v member => all v (List.mem_of_mem_take (i := insts.length - 1) member)
  have below := weightTotal_lt insts
  have inside : {n ∈ Finset.Ico 0 (weightTotal insts) | pickLoop n insts = Option.some (insts.length - 1)} ⊆
      Finset.Ico ((weights insts).take (insts.length - 1)).sum (weightTotal insts) := by
    intro n member
    obtain ⟨range, selected⟩ := Finset.mem_filter.mp member
    obtain ⟨least, most⟩ := Finset.mem_Ico.mp range
    rw [pickLoop_eq insts least (Int.lt_trans most below)] at selected
    exact Finset.mem_Ico.mpr ⟨((WeightedChoice.select_eq_some_iff all least).mp selected).2.1, most⟩
  have few := Finset.card_le_card inside
  have share := picks.share (insts.length - 1) last
  have own : (weights insts)[insts.length - 1] = effectiveWeight insts[insts.length - 1].weight := by simp [weights]
  have positive := effectiveWeight_pos insts[insts.length - 1].weight
  rw [Int.card_Ico] at few
  omega

/-- The weighted choice is total and proportional exactly if the sum of the weights fits an `int`. -/
theorem picksProportionally_iff (insts : List Instance) :
    PicksProportionally insts ↔ insts ≠ [] ∧ (weights insts).sum < 2 ^ 63 :=
  ⟨fits_of_picksProportionally, fun fits => picksProportionally_of_fits fits.1 fits.2⟩

/-- Two accepted registrations of weight `2 ^ 62` make every pick panic. -/
theorem weights_overflow : ¬∀ insts : List Instance, insts ≠ [] →
    (∀ i ∈ insts, i.weight < 2 ^ 63 ∧ ∃ given : Instance, given.validate = .ok i) → PicksProportionally insts := by
  intro picks
  let heavy : Instance := { id := "i", serviceName := "s", address := "h", weight := 2 ^ 62, status := statusUp }
  have accepted : heavy.validate = .ok heavy := by decide
  have total := (picks [heavy, heavy] (List.cons_ne_nil _ _) fun i member => by
    have same : i = heavy := by simpa using member
    exact ⟨by rw [same]; decide, heavy, same ▸ accepted⟩).positive
  exact absurd total (by decide)

end Server
end Discovery
