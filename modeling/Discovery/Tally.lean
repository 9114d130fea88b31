import Mathlib.Algebra.Group.Nat.Defs
import Mathlib.Data.List.AList
import Mathlib.Tactic.Common

/-! Maps of counters, as loops over a list fill them. -/

/-- A Go map: an absent key reads as zero. -/
abbrev Tally (κ : Type) := AList fun _ : κ => Int

namespace Tally
variable {κ ι : Type} [DecidableEq κ]

/-- `m[k]`. -/
def count (m : Tally κ) (k : κ) : Int := (m.lookup k).getD 0

/-- `m[k]++`. -/
def incr (m : Tally κ) (k : κ) : Tally κ := m.insert k (m.count k + 1)

/-- `if _, ok := m[k]; !ok { m[k] = 0 }`. -/
def touch (m : Tally κ) (k : κ) : Tally κ := if k ∈ m then m else m.insert k 0

@[simp] theorem count_empty (k : κ) : count (∅ : Tally κ) k = 0 := rfl

theorem count_incr (m : Tally κ) (k j : κ) : (m.incr k).count j = m.count j + if k = j then 1 else 0 := by
  by_cases same : k = j
  · subst same
    rw [count, incr, AList.lookup_insert, Option.getD_some, if_pos rfl]
  · have other : (m.incr k).lookup j = m.lookup j := AList.lookup_insert_ne (Ne.symm same)
    rw [count, other, if_neg same, Int.add_zero, count]

theorem mem_incr {m : Tally κ} {k j : κ} : j ∈ m.incr k ↔ j = k ∨ j ∈ m := AList.mem_insert m

theorem count_touch (m : Tally κ) (k j : κ) : (m.touch k).count j = m.count j := by
  rw [touch]
  split
  · rfl
  next absent =>
    by_cases same : j = k
    · subst same
      rw [count, count, AList.lookup_insert, AList.lookup_eq_none.mpr absent]
      rfl
    · rw [count, count, AList.lookup_insert_ne same]

theorem mem_touch {m : Tally κ} {k j : κ} : j ∈ m.touch k ↔ j = k ∨ j ∈ m := by
  rw [touch]
  split
  next present =>
    constructor
    · exact Or.inr
    · rintro (rfl | here)
      · exact present
      · exact here
  next => exact AList.mem_insert m

/-- The sum of a map, as a loop over it adds it up. -/
def sum (m : Tally κ) : Int := m.entries.foldr (fun e total => e.2 + total) 0

theorem sum_kerase (l : List (Sigma fun _ : κ => Int)) (k : κ) :
    l.foldr (fun e total => e.2 + total) 0 =
      (l.dlookup k).getD 0 + (l.kerase k).foldr (fun e total => e.2 + total) 0 := by
  induction l with
  | nil => rfl
  | cons e l ih =>
    obtain ⟨j, n⟩ := e
    by_cases same : k = j
    · subst same
      have erased : List.kerase k (⟨k, n⟩ :: l) = l := List.kerase_cons_eq rfl
      rw [List.dlookup_cons_eq, erased]
      rfl
    · rw [List.dlookup_cons_ne l ⟨j, n⟩ same, List.kerase_cons_ne same, List.foldr_cons, List.foldr_cons, ih]
      omega

theorem sum_incr (m : Tally κ) (k : κ) : (m.incr k).sum = m.sum + 1 := by
  have whole : m.sum = m.count k + (m.entries.kerase k).foldr (fun e total => e.2 + total) 0 :=
    sum_kerase m.entries k
  rw [sum, incr, AList.entries_insert, List.foldr_cons, whole]
  exact Int.add_right_comm _ _ _

/-- A step of a loop that counts some of the items and makes sure of the keys of others. -/
structure Counts (step : Tally κ → ι → Tally κ) (key : ι → κ) (seen counted : ι → Bool) : Prop where
  value : ∀ m i k, (step m i).count k = m.count k + if key i = k ∧ counted i = true then 1 else 0
  keys : ∀ m i k, k ∈ step m i ↔ (key i = k ∧ seen i = true) ∨ k ∈ m

variable {step : Tally κ → ι → Tally κ} {key : ι → κ} {seen counted : ι → Bool}

theorem incr_counts (key : ι → κ) : Counts (fun m i => m.incr (key i)) key (fun _ => true) (fun _ => true) where
  value m i k := by simp [count_incr]
  keys m i k := by simp [mem_incr, eq_comm]

/-- After the loop a key has the number of its items that count. -/
theorem Counts.count_foldl (counts : Counts step key seen counted) (items : List ι) (m : Tally κ) (k : κ) :
    (items.foldl step m).count k = m.count k + items.countP (fun i => decide (key i = k) && counted i) := by
  induction items generalizing m with
  | nil => simp
  | cons i items ih =>
    have first := counts.value m i k
    rw [List.foldl_cons, ih, first, List.countP_cons]
    by_cases here : key i = k ∧ counted i = true
    · simp only [here, and_self, if_true, decide_true, Bool.and_self]
      omega
    · have passed : ¬(decide (key i = k) && counted i) = true := by simpa using here
      rw [if_neg here, if_neg passed]
      omega

/-- Until 2^63 items have been counted the machine's integers count alike. -/
theorem Counts.unwrapped (counts : Counts step key seen counted) {items : List ι} (few : items.length < 2 ^ 63)
    (k : κ) : Int.bmod ((items.foldl step ∅).count k) (2 ^ 64) = (items.foldl step ∅).count k := by
  have fewer := items.countP_le_length (p := fun i => decide (key i = k) && counted i)
  have count := counts.count_foldl items ∅ k
  rw [count_empty] at count
  exact Int.bmod_eq_of_le_mul_two (by omega) (by omega)

theorem Counts.mem_foldl (counts : Counts step key seen counted) (items : List ι) (m : Tally κ) (k : κ) :
    k ∈ items.foldl step m ↔ (∃ i ∈ items, key i = k ∧ seen i = true) ∨ k ∈ m := by
  induction items generalizing m with
  | nil => simp
  | cons i items ih =>
    rw [List.foldl_cons, ih, counts.keys, List.exists_mem_cons_iff, or_assoc, or_left_comm]

end Tally
