import Mathlib.Data.List.Basic
import Mathlib.Data.Set.Function
import Mathlib.Tactic.Common

/-! Codes whose end can be told from what they say, whatever text comes after them. -/

namespace PrefixCode
variable {α γ : Type}

/-- A text that begins with the code of one element of `S` begins with that of no other. -/
def Delimits (code : α → List γ) (S : Set α) : Prop :=
  ∀ a ∈ S, ∀ b ∈ S, ∀ s t, code a ++ s = code b ++ t → a = b ∧ s = t

/-- Words of `S`, each closed by `c`, where no word of `S` goes on with a `c` after another. -/
theorem delimits_closed {S : Set (List γ)} {c : γ} (stops : ∀ v ∈ S, ∀ a, v ++ c :: a ∉ S) :
    Delimits (fun w : List γ => w ++ [c]) S := by
  intro v left w right s t same
  simp only [List.append_assoc, List.singleton_append] at same
  obtain ⟨a, whole, tail⟩ | ⟨a, whole, tail⟩ := List.append_eq_append_iff.mp same
  · cases a with
    | nil =>
      rw [List.append_nil] at whole
      exact ⟨whole.symm, (List.cons.inj tail).2⟩
    | cons d a =>
      obtain ⟨rfl, _⟩ := List.cons.inj tail
      exact absurd (whole ▸ right) (stops v left a)
  · cases a with
    | nil =>
      rw [List.append_nil] at whole
      exact ⟨whole, (List.cons.inj tail).2.symm⟩
    | cons d a =>
      obtain ⟨rfl, _⟩ := List.cons.inj tail
      exact absurd (whole ▸ left) (stops w right a)

/-- Words without the letter `c`, each closed by one. -/
theorem delimits_terminated (c : γ) : Delimits (fun w : List γ => w ++ [c]) {w | c ∉ w} :=
  delimits_closed fun v _ _ absent => absent (List.mem_append_right v List.mem_cons_self)

/-- Lists of codes, each list closed by `c`, where no code begins with a `c`. -/
theorem Delimits.list {code : α → List γ} {S : Set α} {c : γ} (delimits : Delimits code S)
    (opens : ∀ a ∈ S, ∀ s t, code a ++ s ≠ c :: t) :
    Delimits (fun l : List α => l.flatMap code ++ [c]) {l | ∀ a ∈ l, a ∈ S} := by
  intro l
  induction l with
  | nil =>
    intro _ m right s t same
    cases m with
    | nil => exact ⟨rfl, List.append_cancel_left same⟩
    | cons b m =>
      have same : (b :: m).flatMap code ++ [c] ++ t = c :: s := same.symm
      simp only [List.flatMap_cons, List.append_assoc] at same
      exact absurd same (opens b (right b List.mem_cons_self) _ s)
  | cons a l ih =>
    intro left m right s t same
    have first := left a List.mem_cons_self
    cases m with
    | nil =>
      have same : (a :: l).flatMap code ++ [c] ++ s = c :: t := same
      simp only [List.flatMap_cons, List.append_assoc] at same
      exact absurd same (opens a first _ t)
    | cons b m =>
      simp only [List.flatMap_cons, List.append_assoc] at same
      obtain ⟨rfl, rest⟩ := delimits a first b (right b List.mem_cons_self) _ _ same
      simp only [← List.append_assoc] at rest
      obtain ⟨rfl, tails⟩ := ih (fun c member => left c (List.mem_cons_of_mem a member)) m
        (fun c member => right c (List.mem_cons_of_mem a member)) s t rest
      exact ⟨rfl, tails⟩

/-- The codes of a list, one after the other, determine the list. -/
theorem Delimits.injOn_flatMap {code : α → List γ} {S : Set α} (delimits : Delimits code S)
    (nonempty : ∀ a ∈ S, code a ≠ []) : Set.InjOn (List.flatMap code) {l | ∀ a ∈ l, a ∈ S} := by
  intro l
  induction l with
  | nil =>
    intro _ m right same
    cases m with
    | nil => rfl
    | cons b m =>
      have blank := List.append_eq_nil_iff.mp same.symm
      exact absurd blank.1 (nonempty b (right b List.mem_cons_self))
  | cons a l ih =>
    intro left m right same
    have first := left a List.mem_cons_self
    cases m with
    | nil =>
      have blank := List.append_eq_nil_iff.mp same
      exact absurd blank.1 (nonempty a first)
    | cons b m =>
      obtain ⟨rfl, rest⟩ := delimits a first b (right b List.mem_cons_self) _ _ same
      rw [ih (fun c member => left c (List.mem_cons_of_mem a member))
        (fun c member => right c (List.mem_cons_of_mem a member)) rest]

end PrefixCode
