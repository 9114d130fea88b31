import Mathlib.Data.List.Basic
import Mathlib.Tactic.Common

/-! Threads that take turns: what becomes of a register that one of them writes. -/

namespace Interleave
variable {α σ ρ : Type}

/-- A run in which every thread takes its actions in its own order, and all of them. -/
inductive Interleaves : List (List α) → List α → Prop
  | done {ts : List (List α)} : (∀ t ∈ ts, t = []) → Interleaves ts []
  | next {before after : List (List α)} {a : α} {t run : List α} :
      Interleaves (before ++ t :: after) run → Interleaves (before ++ (a :: t) :: after) (a :: run)

/-- The threads may run one after the other. -/
theorem interleaves_flatten (ts : List (List α)) : Interleaves ts ts.flatten := by
  generalize size : ts.flatten = run
  induction run generalizing ts with
  | nil => exact .done (List.flatten_eq_nil_iff.mp size)
  | cons a run ih =>
    obtain ⟨before, t, after, rfl, finished, rest⟩ := List.flatten_eq_cons_iff.mp size
    refine .next (ih _ ?_)
    rw [rest, List.flatten_append, List.flatten_cons, List.flatten_eq_nil_iff.mpr finished]
    rfl

namespace Interleaves
variable {ts : List (List α)} {run : List α}

/-- Of the chosen actions, the run is one of the threads' too. -/
theorem filter (turns : Interleaves ts run) (p : α → Bool) : Interleaves (ts.map (List.filter p)) (run.filter p) := by
  induction turns with
  | done finished =>
    refine .done fun t member => ?_
    obtain ⟨u, thread, rfl⟩ := List.mem_map.mp member
    rw [finished u thread]
    rfl
  | @next before after a t run _ ih =>
    rw [List.map_append, List.map_cons] at ih ⊢
    by_cases chosen : p a
    · rw [List.filter_cons_of_pos chosen, List.filter_cons_of_pos chosen]
      exact .next ih
    · rwa [List.filter_cons_of_neg chosen, List.filter_cons_of_neg chosen]

/-- Where no two threads have something to do there is one run. -/
theorem eq_flatten (turns : Interleaves ts run) (alone : ts.Pairwise fun t u => t = [] ∨ u = []) :
    run = ts.flatten := by
  induction turns with
  | done finished => exact (List.flatten_eq_nil_iff.mpr finished).symm
  | @next before after a t run _ ih =>
    obtain ⟨first, others, across⟩ := List.pairwise_append.mp alone
    obtain ⟨last, tail⟩ := List.pairwise_cons.mp others
    have busy : a :: t ≠ [] := List.cons_ne_nil a t
    have idle (u : List α) (member : u ∈ before) : u = [] :=
      (across u member _ List.mem_cons_self).resolve_right busy
    have rest : (before ++ t :: after).Pairwise fun t u => t = [] ∨ u = [] := by
      refine List.pairwise_append.mpr ⟨first, List.pairwise_cons.mpr ⟨fun u member => ?_, tail⟩, ?_⟩
      · exact Or.inr ((last u member).resolve_left busy)
      · exact fun u member _ _ => Or.inl (idle u member)
    rw [ih rest, List.flatten_append, List.flatten_append, List.flatten_eq_nil_iff.mpr idle]
    rfl

/-- Where only one thread has chosen actions, the run has them in that thread's order. -/
theorem filter_eq (turns : Interleaves ts run) {p : α → Bool}
    (alone : ts.Pairwise fun t u => t.filter p = [] ∨ u.filter p = []) : run.filter p = ts.flatten.filter p := by
  rw [(turns.filter p).eq_flatten (List.pairwise_map.mpr alone), List.filter_flatten]

end Interleaves

/-- A register that only the chosen actions write is changed by them alone. -/
theorem read_foldl {step : σ → α → σ} (read : σ → ρ) (act : ρ → α → ρ) {p : α → Bool} {run : List α}
    (own : ∀ a ∈ run, p a = true → ∀ s, read (step s a) = act (read s) a)
    (frame : ∀ a ∈ run, p a = false → ∀ s, read (step s a) = read s) (s : σ) :
    read (run.foldl step s) = (run.filter p).foldl act (read s) := by
  induction run generalizing s with
  | nil => rfl
  | cons a run ih =>
    obtain ⟨ownFirst, ownRest⟩ := List.forall_mem_cons.mp own
    obtain ⟨frameFirst, frameRest⟩ := List.forall_mem_cons.mp frame
    rw [List.foldl_cons, ih ownRest frameRest]
    cases chosen : p a with
    | true => rw [ownFirst chosen, List.filter_cons_of_pos chosen, List.foldl_cons]
    | false => rw [frameFirst chosen, List.filter_cons_of_neg (by simp [chosen])]

end Interleave
