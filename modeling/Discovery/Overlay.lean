import Mathlib.Data.List.Basic
import Mathlib.Data.Set.Basic
import Mathlib.Tactic.Common

/-! Layers that may or may not say something: the last one that does decides, and in a sorted list
it is the greatest. -/

namespace Overlay
variable {ι β : Type}

/-- What the last of the layers that say something says. -/
def last (f : ι → Option β) (layers : List ι) : Option β :=
  layers.reverse.findSome? f

theorem last_append (f : ι → Option β) (xs ys : List ι) : last f (xs ++ ys) = (last f ys).or (last f xs) := by
  rw [last, List.reverse_append, List.findSome?_append, last, last]

theorem last_cons (f : ι → Option β) (x : ι) (xs : List ι) : last f (x :: xs) = (last f xs).or (f x) := by
  rw [← List.singleton_append, last_append, last, last]
  simp

theorem exists_of_last {f : ι → Option β} {layers : List ι} {v : β} (decided : last f layers = some v) :
    ∃ x ∈ layers, f x = some v := by
  obtain ⟨x, listed, here⟩ := List.exists_of_findSome?_eq_some decided
  exact ⟨x, List.mem_reverse.mp listed, here⟩

theorem last_map {κ : Type} {f : ι → Option β} {g : κ → Option β} {h : ι → κ} {layers : List ι}
    (same : ∀ x ∈ layers, f x = g (h x)) : last f layers = last g (layers.map h) := by
  induction layers with
  | nil => rfl
  | cons x xs ih =>
    obtain ⟨first, rest⟩ := List.forall_mem_cons.mp same
    rw [List.map_cons, last_cons, last_cons, ih rest, first]

theorem map_last {γ : Type} (g : β → γ) (f : ι → Option β) (layers : List ι) :
    (last f layers).map g = last (fun x => (f x).map g) layers := by
  rw [last, last, List.map_findSome?]
  rfl

/-- A state read through `view` is what the layers say once each step lays one layer over it. -/
theorem read_foldl {σ γ : Type} {f : ι → Option β} {g : β → γ} {step : σ → ι → σ} (view : σ → Option γ)
    {layers : List ι} (lays : ∀ s, ∀ x ∈ layers, view (step s x) = ((f x).map g).or (view s)) (s : σ) :
    view (layers.foldl step s) = ((last f layers).map g).or (view s) := by
  induction layers generalizing s with
  | nil => rfl
  | cons x xs ih =>
    have rest := ih (fun s y member => lays s y (List.mem_cons_of_mem x member)) (step s x)
    rw [List.foldl_cons, rest, lays s x List.mem_cons_self, last_cons]
    cases last f xs <;> rfl

section Greatest
variable (cmp : ι → ι → Ordering)

/-- `x` lies in `S` and above everyone else there. -/
structure Greatest (S : Set ι) (x : ι) : Prop where
  mem : x ∈ S
  above : ∀ y ∈ S, y ≠ x → cmp y x = .lt

variable {cmp}

theorem Greatest.unique [Std.OrientedCmp cmp] {S : Set ι} {x y : ι} (left : Greatest cmp S x)
    (right : Greatest cmp S y) : x = y := by
  by_contra differs
  have less := right.above x left.mem differs
  have greater := left.above y right.mem (Ne.symm differs)
  have swapped : cmp x y = (cmp y x).swap := Std.OrientedCmp.eq_swap
  rw [less, greater] at swapped
  cases swapped

/-- In a sorted list in which only a layer itself compares equal to it, the layer that decides is the
greatest of those that say something. -/
theorem last_eq_some_iff [Std.OrientedCmp cmp] {f : ι → Option β} {layers : List ι}
    (sorted : layers.Pairwise fun x y => (cmp x y).isLE)
    (strict : ∀ x ∈ layers, ∀ y ∈ layers, cmp x y = .eq → x = y) {v : β} :
    last f layers = some v ↔ ∃ x, Greatest cmp {x | x ∈ layers ∧ (f x).isSome} x ∧ f x = some v := by
  have decides (v : β) (said : last f layers = some v) :
      ∃ x, Greatest cmp {x | x ∈ layers ∧ (f x).isSome} x ∧ f x = some v := by
    obtain ⟨post, x, pre, whole, here, silent⟩ := List.findSome?_eq_some_iff.mp said
    have whole : layers = pre.reverse ++ x :: post.reverse := by
      have back := congrArg List.reverse whole
      simpa using back
    have member : x ∈ layers := by simp [whole]
    refine ⟨x, ⟨⟨member, Option.isSome_iff_exists.mpr ⟨v, here⟩⟩, fun y inside differs => ?_⟩, here⟩
    obtain ⟨listed, speaks⟩ := inside
    -- a later layer says nothing, so `y` comes before `x`
    have earlier : y ∈ pre.reverse := by
      rw [whole, List.mem_append, List.mem_cons] at listed
      rcases listed with early | same | late
      · exact early
      · exact absurd same differs
      · rw [silent y (List.mem_reverse.mp late)] at speaks
        cases speaks
    rw [whole, List.pairwise_append] at sorted
    have le := sorted.2.2 y earlier x List.mem_cons_self
    cases order : cmp y x with
    | lt => rfl
    | eq => exact absurd (strict y listed x member order) differs
    | gt =>
      rw [order] at le
      cases le
  constructor
  · exact decides v
  · rintro ⟨x, greatest, here⟩
    obtain ⟨w, said⟩ : ∃ w, last f layers = some w := by
      rw [← Option.isSome_iff_exists, last, List.findSome?_isSome_iff]
      exact ⟨x, List.mem_reverse.mpr greatest.mem.1, greatest.mem.2⟩
    obtain ⟨y, greatest', here'⟩ := decides w said
    obtain rfl := greatest.unique greatest'
    rw [said, ← here', here]

/-- Layers that say nothing may come and go. -/
theorem last_eq_of_speakers [Std.OrientedCmp cmp] {f : ι → Option β} {xs ys : List ι}
    (sorted : xs.Pairwise fun x y => (cmp x y).isLE) (sorted' : ys.Pairwise fun x y => (cmp x y).isLE)
    (strict : ∀ x ∈ xs, ∀ y ∈ xs, cmp x y = .eq → x = y) (strict' : ∀ x ∈ ys, ∀ y ∈ ys, cmp x y = .eq → x = y)
    (speakers : ∀ x, (f x).isSome → (x ∈ xs ↔ x ∈ ys)) : last f xs = last f ys := by
  have same : {x | x ∈ xs ∧ (f x).isSome} = {x | x ∈ ys ∧ (f x).isSome} := by
    ext x
    exact and_congr_left (speakers x)
  ext v
  rw [last_eq_some_iff sorted strict, last_eq_some_iff sorted' strict', same]

end Greatest

/-- Whether anyone decides. -/
theorem last_isSome_iff {f : ι → Option β} {layers : List ι} :
    (last f layers).isSome ↔ ∃ x ∈ layers, (f x).isSome := by
  rw [last, List.findSome?_isSome_iff]
  simp only [List.mem_reverse]

end Overlay
