import Mathlib.Logic.Function.Basic
import Mathlib.Tactic.Common

/-- Records by name, each with members by id. -/
@[ext] structure Directory (N I S M : Type) where
  owner : N → Option S
  member : N → I → Option M

namespace Directory
variable {N I S M : Type}

def empty : Directory N I S M := ⟨fun _ => none, fun _ _ => none⟩

/-- No member is without its owner. -/
def Sound (d : Directory N I S M) : Prop := ∀ n i, (d.member n i).isSome → (d.owner n).isSome

variable [DecidableEq N]

def putOwner (d : Directory N I S M) (n : N) (s : S) : Directory N I S M :=
  { d with owner := Function.update d.owner n (some s) }

/-- An owner goes with its members. -/
def remove (d : Directory N I S M) (n : N) : Directory N I S M where
  owner := Function.update d.owner n none
  member := Function.update d.member n fun _ => none

def setMember [DecidableEq I] (d : Directory N I S M) (n : N) (i : I) (m : Option M) : Directory N I S M :=
  { d with member := Function.update d.member n (Function.update (d.member n) i m) }

def alter [DecidableEq I] (d : Directory N I S M) (n : N) (i : I) (f : M → M) : Directory N I S M :=
  d.setMember n i ((d.member n i).map f)

/-- An owner takes another name, and its members with it. -/
def move (d : Directory N I S M) (src dst : N) (f : S → S) (g : M → M) : Directory N I S M where
  owner := Function.update (Function.update d.owner dst ((d.owner src).map f)) src none
  member := Function.update (Function.update d.member dst fun i => (d.member src i).map g) src fun _ => none

/-- An owner and its members change in place. -/
def mapAt (d : Directory N I S M) (n : N) (f : S → S) (g : M → M) : Directory N I S M where
  owner := Function.update d.owner n ((d.owner n).map f)
  member := Function.update d.member n fun i => (d.member n i).map g

variable {d : Directory N I S M} {n src dst : N} {i : I} {f f' : S → S} {g g' : M → M}

theorem member_setMember [DecidableEq I] (n' : N) (i' : I) (m : Option M) :
    (d.setMember n i m).member n' i' = if n' = n ∧ i' = i then m else d.member n' i' := by
  simp only [setMember, Function.update_apply]
  by_cases name : n' = n
  · subst name
    by_cases id : i' = i
    · rw [if_pos rfl, if_pos ⟨rfl, id⟩, Function.update_apply, if_pos id]
    · rw [if_pos rfl, if_neg fun both => id both.2, Function.update_apply, if_neg id]
  · rw [if_neg name, if_neg fun both => name both.1]

theorem setMember_self [DecidableEq I] : d.setMember n i (d.member n i) = d := by
  rw [setMember, Function.update_eq_self, Function.update_eq_self]

/-- A move to a free name and back is a change in place. -/
theorem move_move (sound : d.Sound) (free : d.owner dst = none) (ne : src ≠ dst) :
    (d.move src dst f g).move dst src f' g' = d.mapAt src (f' ∘ f) (g' ∘ g) := by
  have vacant : d.member dst = fun _ => none := by
    funext i
    by_contra present
    have owned := sound dst i (Option.isSome_iff_ne_none.mpr present)
    rw [free] at owned
    cases owned
  refine Directory.ext (funext fun n => ?_) (funext fun n => ?_)
  · by_cases isDst : n = dst
    · simp only [move, mapAt, isDst, Function.update_self, Function.update_of_ne ne.symm, free]
    · by_cases isSrc : n = src
      · simp only [move, mapAt, isSrc, Function.update_self, Function.update_of_ne ne, Function.update_of_ne ne.symm,
          Option.map_map]
      · simp only [move, mapAt, Function.update_of_ne isDst, Function.update_of_ne isSrc]
  · by_cases isDst : n = dst
    · simp only [move, mapAt, isDst, Function.update_self, Function.update_of_ne ne.symm, vacant]
    · by_cases isSrc : n = src
      · simp only [move, mapAt, isSrc, Function.update_self, Function.update_of_ne ne, Function.update_of_ne ne.symm,
          Option.map_map]
      · simp only [move, mapAt, Function.update_of_ne isDst, Function.update_of_ne isSrc]

theorem mapAt_congr (owners : ∀ s, d.owner n = some s → f s = f' s)
    (members : ∀ i m, d.member n i = some m → g m = g' m) :
    d.mapAt n f g = d.mapAt n f' g' := by
  have owner : (d.owner n).map f = (d.owner n).map f' := Option.map_congr fun s present => owners s present
  have member (i : I) : (d.member n i).map g = (d.member n i).map g' :=
    Option.map_congr fun m present => members i m present
  simp only [Directory.mapAt, owner, member]

end Directory
