import Mathlib.Order.Monotone.Defs
import Mathlib.Tactic.Common

/-! Maps whose entries run out, and which forget the ones that have at any later moment. -/

namespace Lease
variable {κ V T : Type} (expired : V → T → Prop)

/-- `held` is `opened`, less some entries that have run out by `clock`. -/
def Trails (opened held : κ → Option V) (clock : T) : Prop :=
  ∀ k, held k = opened k ∨ held k = none ∧ ∃ v, opened k = some v ∧ expired v clock

/-- What was opened at `k`, if anything, has run out by `clock`. -/
def Past (opened : κ → Option V) (clock : T) (k : κ) : Prop := ∀ v, opened k = some v → expired v clock

variable {expired} {opened held : κ → Option V} {clock now : T}

/-- What is found to have run out is past. -/
theorem Trails.past (trails : Trails expired opened held clock) {k : κ} {v : V} (present : held k = some v)
    (ranOut : expired v now) : Past expired opened now k := by
  intro w stored
  rcases trails k with same | ⟨gone, _⟩
  · obtain rfl := Option.some.inj (present.symm.trans (same.trans stored))
    exact ranOut
  · cases gone.symm.trans present

/-- An entry that is opened or closed is so at once. -/
theorem Trails.set [DecidableEq κ] {opened' held' : κ → Option V} (trails : Trails expired opened held clock) (k : κ)
    (v : Option V) (openedAt : ∀ j, opened' j = if j = k then v else opened j)
    (heldAt : ∀ j, held' j = if j = k then v else held j) : Trails expired opened' held' clock := by
  intro j
  rw [openedAt, heldAt]
  by_cases here : j = k
  · exact Or.inl (by rw [if_pos here, if_pos here])
  · rw [if_neg here, if_neg here]
    exact trails j

/-- Only entries that have run out may be dropped. -/
theorem Trails.drop {held' : κ → Option V} (trails : Trails expired opened held clock) {ks : List κ}
    (past : ∀ k ∈ ks, Past expired opened clock k) (dropped : ∀ k ∈ ks, held' k = none)
    (kept : ∀ k, k ∉ ks → held' k = held k) : Trails expired opened held' clock := by
  intro k
  by_cases member : k ∈ ks
  · rw [dropped k member]
    cases present : opened k with
    | none => exact Or.inl rfl
    | some v => exact Or.inr ⟨rfl, v, rfl, past k member v present⟩
  · rw [kept k member]
    exact trails k

section
variable [Preorder T] (stays : ∀ v, Monotone (expired v))
include stays

theorem Past.later {k : κ} (past : Past expired opened clock k) (later : clock ≤ now) : Past expired opened now k :=
  fun v present => stays v later (past v present)

theorem Trails.later (trails : Trails expired opened held clock) (later : clock ≤ now) :
    Trails expired opened held now := by
  intro k
  refine (trails k).imp_right fun ⟨gone, v, present, past⟩ => ⟨gone, v, present, stays v later past⟩

/-- Who looks no earlier than the clock cannot tell whether a run-out entry was dropped. -/
theorem Trails.live_iff (trails : Trails expired opened held clock) (later : clock ≤ now) {k : κ} {v : V} :
    held k = some v ∧ ¬expired v now ↔ opened k = some v ∧ ¬expired v now := by
  rcases trails k with same | ⟨gone, w, present, past⟩
  · rw [same]
  · constructor
    · rintro ⟨there, _⟩
      cases gone.symm.trans there
    · rintro ⟨there, live⟩
      obtain rfl := Option.some.inj (present.symm.trans there)
      exact absurd (stays w later past) live

end

end Lease
