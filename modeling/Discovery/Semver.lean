import Discovery.Model.Config

namespace Discovery

/-- What the Masterminds library provides: parsing, `Check` and `Compare`. -/
structure Masterminds where
  Version : Type
  Constraints : Type
  newVersion : GoString → Option Version
  newConstraint : GoString → Option Constraints
  check : Constraints → Version → Bool
  compare : Version → Version → Ordering

namespace Semver
variable (mm : Masterminds)

def validConstraint (expr : GoString) : Bool :=
  if trimSpace expr = [] then false else (mm.newConstraint expr).isSome

/-- `Match`: a constraint that does not parse is an error, a version that does not never matches. -/
def satisfies (version constraint : GoString) : Option Bool :=
  match mm.newConstraint constraint with
  | none => none
  | some c =>
    match mm.newVersion version with
    | none => some false
    | some v => some (mm.check c v)

/-- Versions that do not parse come first. -/
def compare (a b : GoString) : Ordering :=
  match mm.newVersion a, mm.newVersion b with
  | none, none => .eq
  | none, some _ => .lt
  | some _, none => .gt
  | some va, some vb => mm.compare va vb

/-- The bytes of a version token. Every other rune separates, and those above ASCII have no byte
among these. -/
def isVersionByte (b : UInt8) : Bool :=
  b == 0x2E || b == 0x2B || b == 0x2D || (0x30 ≤ b && b ≤ 0x39) || (0x61 ≤ b && b ≤ 0x7A) || (0x41 ≤ b && b ≤ 0x5A)

/-- `strings.FieldsFunc`. -/
def fields (constraint : GoString) : List GoString :=
  (constraint.splitOnP (fun b => !isVersionByte b)).filter (fun t => !t.isEmpty)

/-- The lowest version token of a constraint, empty where nothing parses. -/
def floor (constraint : GoString) : GoString :=
  (fields constraint).foldl (fun best t =>
    if (mm.newVersion t).isNone then best
    else if best.isEmpty || compare mm t best == .lt then t
    else best) []

variable {mm}

instance [Std.TransCmp mm.compare] : Std.TransCmp (compare mm) where
  eq_swap := by
    intro a b
    unfold compare
    cases mm.newVersion a with
    | none => cases mm.newVersion b <;> rfl
    | some va =>
      cases mm.newVersion b with
      | none => rfl
      | some vb => exact Std.OrientedCmp.eq_swap
  isLE_trans := by
    intro a b c
    unfold compare
    cases mm.newVersion a with
    | none => cases mm.newVersion c <;> intros <;> rfl
    | some va =>
      cases mm.newVersion b with
      | none =>
        intro le
        cases le
      | some vb =>
        cases mm.newVersion c with
        | none => exact fun _ => id
        | some vc => exact Std.TransCmp.isLE_trans

theorem compare_swap [Std.TransCmp mm.compare] (a b : GoString) : compare mm a b = (compare mm b a).swap :=
  Std.OrientedCmp.eq_swap

theorem compare_trans [Std.TransCmp mm.compare] {a b c : GoString} (first : (compare mm a b).isLE)
    (second : (compare mm b c).isLE) : (compare mm a c).isLE :=
  Std.TransCmp.isLE_trans first second

end Semver
end Discovery
