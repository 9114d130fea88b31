import Discovery.LowerCase

namespace Discovery

/-- A permission level; each includes the ones before it. -/
inductive Role
  | none
  | read
  | write
  | admin
  deriving DecidableEq

namespace Role

def rank : Role → Nat
  | none => 0
  | read => 1
  | write => 2
  | admin => 3

instance : LE Role := ⟨fun r s => r.rank ≤ s.rank⟩
instance : LT Role := ⟨fun r s => r.rank < s.rank⟩
instance (r s : Role) : Decidable (r ≤ s) := inferInstanceAs (Decidable (r.rank ≤ s.rank))
instance (r s : Role) : Decidable (r < s) := inferInstanceAs (Decidable (r.rank < s.rank))

theorem le_def {r s : Role} : r ≤ s ↔ r.rank ≤ s.rank := Iff.rfl

theorem lt_def {r s : Role} : r < s ↔ r.rank < s.rank := Iff.rfl

theorem rank_le (r : Role) : r.rank ≤ 3 := by cases r <;> decide

theorem not_lt {r s : Role} : ¬r < s ↔ s ≤ r := by
  rw [lt_def, le_def]
  omega

theorem le_trans {r s t : Role} (first : r ≤ s) (second : s ≤ t) : r ≤ t := by
  rw [le_def] at first second ⊢
  omega

@[simp] theorem le_refl (r : Role) : r ≤ r := Nat.le_refl _

@[simp] theorem none_le (r : Role) : none ≤ r := Nat.zero_le _

theorem le_admin (r : Role) : r ≤ admin := r.rank_le

theorem admin_le_iff {r : Role} : admin ≤ r ↔ r = admin := by
  cases r <;> decide

def string : Role → GoString
  | read => "read"
  | write => "write"
  | admin => "admin"
  | none => "none"

/-- Parses a role name in any case; anything else is no role. -/
def ofGoString (s : GoString) : Role :=
  let word := toLower (trimSpace s)
  if word = "read" then read
  else if word = "write" then write
  else if word = "admin" then admin
  else none

end Role
end Discovery
