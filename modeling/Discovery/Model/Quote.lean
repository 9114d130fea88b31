import Discovery.LowerCase
import Discovery.Model.Marshal

namespace Discovery

/-- The runes of a string, each as the bytes that encode it, and each invalid byte on its own. The
counter runs over the bytes of the current rune still to skip. -/
def runesFrom : Nat → GoString → List GoString
  | _, [] => []
  | n + 1, _ :: s => runesFrom n s
  | 0, b :: s => (b :: s.take (runeWidth (b :: s) - 1)) :: runesFrom (runeWidth (b :: s) - 1) s

/-- The runes of a string, as a range loop goes through them. -/
def runes (s : GoString) : List GoString := runesFrom 0 s

/-- `strconv.IsPrint`; above ASCII it looks the rune up in a table. -/
def isPrint (table : Nat → Bool) (r : Nat) : Bool :=
  if r < 0x80 then 0x20 ≤ r && r < 0x7F else table r

/-- The lowest `digits` hexadecimal digits of a number. -/
def hexDigits : Nat → Nat → GoString
  | 0, _ => []
  | digits + 1, n => hexDigits digits (n / 16) ++ [hexChar (n % 16)]

/-- The escapes of the runes that are not printed as they are. -/
def escapeRune (c : GoString) : GoString :=
  if c = [0x07] then "\\a"
  else if c = [0x08] then "\\b"
  else if c = [0x0C] then "\\f"
  else if c = [0x0A] then "\\n"
  else if c = [0x0D] then "\\r"
  else if c = [0x09] then "\\t"
  else if c = [0x0B] then "\\v"
  else if runeValue c < 0x20 ∨ runeValue c = 0x7F then ofString "\\x" ++ hexDigits 2 (runeValue c)
  else if runeValue c < 0x10000 then ofString "\\u" ++ hexDigits 4 (runeValue c)
  else ofString "\\U" ++ hexDigits 8 (runeValue c)

/-- `appendEscapedRune`, and what `Quote` writes for an invalid byte. -/
def quoteRune (table : Nat → Bool) (c : GoString) : GoString :=
  if runeWidth c = 0 then ofString "\\x" ++ hexDigits 2 (runeValue c)
  else if c = [0x22] ∨ c = [0x5C] then 0x5C :: c
  else if isPrint table (runeValue c) then c
  else escapeRune c

/-- `strconv.Quote`. -/
def quote (table : Nat → Bool) (s : GoString) : GoString :=
  0x22 :: ((runes s).flatMap (quoteRune table) ++ [0x22])

theorem runesFrom_flatten (n : Nat) (s : GoString) : (runesFrom n s).flatten = s.drop n := by
  induction s generalizing n with
  | nil => cases n <;> rfl
  | cons b s ih =>
    cases n with
    | succ n => rw [runesFrom, ih, List.drop_succ_cons]
    | zero => rw [runesFrom, List.flatten_cons, ih, List.cons_append, List.take_append_drop, List.drop_zero]

/-- The runes together are the string. -/
theorem runes_flatten (s : GoString) : (runes s).flatten = s := runesFrom_flatten 0 s

/-- A rune is one ASCII byte, an invalid byte or a sequence of high bytes. -/
theorem rune_cases {n : Nat} {s c : GoString} (member : c ∈ runesFrom n s) :
    (∃ b, c = [b]) ∨ runeWidth c ≠ 0 ∧ ∀ b ∈ c, 0x80 ≤ b := by
  induction s generalizing n with
  | nil => cases n <;> cases member
  | cons b s ih =>
    cases n with
    | succ n => exact ih member
    | zero =>
      rcases List.mem_cons.mp member with rfl | later
      · cases width : runeWidth (b :: s) with
        | zero => exact Or.inl ⟨b, rfl⟩
        | succ w =>
          cases w with
          | zero => exact Or.inl ⟨b, rfl⟩
          | succ w =>
            right
            have lead := (runeWidth_pos width).1
            have same : runeWidth (b :: s.take (w + 1)) = runeWidth (b :: s) := by
              apply runeWidth_congr
              rw [lead, Nat.add_sub_cancel, List.take_take, Nat.min_self]
            refine ⟨?_, ?_⟩
            · rw [Nat.add_sub_cancel, same, width]
              omega
            · intro x member
              rcases List.mem_cons.mp member with rfl | later
              · exact high_of_leadWidth lead
              · exact continuation_of_runeWidth width x later
      · exact ih later

/-- A rune read on its own has the width it had in the string. -/
theorem runeWidth_head (b : UInt8) (s : GoString) :
    runeWidth (b :: s.take (runeWidth (b :: s) - 1)) = 0 ∨
      runeWidth (b :: s.take (runeWidth (b :: s) - 1)) = runeWidth (b :: s) ∧ runeWidth (b :: s) ≠ 0 := by
  cases width : runeWidth (b :: s) with
  | zero =>
    left
    by_contra valid
    obtain ⟨w, single⟩ := Nat.exists_eq_succ_of_ne_zero valid
    obtain ⟨lead, short⟩ := runeWidth_pos single
    have alone : w = 0 := by simpa using short
    have ascii := runeWidth_ascii (ascii_of_leadWidth (alone ▸ lead)) s
    omega
  | succ w =>
    right
    refine ⟨?_, Nat.succ_ne_zero w⟩
    rw [← width]
    apply runeWidth_congr
    rw [width, (runeWidth_pos width).1, Nat.add_sub_cancel, List.take_take, Nat.min_self]

theorem runeWidth_rune {n : Nat} {s c : GoString} (member : c ∈ runesFrom n s) (valid : runeWidth c ≠ 0) :
    runeWidth c = c.length := by
  induction s generalizing n with
  | nil => cases n <;> cases member
  | cons b s ih =>
    cases n with
    | succ n => exact ih member
    | zero =>
      rcases List.mem_cons.mp member with rfl | later
      · rcases runeWidth_head b s with broken | ⟨same, whole⟩
        · exact absurd broken valid
        · obtain ⟨w, width⟩ := Nat.exists_eq_succ_of_ne_zero whole
          have short := (runeWidth_pos width).2
          rw [same, width, List.length_cons, List.length_take]
          omega
      · exact ih later

/-- A valid rune is the only one of its bytes. -/
theorem runes_rune {c : GoString} (nonempty : c ≠ []) (width : runeWidth c = c.length) : runes c = [c] := by
  cases c with
  | nil => exact absurd rfl nonempty
  | cons b s =>
    have past (n : Nat) (t : GoString) (short : t.length ≤ n) : runesFrom n t = [] := by
      induction t generalizing n with
      | nil => cases n <;> rfl
      | cons x t ih =>
        cases n with
        | zero => cases short
        | succ n => exact ih n (Nat.le_of_succ_le_succ short)
    rw [runes, runesFrom, width, List.length_cons, Nat.add_sub_cancel, past _ _ (Nat.le_refl _), List.take_length]

theorem runesFrom_append {n : Nat} {s : GoString} (valid : ∀ c ∈ runesFrom n s, runeWidth c ≠ 0)
    (within : n ≤ s.length) (t : GoString) : runesFrom n (s ++ t) = runesFrom n s ++ runes t := by
  induction s generalizing n with
  | nil =>
    obtain rfl : n = 0 := Nat.le_zero.mp within
    rfl
  | cons b s ih =>
    cases n with
    | succ n => exact ih valid (Nat.le_of_succ_le_succ within)
    | zero =>
      have first := valid _ List.mem_cons_self
      have later := fun c member => valid c (List.mem_cons_of_mem _ member)
      rcases runeWidth_head b s with broken | ⟨same, whole⟩
      · exact absurd broken first
      · obtain ⟨w, width⟩ := Nat.exists_eq_succ_of_ne_zero whole
        obtain ⟨lead, short⟩ := runeWidth_pos width
        have longer : runeWidth (b :: (s ++ t)) = runeWidth (b :: s) := by
          apply runeWidth_congr
          rw [lead, Nat.succ_sub_one, List.take_append_of_le_length short]
        have rest := ih (n := runeWidth (b :: s) - 1) later (by omega)
        rw [List.cons_append, runesFrom, longer, rest, runesFrom, List.cons_append,
          List.take_append_of_le_length (by omega)]

/-- What follows a string of valid runes is split on its own. -/
theorem runes_append {s : GoString} (valid : ∀ c ∈ runes s, runeWidth c ≠ 0) (t : GoString) :
    runes (s ++ t) = runes s ++ runes t :=
  runesFrom_append valid (Nat.zero_le _) t

theorem runes_ascii {s : GoString} (ascii : ∀ b ∈ s, b < 0x80) : runes s = s.map fun b => [b] := by
  induction s with
  | nil => rfl
  | cons b s ih =>
    have width := runeWidth_ascii (ascii b List.mem_cons_self) s
    have rest := ih fun c member => ascii c (List.mem_cons_of_mem b member)
    rw [runes, runesFrom, width]
    exact congrArg ([b] :: ·) rest

end Discovery
