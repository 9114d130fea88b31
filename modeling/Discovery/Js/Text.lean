import Mathlib.Data.List.DropRight
import Mathlib.Data.List.Induction
import Mathlib.Data.List.TakeWhile
import Mathlib.Data.Nat.Notation
import Mathlib.Tactic.Common
import Mathlib.Tactic.IntervalCases

/-! Strings of JavaScript, and the decimal digits in them. -/

namespace Discovery
namespace Js

/-- The code units of a string. -/
abbrev JsString := List UInt16

/-- An ASCII text. -/
def ascii (s : String) : JsString := s.toList.map fun c => UInt16.ofNat c.toNat

/-- White space and line terminators. -/
def isSpace (c : UInt16) : Bool :=
  [0x09, 0x0A, 0x0B, 0x0C, 0x0D, 0x20, 0xA0, 0x1680, 0x2028, 0x2029, 0x202F, 0x205F, 0x3000, 0xFEFF].contains c ||
    (0x2000 ≤ c && c ≤ 0x200A)

/-- `String.prototype.trim`. -/
def trim (s : JsString) : JsString := ((s.dropWhile isSpace).reverse.dropWhile isSpace).reverse

def isDigit (c : UInt16) : Bool := 0x30 ≤ c && c ≤ 0x39

def Digits (s : JsString) : Prop := ∀ c ∈ s, isDigit c = true

def digitsValue (digits : JsString) : ℕ := digits.foldl (fun n c => n * 10 + (c.toNat - 0x30)) 0

def decimal (n : ℕ) : JsString := (Nat.toDigits 10 n).map fun c => UInt16.ofNat c.toNat

theorem decimal_eq (n : ℕ) : decimal n =
    if n < 10 then [UInt16.ofNat (0x30 + n)] else decimal (n / 10) ++ [UInt16.ofNat (0x30 + n % 10)] := by
  have unit {d : ℕ} (small : d < 10) : UInt16.ofNat d.digitChar.toNat = UInt16.ofNat (0x30 + d) := by
    interval_cases d <;> rfl
  rw [decimal, Nat.toDigits_eq_if (by decide)]
  split
  next small => rw [List.map_singleton, unit small]
  next =>
    rw [List.map_append, List.map_singleton, unit (Nat.mod_lt n (by decide))]
    rfl

theorem digitsValue_append_singleton (digits : JsString) (c : UInt16) :
    digitsValue (digits ++ [c]) = digitsValue digits * 10 + (c.toNat - 0x30) := by
  rw [digitsValue, List.foldl_append]
  rfl

theorem toNat_digit {d : ℕ} (small : d < 10) : (UInt16.ofNat (0x30 + d)).toNat = 0x30 + d := by
  interval_cases d <;> rfl

theorem isDigit_digit {d : ℕ} (small : d < 10) : isDigit (UInt16.ofNat (0x30 + d)) = true := by
  interval_cases d <;> rfl

theorem exists_digit {c : UInt16} (digit : isDigit c = true) : ∃ d < 10, c = UInt16.ofNat (0x30 + d) := by
  simp only [isDigit, Bool.and_eq_true, decide_eq_true_eq] at digit
  have lower : 0x30 ≤ c.toNat := UInt16.le_iff_toNat_le.mp digit.1
  have upper : c.toNat ≤ 0x39 := UInt16.le_iff_toNat_le.mp digit.2
  refine ⟨c.toNat - 0x30, by omega, ?_⟩
  rw [Nat.add_sub_cancel' lower, UInt16.ofNat_toNat]

@[simp] theorem digitsValue_decimal (n : ℕ) : digitsValue (decimal n) = n := by
  induction n using Nat.strong_induction_on with
  | _ n ih =>
    rw [decimal_eq]
    split
    next small =>
      rw [← List.nil_append [_], digitsValue_append_singleton, toNat_digit small]
      show 0 * 10 + (0x30 + n - 0x30) = n
      omega
    next large =>
      have last : n % 10 < 10 := Nat.mod_lt n (by decide)
      rw [digitsValue_append_singleton, ih (n / 10) (by omega), toNat_digit last]
      omega

theorem digits_decimal (n : ℕ) : Digits (decimal n) := by
  induction n using Nat.strong_induction_on with
  | _ n ih =>
    rw [decimal_eq]
    split
    next small => exact List.forall_mem_singleton.mpr (isDigit_digit small)
    next large =>
      exact List.forall_mem_append.mpr ⟨ih (n / 10) (by omega),
        List.forall_mem_singleton.mpr (isDigit_digit (Nat.mod_lt n (by decide)))⟩

/-- No leading zeros are written. -/
theorem exists_head_decimal {n : ℕ} (positive : 0 < n) : ∃ c s, decimal n = c :: s ∧ c ≠ 0x30 := by
  induction n using Nat.strong_induction_on with
  | _ n ih =>
    rw [decimal_eq]
    split
    next small =>
      refine ⟨_, [], rfl, fun zero => ?_⟩
      have value := toNat_digit small
      rw [zero] at value
      change 0x30 = 0x30 + n at value
      omega
    next large =>
      obtain ⟨c, s, first, nonzero⟩ := ih (n / 10) (by omega) (by omega)
      exact ⟨c, s ++ [_], by rw [first]; rfl, nonzero⟩

theorem decimal_ne_nil (n : ℕ) : decimal n ≠ [] := List.map_eq_nil_iff.not.mpr Nat.toDigits_ne_nil

/-- Digits without leading zeros are the decimal of their value. -/
theorem decimal_digitsValue {digits : JsString} (all : Digits digits)
    (leading : digits = [0x30] ∨ ∃ c s, digits = c :: s ∧ c ≠ 0x30) : decimal (digitsValue digits) = digits := by
  induction digits using List.reverseRecOn with
  | nil =>
    rcases leading with empty | ⟨_, _, empty, _⟩
    · cases empty
    · cases empty
  | append_singleton digits c ih =>
    obtain ⟨front, last⟩ := List.forall_mem_append.mp all
    obtain ⟨d, small, rfl⟩ := exists_digit (last c List.mem_cons_self)
    rw [digitsValue_append_singleton, toNat_digit small, Nat.add_sub_cancel_left, decimal_eq]
    cases digits with
    | nil =>
      rw [if_pos (by change 0 * 10 + d < 10; omega)]
      change [UInt16.ofNat (0x30 + (0 * 10 + d))] = _
      rw [Nat.zero_mul, Nat.zero_add]
      rfl
    | cons b digits =>
      have nonzero : b ≠ 0x30 := by
        rcases leading with one | ⟨_, _, same, nonzero⟩
        · cases digits <;> cases one
        · cases same
          exact nonzero
      have before := ih front (.inr ⟨b, digits, rfl, nonzero⟩)
      have large : 0 < digitsValue (b :: digits) := by
        refine Nat.pos_of_ne_zero fun zero => ?_
        rw [zero] at before
        cases before
        exact nonzero rfl
      rw [if_neg (by omega), show (digitsValue (b :: digits) * 10 + d) / 10 = digitsValue (b :: digits) by omega,
        show (digitsValue (b :: digits) * 10 + d) % 10 = d by omega, before]

/-- Digits are read up to what is not a digit. -/
theorem span_digits {digits rest : JsString} (all : Digits digits) (stop : ∀ c ∈ rest.head?, isDigit c = false) :
    (digits ++ rest).takeWhile isDigit = digits ∧ (digits ++ rest).dropWhile isDigit = rest := by
  rw [List.takeWhile_append_of_pos all, List.dropWhile_append_of_pos all]
  cases rest with
  | nil => exact ⟨List.append_nil digits, rfl⟩
  | cons c rest =>
    have other : isDigit c = false := stop c rfl
    rw [List.takeWhile_cons_of_neg (by simp [other]), List.dropWhile_cons_of_neg (by simp [other])]
    exact ⟨List.append_nil digits, rfl⟩

theorem trim_eq_self {s : JsString} (black : ∀ c ∈ s, isSpace c = false) : trim s = s := by
  have kept {s : JsString} (black : ∀ c ∈ s, isSpace c = false) : s.dropWhile isSpace = s := by
    cases s with
    | nil => rfl
    | cons c s => rw [List.dropWhile_cons_of_neg (by simp [black c List.mem_cons_self])]
  rw [trim, kept black, kept (fun c member => black c (List.mem_reverse.mp member)), List.reverse_reverse]

@[simp] theorem trim_trim (s : JsString) : trim (trim s) = trim s := by
  have front : (trim s).dropWhile isSpace = trim s := by
    obtain ⟨rest, split⟩ : trim s <+: s.dropWhile isSpace := List.rdropWhile_prefix isSpace _
    cases text : trim s with
    | nil => rfl
    | cons c t =>
      have black := List.head?_dropWhile_not isSpace s
      rw [← split, text, List.cons_append, List.head?_cons] at black
      exact List.dropWhile_cons_of_neg (by rw [black]; exact Bool.false_ne_true)
  have back : List.rdropWhile isSpace (trim s) = trim s := List.rdropWhile_idempotent isSpace _
  calc trim (trim s) = List.rdropWhile isSpace ((trim s).dropWhile isSpace) := rfl
    _ = trim s := by rw [front, back]

end Js
end Discovery
