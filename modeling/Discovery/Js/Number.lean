import Discovery.FloatRounding
import Discovery.Js.Text

namespace Discovery
namespace Js

/-- A value of the type Number, with one zero: nothing here tells the two zeros apart. -/
inductive Number
  | finite (value : ℚ)
  | infinity (negative : Bool)
  | nan
  deriving DecidableEq

/-- Numbers from here on are infinite. -/
def limit : ℚ := 2 ^ 1024

/-- The number value for a rational. -/
def ofRat (q : ℚ) : Number :=
  let value := FloatRounding.round 53 (-1074) q
  if limit ≤ value then .infinity false
  else if value ≤ -limit then .infinity true
  else .finite value

/-- The significand of a positive number in units of `10 ^ e`. -/
def scaled (a : ℚ) (e : ℤ) : ℤ :=
  let nearest := FloatRounding.roundEven (a / 10 ^ e)
  if ofRat (nearest * 10 ^ e) = .finite a then nearest
  -- at a power of two more numbers above it are read as it than below
  else if nearest * 10 ^ e ≤ a then nearest + 1
  else nearest - 1

/-- The largest power of ten whose multiple is read back as the number. It has the fewest digits. -/
def shortest (a : ℚ) : ℤ :=
  let most := Int.log 10 a + 1
  let exponents := (List.range (most + 1074).toNat).map fun i : ℕ => most - i
  (exponents.find? fun e => ofRat (scaled a e * 10 ^ e) = .finite a).getD (-1074)

/-- The digits around the point of a decimal, and its exponent. -/
structure Decimal where
  int : JsString
  frac : JsString
  exp : ℤ

def exponentText (exp : ℤ) : JsString :=
  if exp = 0 then [] else 0x65 :: (if 0 < exp then 0x2B else 0x2D) :: decimal exp.natAbs

def Decimal.text (d : Decimal) : JsString :=
  d.int ++ (if d.frac = [] then [] else 0x2E :: d.frac) ++ exponentText d.exp

def zeros (n : ℤ) : JsString := List.replicate n.toNat 0x30

/-- How `s * 10 ^ e` is written. -/
def numeral (s : ℕ) (e : ℤ) : Decimal :=
  let digits := decimal s
  let n := digits.length + e
  if 0 ≤ e ∧ n ≤ 21 then ⟨digits ++ zeros e, [], 0⟩
  else if 0 < n ∧ n ≤ 21 then ⟨digits.take n.toNat, digits.drop n.toNat, 0⟩
  else if -6 < n ∧ n ≤ 0 then ⟨ascii "0", zeros (-n) ++ digits, 0⟩
  else ⟨digits.take 1, digits.drop 1, n - 1⟩

def positiveText (a : ℚ) : JsString := (numeral (scaled a (shortest a)).toNat (shortest a)).text

/-- `Number::toString`, of which `String(n)` and `JSON.stringify` make use. -/
def Number.toString : Number → JsString
  | .nan => ascii "NaN"
  | .infinity negative => if negative then ascii "-Infinity" else ascii "Infinity"
  | .finite x =>
    if x = 0 then ascii "0"
    else if x < 0 then 0x2D :: positiveText (-x)
    else positiveText x

def readSign : JsString → Bool × JsString
  | [] => (false, [])
  | c :: s => if c = 0x2D then (true, s) else if c = 0x2B then (false, s) else (false, c :: s)

def applySign (negative : Bool) (q : ℚ) : ℚ := if negative then -q else q

/-- The exponent in front, if there is one, and what follows it. -/
def readExponent : JsString → Option (ℤ × JsString)
  | [] => some (0, [])
  | c :: s =>
    if c = 0x65 ∨ c = 0x45 then
      let (negative, rest) := readSign s
      let digits := rest.takeWhile isDigit
      if digits = [] then none
      else some (if negative then -digitsValue digits else digitsValue digits, rest.dropWhile isDigit)
    else some (0, c :: s)

/-- The digits behind a point in front, and what follows them. -/
def readFraction : JsString → Option JsString × JsString
  | [] => (none, [])
  | c :: s => if c = 0x2E then (some (s.takeWhile isDigit), s.dropWhile isDigit) else (none, c :: s)

/-- The digits in front of the point and behind it, and the exponent. -/
def readDecimal (s : JsString) : Option ((JsString × Option JsString × ℤ) × JsString) :=
  let (frac, rest) := readFraction (s.dropWhile isDigit)
  (readExponent rest).map fun (exp, rest) => ((s.takeWhile isDigit, frac, exp), rest)

def decimalValue (int frac : JsString) (exp : ℤ) : ℚ := digitsValue (int ++ frac) * 10 ^ (exp - frac.length)

def radixOf (mark : UInt16) : Option ℕ :=
  if mark = 0x78 ∨ mark = 0x58 then some 16
  else if mark = 0x6F ∨ mark = 0x4F then some 8
  else if mark = 0x62 ∨ mark = 0x42 then some 2
  else none

def digitOf (radix : ℕ) (c : UInt16) : Option ℕ :=
  let d := if isDigit c then c.toNat - 0x30
    else if 0x61 ≤ c ∧ c ≤ 0x66 then c.toNat - 0x57
    else if 0x41 ≤ c ∧ c ≤ 0x46 then c.toNat - 0x37
    else radix
  if d < radix then some d else none

/-- The value of an integer literal in another radix. -/
def readRadix : JsString → Option ℕ
  | zero :: mark :: digits =>
    if zero = 0x30 ∧ digits ≠ [] then do
      let radix ← radixOf mark
      let digits ← digits.mapM (digitOf radix)
      some (digits.foldl (fun n d => n * radix + d) 0)
    else none
  | _ => none

/-- `Number(s)`. -/
def stringToNumber (s : JsString) : Number :=
  let text := trim s
  if text = [] then .finite 0
  else match readRadix text with
  | some n => ofRat n
  | none =>
    let (negative, unsigned) := readSign text
    if unsigned = ascii "Infinity" then .infinity negative
    else match readDecimal unsigned with
    | some ((int, frac, exp), []) =>
      if int = [] ∧ frac.getD [] = [] then .nan
      else ofRat (applySign negative (decimalValue int (frac.getD []) exp))
    | _ => .nan

/-- `parseInt(s, 10)`. -/
def parseInt (s : JsString) : Number :=
  let (negative, unsigned) := readSign (s.dropWhile isSpace)
  let digits := unsigned.takeWhile isDigit
  if digits = [] then .nan else ofRat (applySign negative (digitsValue digits))

/-- A rational number is read as the nearest value, unless that is too large for the format. -/
theorem ofRat_eq_finite {q x : ℚ} : ofRat q = .finite x ↔
    FloatRounding.round 53 (-1074) q = x ∧ x < limit ∧ -limit < x := by
  rw [ofRat]
  split
  next large =>
    constructor
    · intro same
      cases same
    · rintro ⟨rfl, below, _⟩
      exact absurd large below.not_ge
  split
  next _ small =>
    constructor
    · intro same
      cases same
    · rintro ⟨rfl, _, above⟩
      exact absurd small above.not_ge
  next notLarge notSmall =>
    constructor
    · intro same
      cases same
      exact ⟨rfl, not_le.mp notLarge, not_le.mp notSmall⟩
    · rintro ⟨rfl, _, _⟩
      rfl

/-- A number value is its own number value. -/
theorem ofRat_idem {q x : ℚ} (value : ofRat q = .finite x) : ofRat x = .finite x := by
  obtain ⟨rounded, below, above⟩ := ofRat_eq_finite.mp value
  refine ofRat_eq_finite.mpr ⟨?_, below, above⟩
  rw [← rounded]
  exact FloatRounding.round_round (by decide) q

theorem ofRat_neg {q x : ℚ} : ofRat (-q) = .finite (-x) ↔ ofRat q = .finite x := by
  rw [ofRat_eq_finite, ofRat_eq_finite, FloatRounding.round_neg, neg_inj]
  constructor
  · rintro ⟨rounded, below, above⟩
    exact ⟨rounded, by linarith, by linarith⟩
  · rintro ⟨rounded, below, above⟩
    exact ⟨rounded, by linarith, by linarith⟩

/-- In tenths of a large enough power every value is whole, so its exact digits are among those that are tried. -/
theorem tenth_powers (m : ℤ) (n k : ℕ) :
    (m * 2 ^ (-n + k : ℤ) / 10 ^ (-n : ℤ) : ℚ) = ((m * 2 ^ k * 5 ^ n : ℤ) : ℚ) := by
  have ten : (10 : ℚ) ^ n = 2 ^ n * 5 ^ n := by rw [← mul_pow]; norm_num
  have two : (2 : ℚ) ^ n ≠ 0 := pow_ne_zero n (by norm_num)
  rw [zpow_add₀ (by norm_num), zpow_neg, zpow_neg, zpow_natCast, zpow_natCast, zpow_natCast, ten]
  push_cast
  field_simp

/-- At the least exponent a number value is written in full. -/
theorem scaled_least {a : ℚ} (value : ofRat a = .finite a) : scaled a (-1074) * 10 ^ (-1074 : ℤ) = a := by
  obtain ⟨rounded, _⟩ := ofRat_eq_finite.mp value
  obtain ⟨m, e, _, lower, form⟩ := FloatRounding.representable_round 53 (-1074) a
  rw [rounded] at form
  obtain ⟨k, rfl⟩ := Int.le.dest lower
  have whole := tenth_powers m 1074 k
  have positive : (10 : ℚ) ^ (-1074 : ℤ) ≠ 0 := zpow_ne_zero _ (by norm_num)
  rw [Nat.cast_ofNat, ← form] at whole
  have exact : (FloatRounding.roundEven (a / 10 ^ (-1074 : ℤ)) * 10 ^ (-1074 : ℤ) : ℚ) = a := by
    rw [whole, FloatRounding.roundEven_intCast, ← whole]
    exact div_mul_cancel₀ a positive
  rw [scaled]
  rw [exact, if_pos value, exact]

/-- The decimal that is written is read as the number. -/
theorem ofRat_scaled {a : ℚ} (value : ofRat a = .finite a) :
    ofRat (scaled a (shortest a) * 10 ^ shortest a) = .finite a := by
  rcases found : (((List.range (Int.log 10 a + 1 + 1074).toNat).map fun i : ℕ => Int.log 10 a + 1 - i).find? fun e =>
    ofRat (scaled a e * 10 ^ e) = .finite a) with _ | e
  · rw [shortest, found, Option.getD_none, scaled_least value]
    exact value
  · rw [shortest, found]
    have read := List.find?_some found
    exact of_decide_eq_true read

/-- Integers up to 2^53 are values themselves. -/
theorem round_intCast {w : ℤ} (small : |w| ≤ 2 ^ 53) : FloatRounding.round 53 (-1074) w = w :=
  FloatRounding.round_eq_self (by decide) ⟨w, 0, small, by decide, by rw [zpow_zero, mul_one]⟩

/-- Integers of at most 53 bits are number values. -/
theorem ofRat_natCast {n : ℕ} (small : n ≤ 2 ^ 53) : ofRat n = .finite n := by
  have below : (n : ℚ) < limit := by
    have bound : (n : ℚ) ≤ 2 ^ 53 := by exact_mod_cast small
    exact bound.trans_lt (pow_lt_pow_right₀ (by norm_num) (by norm_num))
  have above : -limit < (n : ℚ) := (neg_lt_zero.mpr (pow_pos (by norm_num) 1024)).trans_le (Nat.cast_nonneg n)
  have rounded := round_intCast (w := n) (by rw [Nat.abs_cast]; exact_mod_cast small)
  exact ofRat_eq_finite.mpr ⟨by exact_mod_cast rounded, below, above⟩

theorem ofRat_zero : ofRat 0 = .finite 0 := ofRat_natCast (n := 0) (by decide)

structure Decimal.WellFormed (d : Decimal) : Prop where
  digits : Digits d.int
  leading : d.int = [0x30] ∨ ∃ c s, d.int = c :: s ∧ c ≠ 0x30
  fraction : Digits d.frac

def Decimal.value (d : Decimal) : ℚ := decimalValue d.int d.frac d.exp

theorem digits_zeros (n : ℤ) : Digits (zeros n) := fun c member => by
  rw [List.eq_of_mem_replicate member]
  rfl

theorem digitsValue_append (digits : JsString) (n : ℕ) :
    digitsValue (digits ++ List.replicate n 0x30) = digitsValue digits * 10 ^ n := by
  induction n with
  | zero => rw [List.replicate_zero, List.append_nil, pow_zero, mul_one]
  | succ n ih =>
    rw [List.replicate_succ', ← List.append_assoc, digitsValue_append_singleton, ih, pow_succ, mul_assoc]
    rfl

theorem digitsValue_zeros (n : ℕ) (digits : JsString) :
    digitsValue (List.replicate n 0x30 ++ digits) = digitsValue digits := by
  induction n with
  | zero => rfl
  | succ n ih => exact ih

/-- The text of a number, before its sign, is a decimal literal. -/
theorem numeral_wellFormed {s : ℕ} (positive : 0 < s) (e : ℤ) : (numeral s e).WellFormed := by
  obtain ⟨c, t, first, nonzero⟩ := exists_head_decimal positive
  have digits := digits_decimal s
  unfold numeral
  dsimp only
  split
  next => exact ⟨List.forall_mem_append.mpr ⟨digits, digits_zeros e⟩, .inr ⟨c, _, by rw [first]; rfl, nonzero⟩,
      fun c member => absurd member List.not_mem_nil⟩
  split
  next point =>
    obtain ⟨n, whole⟩ := Int.eq_succ_of_zero_lt point.1
    refine ⟨fun d member => digits d (List.mem_of_mem_take member), .inr ⟨c, t.take n, ?_, nonzero⟩,
      fun d member => digits d (List.mem_of_mem_drop member)⟩
    rw [whole, first]
    rfl
  split
  next => exact ⟨List.forall_mem_singleton.mpr rfl, .inl rfl, List.forall_mem_append.mpr ⟨digits_zeros _, digits⟩⟩
  next => exact ⟨fun d member => digits d (List.mem_of_mem_take member), .inr ⟨c, [], by rw [first]; rfl, nonzero⟩,
      fun d member => digits d (List.mem_of_mem_drop member)⟩

/-- However it is written, the value is the same. -/
theorem numeral_value (s : ℕ) (e : ℤ) : (numeral s e).value = s * 10 ^ e := by
  have ten : (10 : ℚ) ≠ 0 := by norm_num
  have length : 0 < (decimal s).length := by
    rw [decimal, List.length_map]
    exact Nat.length_toDigits_pos
  unfold numeral
  dsimp only
  split
  next whole =>
    obtain ⟨n, rfl⟩ := Int.eq_ofNat_of_zero_le whole.1
    rw [Decimal.value, decimalValue, List.append_nil, zeros, Int.toNat_natCast, digitsValue_append,
      digitsValue_decimal, zpow_natCast]
    push_cast
    rw [List.length_nil, Nat.cast_zero, sub_zero, zpow_zero, mul_one]
  split
  next point =>
    rw [Decimal.value, decimalValue, List.take_append_drop, digitsValue_decimal, List.length_drop]
    dsimp only
    congr 2
    omega
  split
  next small =>
    have digits : digitsValue (ascii "0" ++ (zeros (-((decimal s).length + e)) ++ decimal s)) = s :=
      (digitsValue_zeros ((-((decimal s).length + e)).toNat + 1) (decimal s)).trans (digitsValue_decimal s)
    rw [Decimal.value, decimalValue, digits, List.length_append, zeros, List.length_replicate]
    dsimp only
    congr 2
    omega
  next =>
    rw [Decimal.value, decimalValue, List.take_append_drop, digitsValue_decimal, List.length_drop]
    dsimp only
    congr 2
    omega

/-- A text does not go on with what could belong to a number in front of it. -/
def Stops (rest : JsString) : Prop := ∀ c ∈ rest.head?, isDigit c = false ∧ c ≠ 0x2E ∧ c ≠ 0x65 ∧ c ≠ 0x45

theorem stops_nil : Stops [] := fun _ member => by cases member

/-- The exponent of a literal is read as the one it was written for, where the literal ends. -/
theorem readExponent_text {rest : JsString} (stops : Stops rest) (exp : ℤ) :
    readExponent (exponentText exp ++ rest) = some (exp, rest) := by
  have digits := span_digits (digits_decimal exp.natAbs) fun c member => (stops c member).1
  have written : decimal exp.natAbs ≠ [] := by
    rw [decimal]
    exact List.map_eq_nil_iff.not.mpr Nat.toDigits_ne_nil
  rw [exponentText]
  split
  next zero =>
    cases rest with
    | nil => rw [zero]; rfl
    | cons c rest =>
      obtain ⟨_, _, small, large⟩ := stops c rfl
      rw [zero, List.nil_append, readExponent, if_neg (by simp [small, large])]
  next nonzero =>
    have sign : readSign ((if 0 < exp then 0x2B else 0x2D) :: (decimal exp.natAbs ++ rest)) =
        (decide (exp < 0), decimal exp.natAbs ++ rest) := by
      by_cases positive : 0 < exp
      · rw [if_pos positive, decide_eq_false (by omega)]
        rfl
      · rw [if_neg positive, decide_eq_true (by omega)]
        rfl
    rw [List.cons_append, List.cons_append, readExponent, if_pos (.inl rfl), sign]
    dsimp only
    rw [digits.1, digits.2, if_neg written, digitsValue_decimal]
    congr 2
    simp only [decide_eq_true_eq]
    split <;> omega

theorem stops_exponent {rest : JsString} (stops : Stops rest) (exp : ℤ) :
    ∀ c ∈ (exponentText exp ++ rest).head?, isDigit c = false ∧ c ≠ 0x2E := by
  rw [exponentText]
  split
  next => exact fun c member => ⟨(stops c member).1, (stops c member).2.1⟩
  next =>
    intro c member
    cases member
    exact ⟨rfl, by decide⟩

/-- The three parts of a literal are read back as they were put together. -/
theorem readDecimal_text {d : Decimal} (wellFormed : d.WellFormed) {rest : JsString} (stops : Stops rest) :
    readDecimal (d.text ++ rest) = some ((d.int, if d.frac = [] then none else some d.frac, d.exp), rest) := by
  have exponent := stops_exponent stops d.exp
  rw [Decimal.text, List.append_assoc, List.append_assoc]
  by_cases whole : d.frac = []
  · obtain ⟨taken, dropped⟩ := span_digits wellFormed.digits fun c member => (exponent c member).1
    have point : readFraction (exponentText d.exp ++ rest) = (none, exponentText d.exp ++ rest) := by
      cases tail : exponentText d.exp ++ rest with
      | nil => rfl
      | cons c s =>
        rw [tail] at exponent
        rw [readFraction, if_neg (exponent c rfl).2]
    rw [if_pos whole, if_pos whole, List.nil_append, readDecimal, taken, dropped, point]
    dsimp only
    rw [readExponent_text stops]
    rfl
  · have point : ∀ c ∈ (0x2E :: (d.frac ++ (exponentText d.exp ++ rest))).head?, isDigit c = false :=
      fun c member => by cases member; rfl
    obtain ⟨taken, dropped⟩ := span_digits wellFormed.digits point
    obtain ⟨fraction, behind⟩ := span_digits wellFormed.fraction fun c member => (exponent c member).1
    rw [if_neg whole, if_neg whole, List.cons_append, readDecimal, taken, dropped, readFraction, if_pos rfl, fraction,
      behind]
    dsimp only
    rw [readExponent_text stops]
    rfl

/-- The decimal that is written for a positive number. -/
def magnitude (a : ℚ) : ℚ := scaled a (shortest a) * 10 ^ shortest a

/-- The decimal that is written for a number. -/
def written (x : ℚ) : ℚ := if x = 0 then 0 else if x < 0 then -magnitude (-x) else magnitude x

/-- What the text of a value says is rounded to that value: the digits are chosen so that reading finds it. -/
theorem ofRat_written {x : ℚ} (value : ofRat x = .finite x) : ofRat (written x) = .finite x := by
  rw [written]
  split
  next zero => rw [← zero, value]
  split
  next => exact ofRat_neg.mp (by rw [neg_neg]; exact ofRat_scaled (ofRat_neg.mpr value))
  next => exact ofRat_scaled value

theorem scaled_nonneg {a : ℚ} (positive : 0 < a) (e : ℤ) : 0 ≤ scaled a e := by
  have nearest : 0 ≤ FloatRounding.roundEven (a / 10 ^ e) :=
    FloatRounding.le_roundEven (div_nonneg positive.le (zpow_nonneg (by norm_num) _))
  rw [scaled]
  split
  next => exact nearest
  split
  next => omega
  next above =>
    have nonzero : FloatRounding.roundEven (a / 10 ^ e) ≠ 0 := by
      intro zero
      rw [zero, Int.cast_zero, zero_mul] at above
      exact above positive.le
    omega

/-- A positive value has a digit that is not zero. -/
theorem scaled_pos {a : ℚ} (positive : 0 < a) (value : ofRat a = .finite a) : 0 < scaled a (shortest a) := by
  have read := ofRat_scaled value
  have nonneg := scaled_nonneg positive (shortest a)
  refine lt_of_le_of_ne nonneg fun zero => ?_
  rw [← zero, Int.cast_zero, zero_mul, ofRat_zero] at read
  exact positive.ne (Number.finite.inj read)

/-- The decimal that stands in the text of a positive number. -/
theorem exists_positiveText {a : ℚ} (positive : 0 < a) (value : ofRat a = .finite a) :
    ∃ d : Decimal, d.WellFormed ∧ d.value = magnitude a ∧ positiveText a = d.text := by
  have units := scaled_pos positive value
  refine ⟨_, numeral_wellFormed (Int.pos_iff_toNat_pos.mp units) (shortest a), ?_, rfl⟩
  rw [numeral_value, magnitude]
  congr 1
  exact_mod_cast Int.toNat_of_nonneg units.le

/-- A character of a number's text. -/
def IsNumberChar (c : UInt16) : Prop := isDigit c = true ∨ c = 0x2E ∨ c = 0x65 ∨ c = 0x2B ∨ c = 0x2D

theorem isNumberChar_decimal {d : Decimal} (wellFormed : d.WellFormed) : ∀ c ∈ d.text, IsNumberChar c := by
  rw [Decimal.text, List.forall_mem_append, List.forall_mem_append]
  refine ⟨⟨fun c member => .inl (wellFormed.digits c member), ?_⟩, ?_⟩
  · split
    next => exact fun c member => absurd member List.not_mem_nil
    next => exact List.forall_mem_cons.mpr ⟨.inr (.inl rfl), fun c member => .inl (wellFormed.fraction c member)⟩
  · rw [exponentText]
    split
    next => exact fun c member => absurd member List.not_mem_nil
    next =>
      refine List.forall_mem_cons.mpr ⟨.inr (.inr (.inl rfl)), List.forall_mem_cons.mpr ⟨?_, fun c member =>
        .inl (digits_decimal _ c member)⟩⟩
      split
      next => exact .inr (.inr (.inr (.inl rfl)))
      next => exact .inr (.inr (.inr (.inr rfl)))

theorem Decimal.WellFormed.exists_head {d : Decimal} (wellFormed : d.WellFormed) :
    ∃ c s, d.text = c :: s ∧ isDigit c = true := by
  obtain ⟨digits, int | ⟨c, s, int, _⟩, _⟩ := wellFormed
  · exact ⟨0x30, _, by rw [text, int]; rfl, rfl⟩
  · exact ⟨c, _, by rw [text, int]; rfl, digits c (int ▸ List.mem_cons_self)⟩

theorem IsNumberChar.not_space {c : UInt16} (char : IsNumberChar c) : isSpace c = false := by
  rcases char with digit | rfl | rfl | rfl | rfl
  · obtain ⟨d, small, rfl⟩ := exists_digit digit
    interval_cases d <;> rfl
  · rfl
  · rfl
  · rfl
  · rfl

/-- No literal of the writer is taken for a hexadecimal, octal or binary one. -/
theorem IsNumberChar.radixOf_eq {c : UInt16} (char : IsNumberChar c) : radixOf c = none := by
  rcases char with digit | rfl | rfl | rfl | rfl
  · obtain ⟨d, small, rfl⟩ := exists_digit digit
    interval_cases d <;> rfl
  · rfl
  · rfl
  · rfl
  · rfl

theorem readRadix_eq_none {s : JsString} (chars : ∀ c ∈ s, IsNumberChar c) : readRadix s = none := by
  rcases s with _ | ⟨zero, _ | ⟨mark, digits⟩⟩
  · rfl
  · rfl
  · rw [readRadix]
    split
    next =>
      rw [(chars mark (List.mem_cons_of_mem _ List.mem_cons_self)).radixOf_eq]
      rfl
    next => rfl

theorem readSign_digit {c : UInt16} (digit : isDigit c = true) (s : JsString) : readSign (c :: s) = (false, c :: s) := by
  have minus : c ≠ 0x2D := by rintro rfl; cases digit
  have plus : c ≠ 0x2B := by rintro rfl; cases digit
  rw [readSign, if_neg minus, if_neg plus]

/-- Signed literals are converted as the number they denote, rounded once. -/
theorem stringToNumber_decimal {d : Decimal} (wellFormed : d.WellFormed) (negative : Bool) :
    stringToNumber ((if negative then [0x2D] else []) ++ d.text) = ofRat (applySign negative d.value) := by
  obtain ⟨c, s, head, digit⟩ := wellFormed.exists_head
  have chars : ∀ c ∈ (if negative then [0x2D] else []) ++ d.text, IsNumberChar c := by
    refine List.forall_mem_append.mpr ⟨?_, isNumberChar_decimal wellFormed⟩
    split
    next => exact List.forall_mem_singleton.mpr (.inr (.inr (.inr (.inr rfl))))
    next => exact fun c member => absurd member List.not_mem_nil
  have sign : readSign ((if negative then [0x2D] else []) ++ d.text) = (negative, d.text) := by
    cases negative with
    | true => rfl
    | false =>
      rw [if_neg (by decide), List.nil_append, head]
      exact readSign_digit digit s
  have nonempty : (if negative then [0x2D] else []) ++ d.text ≠ [] := by
    rw [head]
    exact List.append_ne_nil_of_right_ne_nil _ (List.cons_ne_nil c s)
  have number : d.text ≠ ascii "Infinity" := by
    rw [head]
    intro same
    rw [(List.cons.inj same).1] at digit
    cases digit
  have int : d.int ≠ [] := by
    rcases wellFormed.leading with int | ⟨_, _, int, _⟩
    · rw [int]
      exact List.cons_ne_nil _ _
    · rw [int]
      exact List.cons_ne_nil _ _
  have read := readDecimal_text wellFormed stops_nil
  rw [List.append_nil] at read
  have fraction : (if d.frac = [] then none else some d.frac).getD [] = d.frac := by
    split
    next whole => exact whole.symm
    next => rfl
  rw [stringToNumber, trim_eq_self fun c member => (chars c member).not_space]
  dsimp only
  rw [if_neg nonempty, readRadix_eq_none chars]
  dsimp only
  rw [sign]
  dsimp only
  rw [if_neg number, read]
  dsimp only
  rw [if_neg (fun empty => int empty.1), fraction, Decimal.value]

/-- The decimal in the text of a number. -/
theorem exists_toString {x : ℚ} (value : ofRat x = .finite x) :
    ∃ d : Decimal, d.WellFormed ∧ applySign (x < 0) d.value = written x ∧
      Number.toString (.finite x) = (if decide (x < 0) then [0x2D] else []) ++ d.text := by
  by_cases zero : x = 0
  · refine ⟨⟨[0x30], [], 0⟩, ⟨List.forall_mem_singleton.mpr rfl, .inl rfl,
      fun c member => absurd member List.not_mem_nil⟩, ?_, ?_⟩
    · have magnitude : Decimal.value ⟨[0x30], [], 0⟩ = 0 := zero_mul _
      rw [written, if_pos zero, magnitude, zero]
      rfl
    · rw [zero]
      rfl
  rw [written, if_neg zero, Number.toString, if_neg zero]
  by_cases negative : x < 0
  · obtain ⟨d, wellFormed, same, text⟩ := exists_positiveText (neg_pos.mpr negative) (ofRat_neg.mpr value)
    refine ⟨d, wellFormed, ?_, ?_⟩
    · rw [decide_eq_true negative, if_pos negative, same]
      rfl
    · rw [decide_eq_true negative, if_pos negative, text]
      rfl
  · obtain ⟨d, wellFormed, same, text⟩ := exists_positiveText (lt_of_le_of_ne (not_lt.mp negative) (Ne.symm zero)) value
    refine ⟨d, wellFormed, ?_, ?_⟩
    · rw [decide_eq_false negative, if_neg negative, same]
      rfl
    · rw [decide_eq_false negative, if_neg negative, text]
      rfl

/-- `Number(String(x))` is `x`. -/
theorem stringToNumber_toString {x : ℚ} (value : ofRat x = .finite x) :
    stringToNumber (Number.toString (.finite x)) = .finite x := by
  obtain ⟨d, wellFormed, same, text⟩ := exists_toString value
  rw [text, stringToNumber_decimal wellFormed, same, ofRat_written value]

/-- `/^-?\d+$/`. -/
def isWhole (s : JsString) : Bool :=
  let digits := if s.head? = some 0x2D then s.tail else s
  digits ≠ [] && digits.all isDigit

def integerText (i : ℤ) : JsString := (if i < 0 then [0x2D] else []) ++ decimal i.natAbs

theorem isWhole_integerText (i : ℤ) : isWhole (integerText i) = true := by
  have digits : (decimal i.natAbs).all isDigit = true := List.all_eq_true.mpr (digits_decimal i.natAbs)
  rw [integerText]
  split
  next => simp [isWhole, decimal_ne_nil, digits]
  next =>
    obtain ⟨c, s, head⟩ := List.exists_cons_of_ne_nil (decimal_ne_nil i.natAbs)
    have other : c ≠ 0x2D := by
      rintro rfl
      cases digits_decimal i.natAbs _ (head ▸ List.mem_cons_self)
    rw [head] at digits
    simp [isWhole, head, other, digits]

/-- Integers are told apart by their digits. -/
theorem integerText_inj {i j : ℤ} (same : integerText i = integerText j) : i = j := by
  have unsigned {n m : ℕ} (text : [0x2D] ++ decimal n = [] ++ decimal m) : False := by
    rw [List.nil_append] at text
    cases digits_decimal m 0x2D (text ▸ List.mem_cons_self)
  have read {n m : ℕ} {sign : JsString} (text : sign ++ decimal n = sign ++ decimal m) : n = m := by
    rw [← digitsValue_decimal n, List.append_cancel_left text, digitsValue_decimal]
  rw [integerText, integerText] at same
  by_cases negative : i < 0
  · by_cases negative' : j < 0
    · rw [if_pos negative, if_pos negative'] at same
      have magnitude := read same
      omega
    · rw [if_pos negative, if_neg negative'] at same
      exact (unsigned same).elim
  · by_cases negative' : j < 0
    · rw [if_neg negative, if_pos negative'] at same
      exact (unsigned same.symm).elim
    · rw [if_neg negative, if_neg negative'] at same
      have magnitude := read same
      omega

/-- A decimal whose text are digits is a natural number. -/
theorem Decimal.WellFormed.whole {d : Decimal} (wellFormed : d.WellFormed) (all : Digits d.text) :
    d.text = decimal (digitsValue d.int) ∧ d.value = digitsValue d.int := by
  obtain ⟨front, exponent⟩ := List.forall_mem_append.mp all
  obtain ⟨_, fraction⟩ := List.forall_mem_append.mp front
  have noFraction : d.frac = [] := by
    by_contra some
    rw [if_neg some] at fraction
    cases fraction 0x2E List.mem_cons_self
  have noExponent : d.exp = 0 := by
    by_contra some
    rw [exponentText, if_neg some] at exponent
    cases exponent 0x65 List.mem_cons_self
  rw [decimal_digitsValue wellFormed.digits wellFormed.leading, text, value, decimalValue, noFraction, noExponent]
  constructor
  · simp [exponentText]
  · simp

/-- A number that is written as a whole number. -/
theorem written_of_isWhole {x : ℚ} (value : ofRat x = .finite x)
    (whole : isWhole (Number.toString (.finite x)) = true) :
    ∃ i : ℤ, Number.toString (.finite x) = integerText i ∧ written x = i ∧
      parseInt (Number.toString (.finite x)) = .finite x := by
  obtain ⟨d, wellFormed, same, text⟩ := exists_toString value
  obtain ⟨c, s, head, digit⟩ := wellFormed.exists_head
  have minus : c ≠ 0x2D := by
    rintro rfl
    cases digit
  have all : Digits d.text := by
    rw [text] at whole
    split at whole
    next => simpa [isWhole, Digits] using (Bool.and_eq_true_iff.mp whole).2
    next =>
      rw [List.nil_append, head] at whole
      rw [head]
      simpa [isWhole, minus, Digits] using whole
  obtain ⟨digits, natural⟩ := wellFormed.whole all
  have read := ofRat_written value
  rw [← same, natural] at read
  have sign : readSign (Number.toString (.finite x)) = (decide (x < 0), d.text) := by
    rw [text]
    by_cases negative : x < 0
    · rw [decide_eq_true negative]
      rfl
    · rw [decide_eq_false negative, if_neg Bool.false_ne_true, List.nil_append, head, readSign_digit digit]
  have parsed : parseInt (Number.toString (.finite x)) = .finite x := by
    have space : (Number.toString (.finite x)).dropWhile isSpace = Number.toString (.finite x) := by
      rw [text]
      by_cases negative : x < 0
      · rw [decide_eq_true negative]
        rfl
      · rw [decide_eq_false negative, if_neg Bool.false_ne_true, List.nil_append, head, List.dropWhile_cons_of_neg]
        simp [IsNumberChar.not_space (.inl digit)]
    rw [parseInt, space, sign]
    dsimp only
    rw [List.takeWhile_eq_self_iff.mpr all, digits, digitsValue_decimal, if_neg (decimal_ne_nil _), read]
  refine ⟨if x < 0 then -digitsValue d.int else digitsValue d.int, ?_, ?_, parsed⟩
  · rw [text, digits, integerText]
    by_cases negative : x < 0
    · have some : digitsValue d.int ≠ 0 := by
        intro none
        rw [none, Nat.cast_zero, applySign, neg_zero, ite_self, ofRat_zero] at read
        exact negative.ne (Number.finite.inj read).symm
      rw [decide_eq_true negative, if_pos negative, if_pos rfl, if_pos (by omega), Int.natAbs_neg, Int.natAbs_natCast]
    · rw [decide_eq_false negative, if_neg negative, if_neg Bool.false_ne_true, if_neg (by omega), Int.natAbs_natCast]
  · rw [← same, natural, applySign]
    by_cases negative : x < 0
    · simp [negative]
    · simp [negative]

/-- An integer that is written in its own digits is read as itself. -/
theorem written_of_integerText {i : ℤ} (text : Number.toString (ofRat i) = integerText i) :
    ∃ x, ofRat i = .finite x ∧ written x = i := by
  have whole := isWhole_integerText i
  rw [← text] at whole
  cases value : ofRat i with
  | nan =>
    rw [value] at whole
    cases whole
  | infinity negative =>
    rw [value] at whole
    cases negative <;> cases whole
  | finite x =>
    rw [value] at whole text
    obtain ⟨j, same, written, _⟩ := written_of_isWhole (ofRat_idem value) whole
    rw [integerText_inj (text.symm.trans same)]
    exact ⟨x, rfl, written⟩

end Js
end Discovery
