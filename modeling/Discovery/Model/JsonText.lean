import Discovery.Model.Compact

namespace Discovery

def Blank (s : GoString) : Prop := ∀ c ∈ s, isJsonSpace c = true

def Digits (s : GoString) : Prop := ∀ c ∈ s, isDigit c = true

inductive StringBody : GoString → Prop
  | nil : StringBody []
  | plain {c : UInt8} {s : GoString} (quote : c ≠ 0x22) (escape : c ≠ 0x5C) (control : ¬c < 0x20) :
      StringBody s → StringBody (c :: s)
  | escape {c : UInt8} {s : GoString} (known : (ofString "bfnrt\\/\"").contains c) :
      StringBody s → StringBody (0x5C :: c :: s)
  | unicode {hex s : GoString} (four : hex.length = 4) (digits : ∀ c ∈ hex, isHex c = true) :
      StringBody s → StringBody (0x5C :: 0x75 :: (hex ++ s))

def quoted (body : GoString) : GoString := 0x22 :: (body ++ [0x22])

/-- The fraction of a number, behind its point. -/
inductive FractionText : GoString → Prop
  | none : FractionText []
  | point {digits : GoString} : digits ≠ [] → Digits digits → FractionText (0x2E :: digits)

inductive ExponentText : GoString → Prop
  | none : ExponentText []
  | exp {e : UInt8} {sign digits : GoString} : e = 0x65 ∨ e = 0x45 → sign = [] ∨ sign = [0x2B] ∨ sign = [0x2D] →
      digits ≠ [] → Digits digits → ExponentText (e :: (sign ++ digits))

/-- A number literal, whose integer part has no leading zeros. -/
structure NumberText where
  sign : GoString
  int : GoString
  fraction : GoString
  exponent : GoString
  signed : sign = [] ∨ sign = [0x2D]
  digits : Digits int
  leading : int = [0x30] ∨ ∃ c s, int = c :: s ∧ c ≠ 0x30
  fractional : FractionText fraction
  exponential : ExponentText exponent

def NumberText.text (n : NumberText) : GoString := n.sign ++ n.int ++ n.fraction ++ n.exponent

mutual

inductive JsonText : GoString → Prop
  | null : JsonText "null"
  | true : JsonText "true"
  | false : JsonText "false"
  | number (n : NumberText) : JsonText n.text
  | string {body : GoString} : StringBody body → JsonText (quoted body)
  | emptyArray {w : GoString} : Blank w → JsonText (0x5B :: (w ++ [0x5D]))
  | array {w v tail : GoString} : Blank w → JsonText v → ArrayTail tail →
      JsonText (0x5B :: (w ++ v ++ tail ++ [0x5D]))
  | emptyObject {w : GoString} : Blank w → JsonText (0x7B :: (w ++ [0x7D]))
  | object {w key tail : GoString} : Blank w → StringBody key → MemberTail tail →
      JsonText (0x7B :: (w ++ quoted key ++ tail ++ [0x7D]))

/-- What comes behind an element of an array. -/
inductive ArrayTail : GoString → Prop
  | done {w : GoString} : Blank w → ArrayTail w
  | more {w w' v tail : GoString} : Blank w → Blank w' → JsonText v → ArrayTail tail →
      ArrayTail (w ++ 0x2C :: (w' ++ v ++ tail))

/-- What comes behind a key of an object. -/
inductive MemberTail : GoString → Prop
  | value {w w' v tail : GoString} : Blank w → Blank w' → JsonText v → ObjectTail tail →
      MemberTail (w ++ 0x3A :: (w' ++ v ++ tail))

/-- What comes behind a value of an object. -/
inductive ObjectTail : GoString → Prop
  | done {w : GoString} : Blank w → ObjectTail w
  | more {w w' key tail : GoString} : Blank w → Blank w' → StringBody key → MemberTail tail →
      ObjectTail (w ++ 0x2C :: (w' ++ quoted key ++ tail))

end

/-- The texts that may follow a value inside the open objects and arrays. -/
def After : List ParseState → GoString → Prop
  | [], s => Blank s
  | .objectKey :: stack, s => ∃ tail k, MemberTail tail ∧ After stack k ∧ s = tail ++ 0x7D :: k
  | .objectValue :: stack, s => ∃ tail k, ObjectTail tail ∧ After stack k ∧ s = tail ++ 0x7D :: k
  | .arrayValue :: stack, s => ∃ tail k, ArrayTail tail ∧ After stack k ∧ s = tail ++ 0x5D :: k

/-- The texts that the scanner completes. -/
def Completes : Scanner → GoString → Prop
  | (.beginValue, stack), s => ∃ w v k, Blank w ∧ JsonText v ∧ After stack k ∧ s = w ++ v ++ k
  | (.beginValueOrEmpty, stack), s =>
    (∃ w v k, Blank w ∧ JsonText v ∧ After stack k ∧ s = w ++ v ++ k) ∨
    ∃ w k outer, Blank w ∧ stack = .arrayValue :: outer ∧ After outer k ∧ s = w ++ 0x5D :: k
  | (.beginStringOrEmpty, stack), s =>
    (∃ w key k, Blank w ∧ StringBody key ∧ After stack k ∧ s = w ++ quoted key ++ k) ∨
    ∃ w k, Blank w ∧ After stack.tail k ∧ s = w ++ 0x7D :: k
  | (.beginString, stack), s => ∃ w key k, Blank w ∧ StringBody key ∧ After stack k ∧ s = w ++ quoted key ++ k
  | (.inString, stack), s => ∃ body k, StringBody body ∧ After stack k ∧ s = body ++ 0x22 :: k
  | (.inStringEsc, stack), s => ∃ body k, StringBody (0x5C :: body) ∧ After stack k ∧ s = body ++ 0x22 :: k
  | (.inStringEscU left, stack), s => ∃ hex body k, hex.length = max 1 left ∧ (∀ c ∈ hex, isHex c = true) ∧
      StringBody body ∧ After stack k ∧ s = hex ++ body ++ 0x22 :: k
  | (.literal rest, stack), s => ∃ k, After stack k ∧ s = rest ++ k
  | (.neg, stack), s => ∃ n : NumberText, ∃ k, n.sign = [] ∧ After stack k ∧ s = n.text ++ k
  | (.int, stack), s => ∃ digits fraction exponent k, Digits digits ∧ FractionText fraction ∧ ExponentText exponent ∧
      After stack k ∧ s = digits ++ fraction ++ exponent ++ k
  | (.zero, stack), s => ∃ fraction exponent k, FractionText fraction ∧ ExponentText exponent ∧
      After stack k ∧ s = fraction ++ exponent ++ k
  | (.dot, stack), s => ∃ digits exponent k, digits ≠ [] ∧ Digits digits ∧ ExponentText exponent ∧
      After stack k ∧ s = digits ++ exponent ++ k
  | (.frac, stack), s => ∃ digits exponent k, Digits digits ∧ ExponentText exponent ∧
      After stack k ∧ s = digits ++ exponent ++ k
  | (.exp, stack), s => ∃ sign digits k, (sign = [] ∨ sign = [0x2B] ∨ sign = [0x2D]) ∧ digits ≠ [] ∧ Digits digits ∧
      After stack k ∧ s = sign ++ digits ++ k
  | (.expSign, stack), s => ∃ digits k, digits ≠ [] ∧ Digits digits ∧ After stack k ∧ s = digits ++ k
  | (.expDigits, stack), s => ∃ digits k, Digits digits ∧ After stack k ∧ s = digits ++ k
  | (.endValue, stack), s => After stack s

variable {stack : List ParseState} {c : UInt8} {q q' : Scanner} {s : GoString}

theorem Blank.cons {w : GoString} (space : isJsonSpace c = true) (blank : Blank w) : Blank (c :: w) :=
  List.forall_mem_cons.mpr ⟨space, blank⟩

theorem blank_nil : Blank [] := fun _ member => by cases member

theorem Digits.cons {w : GoString} (digit : isDigit c = true) (digits : Digits w) : Digits (c :: w) :=
  List.forall_mem_cons.mpr ⟨digit, digits⟩

theorem digits_nil : Digits [] := fun _ member => by cases member

/-- White space in front of what follows a value. -/
theorem After.space {k : GoString} (space : isJsonSpace c = true) (after : After stack k) : After stack (c :: k) := by
  cases stack with
  | nil => exact Blank.cons space after
  | cons kind stack =>
    cases kind with
    | objectKey =>
      obtain ⟨tail, k, member, rest, rfl⟩ := after
      cases member with
      | @value w w' v tail blank blank' value rest' =>
        exact ⟨_, k, .value (blank.cons space) blank' value rest', rest, by simp⟩
    | objectValue =>
      obtain ⟨tail, k, object, rest, rfl⟩ := after
      cases object with
      | done blank => exact ⟨_, k, .done (blank.cons space), rest, by simp⟩
      | more blank blank' key rest' => exact ⟨_, k, .more (blank.cons space) blank' key rest', rest, by simp⟩
    | arrayValue =>
      obtain ⟨tail, k, array, rest, rfl⟩ := after
      cases array with
      | done blank => exact ⟨_, k, .done (blank.cons space), rest, by simp⟩
      | more blank blank' value rest' => exact ⟨_, k, .more (blank.cons space) blank' value rest', rest, by simp⟩

/-- After a value the scanner goes on only with what may follow it in the array or object around it. Every lemma
of this kind reads the step backwards: what the scanner accepts after it, with the byte in front, is a text of the
grammar. -/
theorem completes_scanEndValue (step : scanEndValue stack c = some q) (completes : Completes q s) :
    After stack (c :: s) := by
  unfold scanEndValue at step
  split at step
  next space =>
    cases step
    exact After.space space completes
  next =>
    split at step
    next => cases step
    next outer =>
      split at step
      next colon =>
        cases step
        obtain ⟨w, v, k, blank, value, ⟨tail, k', object, rest, rfl⟩, rfl⟩ := completes
        exact ⟨_, k', .value blank_nil blank value object, rest, by simp [colon]⟩
      next => cases step
    next outer =>
      split at step
      next comma =>
        cases step
        obtain ⟨w, key, k, blank, key, ⟨tail, k', member, rest, rfl⟩, rfl⟩ := completes
        exact ⟨_, k', .more blank_nil blank key member, rest, by simp [comma]⟩
      next =>
        split at step
        next close =>
          cases step
          exact ⟨[], s, .done blank_nil, completes, by simp [close]⟩
        next => cases step
    next outer =>
      split at step
      next comma =>
        cases step
        obtain ⟨w, v, k, blank, value, ⟨tail, k', array, rest, rfl⟩, rfl⟩ := completes
        exact ⟨_, k', .more blank_nil blank value array, rest, by simp [comma]⟩
      next =>
        split at step
        next close =>
          cases step
          exact ⟨[], s, .done blank_nil, completes, by simp [close]⟩
        next => cases step

/-- A bracket opens an array or object that the rest of the text has to close. -/
theorem completes_pushParseState {kind : ParseState} {state : ScanState}
    (step : pushParseState stack kind state = some q) (completes : Completes q s) :
    Completes (state, kind :: stack) s := by
  unfold pushParseState at step
  split at step
  next =>
    cases step
    exact completes
  next => cases step

/-- The rest of a number whose sign and first digits have been read. -/
theorem completes_number {sign int fraction exponent k : GoString} (signed : sign = [] ∨ sign = [0x2D])
    (digits : Digits int) (leading : int = [0x30] ∨ ∃ c s, int = c :: s ∧ c ≠ 0x30)
    (fractional : FractionText fraction) (exponential : ExponentText exponent) (after : After stack k) :
    Completes (.beginValue, stack) (sign ++ int ++ fraction ++ exponent ++ k) :=
  ⟨[], _, k, blank_nil,
    .number ⟨sign, int, fraction, exponent, signed, digits, leading, fractional, exponential⟩, after,
    by simp [NumberText.text]⟩

/-- A value begins with a bracket, a quote, a digit, a minus sign or the first letter of a word. -/
theorem completes_scanBeginValue (step : scanBeginValue stack c = some q) (completes : Completes q s) :
    Completes (.beginValue, stack) (c :: s) := by
  unfold scanBeginValue at step
  by_cases space : isJsonSpace c = true
  · rw [if_pos space] at step
    cases step
    obtain ⟨w, v, k, blank, value, after, rfl⟩ := completes
    exact ⟨c :: w, v, k, blank.cons space, value, after, rfl⟩
  rw [if_neg space] at step
  by_cases brace : c = 0x7B
  · rw [if_pos brace] at step
    rcases completes_pushParseState step completes with
      ⟨w, key, k, blank, body, ⟨tail, k', member, rest, rfl⟩, rfl⟩ | ⟨w, k, blank, after, rfl⟩
    · exact ⟨[], _, k', blank_nil, .object blank body member, rest, by simp [brace]⟩
    · exact ⟨[], _, k, blank_nil, .emptyObject blank, after, by simp [brace]⟩
  rw [if_neg brace] at step
  by_cases bracket : c = 0x5B
  · rw [if_pos bracket] at step
    rcases completes_pushParseState step completes with
      ⟨w, v, k, blank, value, ⟨tail, k', array, rest, rfl⟩, rfl⟩ | ⟨w, k, outer, blank, top, after, rfl⟩
    · exact ⟨[], _, k', blank_nil, .array blank value array, rest, by simp [bracket]⟩
    · cases top
      exact ⟨[], _, k, blank_nil, .emptyArray blank, after, by simp [bracket]⟩
  rw [if_neg bracket] at step
  by_cases quote : c = 0x22
  · rw [if_pos quote] at step
    cases step
    obtain ⟨body, k, string, after, rfl⟩ := completes
    exact ⟨[], _, k, blank_nil, .string string, after, by simp [quoted, quote]⟩
  rw [if_neg quote] at step
  by_cases minus : c = 0x2D
  · rw [if_pos minus] at step
    cases step
    obtain ⟨n, k, unsigned, after, rfl⟩ := completes
    have text := completes_number (.inr rfl) n.digits n.leading n.fractional n.exponential after
    simpa [NumberText.text, unsigned, minus] using text
  rw [if_neg minus] at step
  by_cases zero : c = 0x30
  · rw [if_pos zero] at step
    cases step
    obtain ⟨fraction, exponent, k, fractional, exponential, after, rfl⟩ := completes
    have digits : Digits [0x30] := Digits.cons (by decide) digits_nil
    have text := completes_number (.inl rfl) digits (.inl rfl) fractional exponential after
    simpa [zero] using text
  rw [if_neg zero] at step
  by_cases letterT : c = 0x74
  · rw [if_pos letterT] at step
    cases step
    obtain ⟨k, after, rfl⟩ := completes
    exact ⟨[], _, k, blank_nil, .true, after, by rw [letterT]; rfl⟩
  rw [if_neg letterT] at step
  by_cases letterF : c = 0x66
  · rw [if_pos letterF] at step
    cases step
    obtain ⟨k, after, rfl⟩ := completes
    exact ⟨[], _, k, blank_nil, .false, after, by rw [letterF]; rfl⟩
  rw [if_neg letterF] at step
  by_cases letterN : c = 0x6E
  · rw [if_pos letterN] at step
    cases step
    obtain ⟨k, after, rfl⟩ := completes
    exact ⟨[], _, k, blank_nil, .null, after, by rw [letterN]; rfl⟩
  rw [if_neg letterN] at step
  by_cases digit : isDigit c = true
  · rw [if_pos digit] at step
    cases step
    obtain ⟨digits, fraction, exponent, k, all, fractional, exponential, after, rfl⟩ := completes
    have leading : c :: digits = [0x30] ∨ ∃ d s, c :: digits = d :: s ∧ d ≠ 0x30 := .inr ⟨c, digits, rfl, zero⟩
    have text := completes_number (.inl rfl) (all.cons digit) leading fractional exponential after
    simpa using text
  · rw [if_neg digit] at step
    cases step

theorem completes_scanBeginString (step : scanBeginString stack c = some q) (completes : Completes q s) :
    Completes (.beginString, stack) (c :: s) := by
  unfold scanBeginString at step
  split at step
  next space =>
    cases step
    obtain ⟨w, key, k, blank, body, after, rfl⟩ := completes
    exact ⟨c :: w, key, k, blank.cons space, body, after, rfl⟩
  split at step
  next quote =>
    cases step
    obtain ⟨body, k, string, after, rfl⟩ := completes
    exact ⟨[], body, k, blank_nil, string, after, by simp [quoted, quote]⟩
  next => cases step

theorem completes_scanZero (step : scanZero stack c = some q) (completes : Completes q s) :
    Completes (.zero, stack) (c :: s) := by
  unfold scanZero at step
  split at step
  next point =>
    cases step
    obtain ⟨digits, exponent, k, some, all, exponential, after, rfl⟩ := completes
    exact ⟨_, exponent, k, .point some all, exponential, after, by simp [point]⟩
  split at step
  next mark =>
    cases step
    obtain ⟨sign, digits, k, signed, some, all, after, rfl⟩ := completes
    exact ⟨[], _, k, .none, .exp (by simpa using mark) signed some all, after, by simp⟩
  next => exact ⟨[], [], c :: s, .none, .none, completes_scanEndValue step completes, rfl⟩

theorem scanEndValue_bracket (step : scanEndValue stack 0x5D = some q) :
    ∃ outer, stack = .arrayValue :: outer ∧ q = (.endValue, outer) := by
  cases stack with
  | nil => cases step
  | cons kind outer =>
    cases kind with
    | objectKey => cases step
    | objectValue => cases step
    | arrayValue =>
      cases step
      exact ⟨outer, rfl, rfl⟩

/-- Inside a string every byte but a quote and a backslash stands for itself, and control bytes are refused. -/
theorem completes_inString (step : scanStep (.inString, stack) c = some q) (completes : Completes q s) :
    Completes (.inString, stack) (c :: s) := by
  unfold scanStep at step
  dsimp only at step
  split at step
  next quote =>
    cases step
    exact ⟨[], s, .nil, completes, by simp [quote]⟩
  split at step
  next escape =>
    cases step
    obtain ⟨body, k, string, after, rfl⟩ := completes
    exact ⟨_, k, string, after, by simp [escape]⟩
  split at step
  next => cases step
  next quote escape control =>
    cases step
    obtain ⟨body, k, string, after, rfl⟩ := completes
    exact ⟨_, k, .plain quote escape control string, after, rfl⟩

theorem completes_inStringEsc (step : scanStep (.inStringEsc, stack) c = some q) (completes : Completes q s) :
    Completes (.inStringEsc, stack) (c :: s) := by
  unfold scanStep at step
  dsimp only at step
  split at step
  next letter =>
    cases step
    obtain ⟨hex, body, k, four, digits, string, after, rfl⟩ := completes
    exact ⟨_, k, .unicode four digits string, after, by simp [letter]⟩
  split at step
  next known =>
    cases step
    obtain ⟨body, k, string, after, rfl⟩ := completes
    exact ⟨c :: body, k, .escape known string, after, rfl⟩
  next => cases step

/-- An escape of a code unit has four hexadecimal digits. -/
theorem completes_inStringEscU {left : Nat} (step : scanStep (.inStringEscU left, stack) c = some q)
    (completes : Completes q s) : Completes (.inStringEscU left, stack) (c :: s) := by
  unfold scanStep at step
  dsimp only at step
  split at step
  next digit =>
    cases step
    split at completes
    next last =>
      obtain ⟨body, k, string, after, rfl⟩ := completes
      refine ⟨[c], body, k, ?_, List.forall_mem_singleton.mpr digit, string, after, by simp⟩
      rw [max_eq_left last]
      rfl
    next some =>
      obtain ⟨hex, body, k, length, digits, string, after, rfl⟩ := completes
      refine ⟨c :: hex, body, k, ?_, List.forall_mem_cons.mpr ⟨digit, digits⟩, string, after, by simp⟩
      rw [List.length_cons, length]
      omega
  next => cases step

/-- A word is spelled to its end. -/
theorem completes_literal {rest : GoString} (step : scanStep (.literal rest, stack) c = some q)
    (completes : Completes q s) : Completes (.literal rest, stack) (c :: s) := by
  unfold scanStep at step
  dsimp only at step
  split at step
  next => cases step
  next d =>
    split at step
    next same =>
      cases step
      exact ⟨s, completes, by rw [same]; rfl⟩
    next => cases step
  next d rest _ =>
    split at step
    next same =>
      cases step
      obtain ⟨k, after, rfl⟩ := completes
      exact ⟨k, after, by rw [same]; rfl⟩
    next => cases step

/-- Behind a minus sign a number has to begin. -/
theorem completes_neg (step : scanStep (.neg, stack) c = some q) (completes : Completes q s) :
    Completes (.neg, stack) (c :: s) := by
  unfold scanStep at step
  dsimp only at step
  split at step
  next zero =>
    cases step
    obtain ⟨fraction, exponent, k, fractional, exponential, after, rfl⟩ := completes
    exact ⟨⟨[], [0x30], fraction, exponent, .inl rfl, Digits.cons (by decide) digits_nil, .inl rfl, fractional,
      exponential⟩, k, rfl, after, by simp [NumberText.text, zero]⟩
  split at step
  next nonzero digit =>
    cases step
    obtain ⟨digits, fraction, exponent, k, all, fractional, exponential, after, rfl⟩ := completes
    exact ⟨⟨[], c :: digits, fraction, exponent, .inl rfl, all.cons digit, .inr ⟨c, digits, rfl, nonzero⟩, fractional,
      exponential⟩, k, rfl, after, by simp [NumberText.text]⟩
  next => cases step

/-- A number may end after its integer, or go on with a fraction or an exponent. -/
theorem completes_int (step : scanStep (.int, stack) c = some q) (completes : Completes q s) :
    Completes (.int, stack) (c :: s) := by
  unfold scanStep at step
  dsimp only at step
  split at step
  next digit =>
    cases step
    obtain ⟨digits, fraction, exponent, k, all, fractional, exponential, after, rfl⟩ := completes
    exact ⟨c :: digits, fraction, exponent, k, all.cons digit, fractional, exponential, after, rfl⟩
  next =>
    obtain ⟨fraction, exponent, k, fractional, exponential, after, same⟩ := completes_scanZero step completes
    exact ⟨[], fraction, exponent, k, digits_nil, fractional, exponential, after, same⟩

theorem completes_dot (step : scanStep (.dot, stack) c = some q) (completes : Completes q s) :
    Completes (.dot, stack) (c :: s) := by
  unfold scanStep at step
  dsimp only at step
  split at step
  next digit =>
    cases step
    obtain ⟨digits, exponent, k, all, exponential, after, rfl⟩ := completes
    exact ⟨c :: digits, exponent, k, List.cons_ne_nil c digits, all.cons digit, exponential, after, rfl⟩
  next => cases step

theorem completes_frac (step : scanStep (.frac, stack) c = some q) (completes : Completes q s) :
    Completes (.frac, stack) (c :: s) := by
  unfold scanStep at step
  dsimp only at step
  split at step
  next digit =>
    cases step
    obtain ⟨digits, exponent, k, all, exponential, after, rfl⟩ := completes
    exact ⟨c :: digits, exponent, k, all.cons digit, exponential, after, rfl⟩
  split at step
  next mark =>
    cases step
    obtain ⟨sign, digits, k, signed, some, all, after, rfl⟩ := completes
    exact ⟨[], _, k, digits_nil, .exp (by simpa using mark) signed some all, after, by simp⟩
  next => exact ⟨[], [], c :: s, digits_nil, .none, completes_scanEndValue step completes, rfl⟩

theorem completes_exp (step : scanStep (.exp, stack) c = some q) (completes : Completes q s) :
    Completes (.exp, stack) (c :: s) := by
  unfold scanStep at step
  dsimp only at step
  split at step
  next sign =>
    cases step
    obtain ⟨digits, k, some, all, after, rfl⟩ := completes
    refine ⟨[c], digits, k, .inr ?_, some, all, after, rfl⟩
    simpa using sign
  split at step
  next digit =>
    cases step
    obtain ⟨digits, k, all, after, rfl⟩ := completes
    exact ⟨[], c :: digits, k, .inl rfl, List.cons_ne_nil c digits, all.cons digit, after, rfl⟩
  next => cases step

theorem completes_expSign (step : scanStep (.expSign, stack) c = some q) (completes : Completes q s) :
    Completes (.expSign, stack) (c :: s) := by
  unfold scanStep at step
  dsimp only at step
  split at step
  next digit =>
    cases step
    obtain ⟨digits, k, all, after, rfl⟩ := completes
    exact ⟨c :: digits, k, List.cons_ne_nil c digits, all.cons digit, after, rfl⟩
  next => cases step

/-- A number ends where its digits do, and the byte after it is read as the end of a value. -/
theorem completes_expDigits (step : scanStep (.expDigits, stack) c = some q) (completes : Completes q s) :
    Completes (.expDigits, stack) (c :: s) := by
  unfold scanStep at step
  dsimp only at step
  split at step
  next digit =>
    cases step
    obtain ⟨digits, k, all, after, rfl⟩ := completes
    exact ⟨c :: digits, k, all.cons digit, after, rfl⟩
  next => exact ⟨[], c :: s, digits_nil, completes_scanEndValue step completes, rfl⟩

/-- A byte that the scanner accepts in front of a text that it completes. -/
theorem completes_step (step : scanStep q c = some q') (completes : Completes q' s) : Completes q (c :: s) := by
  obtain ⟨state, stack⟩ := q
  cases state with
  | beginValue => exact completes_scanBeginValue step completes
  | beginValueOrEmpty =>
    unfold scanStep at step
    dsimp only at step
    split at step
    next space =>
      cases step
      rcases completes with ⟨w, v, k, blank, value, after, rfl⟩ | ⟨w, k, outer, blank, top, after, rfl⟩
      · exact .inl ⟨c :: w, v, k, blank.cons space, value, after, rfl⟩
      · exact .inr ⟨c :: w, k, outer, blank.cons space, top, after, rfl⟩
    split at step
    next bracket =>
      rw [bracket] at step
      obtain ⟨outer, top, rfl⟩ := scanEndValue_bracket step
      exact .inr ⟨[], s, outer, blank_nil, top, completes, by simp [bracket]⟩
    next => exact .inl (completes_scanBeginValue step completes)
  | beginStringOrEmpty =>
    unfold scanStep at step
    dsimp only at step
    split at step
    next space =>
      cases step
      rcases completes with ⟨w, key, k, blank, body, after, rfl⟩ | ⟨w, k, blank, after, rfl⟩
      · exact .inl ⟨c :: w, key, k, blank.cons space, body, after, rfl⟩
      · exact .inr ⟨c :: w, k, blank.cons space, after, rfl⟩
    split at step
    next brace =>
      rw [brace] at step
      cases step
      exact .inr ⟨[], s, blank_nil, completes, by simp [brace]⟩
    next => exact .inl (completes_scanBeginString step completes)
  | beginString => exact completes_scanBeginString step completes
  | inString => exact completes_inString step completes
  | inStringEsc => exact completes_inStringEsc step completes
  | inStringEscU left => exact completes_inStringEscU step completes
  | literal rest => exact completes_literal step completes
  | neg => exact completes_neg step completes
  | int => exact completes_int step completes
  | zero => exact completes_scanZero step completes
  | dot => exact completes_dot step completes
  | frac => exact completes_frac step completes
  | exp => exact completes_exp step completes
  | expSign => exact completes_expSign step completes
  | expDigits => exact completes_expDigits step completes
  | endValue => exact completes_scanEndValue step completes

/-- A run that a blank ends. -/
theorem completes_run (run : s.foldlM scanStep q = some q') (tame : q.Tame)
    (ends : scanStep q' 0x20 = some (.endValue, [])) : Completes q s := by
  induction s generalizing q with
  | nil =>
    obtain rfl : q = q' := Option.some.inj run
    obtain ⟨state, stack⟩ := q
    cases state with
    | int =>
      cases ends
      exact ⟨[], [], [], [], digits_nil, .none, .none, blank_nil, rfl⟩
    | zero =>
      cases ends
      exact ⟨[], [], [], .none, .none, blank_nil, rfl⟩
    | frac =>
      cases ends
      exact ⟨[], [], [], digits_nil, .none, blank_nil, rfl⟩
    | expDigits =>
      cases ends
      exact ⟨[], [], digits_nil, blank_nil, rfl⟩
    | endValue =>
      cases ends
      exact blank_nil
    | literal rest =>
      cases rest with
      | nil => cases ends
      | cons d rest =>
        -- the blank is not a letter of the literal
        have letter := tame _ rfl d List.mem_cons_self
        have other : (0x20 : UInt8) ≠ d := fun same => by
          subst same
          exact absurd letter.1 (by decide)
        unfold scanStep at ends
        cases rest with
        | nil =>
          dsimp only at ends
          rw [if_neg other] at ends
          cases ends
        | cons e rest =>
          dsimp only at ends
          rw [if_neg other] at ends
          cases ends
    | beginValue => cases ends
    | beginValueOrEmpty => cases ends
    | beginStringOrEmpty => cases ends
    | beginString => cases ends
    | inString => cases ends
    | inStringEsc => cases ends
    | inStringEscU left => cases ends
    | neg => cases ends
    | dot => cases ends
    | exp => cases ends
    | expSign => cases ends
  | cons c s ih =>
    rw [List.foldlM_cons] at run
    obtain ⟨next, step, run⟩ := Option.bind_eq_some_iff.mp run
    exact completes_step step (ih run (tame_step step tame))

/-- A valid text is a value with white space around it. -/
theorem exists_of_jsonValid {data : GoString} (valid : jsonValid data = true) :
    ∃ w v k, Blank w ∧ JsonText v ∧ Blank k ∧ data = w ++ v ++ k := by
  have run := of_decide_eq_true valid
  rw [List.foldlM_append] at run
  obtain ⟨q, run, ends⟩ := Option.bind_eq_some_iff.mp run
  rw [List.foldlM_cons] at ends
  obtain ⟨_, ends, last⟩ := Option.bind_eq_some_iff.mp ends
  cases last
  exact completes_run run (tame_of_ne fun _ literal => by cases literal) ends

end Discovery
