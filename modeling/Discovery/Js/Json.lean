import Discovery.Js.Number

namespace Discovery
namespace Js

/-- A JSON value, with numbers of a type. -/
inductive Json (N : Type)
  | null
  | bool (b : Bool)
  | number (n : N)
  | string (s : JsString)
  | array (elements : List (Json N))
  | object (members : List (JsString × Json N))

/-- The number of a key that is an array index. -/
def arrayIndex (k : JsString) : Option ℕ :=
  if k = decimal (digitsValue k) ∧ digitsValue k < 2 ^ 32 - 1 then some (digitsValue k) else none

/-- The array indices come first, in ascending order. -/
def comesBefore (k k' : JsString) : Bool :=
  match arrayIndex k, arrayIndex k' with
  | some n, some n' => n < n'
  | some _, none => true
  | none, _ => false

/-- Sets an own property. The properties stand in the order in which they are enumerated. -/
def put {α : Type} (k : JsString) (v : α) : List (JsString × α) → List (JsString × α)
  | [] => [(k, v)]
  | (k', v') :: m =>
    if k = k' then (k, v) :: m
    else if comesBefore k k' then (k, v) :: (k', v') :: m
    else (k', v') :: put k v m

namespace Json
variable {N M : Type}

mutual

/-- Puts a value in the place of each number. -/
def bind (f : N → Json M) : Json N → Json M
  | null => null
  | bool b => bool b
  | number n => f n
  | string s => string s
  | array l => array (bindElements f l)
  | object m => object (bindMembers f m)

def bindElements (f : N → Json M) : List (Json N) → List (Json M)
  | [] => []
  | v :: l => v.bind f :: bindElements f l

def bindMembers (f : N → Json M) : List (JsString × Json N) → List (JsString × Json M)
  | [] => []
  | (k, v) :: m => (k, v.bind f) :: bindMembers f m

end

mutual

/-- The value with the properties that its objects have once they are read: of two members with one name the last. -/
def canon : Json N → Json N
  | null => null
  | bool b => bool b
  | number n => number n
  | string s => string s
  | array l => array (canonElements l)
  | object m => object (canonMembers [] m)

def canonElements : List (Json N) → List (Json N)
  | [] => []
  | v :: l => v.canon :: canonElements l

def canonMembers (properties : List (JsString × Json N)) : List (JsString × Json N) → List (JsString × Json N)
  | [] => properties
  | (k, v) :: m => canonMembers (put k v.canon properties) m

end

mutual

/-- Every number in the value has a property. -/
def All (P : N → Prop) : Json N → Prop
  | null => True
  | bool _ => True
  | number n => P n
  | string _ => True
  | array l => AllElements P l
  | object m => AllMembers P m

def AllElements (P : N → Prop) : List (Json N) → Prop
  | [] => True
  | v :: l => v.All P ∧ AllElements P l

def AllMembers (P : N → Prop) : List (JsString × Json N) → Prop
  | [] => True
  | (_, v) :: m => v.All P ∧ AllMembers P m

end

end Json

def hexDigit (d : ℕ) : UInt16 := UInt16.ofNat (if d < 10 then 0x30 + d else 0x57 + d)

def unicodeEscape (c : UInt16) : JsString :=
  [0x5C, 0x75, hexDigit (c.toNat / 4096), hexDigit (c.toNat / 256 % 16), hexDigit (c.toNat / 16 % 16),
    hexDigit (c.toNat % 16)]

def isHighSurrogate (c : UInt16) : Bool := 0xD800 ≤ c && c < 0xDC00

def isLowSurrogate (c : UInt16) : Bool := 0xDC00 ≤ c && c < 0xE000

def escapeUnit (c : UInt16) : JsString :=
  if c = 0x08 then ascii "\\b"
  else if c = 0x09 then ascii "\\t"
  else if c = 0x0A then ascii "\\n"
  else if c = 0x0C then ascii "\\f"
  else if c = 0x0D then ascii "\\r"
  else if c = 0x22 then ascii "\\\""
  else if c = 0x5C then ascii "\\\\"
  else if c < 0x20 ∨ isHighSurrogate c ∨ isLowSurrogate c then unicodeEscape c
  else [c]

/-- The units of a string in a literal. `second` says that the next one is the second half of a surrogate pair. -/
def quoteBody (second : Bool) : JsString → JsString
  | [] => []
  | c :: s =>
    let first := isHighSurrogate c && s.head?.any isLowSurrogate
    (if first || second then [c] else escapeUnit c) ++ quoteBody first s

/-- A string literal as `JSON.stringify` writes it. -/
def quote (s : JsString) : JsString := 0x22 :: (quoteBody false s ++ [0x22])

def newline (gap : JsString) (depth : ℕ) : JsString :=
  if gap = [] then [] else 0x0A :: (List.replicate depth gap).flatten

def numberText : Number → JsString
  | .finite x => Number.toString (.finite x)
  | _ => ascii "null"

mutual

/-- `JSON.stringify` with an indent, which may be empty. -/
def stringify (gap : JsString) (depth : ℕ) : Json Number → JsString
  | .null => ascii "null"
  | .bool b => if b then ascii "true" else ascii "false"
  | .number x => numberText x
  | .string s => quote s
  | .array l =>
    if l.isEmpty then ascii "[]"
    else 0x5B :: (elementsText gap (depth + 1) l ++ newline gap depth ++ [0x5D])
  | .object m =>
    if m.isEmpty then ascii "\x7b\x7d"
    else 0x7B :: (membersText gap (depth + 1) m ++ newline gap depth ++ [0x7D])

def elementsText (gap : JsString) (depth : ℕ) : List (Json Number) → JsString
  | [] => []
  | v :: l => newline gap depth ++ stringify gap depth v ++ if l.isEmpty then [] else 0x2C :: elementsText gap depth l

def membersText (gap : JsString) (depth : ℕ) : List (JsString × Json Number) → JsString
  | [] => []
  | (k, v) :: m => newline gap depth ++ quote k ++ 0x3A :: ((if gap = [] then [] else [0x20]) ++ stringify gap depth v ++
    if m.isEmpty then [] else 0x2C :: membersText gap depth m)

end

def isJsonSpace (c : UInt16) : Bool := c = 0x20 || c = 0x09 || c = 0x0A || c = 0x0D

def skip (s : JsString) : JsString := s.dropWhile isJsonSpace

def readHex (digits : JsString) : Option UInt16 :=
  (digits.mapM (digitOf 16)).map fun digits => UInt16.ofNat (digits.foldl (fun n d => n * 16 + d) 0)

def unescape (c : UInt16) : Option UInt16 :=
  if c = 0x22 ∨ c = 0x5C ∨ c = 0x2F then some c
  else if c = 0x62 then some 0x08
  else if c = 0x66 then some 0x0C
  else if c = 0x6E then some 0x0A
  else if c = 0x72 then some 0x0D
  else if c = 0x74 then some 0x09
  else none

/-- A unit of a string in front of what is read. -/
def consUnit (c : UInt16) (read : Option (JsString × JsString)) : Option (JsString × JsString) :=
  read.map fun (units, rest) => (c :: units, rest)

mutual

/-- The units of a string literal up to its closing quote, and what follows it. -/
def readString : JsString → Option (JsString × JsString)
  | [] => none
  | c :: s =>
    if c = 0x22 then some ([], s)
    else if c = 0x5C then readEscape s
    else if c < 0x20 then none
    else consUnit c (readString s)

def readEscape : JsString → Option (JsString × JsString)
  | [] => none
  | c :: s =>
    if c = 0x75 then readUnicode s
    else (unescape c).bind fun u => consUnit u (readString s)

def readUnicode : JsString → Option (JsString × JsString)
  | h1 :: h2 :: h3 :: h4 :: s => (readHex [h1, h2, h3, h4]).bind fun u => consUnit u (readString s)
  | _ => none

end

def readUnsigned (s : JsString) : Option (ℚ × JsString) := do
  let ((int, frac, exp), rest) ← readDecimal s
  if int = [] ∨ (int.head? = some 0x30 ∧ int ≠ [0x30]) ∨ frac = some [] then none
  else some (decimalValue int (frac.getD []) exp, rest)

def readNumber (s : JsString) : Option (ℚ × JsString) :=
  if s.head? = some 0x2D then do
    let (q, rest) ← readUnsigned s.tail
    some (-q, rest)
  else readUnsigned s

/-- What follows a word. -/
def readWord (word s : JsString) : Option JsString := if word <+: s then some (s.drop word.length) else none

/-- A word or a number in front, and what follows it. -/
def readConstant (s : JsString) : Option (Json ℚ × JsString) :=
  match readWord (ascii "null") s, readWord (ascii "true") s, readWord (ascii "false") s with
  | some rest, _, _ => some (.null, rest)
  | none, some rest, _ => some (.bool true, rest)
  | none, none, some rest => some (.bool false, rest)
  | none, none, none => (readNumber s).map fun (q, rest) => (.number q, rest)

/-- A key and its colon. -/
def readKey (s : JsString) : Option (JsString × JsString) :=
  match skip s with
  | [] => none
  | c :: s =>
    if c = 0x22 then
      (readString s).bind fun (k, rest) =>
        match skip rest with
        | [] => none
        | c :: rest => if c = 0x3A then some (k, rest) else none
    else none

mutual

/-- `JSON.parse`: the value in front of a text, with its numbers as they stand there, and what follows it. -/
def readValue : (fuel : ℕ) → JsString → Option (Json ℚ × JsString)
  | 0, _ => none
  | fuel + 1, s =>
    match skip s with
    | [] => none
    | c :: s =>
      if c = 0x22 then (readString s).map fun (units, rest) => (.string units, rest)
      else if c = 0x5B then
        if (skip s).head? = some 0x5D then some (.array [], (skip s).tail)
        else (readElements fuel s).map fun (l, rest) => (.array l, rest)
      else if c = 0x7B then
        if (skip s).head? = some 0x7D then some (.object [], (skip s).tail)
        else (readMembers fuel s).map fun (m, rest) => (.object m, rest)
      else readConstant (c :: s)

def readElements : (fuel : ℕ) → JsString → Option (List (Json ℚ) × JsString)
  | 0, _ => none
  | fuel + 1, s =>
    (readValue fuel s).bind fun (v, rest) =>
      match skip rest with
      | [] => none
      | c :: rest =>
        if c = 0x2C then (readElements fuel rest).map fun (l, rest) => (v :: l, rest)
        else if c = 0x5D then some ([v], rest)
        else none

def readMembers : (fuel : ℕ) → JsString → Option (List (JsString × Json ℚ) × JsString)
  | 0, _ => none
  | fuel + 1, s =>
    (readKey s).bind fun (k, rest) =>
      (readValue fuel rest).bind fun (v, rest) =>
        match skip rest with
        | [] => none
        | c :: rest =>
          if c = 0x2C then (readMembers fuel rest).map fun (m, rest) => ((k, v) :: m, rest)
          else if c = 0x7D then some ([(k, v)], rest)
          else none

end

/-- The value of a text, and nothing of a text that is not JSON. -/
def readJson (s : JsString) : Option (Json ℚ) := do
  let (v, rest) ← readValue (s.length + 1) s
  if skip rest = [] then some v else none

namespace Json

/-- The value that `JSON.parse` makes of it. -/
def parsed (v : Json ℚ) : Json Number := v.canon.bind fun q => .number (ofRat q)

end Json

/-- `JSON.parse`, without a result for a syntax error. -/
def parse (s : JsString) : Option (Json Number) := (readJson s).map Json.parsed

/-- A hexadecimal digit is read as the number it was written for. -/
theorem digitOf_hexDigit {d : ℕ} (small : d < 16) : digitOf 16 (hexDigit d) = some d := by
  interval_cases d <;> rfl

/-- The four digits of an escape give back the code unit. -/
theorem readHex_unicodeEscape (c : UInt16) :
    readHex [hexDigit (c.toNat / 4096), hexDigit (c.toNat / 256 % 16), hexDigit (c.toNat / 16 % 16),
      hexDigit (c.toNat % 16)] = some c := by
  have bound : c.toNat < 65536 := c.toNat_lt
  have value : (((c.toNat / 4096) * 16 + c.toNat / 256 % 16) * 16 + c.toNat / 16 % 16) * 16 + c.toNat % 16 = c.toNat := by
    omega
  have d1 := digitOf_hexDigit (show c.toNat / 4096 < 16 by omega)
  have d2 := digitOf_hexDigit (show c.toNat / 256 % 16 < 16 by omega)
  have d3 := digitOf_hexDigit (show c.toNat / 16 % 16 < 16 by omega)
  have d4 := digitOf_hexDigit (show c.toNat % 16 < 16 by omega)
  simp only [readHex, List.mapM_cons, List.mapM_nil, d1, d2, d3, d4, Option.pure_def, Option.bind_eq_bind,
    Option.bind_some, Option.map_some, List.foldl_cons, List.foldl_nil]
  rw [Nat.zero_mul, Nat.zero_add, value, UInt16.ofNat_toNat]

/-- A unit that needs no escape is read as itself. -/
theorem readString_plain {c : UInt16} (quote : c ≠ 0x22) (escape : c ≠ 0x5C) (control : ¬c < 0x20) (t : JsString) :
    readString (c :: t) = consUnit c (readString t) := by
  rw [readString, if_neg quote, if_neg escape, if_neg control]

theorem readString_escape {e u : UInt16} (known : unescape e = some u) (other : e ≠ 0x75) (t : JsString) :
    readString (0x5C :: e :: t) = consUnit u (readString t) := by
  rw [readString, if_neg (by decide), if_pos rfl, readEscape, if_neg other, known, Option.bind_some]

theorem readString_unicode (c : UInt16) (t : JsString) :
    readString (unicodeEscape c ++ t) = consUnit c (readString t) := by
  rw [unicodeEscape, List.cons_append, List.cons_append, readString, if_neg (by decide), if_pos rfl, readEscape,
    if_pos rfl, List.cons_append, List.cons_append, List.cons_append, List.cons_append, List.nil_append, readUnicode,
    readHex_unicodeEscape, Option.bind_some]

/-- However the writer escapes a unit, the reader reads that unit. -/
theorem readString_escapeUnit (c : UInt16) (t : JsString) :
    readString (escapeUnit c ++ t) = consUnit c (readString t) := by
  unfold escapeUnit
  by_cases backspace : c = 0x08
  · rw [if_pos backspace, backspace]
    exact readString_escape rfl (by decide) t
  rw [if_neg backspace]
  by_cases tab : c = 0x09
  · rw [if_pos tab, tab]
    exact readString_escape rfl (by decide) t
  rw [if_neg tab]
  by_cases line : c = 0x0A
  · rw [if_pos line, line]
    exact readString_escape rfl (by decide) t
  rw [if_neg line]
  by_cases feed : c = 0x0C
  · rw [if_pos feed, feed]
    exact readString_escape rfl (by decide) t
  rw [if_neg feed]
  by_cases carriage : c = 0x0D
  · rw [if_pos carriage, carriage]
    exact readString_escape rfl (by decide) t
  rw [if_neg carriage]
  by_cases quote : c = 0x22
  · rw [if_pos quote, quote]
    exact readString_escape rfl (by decide) t
  rw [if_neg quote]
  by_cases backslash : c = 0x5C
  · rw [if_pos backslash, backslash]
    exact readString_escape rfl (by decide) t
  rw [if_neg backslash]
  split
  next => exact readString_unicode c t
  next plain =>
    rw [not_or] at plain
    exact readString_plain quote backslash plain.1 t

/-- Half of a pair is written as it is, and read as it is. -/
theorem readString_surrogate {c : UInt16} (half : isHighSurrogate c = true ∨ isLowSurrogate c = true) (t : JsString) :
    readString (c :: t) = consUnit c (readString t) := by
  have bound : 0xD800 ≤ c.toNat := by
    simp only [isHighSurrogate, isLowSurrogate, Bool.and_eq_true, decide_eq_true_eq, UInt16.le_iff_toNat_le] at half
    rcases half with ⟨lower, _⟩ | ⟨lower, _⟩
    · exact lower
    · exact le_trans (by decide) lower
  have other {d : UInt16} (small : d.toNat < 0xD800) : c ≠ d := by
    rintro rfl
    omega
  refine readString_plain (other (by decide)) (other (by decide)) (fun control => ?_) t
  have below := UInt16.lt_iff_toNat_lt.mp control
  change c.toNat < 32 at below
  omega

/-- The body of a literal is read as the string that was written. -/
theorem readString_quoteBody (second : Bool) (s : JsString)
    (half : second = true → s.head?.any isLowSurrogate = true) (rest : JsString) :
    readString (quoteBody second s ++ 0x22 :: rest) = some (s, rest) := by
  induction s generalizing second with
  | nil => rw [quoteBody, List.nil_append, readString, if_pos rfl]
  | cons c s ih =>
    have next := ih (isHighSurrogate c && s.head?.any isLowSurrogate) fun first => (Bool.and_eq_true_iff.mp first).2
    rw [quoteBody, List.append_assoc]
    split
    next raw =>
      have surrogate : isHighSurrogate c = true ∨ isLowSurrogate c = true := by
        rcases Bool.or_eq_true_iff.mp raw with first | second
        · exact .inl (Bool.and_eq_true_iff.mp first).1
        · exact .inr (half second)
      rw [List.singleton_append, readString_surrogate surrogate, next]
      rfl
    next =>
      rw [readString_escapeUnit, next]
      rfl

/-- A quoted string is read back up to its closing quote, and whatever follows is left. -/
theorem readString_quote (s rest : JsString) : readString ((quote s).tail ++ rest) = some (s, rest) := by
  rw [quote, List.tail_cons, List.append_assoc]
  exact readString_quoteBody false s (fun second => by cases second) rest

/-- The number is a number value, if it is not infinite. -/
def Proper (x : Number) : Prop := ∀ q, x = .finite q → ofRat q = .finite q

/-- The number as it is written. There is no text of an infinite one. -/
def numberJson : Number → Json ℚ
  | .finite x => .number (written x)
  | _ => .null

/-- The decimal text of a number is read as its value, where the text ends. -/
theorem readUnsigned_text {d : Decimal} (wellFormed : d.WellFormed) {rest : JsString} (stops : Stops rest) :
    readUnsigned (d.text ++ rest) = some (d.value, rest) := by
  have int : ¬(d.int = [] ∨ (d.int.head? = some 0x30 ∧ d.int ≠ [0x30]) ∨
      (if d.frac = [] then none else some d.frac) = some []) := by
    rintro (empty | ⟨zero, more⟩ | point)
    · rcases wellFormed.leading with int | ⟨_, _, int, _⟩
      · rw [int] at empty
        cases empty
      · rw [int] at empty
        cases empty
    · rcases wellFormed.leading with int | ⟨c, s, int, nonzero⟩
      · exact more int
      · rw [int] at zero
        exact nonzero (Option.some.inj zero)
    · split at point
      next => cases point
      next some => exact some (Option.some.inj point)
  have fraction : (if d.frac = [] then none else some d.frac).getD [] = d.frac := by
    split
    next whole => exact whole.symm
    next => rfl
  rw [readUnsigned, readDecimal_text wellFormed stops]
  dsimp only [Option.bind_eq_bind, Option.bind_some]
  rw [if_neg int, fraction, Decimal.value]

/-- A number is read as what its text says, which may differ from it by the rounding of the shortest digits. -/
theorem readNumber_toString {x : ℚ} (value : ofRat x = .finite x) {rest : JsString} (stops : Stops rest) :
    readNumber (Number.toString (.finite x) ++ rest) = some (written x, rest) := by
  obtain ⟨d, wellFormed, same, text⟩ := exists_toString value
  obtain ⟨c, s, head, digit⟩ := wellFormed.exists_head
  have read := readUnsigned_text wellFormed stops
  rw [text, ← same]
  by_cases negative : x < 0
  · rw [decide_eq_true negative, if_pos rfl, List.cons_append, List.nil_append, List.cons_append, readNumber,
      List.head?_cons, if_pos rfl, List.tail_cons, read]
    rfl
  · have other : (d.text ++ rest).head? ≠ some 0x2D := by
      rw [head]
      intro minus
      rw [Option.some.inj minus] at digit
      cases digit
    rw [decide_eq_false negative, if_neg Bool.false_ne_true, List.nil_append, readNumber, if_neg other, read]
    rfl

def Spaces (w : JsString) : Prop := ∀ c ∈ w, isJsonSpace c = true

theorem skip_append {w : JsString} (spaces : Spaces w) (s : JsString) : skip (w ++ s) = skip s :=
  List.dropWhile_append_of_pos spaces

theorem skip_cons {c : UInt16} (black : isJsonSpace c = false) (s : JsString) : skip (c :: s) = c :: s :=
  List.dropWhile_cons_of_neg (by simp [black])

/-- The line ends and indents of the writer are white space to the reader. -/
theorem spaces_newline {gap : JsString} (spaces : Spaces gap) (depth : ℕ) : Spaces (newline gap depth) := by
  rw [newline]
  split
  next => exact fun c member => absurd member List.not_mem_nil
  next =>
    refine List.forall_mem_cons.mpr ⟨rfl, fun c member => ?_⟩
    obtain ⟨g, copy, member⟩ := List.mem_flatten.mp member
    exact spaces c (List.eq_of_mem_replicate copy ▸ member)

theorem spaces_colon (gap : JsString) : Spaces (if gap = [] then [] else [0x20]) := by
  split
  next => exact fun c member => absurd member List.not_mem_nil
  next => exact List.forall_mem_singleton.mpr rfl

theorem readWord_append (word rest : JsString) : readWord word (word ++ rest) = some rest := by
  rw [readWord, if_pos (List.prefix_append word rest), List.drop_left]

theorem readWord_eq_none {c d : UInt16} {word s : JsString} (other : c ≠ d) : readWord (c :: word) (d :: s) = none :=
  if_neg fun starts => other (List.cons_prefix_cons.mp starts).1

/-- No number is taken for one of the three words. -/
theorem readConstant_number {x : ℚ} (value : ofRat x = .finite x) {rest : JsString} (stops : Stops rest) :
    ∃ c s, Number.toString (.finite x) = c :: s ∧ (isDigit c = true ∨ c = 0x2D) ∧
      readConstant (c :: (s ++ rest)) = some (.number (written x), rest) := by
  have read := readNumber_toString value stops
  obtain ⟨c, s, head, char⟩ : ∃ c s, Number.toString (.finite x) = c :: s ∧ (isDigit c = true ∨ c = 0x2D) := by
    obtain ⟨d, wellFormed, _, text⟩ := exists_toString value
    obtain ⟨c, s, head, digit⟩ := wellFormed.exists_head
    rw [text, head]
    cases decide (x < 0) with
    | true => exact ⟨0x2D, c :: s, rfl, .inr rfl⟩
    | false => exact ⟨c, s, rfl, .inl digit⟩
  have other {d : UInt16} {word : JsString} (different : isDigit d = false ∧ d ≠ 0x2D) :
      readWord (d :: word) (c :: (s ++ rest)) = none := by
    refine readWord_eq_none ?_
    rintro rfl
    rcases char with digit | minus
    · rw [digit] at different
      cases different.1
    · exact different.2 minus
  refine ⟨c, s, head, char, ?_⟩
  rw [head, List.cons_append] at read
  have null : readWord (ascii "null") (c :: (s ++ rest)) = none := other (by decide)
  have true_ : readWord (ascii "true") (c :: (s ++ rest)) = none := other (by decide)
  have false_ : readWord (ascii "false") (c :: (s ++ rest)) = none := other (by decide)
  rw [readConstant, null, true_, false_, read]
  rfl

theorem readConstant_null (rest : JsString) : readConstant (ascii "null" ++ rest) = some (.null, rest) := by
  rw [readConstant, readWord_append]

theorem readConstant_bool (b : Bool) (rest : JsString) :
    readConstant ((if b then ascii "true" else ascii "false") ++ rest) = some (.bool b, rest) := by
  cases b with
  | true =>
    have null : readWord (ascii "null") (ascii "true" ++ rest) = none := readWord_eq_none (by decide)
    rw [if_pos rfl, readConstant, null, readWord_append]
  | false =>
    have null : readWord (ascii "null") (ascii "false" ++ rest) = none := readWord_eq_none (by decide)
    have other : readWord (ascii "true") (ascii "false" ++ rest) = none := readWord_eq_none (by decide)
    rw [if_neg Bool.false_ne_true, readConstant, null, other, readWord_append]

/-- A unit that begins neither a string nor an array nor an object. -/
theorem readValue_constant {fuel : ℕ} {w s : JsString} (spaces : Spaces w) {c : UInt16} (black : isJsonSpace c = false)
    (other : c ≠ 0x22 ∧ c ≠ 0x5B ∧ c ≠ 0x7B) : readValue (fuel + 1) (w ++ c :: s) = readConstant (c :: s) := by
  rw [readValue, skip_append spaces, skip_cons black]
  dsimp only
  rw [if_neg other.1, if_neg other.2.1, if_neg other.2.2]

theorem stops_of_char {c : UInt16} (char : c = 0x2C ∨ c = 0x5D ∨ c = 0x7D ∨ c = 0x0A) (s : JsString) : Stops (c :: s) := by
  intro d member
  obtain rfl : c = d := Option.some.inj member
  rcases char with rfl | rfl | rfl | rfl <;> decide

/-- Inside an array or an object a number ends where the writer goes on. -/
theorem stops_newline (gap : JsString) (depth : ℕ) {c : UInt16} (char : c = 0x2C ∨ c = 0x5D ∨ c = 0x7D) (s : JsString) :
    Stops (newline gap depth ++ c :: s) := by
  rw [newline]
  split
  next => exact stops_of_char (by tauto) s
  next => exact stops_of_char (by tauto) _

/-- No value begins with white space or with a closing bracket, so an array is not mistaken for the empty one. -/
theorem exists_stringify_head (gap : JsString) (depth : ℕ) {v : Json Number} (proper : v.All Proper) :
    ∃ c s, stringify gap depth v = c :: s ∧ isJsonSpace c = false ∧ c ≠ 0x5D := by
  cases v with
  | null => exact ⟨_, _, by rw [stringify]; rfl, rfl, by decide⟩
  | bool b => cases b <;> exact ⟨_, _, by rw [stringify]; rfl, rfl, by decide⟩
  | number x =>
    cases x with
    | finite x =>
      obtain ⟨c, s, head, char, _⟩ := readConstant_number (proper x rfl) stops_nil
      refine ⟨c, s, by rw [stringify]; exact head, ?_⟩
      rcases char with digit | rfl
      · obtain ⟨d, small, rfl⟩ := exists_digit digit
        interval_cases d <;> decide
      · decide
    | infinity negative => exact ⟨_, _, by rw [stringify]; rfl, rfl, by decide⟩
    | nan => exact ⟨_, _, by rw [stringify]; rfl, rfl, by decide⟩
  | string s => exact ⟨_, _, by rw [stringify, quote], rfl, by decide⟩
  | array l =>
    rw [stringify]
    split
    next => exact ⟨_, _, rfl, rfl, by decide⟩
    next => exact ⟨_, _, rfl, rfl, by decide⟩
  | object m =>
    rw [stringify]
    split
    next => exact ⟨_, _, rfl, rfl, by decide⟩
    next => exact ⟨_, _, rfl, rfl, by decide⟩

theorem readValue_null {w : JsString} (before : Spaces w) (fuel : ℕ) (rest : JsString) :
    readValue (fuel + 1) (w ++ (ascii "null" ++ rest)) = some (.null, rest) :=
  (readValue_constant (c := 0x6E) before rfl (by decide)).trans (readConstant_null rest)

theorem readValue_bool {w : JsString} (before : Spaces w) (fuel : ℕ) (b : Bool) (rest : JsString) :
    readValue (fuel + 1) (w ++ ((if b then ascii "true" else ascii "false") ++ rest)) = some (.bool b, rest) := by
  rw [← readConstant_bool]
  cases b with
  | true => exact readValue_constant (c := 0x74) before rfl (by decide)
  | false => exact readValue_constant (c := 0x66) before rfl (by decide)

theorem readValue_number {w : JsString} (before : Spaces w) (fuel : ℕ) {x : ℚ} (value : ofRat x = .finite x)
    {rest : JsString} (stops : Stops rest) :
    readValue (fuel + 1) (w ++ (Number.toString (.finite x) ++ rest)) = some (.number (written x), rest) := by
  obtain ⟨c, s, head, char, read⟩ := readConstant_number value stops
  have black : isJsonSpace c = false ∧ c ≠ 0x22 ∧ c ≠ 0x5B ∧ c ≠ 0x7B := by
    rcases char with digit | rfl
    · obtain ⟨d, small, rfl⟩ := exists_digit digit
      interval_cases d <;> decide
    · decide
  rw [head, List.cons_append, readValue_constant before black.1 black.2, read]

theorem readValue_string {w : JsString} (before : Spaces w) (fuel : ℕ) (s rest : JsString) :
    readValue (fuel + 1) (w ++ (quote s ++ rest)) = some (.string s, rest) := by
  have read := readString_quote s rest
  rw [quote, List.tail_cons] at read
  rw [quote, List.cons_append, readValue, skip_append before, skip_cons rfl]
  dsimp only
  rw [if_pos rfl, read]
  rfl

theorem readKey_quote {w : JsString} (before : Spaces w) (k rest : JsString) :
    readKey (w ++ (quote k ++ 0x3A :: rest)) = some (k, rest) := by
  have read := readString_quote k (0x3A :: rest)
  rw [quote, List.tail_cons] at read
  rw [quote, List.cons_append, readKey, skip_append before, skip_cons rfl]
  dsimp only
  rw [if_pos rfl, read, Option.bind_some]
  dsimp only
  rw [skip_cons rfl]
  dsimp only
  rw [if_pos rfl]

/-- Some text is written for every value. -/
theorem stringify_length_pos (gap : JsString) (depth : ℕ) {v : Json Number} (proper : v.All Proper) :
    0 < (stringify gap depth v).length := by
  obtain ⟨c, s, head, _⟩ := exists_stringify_head gap depth proper
  rw [head]
  exact Nat.succ_pos _

mutual

/-- What is written for a value is read as the value, with the numbers that are written in it. -/
theorem readValue_stringify {gap : JsString} (spaces : Spaces gap) : (v : Json Number) → v.All Proper →
    ∀ (depth fuel : ℕ) (w rest : JsString), Spaces w → (stringify gap depth v).length < fuel + 2 → Stops rest →
      readValue (fuel + 1) (w ++ (stringify gap depth v ++ rest)) = some (v.bind numberJson, rest)
  | .null, _, _, fuel, w, rest, before, _, _ => by
    rw [stringify]
    exact readValue_null before fuel rest
  | .bool b, _, _, fuel, w, rest, before, _, _ => by
    rw [stringify]
    exact readValue_bool before fuel b rest
  | .number (.finite x), proper, _, fuel, w, rest, before, _, stops => by
    rw [stringify]
    exact readValue_number before fuel (proper x rfl) stops
  | .number (.infinity _), _, _, fuel, w, rest, before, _, _ => by
    rw [stringify]
    exact readValue_null before fuel rest
  | .number .nan, _, _, fuel, w, rest, before, _, _ => by
    rw [stringify]
    exact readValue_null before fuel rest
  | .string s, _, _, fuel, w, rest, before, _, _ => by
    rw [stringify]
    exact readValue_string before fuel s rest
  | .array [], _, _, fuel, w, rest, before, _, _ => by
    rw [stringify, List.isEmpty_nil, if_pos rfl, readValue, skip_append before]
    rfl
  | .array (v :: l), proper, depth, fuel, w, rest, before, enough, _ => by
    have elements := readElements_text spaces (v :: l) proper (List.cons_ne_nil v l) (depth + 1) fuel
      (newline gap depth) rest (spaces_newline spaces depth)
    rw [stringify, List.isEmpty_cons, if_neg Bool.false_ne_true] at enough ⊢
    rw [List.length_cons, List.length_append, List.length_append, List.length_singleton] at enough
    have first : (skip (elementsText gap (depth + 1) (v :: l) ++ (newline gap depth ++ 0x5D :: rest))).head? ≠
        some 0x5D := by
      obtain ⟨c, s, head, black, other⟩ := exists_stringify_head gap (depth + 1) proper.1
      rw [elementsText, head, List.append_assoc, List.append_assoc, skip_append (spaces_newline spaces _),
        List.cons_append, skip_cons black]
      exact fun same => other (Option.some.inj same)
    rw [List.cons_append, List.append_assoc, List.append_assoc, List.singleton_append, readValue, skip_append before,
      skip_cons rfl]
    dsimp only
    rw [if_neg (by decide), if_pos rfl, if_neg first, elements (by omega) (stops_newline gap depth (by decide) rest)]
    rfl
  | .object [], _, _, fuel, w, rest, before, _, _ => by
    rw [stringify, List.isEmpty_nil, if_pos rfl, readValue, skip_append before]
    rfl
  | .object ((k, v) :: m), proper, depth, fuel, w, rest, before, enough, _ => by
    have members := readMembers_text spaces ((k, v) :: m) proper (List.cons_ne_nil _ m) (depth + 1) fuel
      (newline gap depth) rest (spaces_newline spaces depth)
    rw [stringify, List.isEmpty_cons, if_neg Bool.false_ne_true] at enough ⊢
    rw [List.length_cons, List.length_append, List.length_append, List.length_singleton] at enough
    have first : (skip (membersText gap (depth + 1) ((k, v) :: m) ++ (newline gap depth ++ 0x7D :: rest))).head? ≠
        some 0x7D := by
      rw [membersText, quote, List.append_assoc, List.append_assoc, skip_append (spaces_newline spaces _),
        List.cons_append, skip_cons rfl]
      exact fun same => absurd (Option.some.inj same) (by decide)
    rw [List.cons_append, List.append_assoc, List.append_assoc, List.singleton_append, readValue, skip_append before,
      skip_cons rfl]
    dsimp only
    rw [if_neg (by decide), if_neg (by decide), if_pos rfl, if_neg first,
      members (by omega) (stops_newline gap depth (by decide) rest)]
    rfl

/-- The elements of an array are read back to its closing bracket, by induction on the list; every element takes
one unit of the fuel. -/
theorem readElements_text {gap : JsString} (spaces : Spaces gap) : (l : List (Json Number)) → Json.AllElements Proper l →
    l ≠ [] → ∀ (depth fuel : ℕ) (w rest : JsString), Spaces w → (elementsText gap depth l).length < fuel →
      Stops (w ++ 0x5D :: rest) → readElements fuel (elementsText gap depth l ++ (w ++ 0x5D :: rest)) =
        some (Json.bindElements numberJson l, rest)
  | [], _, nonempty, _, _, _, _, _, _, _ => absurd rfl nonempty
  | [v], ⟨first, _⟩, _, depth, fuel, w, rest, before, enough, stops => by
    have value := readValue_stringify spaces v first depth
    have written := stringify_length_pos gap depth first
    rw [elementsText, List.isEmpty_nil, if_pos rfl, List.append_nil] at enough ⊢
    rw [List.length_append] at enough
    obtain ⟨fuel, rfl⟩ := Nat.exists_eq_add_of_le' (show 2 ≤ fuel by omega)
    rw [List.append_assoc, readElements,
      value fuel (newline gap depth) _ (spaces_newline spaces depth) (by omega) stops, Option.bind_some]
    dsimp only
    rw [skip_append before, skip_cons rfl]
    rfl
  | v :: u :: l, ⟨first, proper⟩, _, depth, fuel, w, rest, before, enough, stops => by
    have value := readValue_stringify spaces v first depth
    have elements := readElements_text spaces (u :: l) proper (List.cons_ne_nil u l) depth
    have written := stringify_length_pos gap depth first
    rw [elementsText, List.isEmpty_cons, if_neg Bool.false_ne_true] at enough ⊢
    rw [List.length_append, List.length_append, List.length_cons] at enough
    obtain ⟨fuel, rfl⟩ := Nat.exists_eq_add_of_le' (show 2 ≤ fuel by omega)
    rw [List.append_assoc, List.append_assoc, List.cons_append, readElements,
      value fuel (newline gap depth) _ (spaces_newline spaces depth) (by omega) (stops_of_char (.inl rfl) _),
      Option.bind_some]
    dsimp only
    rw [skip_cons rfl]
    dsimp only
    rw [if_pos rfl, elements (fuel + 1) w rest before (by omega) stops]
    rfl

/-- The members of an object are read back to its closing brace, each with its key. -/
theorem readMembers_text {gap : JsString} (spaces : Spaces gap) : (m : List (JsString × Json Number)) →
    Json.AllMembers Proper m → m ≠ [] → ∀ (depth fuel : ℕ) (w rest : JsString), Spaces w →
      (membersText gap depth m).length < fuel → Stops (w ++ 0x7D :: rest) →
        readMembers fuel (membersText gap depth m ++ (w ++ 0x7D :: rest)) = some (Json.bindMembers numberJson m, rest)
  | [], _, nonempty, _, _, _, _, _, _, _ => absurd rfl nonempty
  | [(k, v)], ⟨first, _⟩, _, depth, fuel, w, rest, before, enough, stops => by
    have value := readValue_stringify spaces v first depth
    have written := stringify_length_pos gap depth first
    rw [membersText, List.isEmpty_nil, if_pos rfl, List.append_nil] at enough ⊢
    simp only [List.length_append, List.length_cons] at enough
    obtain ⟨fuel, rfl⟩ := Nat.exists_eq_add_of_le' (show 2 ≤ fuel by omega)
    rw [List.append_assoc, List.append_assoc, List.cons_append, readMembers,
      readKey_quote (spaces_newline spaces depth), Option.bind_some]
    dsimp only
    rw [List.append_assoc, value fuel _ _ (spaces_colon gap) (by omega) stops, Option.bind_some]
    dsimp only
    rw [skip_append before, skip_cons rfl]
    rfl
  | (k, v) :: e :: m, ⟨first, proper⟩, _, depth, fuel, w, rest, before, enough, stops => by
    have value := readValue_stringify spaces v first depth
    have members := readMembers_text spaces (e :: m) proper (List.cons_ne_nil e m) depth
    have written := stringify_length_pos gap depth first
    rw [membersText, List.isEmpty_cons, if_neg Bool.false_ne_true] at enough ⊢
    simp only [List.length_append, List.length_cons] at enough
    obtain ⟨fuel, rfl⟩ := Nat.exists_eq_add_of_le' (show 2 ≤ fuel by omega)
    rw [List.append_assoc, List.append_assoc, List.cons_append, readMembers,
      readKey_quote (spaces_newline spaces depth), Option.bind_some]
    dsimp only
    rw [List.append_assoc, List.append_assoc, List.cons_append,
      value fuel _ _ (spaces_colon gap) (by omega) (stops_of_char (.inl rfl) _), Option.bind_some]
    dsimp only
    rw [skip_cons rfl]
    dsimp only
    rw [if_pos rfl, members (fuel + 1) w rest before (by omega) stops]
    rfl

end

end Js
end Discovery
