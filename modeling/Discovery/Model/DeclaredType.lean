import Discovery.Model.Config
import Discovery.Model.JsonText
import Mathlib.Algebra.Field.Rat
import Mathlib.Algebra.Group.Nat.Defs
import Mathlib.Data.List.TakeWhile

namespace Discovery

namespace NumberText

/-- The exponent behind its mark. -/
def exponentValue (exponent : GoString) : Int :=
  let (negative, digits) := splitSign (if exponent.tail.head? = some 0x2B then exponent.tail.tail else exponent.tail)
  if negative then -digitsValue digits else digitsValue digits

def value (n : NumberText) : ℚ :=
  let digits := n.fraction.tail
  let scale := exponentValue n.exponent - digits.length
  let magnitude : ℚ := (digitsValue (n.int ++ digits) * 10 ^ scale.toNat : Nat) / (10 ^ (-scale).toNat : Nat)
  if n.sign = [] then magnitude else -magnitude

end NumberText

/-- What the literal of a string body means. -/
def stringValue (body : GoString) : GoString := jsonString (unquoteBody .plain none (body ++ [0x22]))

/-- Groups of four digits, of which the last may be padded. Line ends do not count. -/
def Base64 (s : GoString) : Prop :=
  ∃ digits padding : GoString, s.filter (fun c => c ≠ 0x0A ∧ c ≠ 0x0D) = digits ++ padding ∧
    (∀ c ∈ digits, isBase64 c = true) ∧ (padding = [] ∨ padding = [0x3D] ∨ padding = [0x3D, 0x3D]) ∧
    4 ∣ (digits ++ padding).length

/-- The texts of the values of a declared type. -/
inductive TypedText : GoString → GoString → Prop
  | string {body : GoString} : StringBody body → TypedText varString (quoted body)
  | int (n : NumberText) {i : Int} : n.value = i → -2 ^ 63 ≤ i → i < 2 ^ 63 → TypedText varInt n.text
  | float (n : NumberText) : TypedText varFloat n.text
  | true : TypedText varBool "true"
  | false : TypedText varBool "false"
  | json {text : GoString} : JsonText text → TypedText varJSON text
  | bytes {body : GoString} : StringBody body → Base64 (stringValue body) → TypedText varBytes (quoted body)

/-- A value of its declared type, with white space around it. -/
def TypedValue.HasDeclaredType (v : TypedValue) : Prop :=
  ∃ w text k, Blank w ∧ TypedText v.type text ∧ Blank k ∧ v.value = w ++ text ++ k

/-- A null that declares a type other than json. -/
def TypedValue.IsTypedNull (v : TypedValue) : Prop :=
  v.type ∈ declaredTypes ∧ v.type ≠ varJSON ∧ v.value.length ≤ maxValueBytes ∧ jsonToken v.value = nullToken

theorem not_space_of_digit {c : UInt8} (digit : isDigit c = true) : isJsonSpace c = false := by
  simp only [isDigit, Bool.and_eq_true, decide_eq_true_eq] at digit
  simp only [isJsonSpace, Bool.or_eq_false_iff, decide_eq_false_iff_not]
  grind

theorem FractionText.not_space {s : GoString} (fractional : FractionText s) : ∀ c ∈ s, isJsonSpace c = false := by
  cases fractional with
  | none => exact fun c member => absurd member List.not_mem_nil
  | point _ all => exact List.forall_mem_cons.mpr ⟨rfl, fun c member => not_space_of_digit (all c member)⟩

theorem ExponentText.not_space {s : GoString} (exponential : ExponentText s) : ∀ c ∈ s, isJsonSpace c = false := by
  cases exponential with
  | none => exact fun c member => absurd member List.not_mem_nil
  | @exp e sign digits mark signed _ all =>
    have first : isJsonSpace e = false := by
      rcases mark with rfl | rfl
      · rfl
      · rfl
    have second : ∀ c ∈ sign, isJsonSpace c = false := by
      rcases signed with rfl | rfl | rfl
      · exact fun c member => absurd member List.not_mem_nil
      · exact List.forall_mem_singleton.mpr rfl
      · exact List.forall_mem_singleton.mpr rfl
    exact List.forall_mem_cons.mpr ⟨first, List.forall_mem_append.mpr
      ⟨second, fun c member => not_space_of_digit (all c member)⟩⟩

theorem NumberText.not_space (n : NumberText) : ∀ c ∈ n.text, isJsonSpace c = false := by
  have signed : ∀ c ∈ n.sign, isJsonSpace c = false := by
    rcases n.signed with sign | sign
    · rw [sign]
      exact fun c member => absurd member List.not_mem_nil
    · rw [sign]
      exact List.forall_mem_singleton.mpr rfl
  rw [text, List.forall_mem_append, List.forall_mem_append, List.forall_mem_append]
  exact ⟨⟨⟨signed, fun c member => not_space_of_digit (n.digits c member)⟩, n.fractional.not_space⟩,
    n.exponential.not_space⟩

theorem NumberText.exists_head (n : NumberText) : ∃ c s, n.text = c :: s ∧ (isDigit c = true ∨ c = 0x2D) := by
  rcases n.signed with sign | sign
  · rcases n.leading with int | ⟨c, s, int, _⟩
    · exact ⟨0x30, n.fraction ++ n.exponent, by simp [text, sign, int], .inl (by decide)⟩
    · exact ⟨c, s ++ n.fraction ++ n.exponent, by simp [text, sign, int],
        .inl (n.digits c (int ▸ List.mem_cons_self))⟩
  · exact ⟨0x2D, n.int ++ n.fraction ++ n.exponent, by simp [text, sign], .inr rfl⟩

/-- A text neither begins nor ends with white space. -/
theorem jsonText_bounds {v : GoString} (text : JsonText v) :
    (∃ c s, v = c :: s ∧ isJsonSpace c = false) ∧ ∃ s d, v = s ++ [d] ∧ isJsonSpace d = false := by
  have closed {open_ close : UInt8} {s : GoString} (first : isJsonSpace open_ = false)
      (last : isJsonSpace close = false) : (∃ c t, open_ :: (s ++ [close]) = c :: t ∧ isJsonSpace c = false) ∧
        ∃ t d, open_ :: (s ++ [close]) = t ++ [d] ∧ isJsonSpace d = false :=
    ⟨⟨_, _, rfl, first⟩, open_ :: s, close, rfl, last⟩
  cases text with
  | null => exact ⟨⟨_, _, rfl, rfl⟩, ofString "nul", 0x6C, rfl, rfl⟩
  | true => exact ⟨⟨_, _, rfl, rfl⟩, ofString "tru", 0x65, rfl, rfl⟩
  | false => exact ⟨⟨_, _, rfl, rfl⟩, ofString "fals", 0x65, rfl, rfl⟩
  | number n =>
    obtain ⟨c, s, starts, _⟩ := n.exists_head
    have nonempty : n.text ≠ [] := by rw [starts]; exact List.cons_ne_nil c s
    exact ⟨⟨c, s, starts, n.not_space c (starts ▸ List.mem_cons_self)⟩, n.text.dropLast,
      n.text.getLast nonempty, (List.dropLast_append_getLast nonempty).symm, n.not_space _ (List.getLast_mem nonempty)⟩
  | string => exact closed rfl rfl
  | emptyArray => exact closed rfl rfl
  | array => exact closed rfl rfl
  | emptyObject => exact closed rfl rfl
  | object => exact closed rfl rfl

/-- White space around a value does not belong to its text. -/
theorem jsonToken_eq {w v k : GoString} (before : Blank w) (text : JsonText v) (after : Blank k) :
    jsonToken (w ++ v ++ k) = v := by
  obtain ⟨⟨c, s, starts, first⟩, t, d, ends, last⟩ := jsonText_bounds text
  have front : (w ++ v ++ k).dropWhile isJsonSpace = v ++ k := by
    rw [List.append_assoc, List.dropWhile_append_of_pos before, starts, List.cons_append,
      List.dropWhile_cons_of_neg (by simp [first])]
  have back : (v ++ k).reverse.dropWhile isJsonSpace = v.reverse := by
    have trailing : ∀ c ∈ k.reverse, isJsonSpace c = true := fun c member => after c (List.mem_reverse.mp member)
    rw [List.reverse_append, List.dropWhile_append_of_pos trailing, ends, List.reverse_append, List.reverse_singleton,
      List.singleton_append, List.dropWhile_cons_of_neg (by simp [last])]
  rw [jsonToken, front, back, List.reverse_reverse]

/-- Every text is its value with white space around it. -/
theorem exists_jsonToken (data : GoString) : ∃ w k, Blank w ∧ Blank k ∧ data = w ++ jsonToken data ++ k := by
  have front := List.takeWhile_append_dropWhile (p := isJsonSpace) (l := data)
  have back := List.takeWhile_append_dropWhile (p := isJsonSpace) (l := (data.dropWhile isJsonSpace).reverse)
  refine ⟨data.takeWhile isJsonSpace, ((data.dropWhile isJsonSpace).reverse.takeWhile isJsonSpace).reverse,
    fun _ => List.mem_takeWhile_imp, fun c member => List.mem_takeWhile_imp (List.mem_reverse.mp member), ?_⟩
  rw [jsonToken, List.append_assoc, ← List.reverse_append, back, List.reverse_reverse, front]

/-- The token of valid JSON is the text of a value. -/
theorem jsonText_token {data : GoString} (valid : jsonValid data = true) : JsonText (jsonToken data) := by
  obtain ⟨w, v, k, before, text, after, rfl⟩ := exists_of_jsonValid valid
  rw [jsonToken_eq before text after]
  exact text

theorem jsonValid_null {w k : GoString} (before : Blank w) (after : Blank k) :
    jsonValid (w ++ nullToken ++ k) = true := by
  have waits (state : ScanState) (stays : ∀ c, isJsonSpace c = true → scanStep (state, []) c = some (state, []))
      {s : GoString} (blank : Blank s) : s.foldlM scanStep ((state, []) : Scanner) = some (state, []) := by
    induction s with
    | nil => rfl
    | cons c s ih =>
      obtain ⟨space, rest⟩ := List.forall_mem_cons.mp blank
      rw [List.foldlM_cons, stays c space]
      exact ih rest
  have begins := waits .beginValue (fun c space => by simp [scanStep, scanBeginValue, space]) before
  have ends := waits .endValue (fun c space => by simp [scanStep, scanEndValue, space]) after
  have token : nullToken.foldlM scanStep ((.beginValue, []) : Scanner) = some (.endValue, []) := by decide
  have blank : [0x20].foldlM scanStep ((.endValue, []) : Scanner) = some (.endValue, []) := rfl
  refine decide_eq_true ?_
  rw [List.foldlM_append, List.foldlM_append, List.foldlM_append, begins]
  simp only [Option.bind_eq_bind, Option.bind_some, token, ends, blank]

/-- A text of the grammar that begins with a quote is a string. -/
theorem string_of_head {text s : GoString} (json : JsonText text) (starts : text = 0x22 :: s) :
    ∃ body, StringBody body ∧ text = quoted body := by
  cases json with
  | string body => exact ⟨_, body, rfl⟩
  | number n =>
    obtain ⟨c, t, head, digit⟩ := n.exists_head
    rw [head] at starts
    cases starts
    rcases digit with digit | digit <;> cases digit
  | _ => cases starts

/-- A text of the grammar that begins with a digit or a minus sign is a number. -/
theorem number_of_head {text s : GoString} {c : UInt8} (json : JsonText text) (starts : text = c :: s)
    (digit : isDigit c = true ∨ c = 0x2D) : ∃ n : NumberText, text = n.text := by
  cases json with
  | number n => exact ⟨n, rfl⟩
  | _ =>
    cases starts
    rcases digit with digit | digit <;> cases digit

/-- What is decoded into a string is a string or null. -/
theorem unmarshalString_eq_some {data s : GoString} (read : unmarshalString data = some s) :
    jsonToken data = nullToken ∨
      ∃ body, StringBody body ∧ jsonToken data = quoted body ∧ s = stringValue body := by
  unfold unmarshalString at read
  split at read
  next valid =>
    have json := jsonText_token valid
    split at read
    next c t token =>
      split at read
      next quote =>
        subst quote
        obtain ⟨body, string, text⟩ := string_of_head json token
        rw [token] at text
        cases text
        cases read
        exact .inr ⟨body, string, token, rfl⟩
      next =>
        split at read
        next null => exact .inl (token.trans null)
        next => cases read
    next => cases read
  next => cases read

/-- The sign of a number literal splits off. -/
theorem NumberText.splitSign_text (n : NumberText) :
    splitSign n.text = (decide (n.sign = [0x2D]), n.int ++ n.fraction ++ n.exponent) := by
  rcases n.signed with sign | sign
  · rcases n.leading with int | ⟨c, s, int, _⟩
    · simp [text, sign, int, splitSign]
    · have digit : isDigit c = true := n.digits c (int ▸ List.mem_cons_self)
      have other : c ≠ 0x2D := fun same => by
        rw [same] at digit
        cases digit
      simp [text, sign, int, splitSign, other]
  · simp [text, sign, splitSign]

theorem FractionText.eq_nil {s : GoString} (fractional : FractionText s) (all : Digits s) : s = [] := by
  cases fractional with
  | none => rfl
  | point => cases all 0x2E List.mem_cons_self

theorem ExponentText.eq_nil {s : GoString} (exponential : ExponentText s) (all : Digits s) : s = [] := by
  cases exponential with
  | none => rfl
  | exp mark =>
    have digit := all _ List.mem_cons_self
    rcases mark with rfl | rfl <;> cases digit

/-- A number literal of digits only is an integer. -/
theorem NumberText.value_of_digits (n : NumberText) (all : Digits (n.int ++ n.fraction ++ n.exponent)) :
    n.value = ((if n.sign = [0x2D] then -(digitsValue (n.int ++ n.fraction ++ n.exponent) : Int)
      else digitsValue (n.int ++ n.fraction ++ n.exponent) : Int) : ℚ) := by
  obtain ⟨whole, noExponent⟩ := List.forall_mem_append.mp all
  have noFraction := n.fractional.eq_nil (List.forall_mem_append.mp whole).2
  have noExponent := n.exponential.eq_nil noExponent
  rcases n.signed with sign | sign
  · simp [value, noFraction, noExponent, sign, exponentValue, splitSign, digitsValue]
  · simp [value, noFraction, noExponent, sign, exponentValue, splitSign, digitsValue]

/-- A text with a digit behind its sign is a number. -/
theorem number_of_splitSign {text s : GoString} {c : UInt8} (json : JsonText text)
    (rest : (splitSign text).2 = c :: s) (digit : isDigit c = true) : ∃ n : NumberText, text = n.text := by
  cases text with
  | nil => cases rest
  | cons d t =>
    rw [splitSign] at rest
    split at rest
    next minus => exact number_of_head json rfl (.inr minus)
    next =>
      cases rest
      exact number_of_head json rfl (.inl digit)

/-- What is decoded into an integer is null, or a number without fraction and exponent that fits in 64 bits. -/
theorem unmarshalInt64_eq_some {data : GoString} {i : Int} (read : unmarshalInt64 data = some i) :
    jsonToken data = nullToken ∨
      ∃ n : NumberText, jsonToken data = n.text ∧ n.value = i ∧ -2 ^ 63 ≤ i ∧ i < 2 ^ 63 := by
  unfold unmarshalInt64 at read
  split at read
  next => cases read
  next valid =>
    have json := jsonText_token (by simpa using valid)
    split at read
    next null => exact .inl null
    next =>
      rcases signed : splitSign (jsonToken data) with ⟨negative, digits⟩
      rw [signed] at read
      dsimp only at read
      generalize denoted : (if negative then -(digitsValue digits : Int) else digitsValue digits) = value at read
      split at read
      next whole =>
        obtain ⟨nonempty, all, lower, upper⟩ := whole
        obtain ⟨c, s, rfl⟩ := List.exists_cons_of_ne_nil nonempty
        have digit : Digits (c :: s) := List.all_eq_true.mp all
        obtain ⟨n, text⟩ := number_of_splitSign json (congrArg Prod.snd signed) (digit c List.mem_cons_self)
        rw [text, n.splitSign_text] at signed
        obtain ⟨sign, rest⟩ := Prod.mk.inj signed
        cases read
        refine .inr ⟨n, text, ?_, lower, upper⟩
        rw [n.value_of_digits (rest ▸ digit), rest, ← denoted, ← sign]
        simp
      next => cases read

/-- What is decoded into a float is a number or null. -/
theorem number_of_isFloat {data : GoString} (float : isFloat data = true) :
    jsonToken data = nullToken ∨ ∃ n : NumberText, jsonToken data = n.text := by
  rw [isFloat, Bool.and_eq_true, Bool.or_eq_true] at float
  obtain ⟨valid, null | number⟩ := float
  · exact .inl (of_decide_eq_true null)
  · split at number
    next c s rest =>
      rw [Bool.and_eq_true] at number
      exact .inr (number_of_splitSign (jsonText_token valid) rest number.1)
    next => cases number

/-- Accepted text is of the alphabet, with at most two signs of padding, and fills groups of four. -/
theorem base64_of_groups {s : GoString} (groups : base64Groups s = true) :
    ∃ digits padding : GoString, s = digits ++ padding ∧ (∀ c ∈ digits, isBase64 c = true) ∧
      (padding = [] ∨ padding = [0x3D] ∨ padding = [0x3D, 0x3D]) ∧ 4 ∣ (digits ++ padding).length := by
  fun_induction base64Groups s with
  | case1 => exact ⟨[], [], rfl, fun c member => absurd member List.not_mem_nil, .inl rfl, by decide⟩
  | case2 a b c d =>
    simp only [Bool.and_eq_true, Bool.or_eq_true, decide_eq_true_eq] at groups
    obtain ⟨⟨first, second⟩, ⟨third, fourth | pad⟩ | ⟨pad, pad'⟩⟩ := groups
    · exact ⟨[a, b, c, d], [], rfl, by simp [first, second, third, fourth], .inl rfl, ⟨1, rfl⟩⟩
    · exact ⟨[a, b, c], [d], rfl, by simp [first, second, third], .inr (.inl (by rw [pad])), ⟨1, rfl⟩⟩
    · exact ⟨[a, b], [c, d], rfl, by simp [first, second], .inr (.inr (by rw [pad, pad'])), ⟨1, rfl⟩⟩
  | case3 a b c d s _ ih =>
    simp only [Bool.and_eq_true] at groups
    obtain ⟨⟨⟨⟨first, second⟩, third⟩, fourth⟩, rest⟩ := groups
    obtain ⟨digits, padding, rfl, all, padded, length⟩ := ih rest
    refine ⟨a :: b :: c :: d :: digits, padding, rfl, ?_, padded, ?_⟩
    · simpa [first, second, third, fourth] using all
    · rw [List.length_append] at length
      simp only [List.cons_append, List.length_cons, List.length_append]
      omega
  | case4 => cases groups

/-- What is decoded into a boolean is one of the two words or null. -/
theorem unmarshalBool_eq_some {data : GoString} {b : Bool} (read : unmarshalBool data = some b) :
    jsonToken data = nullToken ∨ jsonToken data = ofString "true" ∨ jsonToken data = ofString "false" := by
  unfold unmarshalBool at read
  split at read
  next => cases read
  split at read
  next token => exact .inr (.inl token)
  split at read
  next token => exact token.elim (.inr ∘ .inr) .inl
  next => cases read

/-- A value that is accepted is a null or of its declared type. -/
theorem TypedValue.typed_of_validate {v : TypedValue} (valid : v.validate = .ok ()) :
    TypedText v.type (jsonToken v.value) ∨ v.type ≠ varJSON ∧ jsonToken v.value = nullToken := by
  have declared := v.type_of_validate valid
  obtain ⟨type, value⟩ := v
  unfold validate at valid
  dsimp only at valid declared ⊢
  split at valid
  next => cases valid
  simp only [declaredTypes, List.mem_cons, List.not_mem_nil, or_false] at declared
  rcases declared with rfl | rfl | rfl | rfl | rfl | rfl
  · rw [if_pos rfl] at valid
    split at valid
    next read =>
      obtain ⟨s, read⟩ := Option.isSome_iff_exists.mp read
      rcases unmarshalString_eq_some read with null | ⟨body, string, token, _⟩
      · exact .inr ⟨by decide, null⟩
      · exact .inl (token ▸ .string string)
    next => cases valid
  · rw [if_neg (by decide), if_pos rfl] at valid
    split at valid
    next read =>
      obtain ⟨i, read⟩ := Option.isSome_iff_exists.mp read
      rcases unmarshalInt64_eq_some read with null | ⟨n, token, integer, lower, upper⟩
      · exact .inr ⟨by decide, null⟩
      · exact .inl (token ▸ .int n integer lower upper)
    next => cases valid
  · rw [if_neg (by decide), if_neg (by decide), if_pos rfl] at valid
    split at valid
    next float =>
      rcases number_of_isFloat float with null | ⟨n, token⟩
      · exact .inr ⟨by decide, null⟩
      · exact .inl (token ▸ .float n)
    next => cases valid
  · rw [if_neg (by decide), if_neg (by decide), if_neg (by decide), if_pos rfl] at valid
    split at valid
    next read =>
      obtain ⟨b, read⟩ := Option.isSome_iff_exists.mp read
      rcases unmarshalBool_eq_some read with null | token | token
      · exact .inr ⟨by decide, null⟩
      · exact .inl (token ▸ .true)
      · exact .inl (token ▸ .false)
    next => cases valid
  · rw [if_neg (by decide), if_neg (by decide), if_neg (by decide), if_neg (by decide), if_pos rfl] at valid
    split at valid
    next json => exact .inl (.json (jsonText_token json))
    next => cases valid
  · rw [if_neg (by decide), if_neg (by decide), if_neg (by decide), if_neg (by decide), if_neg (by decide),
      if_pos rfl] at valid
    split at valid
    next => cases valid
    next s read =>
      split at valid
      next groups =>
        rcases unmarshalString_eq_some read with null | ⟨body, string, token, rfl⟩
        · exact .inr ⟨by decide, null⟩
        · exact .inl (token ▸ .bytes string (base64_of_groups groups))
      next => cases valid

theorem TypedText.json_text {type text : GoString} (typed : TypedText type text) : JsonText text := by
  cases typed with
  | string body => exact .string body
  | int n => exact .number n
  | float n => exact .number n
  | true => exact .true
  | false => exact .false
  | json text => exact text
  | bytes body => exact .string body

/-- The type language says of a value what its token has to look like. -/
theorem TypedValue.hasDeclaredType_iff {v : TypedValue} :
    v.HasDeclaredType ↔ TypedText v.type (jsonToken v.value) := by
  constructor
  · rintro ⟨w, text, k, before, typed, after, value⟩
    rw [value, jsonToken_eq before typed.json_text after]
    exact typed
  · intro typed
    obtain ⟨w, k, before, after, value⟩ := exists_jsonToken v.value
    exact ⟨w, _, k, before, typed, after, value⟩

/-- Null is a value of the type json only. -/
theorem TypedText.type_of_null {type : GoString} (typed : TypedText type nullToken) : type = varJSON := by
  have number {n : NumberText} (null : n.text = nullToken) : False := by
    obtain ⟨c, s, head, digit⟩ := n.exists_head
    rw [head] at null
    cases null
    rcases digit with digit | digit <;> cases digit
  generalize same : nullToken = text at typed
  cases typed with
  | json => rfl
  | int n => exact (number same.symm).elim
  | float n => exact (number same.symm).elim
  | _ => cases same

/-- A typed null is accepted, and it has not the type that it declares. -/
theorem TypedValue.accepted_of_isTypedNull {v : TypedValue} (null : v.IsTypedNull) :
    v.validate = .ok () ∧ ¬v.HasDeclaredType := by
  obtain ⟨declared, other, size, token⟩ := null
  obtain ⟨w, k, before, after, value⟩ := exists_jsonToken v.value
  rw [token] at value
  have valid : jsonValid v.value = true := value ▸ jsonValid_null before after
  refine ⟨?_, fun typed => other (TypedText.type_of_null (token ▸ hasDeclaredType_iff.mp typed))⟩
  have string : unmarshalString v.value = some [] := by
    rw [unmarshalString, if_pos valid, token]
    rfl
  have int : unmarshalInt64 v.value = some 0 := by
    rw [unmarshalInt64, if_neg (by simp [valid]), if_pos token]
  have bool : unmarshalBool v.value = some false := by
    rw [unmarshalBool, if_neg (by simp [valid]), token]
    rfl
  have float : isFloat v.value = true := by simp [isFloat, valid, token]
  obtain ⟨type, value⟩ := v
  unfold validate
  dsimp only at declared other size string int bool float ⊢
  rw [if_neg size.not_gt]
  simp only [declaredTypes, List.mem_cons, List.not_mem_nil, or_false] at declared
  rcases declared with rfl | rfl | rfl | rfl | rfl | rfl
  · rw [if_pos rfl, string]
    rfl
  · rw [if_neg (by decide), if_pos rfl, int]
    rfl
  · rw [if_neg (by decide), if_neg (by decide), if_pos rfl, float]
    rfl
  · rw [if_neg (by decide), if_neg (by decide), if_neg (by decide), if_pos rfl, bool]
    rfl
  · exact absurd rfl other
  · rw [if_neg (by decide), if_neg (by decide), if_neg (by decide), if_neg (by decide), if_neg (by decide),
      if_pos rfl, string]
    rfl

/-- Accepted values have their declared type, the typed nulls apart. -/
theorem TypedValue.validate_sound_iff (v : TypedValue) :
    (v.validate = .ok () → v.HasDeclaredType) ↔ ¬v.IsTypedNull := by
  constructor
  · intro sound null
    obtain ⟨accepted, untyped⟩ := accepted_of_isTypedNull null
    exact untyped (sound accepted)
  · intro other valid
    rcases typed_of_validate valid with typed | ⟨scalar, null⟩
    · exact hasDeclaredType_iff.mpr typed
    · have size : v.value.length ≤ maxValueBytes := by
        by_contra large
        rw [validate] at valid
        dsimp only at valid
        rw [if_pos (not_le.mp large)] at valid
        cases valid
      exact absurd ⟨type_of_validate valid, scalar, size, null⟩ other

/-- A null declared as a string. -/
theorem TypedValue.null_string_accepted : (⟨varString, "null"⟩ : TypedValue).validate = .ok () ∧
    ¬(⟨varString, "null"⟩ : TypedValue).HasDeclaredType :=
  accepted_of_isTypedNull ⟨by decide, by decide, by decide, by decide⟩

end Discovery
