import Discovery.Model.Json
namespace Discovery

/-- The text of the value, without the white space around it. -/
def jsonToken (data : GoString) : GoString :=
  ((data.dropWhile isJsonSpace).reverse.dropWhile isJsonSpace).reverse

def hexDigit (c : UInt8) : Nat :=
  if isDigit c then c.toNat - 0x30
  else if 0x61 ≤ c then c.toNat - 0x61 + 10
  else c.toNat - 0x41 + 10

def replacement : GoString := [0xEF, 0xBF, 0xBD]

/-- A lone surrogate half becomes U+FFFD. -/
def encodeRune (r : Nat) : GoString :=
  if 0xD800 ≤ r ∧ r < 0xE000 then replacement else String.utf8EncodeChar (Char.ofNat r)

def unescape (c : UInt8) : UInt8 :=
  if c = 0x62 then 0x08 else if c = 0x66 then 0x0C else if c = 0x6E then 0x0A
  else if c = 0x72 then 0x0D else if c = 0x74 then 0x09 else c

/-- Where the reader of a string literal stands: between characters, after a backslash, or among the
digits of a `\u` escape. -/
inductive UnquoteState
  | plain
  | esc
  | hex (left acc : Nat)

/-- The body of a string literal, up to its closing quote. `high` is the first half of a surrogate
pair whose second half has not been read. -/
def unquoteBody : UnquoteState → (high : Option Nat) → GoString → GoString
  | _, high, [] => if high.isSome then replacement else []
  | .plain, high, c :: s =>
    let before := if high.isSome then replacement else []
    if c = 0x22 then before
    else if c = 0x5C then unquoteBody .esc high s
    else before ++ c :: unquoteBody .plain none s
  | .esc, high, c :: s =>
    let before := if high.isSome then replacement else []
    if c = 0x75 then unquoteBody (.hex 4 0) high s
    else before ++ unescape c :: unquoteBody .plain none s
  | .hex left acc, high, c :: s =>
    let r := acc * 16 + hexDigit c
    let before := if high.isSome then replacement else []
    if 1 < left then unquoteBody (.hex (left - 1) r) high s
    else if 0xD800 ≤ r ∧ r < 0xDC00 then before ++ unquoteBody .plain (some r) s
    else match high with
      | none => encodeRune r ++ unquoteBody .plain none s
      | some h =>
        if 0xDC00 ≤ r ∧ r < 0xE000 then
          encodeRune ((h - 0xD800) * 0x400 + (r - 0xDC00) + 0x10000) ++ unquoteBody .plain none s
        else replacement ++ encodeRune r ++ unquoteBody .plain none s

def nullToken : GoString := "null"

/-- `json.Unmarshal` into a string. Here and below a null leaves the variable as it is, which is its zero value. -/
def unmarshalString (data : GoString) : Option GoString :=
  if jsonValid data then
    match jsonToken data with
    | c :: s =>
      if c = 0x22 then some (jsonString (unquoteBody .plain none s))
      else if c :: s = nullToken then some [] else none
    | [] => none
  else none

/-- `json.Unmarshal` into a boolean. -/
def unmarshalBool (data : GoString) : Option Bool :=
  if !jsonValid data then none
  else if jsonToken data = ofString "true" then some true
  else if jsonToken data = ofString "false" ∨ jsonToken data = nullToken then some false
  else none

def digitsValue (digits : GoString) : Nat := digits.foldl (fun n c => n * 10 + (c.toNat - 0x30)) 0

/-- The sign of a number literal and what follows it. -/
def splitSign : GoString → Bool × GoString
  | [] => (false, [])
  | c :: s => if c = 0x2D then (true, s) else (false, c :: s)

/-- `json.Unmarshal` into an `int64`: whole numbers that it holds. -/
def unmarshalInt64 (data : GoString) : Option Int :=
  if !jsonValid data then none
  else if jsonToken data = nullToken then some 0
  else
    let (negative, digits) := splitSign (jsonToken data)
    let value : Int := if negative then -digitsValue digits else digitsValue digits
    if digits ≠ [] ∧ digits.all isDigit ∧ -2 ^ 63 ≤ value ∧ value < 2 ^ 63 then some value else none

/-- A number literal that does not round to an infinite `float64`. -/
def floatFits (literal : GoString) : Bool :=
  let body := (splitSign literal).2
  let int := body.takeWhile isDigit
  let rest := body.dropWhile isDigit
  let frac := if rest.head? = some 0x2E then rest.tail.takeWhile isDigit else []
  let expText := (rest.dropWhile (fun c => c ≠ 0x65 ∧ c ≠ 0x45)).tail
  let (negative, expDigits) := splitSign (if expText.head? = some 0x2B then expText.tail else expText)
  let exp : Int := if negative then -digitsValue expDigits else digitsValue expDigits
  let scale := exp - frac.length
  let mantissa := digitsValue (int ++ frac)
  let bound := 2 ^ 1024 - 2 ^ 970
  if 0 ≤ scale then mantissa * 10 ^ scale.toNat < bound else mantissa < bound * 10 ^ (-scale).toNat

/-- Whether `json.Unmarshal` into a `float64` succeeds. -/
def isFloat (data : GoString) : Bool :=
  jsonValid data && (jsonToken data = nullToken ||
    match (splitSign (jsonToken data)).2 with
    | c :: _ => isDigit c && floatFits (jsonToken data)
    | [] => false)

/-- The alphabet of `base64.StdEncoding`. -/
def isBase64 (c : UInt8) : Bool :=
  isDigit c || (0x41 ≤ c && c ≤ 0x5A) || (0x61 ≤ c && c ≤ 0x7A) || c = 0x2B || c = 0x2F

def base64Groups : GoString → Bool
  | [] => true
  | [a, b, c, d] =>
    isBase64 a && isBase64 b && ((isBase64 c && (isBase64 d || d = 0x3D)) || (c = 0x3D && d = 0x3D))
  | a :: b :: c :: d :: s => isBase64 a && isBase64 b && isBase64 c && isBase64 d && base64Groups s
  | _ => false

/-- Whether `DecodeString` accepts the text. It skips line ends. -/
def base64Valid (s : GoString) : Bool := base64Groups (s.filter (fun c => c ≠ 0x0A ∧ c ≠ 0x0D))

end Discovery
