import Discovery.Js.Properties

/-! `lib/configvars.ts`: the conversions between config variables and the rows of the editor. -/

namespace Discovery
namespace Ui

open Js

inductive VarType
  | string
  | int
  | float
  | bool
  | json
  | bytes
  deriving DecidableEq

def VarType.text : VarType → JsString
  | string => ascii "string"
  | int => ascii "int"
  | float => ascii "float"
  | bool => ascii "bool"
  | json => ascii "json"
  | bytes => ascii "bytes"

structure TypedValue (N : Type) where
  type : VarType
  value : Json N

/-- The own properties of an object with typed values. -/
abbrev Vars := List (JsString × TypedValue Number)

structure Row where
  key : JsString
  type : VarType
  val : JsString

inductive Thrown
  | error (message : JsString)
  | syntaxError
  | typeError
  deriving DecidableEq

mutual

/-- `String(value)`. An object with its own `toString`, which is no function, has no text. -/
def toText : Json Number → Except Thrown JsString
  | .null => .ok (ascii "null")
  | .bool b => .ok (if b then ascii "true" else ascii "false")
  | .number x => .ok x.toString
  | .string s => .ok s
  | .array l => joinText l
  | .object m => if (get (ascii "toString") m).isSome then .error .typeError else .ok (ascii "[object Object]")

/-- The elements, separated by commas. -/
def joinText : List (Json Number) → Except Thrown JsString
  | [] => .ok []
  | v :: l => do
    let text ← match v with
      | .null => .ok []
      | v => toText v
    let rest ← joinText l
    return text ++ if l.isEmpty then [] else 0x2C :: rest

end

/-- Renders a value into an editable string. -/
def tvToStr (tv : TypedValue Number) : Except Thrown JsString :=
  match tv.type, tv.value with
  | .json, v => .ok (stringify (ascii "  ") 0 v)
  | _, .null => .ok []
  | _, v => toText v

/-- Parses an editor string back into a value. -/
def strToTypedValue (type : VarType) (s : JsString) : Except Thrown (TypedValue Number) :=
  match type with
  | .int => if isWhole (trim s) then .ok ⟨type, .number (parseInt s)⟩ else .error (.error (ascii "not a whole number"))
  | .float =>
    let f := stringToNumber s
    if f = .nan then .error (.error (ascii "not a number")) else .ok ⟨type, .number f⟩
  | .bool => .ok ⟨type, .bool (s = ascii "true")⟩
  | .json => match parse s with
    | some v => .ok ⟨type, v⟩
    | none => .error .syntaxError
  | .bytes => .ok ⟨type, .string s⟩
  | .string => .ok ⟨.string, .string s⟩

section
variable (localeCompare : JsString → JsString → Ordering)

def varsToRows (vars : Vars) : Except Thrown (List Row) :=
  (vars.mergeSort fun a b => (localeCompare a.1 b.1).isLE).mapM fun (key, tv) => do
    let val ← tvToStr tv
    return { key, type := tv.type, val }

/-- `out[k] = tv`. A key `__proto__` sets the prototype and no property. -/
def assign (k : JsString) (tv : TypedValue Number) (out : Vars) : Vars :=
  if k = ascii "__proto__" then out else put k tv out

def assignRow (out : Vars) (r : Row) : Except Thrown Vars :=
  let k := trim r.key
  if k = [] then .ok out
  else do
    let tv ← strToTypedValue r.type r.val
    return assign k tv out

def rowsToVars (rows : List Row) : Except Thrown Vars := rows.foldlM assignRow []

/-- The trimmed key, the type and the text of each row that has a key. -/
def edits (rows : List Row) : List (JsString × VarType × JsString) :=
  (rows.map fun r => (trim r.key, r.type, r.val)).filter fun e => e.1 ≠ []

def editJson (e : JsString × VarType × JsString) : Json Number := .array [.string e.1, .string e.2.1.text, .string e.2.2]

/-- An order-independent fingerprint of the edits. -/
def rowsSignature (rows : List Row) : JsString :=
  stringify [] 0 (.array (((edits rows).mergeSort fun a b => (localeCompare a.1 b.1).isLE).map editJson))

end

/-- A map of variables as the server stores and serves it, with the numbers that stand in the texts of its values. -/
structure VarMap where
  entries : List (JsString × TypedValue ℚ)
  distinct : (entries.map Prod.fst).Nodup

def TypedValue.received (tv : TypedValue ℚ) : TypedValue Number := ⟨tv.type, tv.value.parsed⟩

/-- The object that the editor makes of the response. -/
def VarMap.received (m : VarMap) : Vars := m.entries.foldl (fun vars e => put e.1 e.2.received vars) []

/-- The value in the body of a request, as the server reads it. -/
def sent (v : Json Number) : Option (Json ℚ) := readJson (stringify [] 0 v)

/-- Values that the server does not tell apart. It reads the value of a float as a `float64`. -/
def SameValue (type : VarType) (v v' : Json ℚ) : Prop :=
  if type = .float then v.parsed = v'.parsed else v.canon = v'.canon

/-- A variable of the editor with the type and the value that it has on the server. -/
def Same (a : TypedValue ℚ) (b : TypedValue Number) : Prop :=
  b.type = a.type ∧ ∃ v, sent b.value = some v ∧ SameValue a.type a.value v

/-- The rows of a map give the keys, types and values of the map. -/
def Kept (localeCompare : JsString → JsString → Ordering) (m : VarMap) : Prop :=
  ∃ rows out, varsToRows localeCompare m.received = .ok rows ∧ rowsToVars rows = .ok out ∧
    ∀ k, Option.Rel Same (get k m.entries) (get k out)

/-- A key that is neither trimmed nor taken for another property. -/
def KeepsKey (k : JsString) : Prop := trim k = k ∧ k ≠ [] ∧ k ≠ ascii "__proto__"

/-- A value that is neither null nor rounded. -/
def KeepsValue (tv : TypedValue ℚ) : Prop :=
  match tv.type with
  | .string | .bytes => ∃ s, tv.value = .string s
  | .bool => ∃ b, tv.value = .bool b
  | .float => ∃ q x, tv.value = .number q ∧ ofRat q = .finite x
  | .int => ∃ i : ℤ, tv.value = .number i ∧ (ofRat i).toString = integerText i
  | .json => tv.value.canon.All fun q => ∃ x, ofRat q = .finite x ∧ written x = q

/-- Reading a JSON text changes no string, boolean or null, and makes none of another value. -/
theorem canon_eq_string {N : Type} {v : Json N} {s : JsString} (same : v.canon = .string s) : v = .string s := by
  cases v <;> cases same
  rfl

theorem canon_eq_bool {N : Type} {v : Json N} {b : Bool} (same : v.canon = .bool b) : v = .bool b := by
  cases v <;> cases same
  rfl

theorem canon_eq_number {N : Type} {v : Json N} {n : N} (same : v.canon = .number n) : v = .number n := by
  cases v <;> cases same
  rfl

theorem canon_eq_null {N : Type} {v : Json N} (same : v.canon = .null) : v = .null := by
  cases v <;> cases same
  rfl

/-- A value that is read as a number stands for one, or nothing does. -/
theorem parsed_cases {v : Json ℚ} {x : Number} (same : v.parsed = (numberJson x).parsed) :
    v = .null ∨ ∃ q y, v = .number q ∧ x = .finite y ∧ ofRat q = ofRat (written y) := by
  cases x with
  | nan => cases v <;> cases same; exact .inl rfl
  | infinity => cases v <;> cases same; exact .inl rfl
  | finite y =>
    cases v with
    | number q => exact .inr ⟨q, y, rfl, rfl, Json.number.inj same⟩
    | null => cases same
    | bool => cases same
    | string => cases same
    | array => cases same
    | object => cases same

/-- What is read as a number is a number value. -/
theorem proper_stringToNumber (s : JsString) : Proper (stringToNumber s) := by
  intro x value
  rw [stringToNumber] at value
  dsimp only at value
  split at value
  next =>
    rw [← Number.finite.inj value]
    exact ofRat_zero
  split at value
  next => exact ofRat_idem value
  split at value
  next => cases value
  split at value
  next =>
    split at value
    next => cases value
    next => exact ofRat_idem value
  next => cases value

/-- `parseInt` returns a value of the format, or none. -/
theorem proper_parseInt (s : JsString) : Proper (parseInt s) := by
  intro x value
  rw [parseInt] at value
  dsimp only at value
  split at value
  next => cases value
  next => exact ofRat_idem value

theorem spaces_nil : Spaces [] := fun _ member => absurd member List.not_mem_nil

/-- What a value has become when the server receives it: each number is read from the text that the browser has
written. -/
theorem sent_eq {v : Json Number} (proper : v.All Proper) : sent v = some (v.bind numberJson) :=
  readJson_stringify spaces_nil proper

/-- The text of a number has no white space around it. -/
theorem trim_toString {x : ℚ} (value : ofRat x = .finite x) :
    trim (Number.toString (.finite x)) = Number.toString (.finite x) := by
  obtain ⟨d, wellFormed, _, text⟩ := exists_toString value
  refine trim_eq_self ?_
  rw [text, List.forall_mem_append]
  refine ⟨?_, fun c member => (isNumberChar_decimal wellFormed c member).not_space⟩
  split
  next => exact List.forall_mem_singleton.mpr rfl
  next => exact fun c member => absurd member List.not_mem_nil

/-- The value is the same after it was rendered and parsed. -/
def Survives (tv : TypedValue ℚ) : Prop :=
  ∃ s b, tvToStr tv.received = .ok s ∧ strToTypedValue tv.type s = .ok b ∧ Same tv b

theorem sent_string (s : JsString) : sent (.string s) = some (.string s) := sent_eq (v := .string s) trivial

theorem sent_number {x : Number} (proper : Proper x) : sent (.number x) = some (numberJson x) :=
  sent_eq (v := .number x) proper

theorem sent_bool (b : Bool) : sent (.bool b) = some (.bool b) := sent_eq (v := .bool b) trivial

/-- A variable of type string or bytes survives the editor exactly when it holds a string. -/
theorem survives_text {type : VarType} (textual : type = .string ∨ type = .bytes) {v : Json ℚ} :
    Survives ⟨type, v⟩ ↔ ∃ s, v = .string s := by
  constructor
  · rintro ⟨s, b, _, parsed, _, w, read, same⟩
    have value : b.value = .string s := by
      rcases textual with rfl | rfl
      · cases parsed
        rfl
      · cases parsed
        rfl
    rw [value, sent_string] at read
    cases read
    rcases textual with rfl | rfl
    · exact ⟨s, canon_eq_string same⟩
    · exact ⟨s, canon_eq_string same⟩
  · rintro ⟨s, rfl⟩
    rcases textual with rfl | rfl
    · exact ⟨s, _, rfl, rfl, rfl, _, sent_string s, rfl⟩
    · exact ⟨s, _, rfl, rfl, rfl, _, sent_string s, rfl⟩

/-- One of type bool exactly when it holds a boolean. -/
theorem survives_bool {v : Json ℚ} : Survives ⟨.bool, v⟩ ↔ ∃ b, v = .bool b := by
  constructor
  · rintro ⟨s, b, _, parsed, _, w, read, same⟩
    cases parsed
    rw [sent_bool] at read
    cases read
    exact ⟨_, canon_eq_bool same⟩
  · rintro ⟨b, rfl⟩
    refine ⟨if b then ascii "true" else ascii "false", _, rfl, rfl, rfl, _, sent_bool _, ?_⟩
    cases b <;> rfl

/-- One of type float exactly when its number is not too large for the browser. -/
theorem survives_float {v : Json ℚ} : Survives ⟨.float, v⟩ ↔ ∃ q x, v = .number q ∧ ofRat q = .finite x := by
  constructor
  · rintro ⟨s, b, text, parsed, _, w, read, same⟩
    rw [strToTypedValue] at parsed
    split at parsed
    next => cases parsed
    next =>
      cases parsed
      have proper := proper_stringToNumber s
      rw [sent_number proper] at read
      cases read
      rcases parsed_cases same with rfl | ⟨q, y, rfl, value, number⟩
      · cases text
        cases same
      · rw [ofRat_written (proper y value)] at number
        exact ⟨q, y, rfl, number⟩
  · rintro ⟨q, x, rfl, value⟩
    have proper := ofRat_idem value
    have text : tvToStr (TypedValue.received ⟨.float, .number q⟩) = .ok (Number.toString (.finite x)) := by
      rw [← value]
      rfl
    refine ⟨_, ⟨.float, .number (.finite x)⟩, text, ?_, rfl, _, sent_number (fun _ same => ?_), ?_⟩
    · rw [strToTypedValue, stringToNumber_toString proper]
      rfl
    · rw [← Number.finite.inj same]
      exact proper
    · show Json.number (ofRat q) = .number (ofRat (written x))
      rw [ofRat_written proper, value]

/-- One of type int exactly when the browser prints its number in the digits it was stored with. -/
theorem survives_int {v : Json ℚ} :
    Survives ⟨.int, v⟩ ↔ ∃ i : ℤ, v = .number i ∧ (ofRat i).toString = integerText i := by
  constructor
  · rintro ⟨s, b, text, parsed, _, w, read, same⟩
    rw [strToTypedValue] at parsed
    split at parsed
    next whole =>
      cases parsed
      have proper := proper_parseInt s
      rw [sent_number proper] at read
      cases read
      change v.canon = (numberJson (parseInt s)).canon at same
      cases value : parseInt s with
      | finite x =>
        rw [value] at same
        obtain rfl := canon_eq_number same
        have number := ofRat_written (proper x value)
        have digits : s = Number.toString (.finite x) := by
          rw [← number]
          exact (Except.ok.inj text).symm
        rw [digits, trim_toString (proper x value)] at whole
        obtain ⟨i, shown, integer, _⟩ := written_of_isWhole (proper x value) whole
        refine ⟨i, congrArg Json.number integer, ?_⟩
        rw [← integer, number, shown]
      | infinity =>
        rw [value] at same
        obtain rfl := canon_eq_null same
        cases text
        cases whole
      | nan =>
        rw [value] at same
        obtain rfl := canon_eq_null same
        cases text
        cases whole
    next => cases parsed
  · rintro ⟨i, rfl, digits⟩
    obtain ⟨x, value, integer⟩ := written_of_integerText digits
    have proper := ofRat_idem value
    have text : tvToStr (TypedValue.received ⟨.int, .number i⟩) = .ok (Number.toString (.finite x)) := by
      rw [← value]
      rfl
    have whole : isWhole (Number.toString (.finite x)) = true := by
      rw [← value, digits]
      exact isWhole_integerText i
    obtain ⟨_, _, _, read⟩ := written_of_isWhole proper whole
    refine ⟨_, ⟨.int, .number (.finite x)⟩, text, ?_, rfl, .number (written x), ?_, ?_⟩
    · rw [strToTypedValue, trim_toString proper, if_pos whole, read]
    · refine sent_number fun _ same => ?_
      rw [← Number.finite.inj same]
      exact proper
    · rw [integer]
      rfl

/-- A number comes back unchanged exactly when it is the value that the shortest digits of some float denote. -/
theorem rewritten_eq_self_iff {q : ℚ} : rewritten q = .number q ↔ ∃ x, ofRat q = .finite x ∧ written x = q := by
  rw [rewritten]
  cases value : ofRat q with
  | finite x =>
    constructor
    · intro same
      exact ⟨x, rfl, Json.number.inj same⟩
    · rintro ⟨y, same, exact_⟩
      cases same
      exact congrArg Json.number exact_
  | infinity =>
    constructor
    · intro same
      cases same
    · rintro ⟨y, same, _⟩
      cases same
  | nan =>
    constructor
    · intro same
      cases same
    · rintro ⟨y, same, _⟩
      cases same

/-- One of type json exactly when all numbers in it come back, at every depth. -/
theorem survives_json {v : Json ℚ} :
    Survives ⟨.json, v⟩ ↔ v.canon.All fun q => ∃ x, ofRat q = .finite x ∧ written x = q := by
  have spaces : Spaces (ascii "  ") := List.forall_mem_cons.mpr ⟨rfl, List.forall_mem_singleton.mpr rfl⟩
  have parsed : parse (stringify (ascii "  ") 0 v.parsed) = some (v.canon.bind rewritten).parsed := by
    rw [parse, readJson_stringify spaces (all_parsed v), parsed_bind]
    rfl
  have received : sent (v.canon.bind rewritten).parsed = some (v.canon.bind rewritten) := by
    rw [sent_eq (all_parsed _), parsed_rewritten]
  have same : SameValue .json v (v.canon.bind rewritten) ↔
      v.canon.All fun q => ∃ x, ofRat q = .finite x ∧ written x = q := by
    rw [← funext fun q => propext (rewritten_eq_self_iff (q := q)), ← Json.bind_eq_self_iff, eq_comm]
    rw [SameValue, if_neg (by decide), Json.canon_of_canonical _ (canonical_rewritten v)]
  rw [← same]
  constructor
  · rintro ⟨s, b, text, read, _, w, body, kept⟩
    cases text
    rw [strToTypedValue] at read
    dsimp only [TypedValue.received] at read
    rw [parsed] at read
    cases read
    rw [received] at body
    cases body
    exact kept
  · intro kept
    refine ⟨_, ⟨.json, (v.canon.bind rewritten).parsed⟩, rfl, ?_, rfl, _, received, kept⟩
    rw [strToTypedValue]
    dsimp only [TypedValue.received]
    rw [parsed]

/-- A variable is the same after it was rendered and parsed exactly if it is neither null nor rounded. -/
theorem survives_iff (tv : TypedValue ℚ) : Survives tv ↔ KeepsValue tv := by
  obtain ⟨type, v⟩ := tv
  cases type with
  | string => exact survives_text (.inl rfl)
  | int => exact survives_int
  | float => exact survives_float
  | bool => exact survives_bool
  | json => exact survives_json
  | bytes => exact survives_text (.inr rfl)

end Ui
end Discovery
