import Discovery.Ui.ConfigEditor

/-! `diffVars` of `lib/configvars.ts`: what the revision history shows of two sets of variables. -/

namespace Discovery
namespace Ui
open Js

inductive VarDiffKind
  | added
  | changed
  | removed
  | same
  deriving DecidableEq

/-- The properties that every object inherits. -/
def objectPrototype : List JsString :=
  [ascii "constructor", ascii "__defineGetter__", ascii "__defineSetter__", ascii "hasOwnProperty",
    ascii "__lookupGetter__", ascii "__lookupSetter__", ascii "isPrototypeOf", ascii "propertyIsEnumerable",
    ascii "toString", ascii "valueOf", ascii "__proto__", ascii "toLocaleString"]

/-- What a property gives: a variable, or what is inherited under this name. -/
inductive Property
  | own (tv : TypedValue Number)
  | inherited (name : JsString)

structure VarDiff where
  key : JsString
  kind : VarDiffKind
  before : Option Property
  after : Option Property

/-- `o[key]`, and nothing where `key in o` is false. -/
def property (o : Vars) (key : JsString) : Option Property :=
  match get key o with
  | some tv => some (.own tv)
  | none => if key ∈ objectPrototype then some (.inherited key) else none

def TypedValue.json (tv : TypedValue Number) : Json Number :=
  .object [(ascii "type", .string tv.type.text), (ascii "value", tv.value)]

/-- `JSON.stringify`. Functions have no text; the prototype, which `__proto__` gives, has no enumerable properties. -/
def Property.text : Property → Option JsString
  | .own tv => some (stringify [] 0 tv.json)
  | .inherited name => if name = ascii "__proto__" then some (ascii "\x7b\x7d") else none

def diffVar (b a : Vars) (key : JsString) : VarDiff :=
  match property b key, property a key with
  | none, some after => { key, kind := .added, before := none, after := some after }
  | some before, none => { key, kind := .removed, before := some before, after := none }
  | before, after =>
    let same := before.bind Property.text = after.bind Property.text
    { key, kind := if same then .same else .changed, before, after }

def diffVars (localeCompare : JsString → JsString → Ordering) (before after : Option Vars) : List VarDiff :=
  let b := before.getD []
  let a := after.getD []
  let keys := (b.map Prod.fst ++ a.map Prod.fst).eraseDups.mergeSort fun x y => (localeCompare x y).isLE
  keys.map (diffVar b a)

theorem numberText_eq {x : Number} (proper : Proper x) (gap : JsString) (depth : ℕ) :
    stringify gap depth ((numberJson x).bind fun q => .number (ofRat q)) = numberText x := by
  cases x with
  | finite y =>
    show numberText (ofRat (written y)) = _
    rw [ofRat_written (proper y rfl)]
  | infinity => rfl
  | nan => rfl

mutual

/-- The text of a value is that of what is read back of it. -/
theorem stringify_read (gap : JsString) (depth : ℕ) : (v : Json Number) → v.All Proper →
    stringify gap depth ((v.bind numberJson).bind fun q => .number (ofRat q)) = stringify gap depth v
  | .null, _ => rfl
  | .bool _, _ => rfl
  | .number _, proper => numberText_eq proper gap depth
  | .string _, _ => rfl
  | .array l, proper => by
    have texts := elementsText_read gap (depth + 1) l proper
    cases l with
    | nil => rfl
    | cons v l => exact congrArg (fun s => 0x5B :: (s ++ newline gap depth ++ [0x5D])) texts
  | .object m, proper => by
    have texts := membersText_read gap (depth + 1) m proper
    cases m with
    | nil => rfl
    | cons e m => exact congrArg (fun s => 0x7B :: (s ++ newline gap depth ++ [0x7D])) texts

theorem elementsText_read (gap : JsString) (depth : ℕ) : (l : List (Json Number)) → Json.AllElements Proper l →
    elementsText gap depth (Json.bindElements (fun q => .number (ofRat q)) (Json.bindElements numberJson l)) =
      elementsText gap depth l
  | [], _ => rfl
  | v :: l, ⟨first, rest⟩ => by
    have here := stringify_read gap depth v first
    have there := elementsText_read gap depth l rest
    rw [Json.bindElements, Json.bindElements, elementsText, elementsText, here]
    cases l with
    | nil => rfl
    | cons w l => rw [there]; rfl

theorem membersText_read (gap : JsString) (depth : ℕ) : (m : List (JsString × Json Number)) →
    Json.AllMembers Proper m →
    membersText gap depth (Json.bindMembers (fun q => .number (ofRat q)) (Json.bindMembers numberJson m)) =
      membersText gap depth m
  | [], _ => rfl
  | (k, v) :: m, ⟨first, rest⟩ => by
    have here := stringify_read gap depth v first
    have there := membersText_read gap depth m rest
    rw [Json.bindMembers, Json.bindMembers, membersText, membersText, here]
    cases m with
    | nil => rfl
    | cons e m => rw [there]; rfl

end

/-- Two values have the same text exactly if the server reads the same from them. -/
theorem stringify_inj {v w : Json Number} (left : v.All Proper) (right : w.All Proper) :
    stringify [] 0 v = stringify [] 0 w ↔ sent v = sent w := by
  constructor
  · exact fun same => congrArg readJson same
  · intro same
    rw [sent_eq left, sent_eq right] at same
    rw [← stringify_read [] 0 v left, ← stringify_read [] 0 w right, Option.some.inj same]

/-- Variables of the same type that the editor would send back as the same value. It has rounded the numbers
of both to doubles. -/
def SameSent (a b : TypedValue ℚ) : Prop := a.type = b.type ∧ sent a.value.parsed = sent b.value.parsed

theorem text_received (a b : TypedValue ℚ) :
    (Property.own a.received).text = (Property.own b.received).text ↔ SameSent a b := by
  have proper (c : TypedValue ℚ) : c.received.json.All Proper := ⟨trivial, all_parsed c.value, trivial⟩
  rw [Property.text, Property.text, Option.some_inj, stringify_inj (proper a) (proper b), sent_eq (proper a),
    sent_eq (proper b), SameSent, sent_eq (all_parsed _), sent_eq (all_parsed _)]
  constructor
  · intro same
    have members := List.cons.inj (Json.object.inj (Option.some.inj same))
    have type := Json.string.inj (Prod.mk.inj members.1).2
    have value := (Prod.mk.inj (List.cons.inj members.2).1).2
    exact ⟨VarType.text_injective type, congrArg some value⟩
  · rintro ⟨type, value⟩
    have object := congrArg₂ (fun t v => some (Json.object (N := ℚ)
      [(ascii "type", .string (VarType.text t)), (ascii "value", v)])) type (Option.some.inj value)
    exact object

/-- What the server has under a key, or nothing where there is no revision. -/
def stored (m : Option VarMap) (key : JsString) : Option (TypedValue ℚ) := m.bind fun m => get key m.entries

/-- Variables of the same type, with values that the server does not tell apart. -/
def SameStored (a b : TypedValue ℚ) : Prop := a.type = b.type ∧ SameValue a.type a.value b.value

theorem SameStored.sent {a b : TypedValue ℚ} (same : SameStored a b) : SameSent a b := by
  obtain ⟨type, value⟩ := same
  refine ⟨type, congrArg Ui.sent ?_⟩
  rw [SameValue] at value
  split at value
  next => exact value
  next => exact congrArg (Json.bind fun q => .number (ofRat q)) value

/-- The difference says of the key what the two maps on the server say of it: a variable is the same in both
exactly if the stored ones are. -/
def Right (before after : Option VarMap) (d : VarDiff) : Prop :=
  d.before = (stored before d.key).map (fun tv => .own tv.received) ∧
  d.after = (stored after d.key).map (fun tv => .own tv.received) ∧
  match stored before d.key, stored after d.key with
  | none, none => False
  | none, some _ => d.kind = .added
  | some _, none => d.kind = .removed
  | some b, some a => (d.kind = .same ↔ SameStored b a) ∧ (d.kind = .changed ↔ ¬SameStored b a)

/-- Two stored values of the key that differ differ as the browser reads them, too. -/
def ToldApart (before after : Option VarMap) (key : JsString) : Prop :=
  ∀ b, stored before key = some b → ∀ a, stored after key = some a → SameSent b a → SameStored b a

theorem get_received (m : Option VarMap) (key : JsString) :
    get key ((m.map VarMap.received).getD []) = (stored m key).map TypedValue.received := by
  cases m with
  | none => rfl
  | some m =>
    show get key m.received = (get key m.entries).map TypedValue.received
    rw [VarMap.received, get_foldl_put m.distinct]
    cases get key m.entries <;> rfl

theorem property_received (m : Option VarMap) (key : JsString) :
    property ((m.map VarMap.received).getD []) key = match stored m key with
      | some tv => some (.own tv.received)
      | none => if key ∈ objectPrototype then some (.inherited key) else none := by
  rw [property, get_received]
  cases stored m key <;> rfl

theorem mem_keys {m : Vars} {key : JsString} : key ∈ m.map Prod.fst ↔ (get key m).isSome := by
  induction m with
  | nil => exact iff_of_false List.not_mem_nil nofun
  | cons e m ih =>
    rw [List.map_cons, List.mem_cons, ih, Js.get]
    split
    · next same => exact iff_of_true (Or.inl same) rfl
    · next other => exact or_iff_right other

theorem nodup_eraseDups {α : Type} [BEq α] [LawfulBEq α] (l : List α) : l.eraseDups.Nodup := by
  induction n : l.length using Nat.strong_induction_on generalizing l with
  | _ n ih =>
    cases l with
    | nil => exact List.nodup_nil
    | cons a l =>
      rw [List.eraseDups_cons, List.nodup_cons, List.mem_eraseDups]
      refine ⟨fun member => ?_, ih _ ?_ _ rfl⟩
      · have other := List.of_mem_filter member
        rw [beq_self_eq_true] at other
        cases other
      · rw [← n, List.length_cons]
        exact Nat.lt_succ_of_le (List.length_filter_le _ l)

variable {localeCompare : JsString → JsString → Ordering} {before after : Option VarMap}

theorem keys_diffVars (b a : Option Vars) : (diffVars localeCompare b a).map VarDiff.key =
    ((b.getD []).map Prod.fst ++ (a.getD []).map Prod.fst).eraseDups.mergeSort fun x y => (localeCompare x y).isLE := by
  have named (b a : Vars) (key : JsString) : (diffVar b a key).key = key := by
    rw [diffVar]
    split <;> rfl
  rw [diffVars, List.map_map]
  exact (List.map_congr_left fun key _ => named _ _ key).trans (List.map_id _)

theorem mem_diffKeys {key : JsString} :
    key ∈ (diffVars localeCompare (before.map VarMap.received) (after.map VarMap.received)).map VarDiff.key ↔
      (stored before key).isSome ∨ (stored after key).isSome := by
  rw [keys_diffVars, List.mem_mergeSort, List.mem_eraseDups, List.mem_append, mem_keys, mem_keys, get_received,
    get_received, Option.isSome_map, Option.isSome_map]

theorem mem_diffVars {d : VarDiff} :
    d ∈ diffVars localeCompare (before.map VarMap.received) (after.map VarMap.received) ↔
      ∃ key, ((stored before key).isSome ∨ (stored after key).isSome) ∧
        diffVar ((before.map VarMap.received).getD []) ((after.map VarMap.received).getD []) key = d := by
  rw [diffVars, List.mem_map]
  refine exists_congr fun key => and_congr_left fun _ => ?_
  rw [← keys_diffVars]
  exact mem_diffKeys

/-- The difference of a key is right unless one of the maps has a variable under the name of an inherited property
and the other has not, or both have variables of which the browser sees no difference. -/
theorem right_diffVar {key : JsString} (listed : (stored before key).isSome ∨ (stored after key).isSome) :
    Right before after (diffVar ((before.map VarMap.received).getD []) ((after.map VarMap.received).getD []) key) ↔
      (key ∈ objectPrototype → (stored before key).isSome = (stored after key).isSome) ∧
        ToldApart before after key := by
  rw [diffVar, property_received, property_received, ToldApart]
  cases old : stored before key with
  | none =>
    cases new : stored after key with
    | none =>
      rw [old, new] at listed
      exact absurd listed (by decide)
    | some w =>
      by_cases inherited : key ∈ objectPrototype
      · refine iff_of_false (fun right => ?_) fun same => by cases same.1 inherited
        have nothing := right.1
        simp [inherited, old] at nothing
      · refine iff_of_true ?_ ⟨fun found => absurd found inherited, nofun⟩
        simp [Right, inherited, old, new]
  | some v =>
    cases new : stored after key with
    | none =>
      by_cases inherited : key ∈ objectPrototype
      · refine iff_of_false (fun right => ?_) fun same => by cases same.1 inherited
        have nothing := right.2.1
        simp [inherited, new] at nothing
      · refine iff_of_true ?_ ⟨fun found => absurd found inherited, nofun⟩
        simp [Right, inherited, old, new]
    | some w =>
      have texts := text_received v w
      have apart : (∀ b, some v = some b → ∀ a, some w = some a → SameSent b a → SameStored b a) ↔
          (SameSent v w → SameStored v w) := by simp
      have both : key ∈ objectPrototype → (some v).isSome = (some w).isSome := fun _ => rfl
      rw [apart, and_iff_right both]
      by_cases same : SameSent v w
      · rw [forall_prop_of_true same]
        simp [Right, old, new, texts.mpr same]
      · have differ : ¬SameStored v w := fun stored => same stored.sent
        refine iff_of_true ?_ fun sent => absurd sent same
        simp [Right, old, new, mt texts.mp same, differ]

/-- A variable that a revision adds under such a name is shown as changed, and one that it counts on from `2 ^ 53` as
the same. -/
example : (diffVar [] [(ascii "valueOf", ⟨.bool, .bool true⟩)] (ascii "valueOf")).kind = .changed ∧
    (diffVar [(ascii "n", TypedValue.received ⟨.int, .number (2 ^ 53)⟩)]
      [(ascii "n", TypedValue.received ⟨.int, .number (2 ^ 53 + 1)⟩)] (ascii "n")).kind = .same := by
  decide +kernel

end Ui
end Discovery
