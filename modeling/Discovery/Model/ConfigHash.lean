import Discovery.Model.Marshal

namespace Discovery

theorem hexChar_ascii : ∀ n < 16, hexChar n < 0x80 ∧ hexChar n ≠ 0 := by decide

theorem mem_hexEncode {s : GoString} {c : UInt8} (member : c ∈ hexEncode s) : c < 0x80 ∧ c ≠ 0 := by
  obtain ⟨b, _, digit⟩ := List.mem_flatMap.mp member
  have small := b.toNat_lt
  simp only [List.mem_cons, List.not_mem_nil, or_false] at digit
  rcases digit with rfl | rfl
  · exact hexChar_ascii _ (by omega)
  · exact hexChar_ascii _ (by omega)

theorem hexEncode_injective : Function.Injective hexEncode := by
  intro s
  induction s with
  | nil =>
    intro t same
    cases t with
    | nil => rfl
    | cons b t => cases same
  | cons a s ih =>
    intro t same
    cases t with
    | nil => cases same
    | cons b t =>
      have smallA := a.toNat_lt
      have smallB := b.toNat_lt
      obtain ⟨high, rest⟩ := List.cons.inj same
      obtain ⟨low, rest⟩ := List.cons.inj rest
      have high := congrArg hexDigit high
      have low := congrArg hexDigit low
      rw [hexDigit_hexChar _ (by omega), hexDigit_hexChar _ (by omega)] at high low
      have bytes : a = b := UInt8.toNat_inj.mp (by omega)
      rw [bytes, ih rest]

theorem jsonString_of_ascii {s : GoString} (ascii : ∀ c ∈ s, c < 0x80) : jsonString s = s := by
  induction s with
  | nil => rfl
  | cons b s ih =>
    obtain ⟨first, rest⟩ := List.forall_mem_cons.mp ascii
    have width := runeWidth_ascii first s
    have tail : jsonStringFrom 0 s = s := ih rest
    simp only [jsonString, jsonStringFrom, width, tail]

theorem jsonString_hexEncode (s : GoString) : jsonString (hexEncode s) = hexEncode s :=
  jsonString_of_ascii fun _ member => (mem_hexEncode member).1

variable {sha256 : GoString → GoString}

theorem zero_notMem_of_declared {type : GoString} (declared : type ∈ declaredTypes) : (0 : UInt8) ∉ type := by
  have none : ∀ type ∈ declaredTypes, (0 : UInt8) ∉ type := by decide
  exact none type declared

theorem jsonString_of_declared {type : GoString} (declared : type ∈ declaredTypes) : jsonString type = type := by
  have clean : ∀ type ∈ declaredTypes, jsonString type = type := by decide
  exact clean type declared

theorem jsonString_hashValue (v : TypedValue) : jsonString (hashValue sha256 v) = hashValue sha256 v :=
  jsonString_hexEncode _

theorem zero_notMem_hashValue (v : TypedValue) : (0 : UInt8) ∉ hashValue sha256 v :=
  fun member => (mem_hexEncode member).2 rfl

/-- Values of declared types have one hash only if they are the same. -/
theorem hashValue_inj (injective : Function.Injective sha256) {v w : TypedValue}
    (left : v.type ∈ declaredTypes) (right : w.type ∈ declaredTypes) (same : hashValue sha256 v = hashValue sha256 w) :
    v = w := by
  have hashed := injective (hexEncode_injective same)
  obtain ⟨types, values⟩ := PrefixCode.delimits_terminated (0 : UInt8) v.type (zero_notMem_of_declared left) w.type
    (zero_notMem_of_declared right) v.value w.value (by simpa using hashed)
  obtain ⟨_, _⟩ := v
  obtain ⟨_, _⟩ := w
  dsimp only at types values
  rw [types, values]

end Discovery
