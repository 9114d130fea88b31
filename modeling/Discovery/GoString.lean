import Mathlib.Data.List.Basic
import Mathlib.Data.List.Infix
import Mathlib.Tactic.Common

namespace Discovery

/-- A Go string is a byte sequence. Text decoded from a JSON body is valid UTF-8, a path or
query value need not be. -/
abbrev GoString := List UInt8

scoped instance : LawfulBEq GoString := List.instLawfulBEq

def ofString (s : String) : GoString :=
  s.toList.flatMap String.utf8EncodeChar

instance : Coe String GoString := ⟨ofString⟩

def slash : UInt8 := 0x2F

/-- A byte inside the encoding of a rune. -/
def isCont (b : UInt8) : Bool := 0x80 ≤ b && b < 0xC0

/-- The number of bytes that `unicode/utf8` reads a rune of from its first byte on, 0 where no rune begins with
it. -/
def leadWidth (b : UInt8) : Nat :=
  if b < 0x80 then 1
  else if b < 0xC2 then 0
  else if b < 0xE0 then 2
  else if b < 0xF0 then 3
  else if b < 0xF5 then 4
  else 0

/-- The second byte of a long encoding has a narrower range after E0, ED, F0 and F4. -/
def secondFits (b : UInt8) : GoString → Bool
  | [] => true
  | c :: _ =>
    if b = 0xE0 then 0xA0 ≤ c
    else if b = 0xED then c < 0xA0
    else if b = 0xF0 then 0x90 ≤ c
    else if b = 0xF4 then c < 0x90
    else true

/-- Width of the rune at the head, 0 where `utf8.DecodeRune` reports an invalid byte. -/
def runeWidth : GoString → Nat
  | [] => 0
  | b :: s =>
    let tail := s.take (leadWidth b - 1)
    if tail.length + 1 = leadWidth b && tail.all isCont && secondFits b tail then leadWidth b else 0

/-- Whether a rune is valid is decided by the bytes that its first byte asks for. -/
theorem runeWidth_congr {b : UInt8} {s t : GoString}
    (same : s.take (leadWidth b - 1) = t.take (leadWidth b - 1)) :
    runeWidth (b :: s) = runeWidth (b :: t) := by
  simp only [runeWidth, same]

theorem runeWidth_pos {b : UInt8} {s : GoString} {w : Nat} (width : runeWidth (b :: s) = w + 1) :
    leadWidth b = w + 1 ∧ w ≤ s.length := by
  simp only [runeWidth] at width
  split at width
  next cond =>
    simp only [Bool.and_eq_true, decide_eq_true_eq, List.length_take] at cond
    omega
  next => omega

theorem leadWidth_ascii {b : UInt8} (ascii : b < 0x80) : leadWidth b = 1 := by
  simp only [leadWidth, ascii, if_true]

/-- Bytes below 0x80 are runes of their own. -/
theorem runeWidth_ascii {b : UInt8} (ascii : b < 0x80) (s : GoString) :
    runeWidth (b :: s) = 1 := by
  simp [runeWidth, leadWidth_ascii ascii, secondFits]

/-- The encoder's loop; `n` counts the bytes of the current rune still to copy. -/
def jsonStringFrom : Nat → GoString → GoString
  | _, [] => []
  | n + 1, b :: s => b :: jsonStringFrom n s
  | 0, b :: s =>
    match runeWidth (b :: s) with
    | 0 => 0xEF :: 0xBF :: 0xBD :: jsonStringFrom 0 s
    | w + 1 => b :: jsonStringFrom w s

/-- A string marshalled and unmarshalled again: each invalid byte has become U+FFFD. -/
def jsonString (s : GoString) : GoString := jsonStringFrom 0 s

def ValidUTF8 (s : GoString) : Prop := jsonString s = s

instance (s : GoString) : Decidable (ValidUTF8 s) :=
  inferInstanceAs (Decidable (jsonString s = s))

theorem jsonStringFrom_take (n : Nat) (s : GoString) :
    (jsonStringFrom n s).take n = s.take n := by
  induction s generalizing n with
  | nil => cases n <;> rfl
  | cons b s ih =>
    cases n with
    | zero => rfl
    | succ n => simp only [jsonStringFrom, List.take_succ_cons, ih]

theorem jsonStringFrom_idem (n : Nat) (s : GoString) :
    jsonStringFrom n (jsonStringFrom n s) = jsonStringFrom n s := by
  induction s generalizing n with
  | nil => cases n <;> rfl
  | cons b s ih =>
    cases n with
    | succ n => simp only [jsonStringFrom, ih]
    | zero =>
      cases width : runeWidth (b :: s) with
      | zero =>
        have replacement (t : GoString) : runeWidth (0xEF :: 0xBF :: 0xBD :: t) = 3 := rfl
        simp only [jsonStringFrom, width, replacement, ih]
      | succ w =>
        -- the copied bytes of the rune are the ones its width was read from
        have lead := (runeWidth_pos width).1
        have again : runeWidth (b :: jsonStringFrom w s) = w + 1 := by
          rw [← width]
          apply runeWidth_congr
          rw [lead, Nat.add_sub_cancel, jsonStringFrom_take]
        simp only [jsonStringFrom, width, again, ih]

/-- What was encoded once is valid UTF-8 and is not changed again. -/
@[simp] theorem jsonString_idem (s : GoString) : jsonString (jsonString s) = jsonString s :=
  jsonStringFrom_idem 0 s

/-- The encoder neither drops nor adds an ASCII byte. -/
theorem jsonStringFrom_mem_ascii {b : UInt8} (ascii : b < 0x80) (n : Nat) (s : GoString) :
    b ∈ jsonStringFrom n s ↔ b ∈ s := by
  induction s generalizing n with
  | nil => cases n <;> rfl
  | cons c s ih =>
    cases n with
    | succ n => simp only [jsonStringFrom, List.mem_cons, ih]
    | zero =>
      cases width : runeWidth (c :: s) with
      | succ w => simp only [jsonStringFrom, width, List.mem_cons, ih]
      | zero =>
        have differs : b ≠ c := by
          rintro rfl
          rw [runeWidth_ascii ascii] at width
          exact absurd width (by decide)
        have above : b ≠ 0xEF ∧ b ≠ 0xBF ∧ b ≠ 0xBD := by
          refine ⟨?_, ?_, ?_⟩ <;> rintro rfl <;> exact absurd ascii (by decide)
        simp only [jsonStringFrom, width, List.mem_cons, ih, differs, above, false_or]

/-- Marshalling neither adds nor removes a slash. -/
theorem slash_mem_jsonString {s : GoString} : slash ∈ jsonString s ↔ slash ∈ s :=
  jsonStringFrom_mem_ascii (by decide) 0 s

/-- It changes a string only by putting in replacement characters. -/
theorem jsonStringFrom_eq_or_mem (n : Nat) (s : GoString) :
    jsonStringFrom n s = s ∨ 0xEF ∈ jsonStringFrom n s := by
  induction s generalizing n with
  | nil => cases n <;> exact Or.inl rfl
  | cons b s ih =>
    cases n with
    | succ n =>
      rcases ih n with same | replaced
      · exact Or.inl (by rw [jsonStringFrom, same])
      · exact Or.inr (List.mem_cons_of_mem _ replaced)
    | zero =>
      cases width : runeWidth (b :: s) with
      | zero => exact Or.inr (by simp only [jsonStringFrom, width, List.mem_cons, true_or])
      | succ w =>
        simp only [jsonStringFrom, width]
        rcases ih w with same | replaced
        · exact Or.inl (by rw [same])
        · exact Or.inr (List.mem_cons_of_mem _ replaced)

/-- A string that marshals to text without EF bytes, such as an ASCII word, is that text. -/
theorem eq_of_jsonString_eq {s word : GoString} (plain : (0xEF : UInt8) ∉ word)
    (same : jsonString s = word) : s = word := by
  rcases jsonStringFrom_eq_or_mem 0 s with unchanged | replaced
  · exact unchanged.symm.trans same
  · exact absurd (same ▸ replaced) plain

/-- No rune reaches over a byte that begins another one. -/
theorem runeWidth_append_lead {c : UInt8} (lead : isCont c = false) (b : UInt8) (s t : GoString) :
    runeWidth (b :: (s ++ c :: t)) = runeWidth (b :: s) := by
  by_cases long : leadWidth b - 1 ≤ s.length
  · apply runeWidth_congr
    rw [List.take_append_of_le_length long]
  · -- the new byte falls among those that would have to continue the rune
    have short : s.take (leadWidth b - 1) = s := List.take_of_length_le (by omega)
    have cut : runeWidth (b :: s) = 0 := by
      simp only [runeWidth, short]
      rw [if_neg]
      simp only [Bool.and_eq_true, decide_eq_true_eq]
      omega
    rw [cut, runeWidth, if_neg]
    have member : c ∈ (s ++ c :: t).take (leadWidth b - 1) := by
      rw [List.take_append, List.mem_append]
      right
      obtain ⟨n, hn⟩ : ∃ n, leadWidth b - 1 - s.length = n + 1 := ⟨leadWidth b - 1 - s.length - 1, by omega⟩
      rw [hn]
      exact List.mem_cons_self
    simp only [Bool.and_eq_true, List.all_eq_true]
    intro all
    exact Bool.false_ne_true (lead.symm.trans (all.1.2 c member))

/-- So a string can be encoded in two pieces there. -/
theorem jsonStringFrom_append_lead {c : UInt8} (lead : isCont c = false) (n : Nat) (s t : GoString)
    (within : n ≤ s.length) :
    jsonStringFrom n (s ++ c :: t) = jsonStringFrom n s ++ jsonString (c :: t) := by
  induction s generalizing n with
  | nil =>
    obtain rfl : n = 0 := Nat.le_zero.mp within
    rfl
  | cons b s ih =>
    cases n with
    | succ n =>
      have rest := ih n (Nat.le_of_succ_le_succ within)
      simp only [List.cons_append, jsonStringFrom, rest]
    | zero =>
      have same := runeWidth_append_lead lead b s t
      cases width : runeWidth (b :: s) with
      | zero =>
        have rest := ih 0 (Nat.zero_le _)
        simp only [List.cons_append, jsonStringFrom, same, width, rest]
      | succ w =>
        have rest := ih w (runeWidth_pos width).2
        simp only [List.cons_append, jsonStringFrom, same, width, rest]

/-- A byte that does not continue a rune starts a new one, so what comes before it is marshalled on
its own. -/
theorem jsonString_append_lead {c : UInt8} (lead : isCont c = false) (s t : GoString) :
    jsonString (s ++ c :: t) = jsonString s ++ jsonString (c :: t) :=
  jsonStringFrom_append_lead lead 0 s t (Nat.zero_le _)

/-- A slash ends a rune, so the parts of a key are marshalled on their own. -/
theorem jsonString_append_slash (s t : GoString) :
    jsonString (s ++ slash :: t) = jsonString s ++ slash :: jsonString t := by
  have width : runeWidth (slash :: t) = 1 := runeWidth_ascii (by decide) t
  rw [jsonString_append_lead (by decide)]
  simp only [jsonString, jsonStringFrom, width]

/-- The encodings of the runes `unicode.IsSpace` accepts. -/
def spaceRunes : List GoString :=
  [[0x09], [0x0A], [0x0B], [0x0C], [0x0D], [0x20], [0xC2, 0x85], [0xC2, 0xA0], [0xE1, 0x9A, 0x80],
   [0xE2, 0x80, 0x80], [0xE2, 0x80, 0x81], [0xE2, 0x80, 0x82], [0xE2, 0x80, 0x83],
   [0xE2, 0x80, 0x84], [0xE2, 0x80, 0x85], [0xE2, 0x80, 0x86], [0xE2, 0x80, 0x87],
   [0xE2, 0x80, 0x88], [0xE2, 0x80, 0x89], [0xE2, 0x80, 0x8A], [0xE2, 0x80, 0xA8],
   [0xE2, 0x80, 0xA9], [0xE2, 0x80, 0xAF], [0xE2, 0x81, 0x9F], [0xE3, 0x80, 0x80]]

/-- Drops whole encodings in `runes` off the head; `n` counts bytes of the current one. -/
def dropRunes (runes : List GoString) : Nat → GoString → GoString
  | _, [] => []
  | n + 1, _ :: s => dropRunes runes n s
  | 0, b :: s =>
    match runes.find? (·.isPrefixOf (b :: s)) with
    | some rune => dropRunes runes (rune.length - 1) s
    | none => b :: s

/-- A rune is a space at the end of a string exactly if the string ends in its encoding, so the
right end is trimmed by the reversed encodings. -/
def trimSpace (s : GoString) : GoString :=
  (dropRunes (spaceRunes.map List.reverse) 0 (dropRunes spaceRunes 0 s).reverse).reverse

theorem dropRunes_suffix (runes : List GoString) (n : Nat) (s : GoString) : dropRunes runes n s <:+ s := by
  induction s generalizing n with
  | nil => cases n <;> exact List.suffix_rfl
  | cons b s ih =>
    cases n with
    | succ n => exact (ih n).trans (List.suffix_cons b s)
    | zero =>
      simp only [dropRunes]
      split
      · exact (ih _).trans (List.suffix_cons b s)
      · exact List.suffix_rfl

/-- What is left begins with none of the runes. -/
theorem not_prefix_dropRunes {runes : List GoString} (n : Nat) {s rune : GoString} (nonempty : [] ∉ runes)
    (member : rune ∈ runes) : ¬rune <+: dropRunes runes n s := by
  induction s generalizing n with
  | nil =>
    have stop : dropRunes runes n [] = [] := by cases n <;> rfl
    rw [stop, List.prefix_nil]
    exact fun empty => nonempty (empty ▸ member)
  | cons b s ih =>
    cases n with
    | succ n => exact ih n
    | zero =>
      simp only [dropRunes]
      split
      next found => exact ih _
      next missed =>
        intro here
        exact absurd (List.isPrefixOf_iff_prefix.mpr here) (List.find?_eq_none.mp missed rune member)

theorem dropRunes_of_not_prefix {runes : List GoString} {s : GoString}
    (none : ∀ rune ∈ runes, ¬rune <+: s) : dropRunes runes 0 s = s := by
  cases s with
  | nil => rfl
  | cons b s =>
    have missed : runes.find? (·.isPrefixOf (b :: s)) = Option.none :=
      List.find?_eq_none.mpr fun rune member here => none rune member (List.isPrefixOf_iff_prefix.mp here)
    simp only [dropRunes, missed]

/-- What is trimmed has no white space at its ends. -/
theorem trimSpace_idem (s : GoString) : trimSpace (trimSpace s) = trimSpace s := by
  have left : [] ∉ spaceRunes := by decide
  have right : [] ∉ spaceRunes.map List.reverse := by decide
  have inner : trimSpace s <+: dropRunes spaceRunes 0 s := by
    have back := dropRunes_suffix (spaceRunes.map List.reverse) 0 (dropRunes spaceRunes 0 s).reverse
    simpa only [trimSpace, List.reverse_reverse] using List.reverse_prefix.mpr back
  have start : dropRunes spaceRunes 0 (trimSpace s) = trimSpace s :=
    dropRunes_of_not_prefix fun rune member here => not_prefix_dropRunes 0 left member (here.trans inner)
  have stop : dropRunes (spaceRunes.map List.reverse) 0 (trimSpace s).reverse = (trimSpace s).reverse := by
    apply dropRunes_of_not_prefix
    intro rune member
    rw [trimSpace, List.reverse_reverse]
    exact not_prefix_dropRunes 0 right member
  rw [trimSpace, start, stop, List.reverse_reverse]

/-- What survives the loss of one of the runes survives all of them. -/
theorem dropRunes_induction {P : GoString → Prop} {runes : List GoString} (nonempty : [] ∉ runes)
    (drop : ∀ rune ∈ runes, ∀ s, P (rune ++ s) → P s) (n : Nat) {s : GoString} (start : P (s.drop n)) :
    P (dropRunes runes n s) := by
  induction s generalizing n with
  | nil => cases n <;> exact start
  | cons b s ih =>
    cases n with
    | succ n => exact ih n start
    | zero =>
      simp only [dropRunes]
      split
      next rune found =>
        have member := List.mem_of_find?_eq_some found
        have first : rune.isPrefixOf (b :: s) = true := by simpa using List.find?_some found
        obtain ⟨t, whole⟩ := List.isPrefixOf_iff_prefix.mp first
        have rest : s.drop (rune.length - 1) = t := by
          cases rune with
          | nil => exact absurd member nonempty
          | cons c rune =>
            obtain rfl : rune ++ t = s := (List.cons.inj whole).2
            exact List.drop_left
        apply ih
        rw [rest]
        exact drop rune member t (whole ▸ start)
      next => exact start

/-- White space is encoded as it is, also where it has more than one byte. -/
theorem jsonString_space_append {rune : GoString} (space : rune ∈ spaceRunes) (s : GoString) :
    jsonString (rune ++ s) = rune ++ jsonString s := by
  simp only [spaceRunes, List.mem_cons, List.not_mem_nil, or_false] at space
  rcases space with rfl | rfl | rfl | rfl | rfl | rfl | rfl | rfl | rfl | rfl | rfl | rfl | rfl | rfl |
    rfl | rfl | rfl | rfl | rfl | rfl | rfl | rfl | rfl | rfl | rfl <;> rfl

/-- Trimming a valid string cuts between its runes. -/
theorem ValidUTF8.trimSpace {s : GoString} (valid : ValidUTF8 s) : ValidUTF8 (trimSpace s) := by
  have left : ValidUTF8 (dropRunes spaceRunes 0 s) := by
    refine dropRunes_induction (by decide) (fun rune space t whole => ?_) 0 valid
    rw [ValidUTF8, jsonString_space_append space] at whole
    exact List.append_cancel_left whole
  let P (t : GoString) : Prop := ValidUTF8 t.reverse
  have right : P (dropRunes (spaceRunes.map List.reverse) 0 (dropRunes spaceRunes 0 s).reverse) := by
    refine dropRunes_induction (by decide) (fun reversed member t whole => ?_) 0 ?_
    · obtain ⟨rune, space, rfl⟩ := List.mem_map.mp member
      have lead : ∀ rune ∈ spaceRunes, rune ≠ [] ∧ isCont (rune.headD 0) = false := by decide
      cases rune with
      | nil => exact absurd rfl (lead [] space).1
      | cons c rest =>
        simp only [P, List.reverse_append, List.reverse_reverse] at whole ⊢
        have starts : isCont c = false := (lead (c :: rest) space).2
        have alone : jsonString (c :: rest) = c :: rest := by
          simpa [jsonString, jsonStringFrom] using jsonString_space_append space []
        rw [ValidUTF8, jsonString_append_lead starts, alone] at whole
        exact List.append_cancel_right whole
    · simpa only [P, List.drop_zero, List.reverse_reverse] using left
  exact right

/-- `strings.ContainsAny` for a set of ASCII characters. -/
def containsAny (s chars : GoString) : Bool := s.any (chars.contains ·)

end Discovery
