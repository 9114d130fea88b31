import Discovery.Model.ConfigKeys
import Discovery.Model.Quote

/-! The Prometheus text exposition format, and what it reads of labels printed with `%q`. -/

namespace Discovery

structure Sample where
  name : GoString
  labels : List (GoString × GoString) := []
  value : Int
  deriving DecidableEq

namespace Exposition

/-- Where the reader stands in a line. -/
inductive Mode
  | line
  | comment
  | name
  | labels
  | label
  | assign
  | value
  | escape
  | next
  | gap
  | number
  | failed
  deriving DecidableEq

/-- What was read so far: the samples of the finished lines and the parts of the current one. -/
structure Reader where
  mode : Mode := .line
  samples : List Sample := []
  name : GoString := []
  labels : List (GoString × GoString) := []
  label : GoString := []
  value : GoString := []
  number : GoString := []
  deriving DecidableEq

def letter (b : UInt8) : Bool := (0x61 ≤ b && b ≤ 0x7A) || (0x41 ≤ b && b ≤ 0x5A) || b == 0x5F

def digit (b : UInt8) : Bool := 0x30 ≤ b && b ≤ 0x39

/-- One byte. Inside a label value a backslash is an escape in front of a backslash, a quote and an
`n`; in front of anything else it stands for itself. -/
def Reader.step (r : Reader) (b : UInt8) : Reader :=
  match r.mode with
  | .line =>
    if b = 0x23 then { r with mode := .comment }
    else if b = 0x0A then r
    else if letter b || b == 0x3A then { r with mode := .name, name := [b], labels := [] }
    else { r with mode := .failed }
  | .comment => if b = 0x0A then { r with mode := .line } else r
  | .name =>
    if b = 0x7B then { r with mode := .labels }
    else if b = 0x20 then { r with mode := .number, number := [] }
    else if letter b || digit b || b == 0x3A then { r with name := r.name ++ [b] }
    else { r with mode := .failed }
  | .labels =>
    if b = 0x7D then { r with mode := .gap }
    else if letter b then { r with mode := .label, label := [b] }
    else { r with mode := .failed }
  | .label =>
    if b = 0x3D then { r with mode := .assign }
    else if letter b || digit b then { r with label := r.label ++ [b] }
    else { r with mode := .failed }
  | .assign => if b = 0x22 then { r with mode := .value, value := [] } else { r with mode := .failed }
  | .value =>
    if b = 0x5C then { r with mode := .escape }
    else if b = 0x22 then { r with mode := .next, labels := r.labels ++ [(r.label, r.value)] }
    else { r with value := r.value ++ [b] }
  | .escape =>
    if b = 0x5C ∨ b = 0x22 then { r with mode := .value, value := r.value ++ [b] }
    else if b = 0x6E then { r with mode := .value, value := r.value ++ [0x0A] }
    else { r with mode := .value, value := r.value ++ [0x5C, b] }
  | .next =>
    if b = 0x2C then { r with mode := .labels }
    else if b = 0x7D then { r with mode := .gap }
    else { r with mode := .failed }
  | .gap => if b = 0x20 then { r with mode := .number, number := [] } else { r with mode := .failed }
  | .number =>
    if b = 0x0A then
      { r with mode := .line, samples := r.samples ++ [⟨r.name, r.labels, readRevision r.number⟩] }
    else if digit b || b == 0x2D then { r with number := r.number ++ [b] }
    else { r with mode := .failed }
  | .failed => r

/-- Reads a text byte by byte. -/
def scan (r : Reader) (text : GoString) : Reader := text.foldl Reader.step r

/-- The samples of a text whose every line is well formed. Values are read as the integers they are
printed from. -/
def samples (text : GoString) : Option (List Sample) :=
  let r := scan {} text
  if r.mode = .line then some r.samples else none

@[simp] theorem scan_nil (r : Reader) : scan r [] = r := rfl

@[simp] theorem scan_cons (r : Reader) (b : UInt8) (text : GoString) :
    scan r (b :: text) = scan (r.step b) text := rfl

/-- The reader goes through two texts one after the other. -/
@[simp] theorem scan_append (r : Reader) (s t : GoString) : scan r (s ++ t) = scan (scan r s) t :=
  List.foldl_append

/-- A rune that a label value printed with `%q` keeps. -/
def readable (table : Nat → Bool) (c : GoString) : Bool :=
  runeWidth c != 0 && (isPrint table (runeValue c) || c == [0x0A])

/-- All runes of the string are printable or newlines. -/
def legible (table : Nat → Bool) (s : GoString) : Bool := (runes s).all (readable table)

/-- A rune as the reader sees it: kept, or its escape left as text. -/
def rereadRune (table : Nat → Bool) (c : GoString) : GoString :=
  if readable table c then c else quoteRune table c

/-- What is read of a quoted string. -/
def reread (table : Nat → Bool) (s : GoString) : GoString := (runes s).flatMap (rereadRune table)

/-- Bytes that stand for themselves. -/
theorem scan_plain {r : Reader} (reading : r.mode = .value) {s : GoString}
    (plain : ∀ b ∈ s, b ≠ 0x22 ∧ b ≠ 0x5C) : scan r s = { r with value := r.value ++ s } := by
  induction s generalizing r with
  | nil => simp
  | cons b s ih =>
    obtain ⟨quote, slash⟩ := plain b List.mem_cons_self
    have here : r.step b = { r with value := r.value ++ [b] } := by
      rw [Reader.step, reading]
      simp only [slash, quote, if_false]
    have rest := ih (r := { r with value := r.value ++ [b] }) reading
      fun c member => plain c (List.mem_cons_of_mem b member)
    rw [scan_cons, here, rest]
    simp

/-- A printable ASCII byte that neither ends nor escapes anything. -/
def Plain (b : UInt8) : Prop := 0x20 ≤ b ∧ b < 0x7F ∧ b ≠ 0x22 ∧ b ≠ 0x5C

instance (b : UInt8) : Decidable (Plain b) :=
  inferInstanceAs (Decidable (0x20 ≤ b ∧ b < 0x7F ∧ b ≠ 0x22 ∧ b ≠ 0x5C))

theorem hexChar_plain : ∀ n < 16, Plain (hexChar n) := by decide

theorem hexDigits_plain {digits n : Nat} : ∀ b ∈ hexDigits digits n, Plain b := by
  induction digits generalizing n with
  | zero => intro b member; cases member
  | succ digits ih =>
    intro b member
    rcases List.mem_append.mp member with earlier | last
    · exact ih b earlier
    · rw [List.mem_singleton.mp last]
      exact hexChar_plain _ (Nat.mod_lt _ (by decide))

/-- The text of an escape that the reader does not know. -/
def ForeignEscape (s : GoString) : Prop :=
  ∃ kind digits, s = 0x5C :: kind :: digits ∧ kind ≠ 0x6E ∧ Plain kind ∧ ∀ b ∈ digits, Plain b

/-- The format knows no hexadecimal escapes: it reads their characters as they stand. -/
theorem foreignEscape_hex (kind : UInt8) (foreign : kind ≠ 0x6E) (plain : Plain kind) (digits n : Nat) :
    ForeignEscape ([0x5C, kind] ++ hexDigits digits n) :=
  ⟨kind, hexDigits digits n, rfl, foreign, plain, hexDigits_plain⟩

theorem foreignEscape_letter (kind : UInt8) (foreign : kind ≠ 0x6E) (plain : Plain kind) :
    ForeignEscape [0x5C, kind] :=
  foreignEscape_hex kind foreign plain 0 0

/-- Of the escapes of single runes only that of the newline is known to the reader. -/
theorem escapeRune_foreign {c : GoString} (noNewline : c ≠ [0x0A]) : ForeignEscape (escapeRune c) := by
  rw [escapeRune]
  by_cases alert : c = [0x07]
  · rw [if_pos alert]
    exact foreignEscape_letter 0x61 (by decide) (by decide)
  rw [if_neg alert]
  by_cases backspace : c = [0x08]
  · rw [if_pos backspace]
    exact foreignEscape_letter 0x62 (by decide) (by decide)
  rw [if_neg backspace]
  by_cases feed : c = [0x0C]
  · rw [if_pos feed]
    exact foreignEscape_letter 0x66 (by decide) (by decide)
  rw [if_neg feed]
  rw [if_neg noNewline]
  by_cases carriage : c = [0x0D]
  · rw [if_pos carriage]
    exact foreignEscape_letter 0x72 (by decide) (by decide)
  rw [if_neg carriage]
  by_cases tab : c = [0x09]
  · rw [if_pos tab]
    exact foreignEscape_letter 0x74 (by decide) (by decide)
  rw [if_neg tab]
  by_cases vertical : c = [0x0B]
  · rw [if_pos vertical]
    exact foreignEscape_letter 0x76 (by decide) (by decide)
  rw [if_neg vertical]
  by_cases control : runeValue c < 0x20 ∨ runeValue c = 0x7F
  · rw [if_pos control]
    exact foreignEscape_hex 0x78 (by decide) (by decide) _ _
  rw [if_neg control]
  by_cases short : runeValue c < 0x10000
  · rw [if_pos short]
    exact foreignEscape_hex 0x75 (by decide) (by decide) _ _
  · rw [if_neg short]
    exact foreignEscape_hex 0x55 (by decide) (by decide) _ _

/-- What is not readable was escaped in a way of its own. -/
theorem quoteRune_foreign {table : Nat → Bool} {c : GoString} (lost : readable table c = false) :
    ForeignEscape (quoteRune table c) := by
  rw [quoteRune]
  split
  next broken => exact foreignEscape_hex 0x78 (by decide) (by decide) _ _
  next valid =>
    have known : isPrint table (runeValue c) = false ∧ c ≠ [0x0A] := by
      simpa [readable, valid] using lost
    obtain ⟨unprinted, noNewline⟩ := known
    have printed : ¬(c = [0x22] ∨ c = [0x5C]) := by
      rintro (rfl | rfl)
      · cases (show true = false from unprinted)
      · cases (show true = false from unprinted)
    rw [if_neg printed, if_neg (by simp [unprinted])]
    exact escapeRune_foreign noNewline

/-- A valid rune is one ASCII byte or high bytes only. -/
theorem rune_plain {n : Nat} {s c : GoString} (member : c ∈ runesFrom n s) (valid : runeWidth c ≠ 0)
    (noQuote : ¬(c = [0x22] ∨ c = [0x5C])) : ∀ b ∈ c, b ≠ 0x22 ∧ b ≠ 0x5C := by
  rcases rune_cases member with ⟨b, rfl⟩ | ⟨_, high⟩
  · intro x here
    obtain rfl := List.mem_singleton.mp here
    constructor
    · rintro rfl
      exact noQuote (Or.inl rfl)
    · rintro rfl
      exact noQuote (Or.inr rfl)
  · exact fun b here => open_of_high (high b here)

theorem step_backslash {r : Reader} (reading : r.mode = .value) : r.step 0x5C = { r with mode := .escape } := by
  rw [Reader.step, reading]
  rfl

/-- The three escapes that the reader knows. -/
theorem scan_known {r : Reader} (reading : r.mode = .value) :
    scan r [0x5C, 0x22] = { r with value := r.value ++ [0x22] } ∧
      scan r [0x5C, 0x5C] = { r with value := r.value ++ [0x5C] } ∧
        scan r [0x5C, 0x6E] = { r with value := r.value ++ [0x0A] } := by
  obtain ⟨mode, _, _, _, _, _, _⟩ := r
  obtain rfl : mode = .value := reading
  exact ⟨rfl, rfl, rfl⟩

/-- A foreign escape becomes part of the value, with its backslash. -/
theorem scan_foreign {r : Reader} (reading : r.mode = .value) {s : GoString} (foreign : ForeignEscape s) :
    scan r s = { r with value := r.value ++ s } := by
  obtain ⟨kind, digits, rfl, noNewline, ⟨_, _, noQuote, noSlash⟩, plain⟩ := foreign
  have left : ({ r with mode := .escape } : Reader).step kind = { r with value := r.value ++ [0x5C, kind] } := by
    simp only [Reader.step, noQuote, noSlash, noNewline, or_self, if_false, reading]
  have rest := scan_plain (r := { r with value := r.value ++ [0x5C, kind] }) reading
    fun b member => (plain b member).2.2
  rw [scan_cons, step_backslash reading, scan_cons, left, rest]
  simp

/-- The reader takes each printed rune for the rune itself or for the text of its escape. -/
theorem scan_quoteRune {r : Reader} (reading : r.mode = .value) (table : Nat → Bool) {n : Nat} {s c : GoString}
    (member : c ∈ runesFrom n s) :
    scan r (quoteRune table c) = { r with value := r.value ++ rereadRune table c } := by
  rw [rereadRune]
  split
  next kept =>
    have valid : runeWidth c ≠ 0 := by
      intro broken
      simp [readable, broken] at kept
    rw [quoteRune, if_neg valid]
    split
    next special =>
      rcases special with rfl | rfl
      · exact (scan_known reading).1
      · exact (scan_known reading).2.1
    next noQuote =>
      split
      next => exact scan_plain reading (rune_plain member valid noQuote)
      next unprinted =>
        have newline : c = [0x0A] := by simpa [readable, valid, unprinted] using kept
        subst newline
        exact (scan_known reading).2.2
  next lost => exact scan_foreign reading (quoteRune_foreign (Bool.eq_false_iff.mpr lost))

/-- A quoted string is read to its closing quote, as the format reads it. -/
theorem scan_quote {r : Reader} (assigned : r.mode = .assign) (table : Nat → Bool) (s : GoString) :
    scan r (quote table s) =
      { r with mode := .next, labels := r.labels ++ [(r.label, reread table s)], value := reread table s } := by
  have body (t : List GoString) (members : ∀ c ∈ t, c ∈ runes s) (q : Reader) (reading : q.mode = .value) :
      scan q (t.flatMap (quoteRune table)) = { q with value := q.value ++ t.flatMap (rereadRune table) } := by
    induction t generalizing q with
    | nil => simp
    | cons c t ih =>
      have first := scan_quoteRune reading table (members c List.mem_cons_self)
      have rest := ih (fun d member => members d (List.mem_cons_of_mem c member))
        { q with value := q.value ++ rereadRune table c } reading
      rw [List.flatMap_cons, List.flatMap_cons, scan_append, first, rest, List.append_assoc]
  have opened : r.step 0x22 = { r with mode := .value, value := [] } := by
    rw [Reader.step, assigned]
    rfl
  rw [quote, scan_cons, opened, scan_append, body (runes s) (fun c member => member) _ rfl]
  rfl

/-- Legible strings are read back unchanged. -/
theorem reread_of_legible {table : Nat → Bool} {s : GoString} (clean : legible table s = true) :
    reread table s = s := by
  have kept (c : GoString) (member : c ∈ runes s) : rereadRune table c = c := by
    rw [rereadRune, if_pos (List.all_eq_true.mp clean c member)]
  rw [reread, List.flatMap_congr kept, List.flatMap_id', runes_flatten]

theorem legible_append {table : Nat → Bool} {s t : GoString} (first : legible table s = true)
    (second : legible table t = true) : legible table (s ++ t) = true := by
  have valid (c : GoString) (member : c ∈ runes s) : runeWidth c ≠ 0 := by
    intro broken
    have clean := List.all_eq_true.mp first c member
    simp [readable, broken] at clean
  rw [legible, runes_append valid, List.all_append]
  exact Bool.and_eq_true_iff.mpr ⟨first, second⟩

theorem legible_plain (table : Nat → Bool) {s : GoString} (plain : ∀ b ∈ s, Plain b) : legible table s = true := by
  have ascii (b : UInt8) (member : b ∈ s) : b < 0x80 :=
    UInt8.lt_trans (plain b member).2.1 (by decide : (0x7F : UInt8) < 0x80)
  rw [legible, runes_ascii ascii, List.all_map, List.all_eq_true]
  intro b member
  obtain ⟨low, high, _⟩ := plain b member
  have width := runeWidth_ascii (ascii b member) []
  have printed : isPrint table b.toNat = true := by
    have least : 0x20 ≤ b.toNat := UInt8.le_iff_toNat_le.mp low
    have most : b.toNat < 0x7F := UInt8.lt_iff_toNat_lt.mp high
    rw [isPrint, if_pos (by omega)]
    simp [least, most]
  have value : runeValue [b] = b.toNat := rfl
  show readable table [b] = true
  rw [readable, width, value, printed]
  rfl

/-- Whatever is read of a label value is legible: what was not has become the text of its escape. -/
theorem legible_reread (table : Nat → Bool) (s : GoString) : legible table (reread table s) = true := by
  have one (c : GoString) (member : c ∈ runes s) : legible table (rereadRune table c) = true := by
    rw [rereadRune]
    split
    next kept =>
      have valid : runeWidth c ≠ 0 := by
        intro broken
        simp [readable, broken] at kept
      have nonempty : c ≠ [] := by
        rintro rfl
        exact valid rfl
      simpa [legible, runes_rune nonempty (runeWidth_rune member valid)] using kept
    next lost =>
      obtain ⟨kind, digits, same, _, plain, rest⟩ := quoteRune_foreign (Bool.eq_false_iff.mpr lost)
      rw [same]
      have backslash : legible table [0x5C] = true := rfl
      refine legible_append backslash (legible_plain table fun b here => ?_)
      rcases List.mem_cons.mp here with rfl | later
      · exact plain
      · exact rest b later
  have all (t : List GoString) (members : ∀ c ∈ t, c ∈ runes s) :
      legible table (t.flatMap (rereadRune table)) = true := by
    induction t with
    | nil => rfl
    | cons c t ih =>
      exact legible_append (one c (members c List.mem_cons_self))
        (ih fun d member => members d (List.mem_cons_of_mem c member))
  exact all (runes s) fun c member => member

/-- A name that the reader accepts for a metric and for a label. -/
def isWord : GoString → Bool
  | [] => false
  | b :: s => letter b && s.all fun c => letter c || digit c

def printLabel (table : Nat → Bool) (l : GoString × GoString) : GoString := l.1 ++ 0x3D :: quote table l.2

/-- `fmt.Fprintf(&b, "name{label=%q,label=%q} %d\n", …)`. -/
def printSample (table : Nat → Bool) (s : Sample) : GoString :=
  s.name ++ 0x7B :: ([0x2C].intercalate (s.labels.map (printLabel table)) ++
    ofString "\x7d " ++ formatInt s.value ++ [0x0A])

/-- A sample as the reader sees it. -/
def rereadSample (table : Nat → Bool) (s : Sample) : Sample :=
  { s with labels := s.labels.map fun l => (l.1, reread table l.2) }

theorem scan_label {r : Reader} (mode : r.mode = .label) {s : GoString}
    (word : ∀ b ∈ s, (letter b || digit b) = true) : scan r s = { r with label := r.label ++ s } := by
  induction s generalizing r with
  | nil => simp
  | cons b s ih =>
    have known := word b List.mem_cons_self
    have inside : b ≠ 0x3D := by
      rintro rfl
      exact absurd known (by decide)
    have here : r.step b = { r with label := r.label ++ [b] } := by
      rw [Reader.step, mode]
      simp only [inside, known, if_false, if_true]
    have rest := ih (r := { r with label := r.label ++ [b] }) mode
      fun c member => word c (List.mem_cons_of_mem b member)
    rw [scan_cons, here, rest]
    simp

theorem scan_name {r : Reader} (mode : r.mode = .name) {s : GoString}
    (word : ∀ b ∈ s, (letter b || digit b) = true) : scan r s = { r with name := r.name ++ s } := by
  induction s generalizing r with
  | nil => simp
  | cons b s ih =>
    have known := word b List.mem_cons_self
    have inside : b ≠ 0x7B ∧ b ≠ 0x20 := by
      constructor <;> rintro rfl <;> exact absurd known (by decide)
    have here : r.step b = { r with name := r.name ++ [b] } := by
      rw [Reader.step, mode]
      simp only [inside.1, inside.2, known, Bool.true_or, if_false, if_true]
    have rest := ih (r := { r with name := r.name ++ [b] }) mode
      fun c member => word c (List.mem_cons_of_mem b member)
    rw [scan_cons, here, rest]
    simp

theorem scan_number {r : Reader} (mode : r.mode = .number) {s : GoString}
    (decimal : ∀ b ∈ s, b = 0x2D ∨ 0x30 ≤ b ∧ b ≤ 0x39) : scan r s = { r with number := r.number ++ s } := by
  induction s generalizing r with
  | nil => simp
  | cons b s ih =>
    have known : (digit b || b == 0x2D) = true := by
      rcases decimal b List.mem_cons_self with rfl | ⟨low, high⟩
      · rfl
      · simp [digit, low, high]
    have inside : b ≠ 0x0A := by
      rintro rfl
      exact absurd known (by decide)
    have here : r.step b = { r with number := r.number ++ [b] } := by
      rw [Reader.step, mode]
      simp only [inside, known, if_false, if_true]
    have rest := ih (r := { r with number := r.number ++ [b] }) mode
      fun c member => decimal c (List.mem_cons_of_mem b member)
    rw [scan_cons, here, rest]
    simp

/-- A label is read with its name and the value as the format reads it. -/
theorem scan_printLabel {r : Reader} (mode : r.mode = .labels) (table : Nat → Bool) {l : GoString × GoString}
    (named : isWord l.1 = true) :
    scan r (printLabel table l) =
      { r with mode := .next, labels := r.labels ++ [(l.1, reread table l.2)], label := l.1,
               value := reread table l.2 } := by
  obtain ⟨label, value⟩ := l
  cases label with
  | nil => cases named
  | cons b s =>
    obtain ⟨first, word⟩ := Bool.and_eq_true_iff.mp named
    have inside : b ≠ 0x7D := by
      rintro rfl
      exact absurd first (by decide)
    have started : r.step b = { r with mode := .label, label := [b] } := by
      rw [Reader.step, mode]
      simp only [inside, first, if_false, if_true]
    have spelt := scan_label (r := { r with mode := .label, label := [b] }) rfl (List.all_eq_true.mp word)
    have quoted := scan_quote (r := { r with mode := .assign, label := b :: s }) rfl table value
    rw [printLabel, List.cons_append, scan_cons, started, scan_append, spelt, scan_cons]
    exact quoted

/-- The labels between the braces are read in their order. -/
theorem scan_printLabels {labels : List (GoString × GoString)} (nonempty : labels ≠ [])
    (named : ∀ l ∈ labels, isWord l.1 = true) (table : Nat → Bool) {r : Reader} (mode : r.mode = .labels) :
    ∃ label value, scan r ([0x2C].intercalate (labels.map (printLabel table))) =
      { r with mode := .next, labels := r.labels ++ labels.map (fun l => (l.1, reread table l.2)),
               label, value } := by
  induction labels generalizing r with
  | nil => exact absurd rfl nonempty
  | cons l rest ih =>
    have first := scan_printLabel mode table (named l List.mem_cons_self)
    cases rest with
    | nil => exact ⟨l.1, reread table l.2, by simpa using first⟩
    | cons next rest =>
      obtain ⟨label, value, later⟩ := ih (by simp) (fun k member => named k (List.mem_cons_of_mem l member))
        (r := { r with mode := .labels, labels := r.labels ++ [(l.1, reread table l.2)], label := l.1,
                       value := reread table l.2 }) rfl
      refine ⟨label, value, ?_⟩
      rw [List.map_cons, List.map_cons, List.intercalate_cons_cons, scan_append, scan_append, first]
      refine later.trans ?_
      simp

/-- The name of a metric is read up to what follows it. -/
theorem scan_metric {r : Reader} (mode : r.mode = .line) {name : GoString} (named : isWord name = true) :
    scan r name = { r with mode := .name, name, labels := [] } := by
  cases name with
  | nil => cases named
  | cons b word =>
    obtain ⟨first, spelt⟩ := Bool.and_eq_true_iff.mp named
    have inside : b ≠ 0x23 ∧ b ≠ 0x0A := by
      constructor <;> rintro rfl <;> exact absurd first (by decide)
    have started : r.step b = { r with mode := .name, name := [b], labels := [] } := by
      rw [Reader.step, mode]
      simp only [inside.1, inside.2, first, Bool.true_or, if_false, if_true]
    have rest := scan_name (r := { r with mode := .name, name := [b], labels := [] }) rfl (List.all_eq_true.mp spelt)
    rw [scan_cons, started, rest]
    rfl

/-- Reading one printed line adds one sample. -/
theorem scan_printSample (table : Nat → Bool) {s : Sample} (name : isWord s.name = true) (nonempty : s.labels ≠ [])
    (named : ∀ l ∈ s.labels, isWord l.1 = true) {r : Reader} (mode : r.mode = .line) :
    (scan r (printSample table s)).mode = .line ∧
      (scan r (printSample table s)).samples = r.samples ++ [rereadSample table s] := by
  obtain ⟨metric, labels, value⟩ := s
  have metricRead := scan_metric mode name
  obtain ⟨label, last, labelsRead⟩ := scan_printLabels nonempty named table
    (r := { r with mode := .labels, name := metric, labels := [] }) rfl
  have numberRead := scan_number (s := formatInt value)
    (r := { r with mode := .number, name := metric, labels := labels.map fun l => (l.1, reread table l.2),
                   label, value := last, number := [] }) rfl fun c member => formatInt_bytes member
  have line : scan r (printSample table ⟨metric, labels, value⟩) =
      scan { r with mode := .number, name := metric, labels := labels.map fun l => (l.1, reread table l.2),
                    label, value := last, number := formatInt value } [0x0A] := by
    rw [printSample, scan_append, metricRead, scan_cons, scan_append, scan_append, scan_append]
    refine congrArg (scan · [0x0A]) ?_
    refine Eq.trans ?_ numberRead
    exact congrArg (fun q => scan (scan q (ofString "\x7d ")) (formatInt value)) labelsRead
  rw [line]
  refine ⟨rfl, ?_⟩
  show r.samples ++ [⟨metric, _, readRevision (formatInt value)⟩] = _
  rw [readRevision_formatInt]
  rfl

end Exposition
end Discovery
