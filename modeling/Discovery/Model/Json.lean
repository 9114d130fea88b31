import Discovery.Model.Basic

namespace Discovery

def isJsonSpace (c : UInt8) : Bool := c = 0x20 || c = 0x09 || c = 0x0A || c = 0x0D

def isDigit (c : UInt8) : Bool := 0x30 ≤ c && c ≤ 0x39

def isHex (c : UInt8) : Bool :=
  isDigit c || (0x61 ≤ c && c ≤ 0x66) || (0x41 ≤ c && c ≤ 0x46)

/-- What an open object or array expects around its next value. -/
inductive ParseState
  | objectKey
  | objectValue
  | arrayValue
  deriving DecidableEq

/-- The state of the scanner of `encoding/json`: its `step` function. -/
inductive ScanState
  | beginValue
  | beginValueOrEmpty
  | beginStringOrEmpty
  | beginString
  | inString
  | inStringEsc
  | inStringEscU (left : Nat)
  | literal (rest : GoString)
  | neg
  | int
  | zero
  | dot
  | frac
  | exp
  | expSign
  | expDigits
  | endValue
  deriving DecidableEq

def maxNestingDepth : Nat := 10000

/-- The state and the stack of open objects and arrays. -/
abbrev Scanner := ScanState × List ParseState

def pushParseState (stack : List ParseState) (s : ParseState) (next : ScanState) : Option Scanner :=
  if stack.length < maxNestingDepth then some (next, s :: stack) else none

def scanEndValue (stack : List ParseState) (c : UInt8) : Option Scanner :=
  if isJsonSpace c then some (.endValue, stack)
  else match stack with
    | [] => none
    | .objectKey :: rest => if c = 0x3A then some (.beginValue, .objectValue :: rest) else none
    | .objectValue :: rest =>
      if c = 0x2C then some (.beginString, .objectKey :: rest)
      else if c = 0x7D then some (.endValue, rest) else none
    | .arrayValue :: rest =>
      if c = 0x2C then some (.beginValue, .arrayValue :: rest)
      else if c = 0x5D then some (.endValue, rest) else none

def scanBeginValue (stack : List ParseState) (c : UInt8) : Option Scanner :=
  if isJsonSpace c then some (.beginValue, stack)
  else if c = 0x7B then pushParseState stack .objectKey .beginStringOrEmpty
  else if c = 0x5B then pushParseState stack .arrayValue .beginValueOrEmpty
  else if c = 0x22 then some (.inString, stack)
  else if c = 0x2D then some (.neg, stack)
  else if c = 0x30 then some (.zero, stack)
  else if c = 0x74 then some (.literal "rue", stack)
  else if c = 0x66 then some (.literal "alse", stack)
  else if c = 0x6E then some (.literal "ull", stack)
  else if isDigit c then some (.int, stack)
  else none

def scanBeginString (stack : List ParseState) (c : UInt8) : Option Scanner :=
  if isJsonSpace c then some (.beginString, stack)
  else if c = 0x22 then some (.inString, stack) else none

/-- After the integer part of a number. -/
def scanZero (stack : List ParseState) (c : UInt8) : Option Scanner :=
  if c = 0x2E then some (.dot, stack)
  else if c = 0x65 || c = 0x45 then some (.exp, stack)
  else scanEndValue stack c

def scanStep : Scanner → UInt8 → Option Scanner
  | (.beginValue, stack), c => scanBeginValue stack c
  | (.beginValueOrEmpty, stack), c =>
    if isJsonSpace c then some (.beginValueOrEmpty, stack)
    else if c = 0x5D then scanEndValue stack c
    else scanBeginValue stack c
  | (.beginStringOrEmpty, stack), c =>
    if isJsonSpace c then some (.beginStringOrEmpty, stack)
    else if c = 0x7D then scanEndValue (.objectValue :: stack.tail) c
    else scanBeginString stack c
  | (.beginString, stack), c => scanBeginString stack c
  | (.inString, stack), c =>
    if c = 0x22 then some (.endValue, stack)
    else if c = 0x5C then some (.inStringEsc, stack)
    else if c < 0x20 then none
    else some (.inString, stack)
  | (.inStringEsc, stack), c =>
    if c = 0x75 then some (.inStringEscU 4, stack)
    else if (ofString "bfnrt\\/\"").contains c then some (.inString, stack) else none
  | (.inStringEscU left, stack), c =>
    if isHex c then some (if left ≤ 1 then .inString else .inStringEscU (left - 1), stack) else none
  | (.literal rest, stack), c =>
    match rest with
    | [] => none
    | [d] => if c = d then some (.endValue, stack) else none
    | d :: rest => if c = d then some (.literal rest, stack) else none
  | (.neg, stack), c =>
    if c = 0x30 then some (.zero, stack) else if isDigit c then some (.int, stack) else none
  | (.int, stack), c => if isDigit c then some (.int, stack) else scanZero stack c
  | (.zero, stack), c => scanZero stack c
  | (.dot, stack), c => if isDigit c then some (.frac, stack) else none
  | (.frac, stack), c =>
    if isDigit c then some (.frac, stack)
    else if c = 0x65 || c = 0x45 then some (.exp, stack)
    else scanEndValue stack c
  | (.exp, stack), c =>
    if c = 0x2B || c = 0x2D then some (.expSign, stack)
    else if isDigit c then some (.expDigits, stack) else none
  | (.expSign, stack), c => if isDigit c then some (.expDigits, stack) else none
  | (.expDigits, stack), c =>
    if isDigit c then some (.expDigits, stack) else scanEndValue stack c
  | (.endValue, stack), c => scanEndValue stack c

/-- `json.Valid`: one value with nothing but white space around it. The blank at the end completes a number. -/
def jsonValid (data : GoString) : Bool :=
  (data ++ [0x20]).foldlM scanStep (.beginValue, []) = some (.endValue, [])

/-- Drops the white space between the tokens of a JSON text. -/
def stripSpace : (inString escaped : Bool) → GoString → GoString
  | _, _, [] => []
  | true, true, c :: s => c :: stripSpace true false s
  | true, false, c :: s =>
    if c = 0x5C then c :: stripSpace true true s
    else c :: stripSpace (c ≠ 0x22) false s
  | false, _, c :: s =>
    if c = 0x20 || c = 0x09 || c = 0x0A || c = 0x0D then stripSpace false false s
    else c :: stripSpace (c = 0x22) false s

/-- Writes `<`, `>`, `&`, U+2028 and U+2029 as escapes. -/
def htmlEscape : GoString → GoString
  | [] => []
  | c :: s =>
    if c = 0x3C then ofString "\\u003c" ++ htmlEscape s
    else if c = 0x3E then ofString "\\u003e" ++ htmlEscape s
    else if c = 0x26 then ofString "\\u0026" ++ htmlEscape s
    else match s with
      | d :: e :: t =>
        if c = 0xE2 ∧ d = 0x80 ∧ e = 0xA8 then ofString "\\u2028" ++ htmlEscape t
        else if c = 0xE2 ∧ d = 0x80 ∧ e = 0xA9 then ofString "\\u2029" ++ htmlEscape t
        else c :: htmlEscape (d :: e :: t)
      | s => c :: htmlEscape s

/-- How `json.Marshal` writes a `RawMessage`: compacted, and a nil one as null. -/
def compact (raw : GoString) : GoString :=
  let text := htmlEscape (stripSpace false false raw)
  if text = [] then "null" else text

theorem stripSpace_outside (e : Bool) (s : GoString) :
    stripSpace false e s = stripSpace false false s := by
  cases s <;> rfl

theorem stripSpace_idem (q e : Bool) (s : GoString) :
    stripSpace q e (stripSpace q e s) = stripSpace q e s := by
  fun_induction stripSpace q e s with
  | case1 => simp [stripSpace]
  | case2 c s ih => simp only [stripSpace, ih]
  | case3 s ih => simp only [stripSpace, if_true, ih]
  | case4 c s other ih => simp only [stripSpace, other, if_false, ih]
  | case5 e c s space ih => rw [stripSpace_outside, ih]
  | case6 e c s other ih => rw [stripSpace, if_neg other, ih]

/-- A byte that neither is white space nor begins or ends a string or an escape. -/
def Plain (c : UInt8) : Prop :=
  c ≠ 0x20 ∧ c ≠ 0x09 ∧ c ≠ 0x0A ∧ c ≠ 0x0D ∧ c ≠ 0x22 ∧ c ≠ 0x5C

instance (c : UInt8) : Decidable (Plain c) := inferInstanceAs (Decidable (_ ∧ _))

theorem stripSpace_plain (q e : Bool) {c : UInt8} (plain : Plain c) (s : GoString) :
    stripSpace q e (c :: s) = c :: stripSpace q false s := by
  obtain ⟨h1, h2, h3, h4, h5, h6⟩ := plain
  cases q <;> cases e <;> simp [stripSpace, h1, h2, h3, h4, h5, h6]

theorem stripSpace_word (q : Bool) {w : GoString} (plain : ∀ c ∈ w, Plain c) (s : GoString) :
    stripSpace q false (w ++ s) = w ++ stripSpace q false s := by
  induction w with
  | nil => rfl
  | cons c w ih =>
    obtain ⟨first, rest⟩ := List.forall_mem_cons.mp plain
    rw [List.cons_append, stripSpace_plain q false first, ih rest, List.cons_append]

/-- Each byte of a word is looked at, not every byte there is. -/
theorem forall_of_all {P : UInt8 → Prop} [DecidablePred P] {w : GoString}
    (all : w.all (fun c => decide (P c)) = true) : ∀ c ∈ w, P c := by
  simpa using all

/-- An escape stays as it is, inside a string and outside. -/
theorem stripSpace_escape (q e : Bool) {u : UInt8} {w : GoString} (plain : ∀ c ∈ u :: w, Plain c)
    (s : GoString) : stripSpace q e (0x5C :: u :: w ++ s) = 0x5C :: u :: w ++ stripSpace q false s := by
  obtain ⟨first, rest⟩ := List.forall_mem_cons.mp plain
  have whole := stripSpace_word q plain s
  cases q <;> cases e
  · simpa [stripSpace] using whole
  · simpa [stripSpace] using whole
  · simpa [stripSpace] using stripSpace_word true rest s
  · simpa [stripSpace] using whole

theorem length_stripSpace_le (q e : Bool) (s : GoString) : (stripSpace q e s).length ≤ s.length := by
  fun_induction stripSpace q e s <;> simp only [List.length_nil, List.length_cons] <;> omega

/-- Where nothing is dropped, each byte leads to a state in which the rest is left alone. -/
theorem stripSpace_cons {q e : Bool} {c : UInt8} {s : GoString} (same : stripSpace q e (c :: s) = c :: s) :
    ∃ q' e', (∀ t, stripSpace q e (c :: t) = c :: stripSpace q' e' t) ∧ stripSpace q' e' s = s := by
  have next : ∃ q' e', ∀ t, stripSpace q e (c :: t) = c :: stripSpace q' e' t := by
    cases q with
    | true =>
      cases e with
      | true => exact ⟨true, false, fun t => rfl⟩
      | false =>
        by_cases escape : c = 0x5C
        · exact ⟨true, true, fun t => by rw [stripSpace, if_pos escape]⟩
        · exact ⟨c ≠ 0x22, false, fun t => by rw [stripSpace, if_neg escape]⟩
    | false =>
      by_cases space : (c = 0x20 || c = 0x09 || c = 0x0A || c = 0x0D) = true
      · -- a dropped byte makes the text shorter
        have short := length_stripSpace_le false false s
        rw [stripSpace, if_pos space] at same
        rw [same, List.length_cons] at short
        omega
      · exact ⟨c = 0x22, false, fun t => by rw [stripSpace, if_neg space]⟩
  obtain ⟨q', e', step⟩ := next
  rw [step] at same
  exact ⟨q', e', step, (List.cons.inj same).2⟩

/-- Escaping moves no token boundary. -/
theorem stripSpace_htmlEscape {q e : Bool} {s : GoString} (same : stripSpace q e s = s) :
    stripSpace q e (htmlEscape s) = htmlEscape s := by
  have replaced {q e : Bool} {u : UInt8} {w t : GoString} (plain : ∀ c ∈ u :: w, Plain c)
      (rest : stripSpace q false t = t) : stripSpace q e (0x5C :: u :: w ++ t) = 0x5C :: u :: w ++ t := by
    rw [stripSpace_escape q e plain, rest]
  have copied {q e : Bool} {c : UInt8} {s : GoString} (same : stripSpace q e (c :: s) = c :: s)
      (ih : ∀ {q e}, stripSpace q e s = s → stripSpace q e (htmlEscape s) = htmlEscape s) :
      stripSpace q e (c :: htmlEscape s) = c :: htmlEscape s := by
    obtain ⟨q', e', step, rest⟩ := stripSpace_cons same
    rw [step, ih rest]
  have one {q e : Bool} {c : UInt8} {s : GoString} (plain : Plain c)
      (same : stripSpace q e (c :: s) = c :: s) : stripSpace q false s = s := by
    rw [stripSpace_plain q e plain] at same
    exact (List.cons.inj same).2
  fun_induction htmlEscape s generalizing q e with
  | case1 => simp [stripSpace]
  | case2 s ih => exact replaced (forall_of_all (by decide)) (ih (one (by decide) same))
  | case3 s _ ih => exact replaced (forall_of_all (by decide)) (ih (one (by decide) same))
  | case4 s _ _ ih => exact replaced (forall_of_all (by decide)) (ih (one (by decide) same))
  | case5 c _ _ _ d e s sep ih =>
    obtain ⟨rfl, rfl, rfl⟩ := sep
    exact replaced (forall_of_all (by decide)) (ih (one (by decide) (one (by decide) (one (by decide) same))))
  | case6 c _ _ _ d e s _ sep ih =>
    obtain ⟨rfl, rfl, rfl⟩ := sep
    exact replaced (forall_of_all (by decide)) (ih (one (by decide) (one (by decide) (one (by decide) same))))
  | case7 c _ _ _ d e s _ _ ih => exact copied same ih
  | case8 c _ _ _ s _ ih => exact copied same ih

/-- A byte that is not the first of a sequence to escape is copied. -/
theorem htmlEscape_copy {c : UInt8} {s : GoString} (plain : c ≠ 0x3C ∧ c ≠ 0x3E ∧ c ≠ 0x26)
    (whole : ∀ e t, c = 0xE2 → s = 0x80 :: e :: t → e ≠ 0xA8 ∧ e ≠ 0xA9) :
    htmlEscape (c :: s) = c :: htmlEscape s := by
  obtain ⟨h1, h2, h3⟩ := plain
  conv => lhs; unfold htmlEscape
  rw [if_neg h1, if_neg h2, if_neg h3]
  split
  next d e t =>
    have first : ¬(c = 0xE2 ∧ d = 0x80 ∧ e = 0xA8) := fun ⟨hc, hd, he⟩ => (whole e t hc (by rw [hd])).1 he
    have second : ¬(c = 0xE2 ∧ d = 0x80 ∧ e = 0xA9) := fun ⟨hc, hd, he⟩ => (whole e t hc (by rw [hd])).2 he
    rw [if_neg first, if_neg second]
  next => rfl

theorem htmlEscape_word {w : GoString} (plain : ∀ c ∈ w, c ≠ 0x3C ∧ c ≠ 0x3E ∧ c ≠ 0x26 ∧ c ≠ 0xE2)
    (s : GoString) : htmlEscape (w ++ s) = w ++ htmlEscape s := by
  induction w with
  | nil => rfl
  | cons c w ih =>
    obtain ⟨⟨h1, h2, h3, h4⟩, rest⟩ := List.forall_mem_cons.mp plain
    rw [List.cons_append, htmlEscape_copy ⟨h1, h2, h3⟩ (fun _ _ hc => absurd hc h4), ih rest,
      List.cons_append]

/-- What does not begin an escape was copied. -/
theorem of_htmlEscape_cons {s t : GoString} {c : UInt8} (out : htmlEscape s = c :: t) (plain : c ≠ 0x5C) :
    ∃ s', s = c :: s' ∧ t = htmlEscape s' := by
  have escape {word : GoString} (same : 0x5C :: word = c :: t) : False :=
    plain (List.cons.inj same).1.symm
  cases s with
  | nil => simp [htmlEscape] at out
  | cons d s =>
    unfold htmlEscape at out
    split at out
    · exact (escape out).elim
    · split at out
      · exact (escape out).elim
      · split at out
        · exact (escape out).elim
        · split at out
          · split at out
            · exact (escape out).elim
            · split at out
              · exact (escape out).elim
              · obtain ⟨rfl, rfl⟩ := List.cons.inj out
                exact ⟨_, rfl, rfl⟩
          · obtain ⟨rfl, rfl⟩ := List.cons.inj out
            exact ⟨_, rfl, rfl⟩

theorem htmlEscape_idem (s : GoString) : htmlEscape (htmlEscape s) = htmlEscape s := by
  have replaced {w t : GoString} (plain : ∀ c ∈ w, c ≠ 0x3C ∧ c ≠ 0x3E ∧ c ≠ 0x26 ∧ c ≠ 0xE2)
      (ih : htmlEscape (htmlEscape t) = htmlEscape t) :
      htmlEscape (w ++ htmlEscape t) = w ++ htmlEscape t := by
    rw [htmlEscape_word plain, ih]
  have copied {c : UInt8} {s : GoString} (plain : c ≠ 0x3C ∧ c ≠ 0x3E ∧ c ≠ 0x26)
      (whole : ∀ e t, c = 0xE2 → s = 0x80 :: e :: t → e ≠ 0xA8 ∧ e ≠ 0xA9)
      (ih : htmlEscape (htmlEscape s) = htmlEscape s) :
      htmlEscape (c :: htmlEscape s) = c :: htmlEscape s := by
    rw [htmlEscape_copy plain, ih]
    intro e t hc out
    -- the two bytes after E2 were copied as they are
    obtain ⟨s', rfl, rest⟩ := of_htmlEscape_cons out (by decide)
    by_cases sep : e = 0xA8 ∨ e = 0xA9
    · have plain : e ≠ 0x5C := by rcases sep with rfl | rfl <;> decide
      obtain ⟨t', rfl, _⟩ := of_htmlEscape_cons rest.symm plain
      exact whole e t' hc rfl
    · exact not_or.mp sep
  fun_induction htmlEscape s with
  | case1 => simp [htmlEscape]
  | case2 s ih => exact replaced (forall_of_all (by decide)) ih
  | case3 s _ ih => exact replaced (forall_of_all (by decide)) ih
  | case4 s _ _ ih => exact replaced (forall_of_all (by decide)) ih
  | case5 c _ _ _ d e s _ ih => exact replaced (forall_of_all (by decide)) ih
  | case6 c _ _ _ d e s _ _ ih => exact replaced (forall_of_all (by decide)) ih
  | case7 c h1 h2 h3 d e s first second ih =>
    refine copied ⟨h1, h2, h3⟩ (fun e' t hc same => ?_) ih
    obtain ⟨rfl, rest⟩ := List.cons.inj same
    obtain ⟨rfl, rfl⟩ := List.cons.inj rest
    exact ⟨fun he => first ⟨hc, rfl, he⟩, fun he => second ⟨hc, rfl, he⟩⟩
  | case8 c h1 h2 h3 s short ih =>
    exact copied ⟨h1, h2, h3⟩ (fun e t _ same => (short _ _ _ same).elim) ih

@[simp] theorem compact_idem (raw : GoString) : compact (compact raw) = compact raw := by
  have stripped := stripSpace_idem false false raw
  have fixed := stripSpace_htmlEscape stripped
  unfold compact
  by_cases blank : htmlEscape (stripSpace false false raw) = []
  · rw [if_pos blank]
    rfl
  · rw [if_neg blank, fixed, htmlEscape_idem, if_neg blank]

/-- Without anything to escape only the white space goes. -/
theorem compact_of_plain {raw text : GoString} (stripped : stripSpace false false raw = text)
    (plain : ∀ c ∈ text, c ≠ 0x3C ∧ c ≠ 0x3E ∧ c ≠ 0x26 ∧ c ≠ 0xE2) (nonempty : text ≠ []) : compact raw = text := by
  have same := htmlEscape_word plain []
  rw [List.append_nil, htmlEscape, List.append_nil] at same
  rw [compact, stripped, same, if_neg nonempty]

end Discovery
