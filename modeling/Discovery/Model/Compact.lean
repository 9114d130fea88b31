import Discovery.Model.Json

namespace Discovery

/-- Where a value's end is not seen before the byte after it. -/
def ScanState.IsNumber (q : ScanState) : Prop := q = .zero ∨ q = .int ∨ q = .frac ∨ q = .expDigits

/-- Inside a string, and there after a backslash. -/
def ScanState.quoting : ScanState → Bool × Bool
  | .inString => (true, false)
  | .inStringEscU _ => (true, false)
  | .inStringEsc => (true, true)
  | _ => (false, false)

/-- What is left of a literal are letters, as in `true`, `false` and `null`. -/
def Scanner.Tame (q : Scanner) : Prop := ∀ rest, q.1 = .literal rest → ∀ c ∈ rest, 0x61 ≤ c ∧ c < 0x80

/-- A byte of a token that neither begins a string nor is ever escaped. -/
def IsToken (c : UInt8) : Prop := c < 0x80 ∧ c ≠ 0x3C ∧ c ≠ 0x3E ∧ c ≠ 0x26 ∧ c ≠ 0x22

instance (c : UInt8) : Decidable (IsToken c) := inferInstanceAs (Decidable (_ ∧ _))

/-- The byte begins a string, or is part of another token and leads outside strings again. -/
inductive Outside (c : UInt8) (q : Scanner) : Prop
  | quote (byte : c = 0x22) (state : q.1 = .inString)
  | token (byte : IsToken c) (state : q.1.quoting = (false, false)) (tame : q.Tame)

theorem tame_of_ne {q : Scanner} (other : ∀ rest, q.1 ≠ .literal rest) : q.Tame :=
  fun rest literal => absurd literal (other rest)

/-- No byte of a number or a word is white space or needs an escape. -/
theorem isToken_digit {c : UInt8} (digit : isDigit c = true) : IsToken c := by
  simp only [isDigit, Bool.and_eq_true, decide_eq_true_eq] at digit
  refine ⟨?_, ?_, ?_, ?_, ?_⟩ <;> grind

theorem isToken_letter {c : UInt8} (letter : 0x61 ≤ c ∧ c < 0x80) : IsToken c := by
  refine ⟨letter.2, ?_, ?_, ?_, ?_⟩ <;> grind

section Step
variable {stack : List ParseState} {c : UInt8} {q q' : Scanner}

/-- What the scanner reads outside a string is a token; the lemmas of this kind go through its states. -/
theorem outside_scanEndValue (step : scanEndValue stack c = some q) (other : isJsonSpace c = false) :
    Outside c q := by
  have ends : (c = 0x3A ∨ c = 0x2C ∨ c = 0x7D ∨ c = 0x5D) ∧
      (q.1 = .beginValue ∨ q.1 = .beginString ∨ q.1 = .endValue) := by
    unfold scanEndValue at step
    rw [other] at step
    grind
  obtain ⟨byte, state⟩ := ends
  refine Outside.token ?_ ?_ (tame_of_ne fun rest literal => ?_)
  · rcases byte with rfl | rfl | rfl | rfl <;> decide
  · rcases state with h | h | h <;> rw [h] <;> rfl
  · rcases state with h | h | h <;> rw [h] at literal <;> cases literal

theorem outside_pushParseState {kind : ParseState} {state : ScanState}
    (step : pushParseState stack kind state = some q) (token : IsToken c)
    (outside : state.quoting = (false, false)) (other : ∀ rest, state ≠ .literal rest) : Outside c q := by
  unfold pushParseState at step
  split at step
  next =>
    obtain rfl := Option.some.inj step
    exact .token token outside (tame_of_ne other)
  next => cases step

theorem outside_scanBeginValue (step : scanBeginValue stack c = some q) (other : isJsonSpace c = false) :
    Outside c q := by
  have letters : (∀ c ∈ ofString "rue", 0x61 ≤ c ∧ c < 0x80) ∧ (∀ c ∈ ofString "alse", 0x61 ≤ c ∧ c < 0x80) ∧
      ∀ c ∈ ofString "ull", 0x61 ≤ c ∧ c < 0x80 := by decide +kernel
  obtain ⟨rue, alse, ull⟩ := letters
  rw [scanBeginValue, other, if_neg Bool.false_ne_true] at step
  by_cases brace : c = 0x7B
  · rw [if_pos brace] at step
    exact outside_pushParseState step (brace ▸ by decide) rfl fun _ literal => by cases literal
  rw [if_neg brace] at step
  by_cases bracket : c = 0x5B
  · rw [if_pos bracket] at step
    exact outside_pushParseState step (bracket ▸ by decide) rfl fun _ literal => by cases literal
  rw [if_neg bracket] at step
  by_cases quote : c = 0x22
  · rw [if_pos quote] at step
    obtain rfl := Option.some.inj step
    exact .quote quote rfl
  rw [if_neg quote] at step
  by_cases minus : c = 0x2D
  · rw [if_pos minus] at step
    obtain rfl := Option.some.inj step
    exact .token (minus ▸ by decide) rfl (tame_of_ne fun _ literal => by cases literal)
  rw [if_neg minus] at step
  by_cases zero : c = 0x30
  · rw [if_pos zero] at step
    obtain rfl := Option.some.inj step
    exact .token (zero ▸ by decide) rfl (tame_of_ne fun _ literal => by cases literal)
  rw [if_neg zero] at step
  by_cases t : c = 0x74
  · rw [if_pos t] at step
    obtain rfl := Option.some.inj step
    exact .token (t ▸ by decide) rfl fun rest literal => ScanState.literal.inj literal ▸ rue
  rw [if_neg t] at step
  by_cases f : c = 0x66
  · rw [if_pos f] at step
    obtain rfl := Option.some.inj step
    exact .token (f ▸ by decide) rfl fun rest literal => ScanState.literal.inj literal ▸ alse
  rw [if_neg f] at step
  by_cases n : c = 0x6E
  · rw [if_pos n] at step
    obtain rfl := Option.some.inj step
    exact .token (n ▸ by decide) rfl fun rest literal => ScanState.literal.inj literal ▸ ull
  rw [if_neg n] at step
  by_cases digit : isDigit c = true
  · rw [if_pos digit] at step
    obtain rfl := Option.some.inj step
    exact .token (isToken_digit digit) rfl (tame_of_ne fun _ literal => by cases literal)
  · rw [if_neg digit] at step
    cases step

theorem outside_scanBeginString (step : scanBeginString stack c = some q) (other : isJsonSpace c = false) :
    Outside c q := by
  unfold scanBeginString at step
  rw [other, if_neg Bool.false_ne_true] at step
  split_ifs at step with quote
  obtain rfl := Option.some.inj step
  exact .quote quote rfl

theorem outside_digit (digit : isDigit c = true) {state : ScanState} (same : (state, stack) = q)
    (outside : state.quoting = (false, false)) (other : ∀ rest, state ≠ .literal rest) : Outside c q := by
  subst same
  exact .token (isToken_digit digit) outside (tame_of_ne other)

theorem outside_scanZero (step : scanZero stack c = some q) (other : isJsonSpace c = false) : Outside c q := by
  unfold scanZero at step
  split_ifs at step with dot exp
  · obtain rfl := Option.some.inj step
    exact .token (dot ▸ by decide) rfl (tame_of_ne fun _ literal => by cases literal)
  · obtain rfl := Option.some.inj step
    simp only [Bool.or_eq_true, decide_eq_true_eq] at exp
    refine .token ?_ rfl (tame_of_ne fun _ literal => by cases literal)
    rcases exp with rfl | rfl <;> decide
  · exact outside_scanEndValue step other

/-- Outside a string, white space apart. -/
theorem outside_step (step : scanStep q c = some q') (tame : q.Tame) (outside : q.1.quoting = (false, false))
    (other : isJsonSpace c = false) : Outside c q' := by
  obtain ⟨state, stack⟩ := q
  cases state with
  | beginValue => exact outside_scanBeginValue step other
  | beginValueOrEmpty =>
    rw [scanStep, other, if_neg Bool.false_ne_true] at step
    split_ifs at step
    · exact outside_scanEndValue step other
    · exact outside_scanBeginValue step other
  | beginStringOrEmpty =>
    rw [scanStep, other, if_neg Bool.false_ne_true] at step
    split_ifs at step
    · exact outside_scanEndValue step other
    · exact outside_scanBeginString step other
  | beginString => exact outside_scanBeginString step other
  | inString => cases outside
  | inStringEsc => cases outside
  | inStringEscU left => cases outside
  | literal rest =>
    cases rest with
    | nil => cases step
    | cons d rest =>
      have letter := tame (d :: rest) rfl d List.mem_cons_self
      have rest_tame : ∀ e ∈ rest, 0x61 ≤ e ∧ e < 0x80 :=
        fun e member => tame (d :: rest) rfl e (List.mem_cons_of_mem _ member)
      cases rest with
      | nil =>
        rw [scanStep] at step
        split_ifs at step with same
        obtain rfl := Option.some.inj step
        exact .token (same ▸ isToken_letter letter) rfl (tame_of_ne fun _ literal => by cases literal)
      | cons e rest =>
        rw [scanStep] at step
        · split_ifs at step with same
          obtain rfl := Option.some.inj step
          exact .token (same ▸ isToken_letter letter) rfl fun _ literal => ScanState.literal.inj literal ▸ rest_tame
        · exact List.cons_ne_nil e rest
  | neg =>
    rw [scanStep] at step
    split_ifs at step with zero digit
    · obtain rfl := Option.some.inj step
      exact .token (zero ▸ by decide) rfl (tame_of_ne fun _ literal => by cases literal)
    · exact outside_digit digit (Option.some.inj step) rfl fun _ literal => by cases literal
  | int =>
    rw [scanStep] at step
    split_ifs at step with digit
    · exact outside_digit digit (Option.some.inj step) rfl fun _ literal => by cases literal
    · exact outside_scanZero step other
  | zero => exact outside_scanZero step other
  | dot =>
    rw [scanStep] at step
    split_ifs at step with digit
    exact outside_digit digit (Option.some.inj step) rfl fun _ literal => by cases literal
  | frac =>
    rw [scanStep] at step
    split_ifs at step with digit exp
    · exact outside_digit digit (Option.some.inj step) rfl fun _ literal => by cases literal
    · obtain rfl := Option.some.inj step
      simp only [Bool.or_eq_true, decide_eq_true_eq] at exp
      refine .token ?_ rfl (tame_of_ne fun _ literal => by cases literal)
      rcases exp with rfl | rfl <;> decide
    · exact outside_scanEndValue step other
  | exp =>
    rw [scanStep] at step
    split_ifs at step with sign digit
    · obtain rfl := Option.some.inj step
      simp only [Bool.or_eq_true, decide_eq_true_eq] at sign
      refine .token ?_ rfl (tame_of_ne fun _ literal => by cases literal)
      rcases sign with rfl | rfl <;> decide
    · exact outside_digit digit (Option.some.inj step) rfl fun _ literal => by cases literal
  | expSign =>
    rw [scanStep] at step
    split_ifs at step with digit
    exact outside_digit digit (Option.some.inj step) rfl fun _ literal => by cases literal
  | expDigits =>
    rw [scanStep] at step
    split_ifs at step with digit
    · exact outside_digit digit (Option.some.inj step) rfl fun _ literal => by cases literal
    · exact outside_scanEndValue step other
  | endValue => exact outside_scanEndValue step other

theorem bytes_of_space (space : isJsonSpace c = true) :
    isDigit c = false ∧ c < 0x61 ∧ c ≠ 0x2E ∧ c ≠ 0x2B ∧ c ≠ 0x2D ∧ c ≠ 0x30 ∧ c ≠ 0x45 ∧ c ≠ 0x65 := by
  have byte : c = 0x20 ∨ c = 0x09 ∨ c = 0x0A ∨ c = 0x0D := by simpa [isJsonSpace, or_assoc] using space
  rcases byte with rfl | rfl | rfl | rfl <;> decide

/-- White space outside a string does nothing but end a number. -/
theorem space_step (step : scanStep q c = some q') (tame : q.Tame) (outside : q.1.quoting = (false, false))
    (space : isJsonSpace c = true) : q' = q ∨ q.1.IsNumber ∧ q' = (.endValue, q.2) := by
  obtain ⟨digit, below, dot, plus, minus, zero, upper, lower⟩ := bytes_of_space space
  have ends (stack : List ParseState) : scanEndValue stack c = some (.endValue, stack) := by
    unfold scanEndValue
    rw [if_pos space]
  have ended (stack : List ParseState) : scanZero stack c = some (.endValue, stack) := by
    simp [scanZero, dot, upper, lower, ends]
  obtain ⟨state, stack⟩ := q
  cases state with
  | beginValue => exact Or.inl (by simpa [scanStep, scanBeginValue, space, eq_comm] using step)
  | beginValueOrEmpty => exact Or.inl (by simpa [scanStep, space, eq_comm] using step)
  | beginStringOrEmpty => exact Or.inl (by simpa [scanStep, space, eq_comm] using step)
  | beginString => exact Or.inl (by simpa [scanStep, scanBeginString, space, eq_comm] using step)
  | inString => cases outside
  | inStringEsc => cases outside
  | inStringEscU left => cases outside
  | literal rest =>
    cases rest with
    | nil => cases step
    | cons d rest =>
      have letter := (tame (d :: rest) rfl d List.mem_cons_self).1
      have differ : c ≠ d := fun same => absurd (same ▸ below) (UInt8.not_lt.mpr letter)
      cases rest with
      | nil => simp [scanStep, differ] at step
      | cons e rest => simp [scanStep, differ] at step
  | neg => simp [scanStep, digit, zero] at step
  | int => exact Or.inr ⟨Or.inr (Or.inl rfl), by simpa [scanStep, digit, ended, eq_comm] using step⟩
  | zero => exact Or.inr ⟨Or.inl rfl, by simpa [scanStep, ended, eq_comm] using step⟩
  | dot => simp [scanStep, digit] at step
  | frac =>
    exact Or.inr ⟨Or.inr (Or.inr (Or.inl rfl)), by simpa [scanStep, digit, upper, lower, ends, eq_comm] using step⟩
  | exp => simp [scanStep, digit, plus, minus] at step
  | expSign => simp [scanStep, digit] at step
  | expDigits => exact Or.inr ⟨Or.inr (Or.inr (Or.inr rfl)), by simpa [scanStep, digit, ends, eq_comm] using step⟩
  | endValue => exact Or.inl (by simpa [scanStep, ends, eq_comm] using step)

/-- A byte inside a string. -/
theorem inside_step (step : scanStep q c = some q') (inside : q.1.quoting.1 = true) (s : GoString) :
    q'.Tame ∧ stripSpace q.1.quoting.1 q.1.quoting.2 (c :: s) = c :: stripSpace q'.1.quoting.1 q'.1.quoting.2 s := by
  obtain ⟨state, stack⟩ := q
  cases state with
  | inString =>
    rw [scanStep] at step
    split_ifs at step with quote escape control
    · obtain rfl := Option.some.inj step
      refine ⟨tame_of_ne (fun _ literal => by cases literal), ?_⟩
      subst quote
      rfl
    · obtain rfl := Option.some.inj step
      refine ⟨tame_of_ne (fun _ literal => by cases literal), ?_⟩
      subst escape
      rfl
    · obtain rfl := Option.some.inj step
      refine ⟨tame_of_ne (fun _ literal => by cases literal), ?_⟩
      simp [ScanState.quoting, stripSpace, quote, escape]
  | inStringEsc =>
    rw [scanStep] at step
    split_ifs at step with u known
    · obtain rfl := Option.some.inj step
      exact ⟨tame_of_ne (fun _ literal => by cases literal), rfl⟩
    · obtain rfl := Option.some.inj step
      exact ⟨tame_of_ne (fun _ literal => by cases literal), rfl⟩
  | inStringEscU left =>
    rw [scanStep] at step
    split_ifs at step with hex last
    all_goals
      obtain rfl := Option.some.inj step
      have bytes : c ≠ 0x5C ∧ c ≠ 0x22 := by
        refine ⟨?_, ?_⟩ <;> rintro rfl <;> exact absurd hex (by decide)
      refine ⟨tame_of_ne (fun _ literal => by cases literal), ?_⟩
      simp [ScanState.quoting, stripSpace, bytes]
  | beginValue => cases inside
  | beginValueOrEmpty => cases inside
  | beginStringOrEmpty => cases inside
  | beginString => cases inside
  | literal rest => cases inside
  | neg => cases inside
  | int => cases inside
  | zero => cases inside
  | dot => cases inside
  | frac => cases inside
  | exp => cases inside
  | expSign => cases inside
  | expDigits => cases inside
  | endValue => cases inside

/-- What ends a number follows it directly or after white space. -/
theorem number_step {p : Scanner} (step : scanStep q c = some q') (ended : q.1 = .endValue) (number : p.1.IsNumber)
    (same : p.2 = q.2) (other : isJsonSpace c = false) : scanStep p c = some q' := by
  obtain ⟨state, stack⟩ := q
  obtain ⟨state', stack'⟩ := p
  obtain rfl : state = .endValue := ended
  obtain rfl : stack' = stack := same
  have step : scanEndValue stack' c = some q' := step
  have bytes : isDigit c = false ∧ c ≠ 0x2E ∧ c ≠ 0x65 ∧ c ≠ 0x45 := by
    have ends : c = 0x3A ∨ c = 0x2C ∨ c = 0x7D ∨ c = 0x5D := by
      unfold scanEndValue at step
      rw [other] at step
      grind
    rcases ends with rfl | rfl | rfl | rfl <;> decide
  obtain ⟨digit, dot, lower, upper⟩ := bytes
  have after : scanZero stack' c = some q' := by simpa [scanZero, dot, lower, upper] using step
  rcases number with h | h | h | h
  all_goals
    have h : state' = _ := h
    subst h
  · exact after
  · simpa [scanStep, digit] using after
  · simpa [scanStep, digit, lower, upper] using step
  · simpa [scanStep, digit] using step

theorem outside_of_not_inside {state : ScanState} (inside : ¬state.quoting.1 = true) :
    state.quoting = (false, false) := by
  cases state <;> first | rfl | exact absurd rfl inside

/-- Every byte leads to a tame state. -/
theorem tame_step (step : scanStep q c = some q') (tame : q.Tame) : q'.Tame := by
  by_cases inside : q.1.quoting.1 = true
  · exact (inside_step step inside []).1
  · have outside := outside_of_not_inside inside
    by_cases space : isJsonSpace c = true
    · rcases space_step step tame outside space with rfl | ⟨_, rfl⟩
      · exact tame
      · exact tame_of_ne fun _ literal => by cases literal
    · rcases outside_step step tame outside (Bool.not_eq_true _ ▸ space) with ⟨_, state⟩ | ⟨_, _, tame'⟩
      · exact tame_of_ne fun _ literal => by rw [state] at literal; cases literal
      · exact tame'

theorem bytes_of_special (special : c = 0x3C ∨ c = 0x3E ∨ c = 0x26 ∨ 0x80 ≤ c) :
    c ≠ 0x22 ∧ c ≠ 0x5C ∧ ¬c < 0x20 ∧ c ≠ 0x75 ∧ isHex c = false ∧ isJsonSpace c = false ∧
      (ofString "bfnrt\\/\"").contains c = false ∧ ¬IsToken c := by
  rcases special with rfl | rfl | rfl | high
  · decide
  · decide
  · decide
  · have known : (ofString "bfnrt\\/\"").contains c = false := by
      have ascii : ∀ d ∈ ofString "bfnrt\\/\"", d < 0x80 := by decide +kernel
      rw [Bool.eq_false_iff]
      intro member
      exact absurd (ascii c (List.contains_iff_mem.mp member)) (UInt8.not_lt.mpr high)
    refine ⟨?_, ?_, ?_, ?_, ?_, ?_, known, fun token => absurd token.1 (UInt8.not_lt.mpr high)⟩
    · grind
    · grind
    · grind
    · grind
    · simp only [isHex, isDigit]
      grind
    · simp only [isJsonSpace]
      grind

/-- A byte that Go escapes is read inside a string and stays there. -/
theorem special_step (step : scanStep q c = some q') (tame : q.Tame)
    (special : c = 0x3C ∨ c = 0x3E ∨ c = 0x26 ∨ 0x80 ≤ c) : q.1 = .inString ∧ q' = q := by
  have bytes := bytes_of_special special
  obtain ⟨quote, escape, control, u, hex, space, known, token⟩ := bytes
  by_cases inside : q.1.quoting.1 = true
  · obtain ⟨state, stack⟩ := q
    cases state with
    | inString => exact ⟨rfl, by simpa [scanStep, quote, escape, control, eq_comm] using step⟩
    | inStringEsc =>
      rw [scanStep, if_neg u, known, if_neg Bool.false_ne_true] at step
      cases step
    | inStringEscU left => simp [scanStep, hex] at step
    | _ => cases inside
  · have outside : q.1.quoting = (false, false) := outside_of_not_inside inside
    rcases outside_step step tame outside space with ⟨byte, _⟩ | ⟨byte, _, _⟩
    · exact absurd byte quote
    · exact absurd byte token

end Step

/-- `p` has read the text of `q` without the white space: white space may have ended a number for `q`
that has not ended for `p` yet. -/
def Scanner.Follows (q p : Scanner) : Prop := p = q ∨ q.1 = .endValue ∧ p.1.IsNumber ∧ p.2 = q.2

/-- A scanner that has skipped the white space goes on like the one that has read it. -/
theorem Scanner.Follows.step {q q' p : Scanner} {c : UInt8} (follows : q.Follows p) (step : scanStep q c = some q')
    (other : isJsonSpace c = false) : scanStep p c = some q' := by
  rcases follows with rfl | ⟨ended, number, same⟩
  · exact step
  · exact number_step step ended number same other

/-- Outside a string a byte that is not white space is copied. -/
theorem stripSpace_outside_step {c : UInt8} {q' : Scanner} (outside : Outside c q') (other : isJsonSpace c = false)
    (s : GoString) : stripSpace false false (c :: s) = c :: stripSpace q'.1.quoting.1 q'.1.quoting.2 s := by
  have copied : stripSpace false false (c :: s) = c :: stripSpace (c = 0x22) false s := by
    rw [stripSpace, if_neg]
    exact Bool.eq_false_iff.mp other
  rw [copied]
  rcases outside with ⟨byte, state⟩ | ⟨byte, state, _⟩
  · rw [state, byte]
    rfl
  · have bare : decide (c = 0x22) = false := decide_eq_false byte.2.2.2.2
    rw [state, bare]

/-- So the text without its white space is accepted where the text is. -/
theorem scan_stripSpace {q q' p : Scanner} {s : GoString} (run : s.foldlM scanStep q = some q') (tame : q.Tame)
    (follows : q.Follows p) :
    ∃ p', (stripSpace q.1.quoting.1 q.1.quoting.2 s).foldlM scanStep p = some p' ∧ q'.Follows p' := by
  induction s generalizing q p with
  | nil =>
    obtain rfl := Option.some.inj run
    exact ⟨p, by rw [stripSpace]; rfl, follows⟩
  | cons c s ih =>
    rw [List.foldlM_cons] at run
    obtain ⟨next, step, rest⟩ := Option.bind_eq_some_iff.mp run
    have tame' := tame_step step tame
    by_cases inside : q.1.quoting.1 = true
    · have same : p = q := follows.resolve_right fun ended => by
        rw [ended.1] at inside
        cases inside
      obtain ⟨p', onwards, after⟩ := ih rest tame' (Or.inl rfl)
      refine ⟨p', ?_, after⟩
      rw [(inside_step step inside s).2, List.foldlM_cons, same, step]
      exact onwards
    · have outside := outside_of_not_inside inside
      by_cases space : isJsonSpace c = true
      · have dropped : stripSpace false false (c :: s) = stripSpace false false s := by
          rw [stripSpace]
          exact if_pos space
        rw [outside]
        rcases space_step step tame outside space with rfl | ⟨number, rfl⟩
        · rw [dropped]
          have onwards := ih rest tame follows
          rwa [outside] at onwards
        · have same : p = q := follows.resolve_right fun ended => by
            rw [ended.1] at number
            rcases number with h | h | h | h <;> cases h
          rw [dropped]
          exact ih rest tame' (Or.inr ⟨rfl, same ▸ number, same ▸ rfl⟩)
      · have other : isJsonSpace c = false := Bool.eq_false_iff.mpr space
        obtain ⟨p', onwards, after⟩ := ih rest tame' (Or.inl rfl)
        refine ⟨p', ?_, after⟩
        rw [outside, stripSpace_outside_step (outside_step step tame outside other) other, List.foldlM_cons,
          follows.step step other]
        exact onwards

/-- A byte that is escaped stands in a string. -/
theorem special_run {q q' : Scanner} {c : UInt8} {s : GoString} (special : c = 0x3C ∨ c = 0x3E ∨ c = 0x26 ∨ 0x80 ≤ c)
    (run : (c :: s).foldlM scanStep q = some q') (tame : q.Tame) :
    ∃ stack, q = (.inString, stack) ∧ s.foldlM scanStep ((.inString, stack) : Scanner) = some q' := by
  rw [List.foldlM_cons] at run
  obtain ⟨next, step, rest⟩ := Option.bind_eq_some_iff.mp run
  obtain ⟨state, rfl⟩ := special_step step tame special
  obtain ⟨_, stack⟩ := next
  obtain rfl : _ = ScanState.inString := state
  exact ⟨stack, rfl, rest⟩

/-- So do the bytes of U+2028 and U+2029. -/
theorem separator_run {q q' : Scanner} {c d e : UInt8} {s : GoString} (first : c = 0xE2) (second : d = 0x80)
    (third : 0x80 ≤ e) (run : (c :: d :: e :: s).foldlM scanStep q = some q') (tame : q.Tame) :
    ∃ stack, q = (.inString, stack) ∧ s.foldlM scanStep ((.inString, stack) : Scanner) = some q' := by
  have within (stack : List ParseState) : Scanner.Tame (.inString, stack) :=
    tame_of_ne fun _ literal => by cases literal
  obtain ⟨stack, rfl, rest⟩ := special_run (Or.inr (Or.inr (Or.inr (by rw [first]; decide)))) run tame
  obtain ⟨_, same, rest⟩ := special_run (Or.inr (Or.inr (Or.inr (by rw [second]; decide)))) rest (within _)
  rw [← same] at rest
  obtain ⟨_, same, rest⟩ := special_run (Or.inr (Or.inr (Or.inr third))) rest (within _)
  rw [← same] at rest
  exact ⟨stack, rfl, rest⟩

/-- The escapes of `json.Marshal` stand inside strings, where the scanner accepts them like the bytes they
replace. -/
theorem scan_htmlEscape {q q' : Scanner} {s : GoString} (run : s.foldlM scanStep q = some q') (tame : q.Tame) :
    (htmlEscape s).foldlM scanStep q = some q' := by
  -- the byte, or the three bytes, that an escape replaces leave the scanner inside the string, as the escape does
  have replaced {stack : List ParseState} {word t : GoString}
      (stays : word.foldlM scanStep ((.inString, stack) : Scanner) = some (.inString, stack))
      (rest : (htmlEscape t).foldlM scanStep (.inString, stack) = some q') :
      (word ++ htmlEscape t).foldlM scanStep ((.inString, stack) : Scanner) = some q' := by
    rw [List.foldlM_append, stays]
    exact rest
  have copied {c : UInt8} {s : GoString} {q : Scanner} (tame : q.Tame) (run : (c :: s).foldlM scanStep q = some q')
      (ih : ∀ {q}, s.foldlM scanStep q = some q' → q.Tame → (htmlEscape s).foldlM scanStep q = some q') :
      (c :: htmlEscape s).foldlM scanStep q = some q' := by
    rw [List.foldlM_cons] at run ⊢
    obtain ⟨next, step, rest⟩ := Option.bind_eq_some_iff.mp run
    rw [step]
    exact ih rest (tame_step step tame)
  fun_induction htmlEscape s generalizing q with
  | case1 => exact run
  | case2 s ih =>
    obtain ⟨stack, rfl, rest⟩ := special_run (Or.inl rfl) run tame
    exact replaced rfl (ih rest (tame_of_ne fun _ literal => by cases literal))
  | case3 s _ ih =>
    obtain ⟨stack, rfl, rest⟩ := special_run (Or.inr (Or.inl rfl)) run tame
    exact replaced rfl (ih rest (tame_of_ne fun _ literal => by cases literal))
  | case4 s _ _ ih =>
    obtain ⟨stack, rfl, rest⟩ := special_run (Or.inr (Or.inr (Or.inl rfl))) run tame
    exact replaced rfl (ih rest (tame_of_ne fun _ literal => by cases literal))
  | case5 c _ _ _ d e s sep ih =>
    obtain ⟨stack, rfl, rest⟩ := separator_run sep.1 sep.2.1 (by rw [sep.2.2]; decide) run tame
    exact replaced rfl (ih rest (tame_of_ne fun _ literal => by cases literal))
  | case6 c _ _ _ d e s _ sep ih =>
    obtain ⟨stack, rfl, rest⟩ := separator_run sep.1 sep.2.1 (by rw [sep.2.2]; decide) run tame
    exact replaced rfl (ih rest (tame_of_ne fun _ literal => by cases literal))
  | case7 c _ _ _ d e s _ _ ih => exact copied tame run ih
  | case8 c _ _ _ s _ ih => exact copied tame run ih

/-- What `json.Marshal` makes of valid JSON is valid JSON. -/
theorem jsonValid_compact {raw : GoString} (valid : jsonValid raw = true) : jsonValid (compact raw) = true := by
  have run : (raw ++ [0x20]).foldlM scanStep ((.beginValue, []) : Scanner) = some (.endValue, []) :=
    of_decide_eq_true valid
  rw [List.foldlM_append] at run
  obtain ⟨q, read, last⟩ := Option.bind_eq_some_iff.mp run
  have tame : Scanner.Tame (.beginValue, []) := tame_of_ne fun _ literal => by cases literal
  obtain ⟨p, stripped, follows⟩ := scan_stripSpace read tame (Or.inl rfl)
  have escaped := scan_htmlEscape stripped tame
  have ended : scanStep p 0x20 = some (.endValue, []) := by
    rw [List.foldlM_cons] at last
    obtain ⟨ending, step, done⟩ := Option.bind_eq_some_iff.mp last
    obtain rfl := Option.some.inj done
    rcases follows with rfl | ⟨ended, number, same⟩
    · exact step
    · obtain ⟨state, stack⟩ := q
      obtain ⟨state', stack'⟩ := p
      obtain rfl : state = .endValue := ended
      obtain rfl : stack' = stack := same
      obtain rfl : stack' = [] := congrArg Prod.snd (Option.some.inj step)
      rcases number with h | h | h | h
      all_goals
        obtain rfl : state' = _ := h
        rfl
  by_cases blank : htmlEscape (stripSpace false false raw) = []
  · rw [compact, if_pos blank]
    decide
  · rw [compact, if_neg blank]
    refine decide_eq_true ?_
    rw [List.foldlM_append]
    refine Option.bind_eq_some_iff.mpr ⟨p, escaped, ?_⟩
    rw [List.foldlM_cons, ended]
    rfl

end Discovery
