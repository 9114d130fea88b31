import Discovery.Model.Config

namespace Discovery
open Kv

def digitByte (c : Char) : UInt8 := c.val.toUInt8

def readDigits (digits : GoString) : Nat :=
  Nat.ofDigitChars 10 (digits.map (fun b => Char.ofNat b.toNat)) 0

/-- The number a padded revision stands for. -/
def readRevision (s : GoString) : Int :=
  if s.head? = some 0x2D then -(readDigits s.tail : Int) else readDigits s

theorem digitByte_spec {c : Char} (digit : c.isDigit) :
    0x30 ≤ digitByte c ∧ digitByte c ≤ 0x39 ∧ Char.ofNat (digitByte c).toNat = c := by
  simp only [Char.isDigit, Bool.and_eq_true, decide_eq_true_eq, ge_iff_le, UInt32.le_iff_toNat_le] at digit
  obtain ⟨lower, upper⟩ := digit
  have low : 48 ≤ c.toNat := lower
  have high : c.toNat ≤ 57 := upper
  have byte : (digitByte c).toNat = c.toNat := by
    show c.toNat % 2 ^ 8 = c.toNat
    omega
  refine ⟨UInt8.le_iff_toNat_le.mpr ?_, UInt8.le_iff_toNat_le.mpr ?_, ?_⟩
  · rw [byte]
    exact low
  · rw [byte]
    exact high
  · rw [byte, Char.ofNat_toNat]

/-- Decimal numbers are written in digits. -/
theorem decimal_digits {n : Nat} {b : UInt8} (member : b ∈ decimal n) : 0x30 ≤ b ∧ b ≤ 0x39 := by
  obtain ⟨c, digit, rfl⟩ := List.mem_map.mp member
  have spec := digitByte_spec (Nat.isDigit_of_mem_toDigits (by decide) (by decide) digit)
  exact ⟨spec.1, spec.2.1⟩

theorem chars_decimal (n : Nat) :
    (decimal n).map (fun b => Char.ofNat b.toNat) = Nat.toDigits 10 n := by
  rw [decimal, List.map_map]
  refine (List.map_congr_left fun c member => ?_).trans (List.map_id _)
  exact (digitByte_spec (Nat.isDigit_of_mem_toDigits (by decide) (by decide) member)).2.2

/-- Zeros in front do not change the number that is read. -/
theorem readDigits_padded (m n : Nat) : readDigits (List.replicate m 0x30 ++ decimal n) = n := by
  have zero : Char.ofNat (0x30 : UInt8).toNat = '0' := rfl
  rw [readDigits, List.map_append, List.map_replicate, zero, chars_decimal, Nat.ofDigitChars_append,
    Nat.ofDigitChars_replicate_zero, Nat.mul_zero, Nat.ofDigitChars_ten_toDigits]

theorem padded_digits {m n : Nat} {b : UInt8} (member : b ∈ List.replicate m 0x30 ++ decimal n) :
    0x30 ≤ b ∧ b ≤ 0x39 := by
  rcases List.mem_append.mp member with zero | digit
  · rw [List.eq_of_mem_replicate zero]
    decide
  · exact decimal_digits digit

/-- The padded number in a key reads back as the number, also beyond the padding and below zero. -/
theorem readRevision_padRevision (n : Int) : readRevision (padRevision n) = n := by
  simp only [padRevision, List.append_assoc]
  by_cases negative : n < 0
  · rw [if_pos negative, readRevision]
    have sign : ofString "-" = [0x2D] := rfl
    rw [sign, List.singleton_append, List.head?_cons, if_pos rfl, List.tail_cons, readDigits_padded]
    omega
  · rw [if_neg negative, List.nil_append, readRevision, if_neg, readDigits_padded]
    · omega
    · intro minus
      have digit := padded_digits (List.mem_of_mem_head? minus)
      exact absurd digit.1 (by decide)

/-- Revisions of different numbers have different keys. -/
theorem padRevision_injective : Function.Injective padRevision := by
  intro m n same
  calc
    m = readRevision (padRevision m) := (readRevision_padRevision m).symm
    _ = readRevision (padRevision n) := congrArg readRevision same
    _ = n := readRevision_padRevision n

theorem readRevision_formatInt (n : Int) : readRevision (formatInt n) = n := by
  have digits := readDigits_padded 0 n.natAbs
  rw [List.replicate_zero, List.nil_append] at digits
  by_cases negative : n < 0
  · rw [formatInt, if_pos negative, readRevision]
    have sign : ofString "-" = [0x2D] := rfl
    rw [sign, List.singleton_append, List.head?_cons, if_pos rfl, List.tail_cons, digits]
    omega
  · rw [formatInt, if_neg negative, List.nil_append, readRevision, if_neg, digits]
    · omega
    · intro minus
      exact absurd (decimal_digits (List.mem_of_mem_head? minus)).1 (by decide)

/-- Integers are told apart by their decimal text. -/
theorem formatInt_injective : Function.Injective formatInt :=
  Function.LeftInverse.injective readRevision_formatInt

/-- `%d` writes digits and a minus. -/
theorem formatInt_bytes {n : Int} {b : UInt8} (member : b ∈ formatInt n) : b = 0x2D ∨ 0x30 ≤ b ∧ b ≤ 0x39 := by
  rw [formatInt, List.mem_append] at member
  rcases member with sign | digit
  · split at sign
    · exact Or.inl (List.mem_singleton.mp sign)
    · cases sign
  · exact Or.inr (decimal_digits digit)

/-- The number has no slash, so the last slash of a key is where it begins. -/
theorem slash_notMem_padRevision (n : Int) : slash ∉ padRevision n := by
  intro member
  simp only [padRevision, List.append_assoc] at member
  rcases List.mem_append.mp member with sign | digit
  · split at sign
    · exact absurd sign (by decide)
    · exact absurd sign List.not_mem_nil
  · exact absurd (padded_digits digit).1 (by decide)

theorem padRevision_length (n : Int) : revPad ≤ (padRevision n).length := by
  simp only [padRevision, List.length_append, List.length_replicate]
  omega

/-- A key splits in one way at its last slash. -/
theorem last_slash_unique {s t x y : GoString} (hx : slash ∉ x) (hy : slash ∉ y)
    (same : s ++ slash :: x = t ++ slash :: y) : s = t ∧ x = y := by
  obtain ⟨a, rfl, rest⟩ | ⟨a, rfl, rest⟩ := List.append_eq_append_iff.mp same
  · cases a with
    | nil => exact ⟨(List.append_nil s).symm, (List.cons.inj rest).2⟩
    | cons c a =>
      have member : slash ∈ x := by
        rw [(List.cons.inj rest).2]
        exact List.mem_append_right a List.mem_cons_self
      exact absurd member hx
  · cases a with
    | nil => exact ⟨List.append_nil t, (List.cons.inj rest).2.symm⟩
    | cons c a =>
      have member : slash ∈ y := by
        rw [(List.cons.inj rest).2]
        exact List.mem_append_right a List.mem_cons_self
      exact absurd member hy

theorem cfgRevKey_eq (id : GoString) (n : Int) :
    cfgRevKey id n = (ofString "rev/" ++ id) ++ slash :: padRevision n := by
  simp [cfgRevKey, cfgRevPrefix]

/-- A key of the history belongs to one ID and one number, even where IDs contain slashes. -/
theorem cfgRevKey_inj {id id' : GoString} {m n : Int} :
    cfgRevKey id m = cfgRevKey id' n ↔ id = id' ∧ m = n := by
  constructor
  · intro same
    rw [cfgRevKey_eq, cfgRevKey_eq] at same
    obtain ⟨ids, numbers⟩ :=
      last_slash_unique (slash_notMem_padRevision m) (slash_notMem_padRevision n) same
    exact ⟨List.append_cancel_left ids, padRevision_injective numbers⟩
  · rintro ⟨rfl, rfl⟩
    rfl

@[simp] theorem cfgActiveKey_inj {id id' : GoString} : cfgActiveKey id = cfgActiveKey id' ↔ id = id' := by
  simp [cfgActiveKey]

@[simp] theorem cfgDraftKey_inj {id id' : GoString} : cfgDraftKey id = cfgDraftKey id' ↔ id = id' := by
  simp [cfgDraftKey]

/-- A history key lies under the prefix of its own scope, and under that of a scope whose ID and a
slash begin its own. -/
theorem cfgRevPrefix_prefix_iff {id id' : GoString} {n : Int} :
    cfgRevPrefix id <+: cfgRevKey id' n ↔ id = id' ∨ id ++ [slash] <+: id' := by
  have cut : cfgRevPrefix id <+: cfgRevKey id' n ↔ id ++ [slash] <+: id' ++ slash :: padRevision n := by
    simp only [cfgRevPrefix, cfgRevKey, List.append_assoc, List.prefix_append_right_inj, List.singleton_append]
  rw [cut]
  constructor
  · intro ⟨rest, whole⟩
    rw [List.append_assoc, List.singleton_append] at whole
    obtain ⟨a, rfl, tail⟩ | ⟨a, rfl, tail⟩ := List.append_eq_append_iff.mp whole
    · cases a with
      | nil => exact Or.inl (List.append_nil id).symm
      | cons c a =>
        obtain ⟨rfl, _⟩ := List.cons.inj tail
        exact Or.inr ⟨a, by simp⟩
    · cases a with
      | nil => exact Or.inl (List.append_nil id')
      | cons c a =>
        -- the slash after `id` would lie in the padded number
        have member : slash ∈ padRevision n := by
          rw [(List.cons.inj tail).2]
          exact List.mem_append_right a List.mem_cons_self
        exact absurd member (slash_notMem_padRevision n)
  · rintro (rfl | inner)
    · exact ⟨padRevision n, by simp⟩
    · exact inner.trans (List.prefix_append _ _)

/-- A scope whose history key fits can also be active. -/
theorem fits_cfgActiveKey {id : GoString} {n : Int} (fits : KeyFits (cfgRevKey id n)) :
    KeyFits (cfgActiveKey id) := by
  obtain ⟨_, small⟩ := fits
  have pad := padRevision_length n
  have sizes : (ofString "active/").length = 7 ∧ (ofString "rev/").length = 4 := by decide
  simp only [cfgRevKey_eq, List.length_append, List.length_cons, sizes.2, revPad] at small pad
  refine ⟨by simp [cfgActiveKey, ofString], ?_⟩
  rw [cfgActiveKey, List.length_append, sizes.1]
  omega

/-- A scope as `Validate` leaves it. -/
def ConfigScope.Accepted (s : ConfigScope) : Prop := s.validate = .ok s

instance (s : ConfigScope) : Decidable s.Accepted := inferInstanceAs (Decidable (s.validate = .ok s))

theorem ConfigScope.validate_eq_ok {s v : ConfigScope} :
    s.validate = .ok v ↔
      trimSpace s.kind = scopeGlobal ∧ v = { kind := scopeGlobal } ∨
      trimSpace s.kind = scopeService ∧ trimSpace s.service ≠ [] ∧
        v = { kind := scopeService, service := trimSpace s.service } ∨
      trimSpace s.kind = scopeVersion ∧ trimSpace s.service ≠ [] ∧ trimSpace s.constraint ≠ [] ∧
        v = { kind := scopeVersion, service := trimSpace s.service, constraint := trimSpace s.constraint } := by
  have differ : scopeService ≠ scopeGlobal ∧ scopeVersion ≠ scopeGlobal ∧ scopeVersion ≠ scopeService := by decide
  obtain ⟨serviceGlobal, versionGlobal, versionService⟩ := differ
  unfold ConfigScope.validate
  generalize trimSpace s.kind = kind
  by_cases isGlobal : kind = scopeGlobal
  · subst isGlobal
    simp [serviceGlobal.symm, versionGlobal.symm, eq_comm]
  · by_cases isService : kind = scopeService
    · subst isService
      by_cases unnamed : trimSpace s.service = []
      · simp [serviceGlobal, versionService.symm, unnamed]
      · simp [serviceGlobal, versionService.symm, unnamed, eq_comm]
    · by_cases isVersion : kind = scopeVersion
      · subst isVersion
        by_cases unnamed : trimSpace s.service = []
        · simp [versionGlobal, versionService, unnamed]
        · by_cases free : trimSpace s.constraint = []
          · simp [versionGlobal, versionService, unnamed, free]
          · simp [versionGlobal, versionService, unnamed, free, eq_comm]
      · simp [isGlobal, isService, isVersion]

/-- What the validation returns is a scope that it accepts unchanged. -/
theorem ConfigScope.validate_accepted {s v : ConfigScope} (valid : s.validate = .ok v) : v.Accepted := by
  have kinds : trimSpace scopeGlobal = scopeGlobal ∧ trimSpace scopeService = scopeService ∧
      trimSpace scopeVersion = scopeVersion := by decide
  obtain ⟨isGlobal, isService, isVersion⟩ := kinds
  rcases validate_eq_ok.mp valid with ⟨_, rfl⟩ | ⟨_, named, rfl⟩ | ⟨_, named, constrained, rfl⟩
  · exact validate_eq_ok.mpr (Or.inl ⟨isGlobal, rfl⟩)
  · refine validate_eq_ok.mpr (Or.inr (Or.inl ⟨isService, ?_, ?_⟩))
    · rwa [trimSpace_idem]
    · rw [trimSpace_idem]
  · refine validate_eq_ok.mpr (Or.inr (Or.inr ⟨isVersion, ?_, ?_, ?_⟩))
    · rwa [trimSpace_idem]
    · rwa [trimSpace_idem]
    · rw [trimSpace_idem, trimSpace_idem]

/-- What the ID adds to the kind. -/
def ConfigScope.label (s : ConfigScope) : GoString :=
  if s.kind = scopeVersion then s.service ++ ofString ":" ++ s.constraint else s.service

/-- Two scopes of one kind whose services and constraints are the same text once joined. -/
def ConfigScope.Clashes (s t : ConfigScope) : Prop := s.kind = t.kind ∧ s.label = t.label

/-- The text of `t` begins with the text of `s` and a slash. -/
def ConfigScope.Encloses (s t : ConfigScope) : Prop := s.kind = t.kind ∧ s.label ++ [slash] <+: t.label

/-- The kind's part of the ID. -/
def scopeHead (kind : GoString) : GoString :=
  if kind = scopeGlobal then "global" else if kind = scopeService then "service:" else "version:"

theorem ConfigScope.Accepted.kind_mem {s : ConfigScope} (accepted : s.Accepted) :
    s.kind ∈ [scopeGlobal, scopeService, scopeVersion] := by
  rcases validate_eq_ok.mp accepted with ⟨_, same⟩ | ⟨_, _, same⟩ | ⟨_, _, _, same⟩ <;> rw [same] <;> simp

/-- The ID of an accepted scope is the head of its kind and a label. -/
theorem ConfigScope.Accepted.ID_eq {s : ConfigScope} (accepted : s.Accepted) :
    s.ID = scopeHead s.kind ++ s.label := by
  have differ : scopeService ≠ scopeGlobal ∧ scopeVersion ≠ scopeGlobal ∧ scopeVersion ≠ scopeService := by decide
  obtain ⟨serviceGlobal, versionGlobal, versionService⟩ := differ
  rcases validate_eq_ok.mp accepted with ⟨_, same⟩ | ⟨_, _, same⟩ | ⟨_, _, _, same⟩
  · rw [same]
    decide
  · rw [same]
    simp [ConfigScope.ID, scopeHead, ConfigScope.label, serviceGlobal, versionService.symm]
  · rw [same]
    simp [ConfigScope.ID, scopeHead, ConfigScope.label, versionGlobal, versionService]

/-- Scopes of different kinds have IDs that differ at the first byte. -/
theorem scopeHead_unique {k l x y : GoString} (left : k ∈ [scopeGlobal, scopeService, scopeVersion])
    (right : l ∈ [scopeGlobal, scopeService, scopeVersion]) (same : scopeHead k ++ x = scopeHead l ++ y) :
    k = l := by
  have first (k x : GoString) (member : k ∈ [scopeGlobal, scopeService, scopeVersion]) :
      (scopeHead k ++ x).head? = k.head? := by
    simp only [List.mem_cons, List.not_mem_nil, or_false] at member
    rcases member with rfl | rfl | rfl <;> rfl
  have heads : k.head? = l.head? := by rw [← first k x left, same, first l y right]
  have kinds : ∀ k ∈ [scopeGlobal, scopeService, scopeVersion], ∀ l ∈ [scopeGlobal, scopeService, scopeVersion],
      k.head? = l.head? → k = l := by decide
  exact kinds k left l right heads

/-- Two accepted scopes share their ID exactly when they clash: the colon between service and constraint can stand
in either. -/
theorem ConfigScope.ID_eq_iff {s t : ConfigScope} (left : s.Accepted) (right : t.Accepted) :
    s.ID = t.ID ↔ s.Clashes t := by
  rw [left.ID_eq, right.ID_eq]
  constructor
  · intro same
    have kinds := scopeHead_unique left.kind_mem right.kind_mem same
    rw [kinds] at same
    exact ⟨kinds, List.append_cancel_left same⟩
  · intro ⟨kinds, labels⟩
    rw [kinds, labels]

/-- The history of one accepted scope lies under the prefix of another exactly when the other encloses it. -/
theorem ConfigScope.ID_prefix_iff {s t : ConfigScope} (left : s.Accepted) (right : t.Accepted) :
    s.ID ++ [slash] <+: t.ID ↔ s.Encloses t := by
  rw [left.ID_eq, right.ID_eq]
  constructor
  · intro ⟨rest, whole⟩
    rw [List.append_assoc, List.append_assoc] at whole
    have kinds := scopeHead_unique left.kind_mem right.kind_mem whole
    rw [kinds] at whole
    exact ⟨kinds, rest, by rw [List.append_assoc, List.append_cancel_left whole]⟩
  · intro ⟨kinds, rest, whole⟩
    exact ⟨rest, by rw [kinds, ← whole, List.append_assoc, List.append_assoc, List.append_assoc]⟩

end Discovery
