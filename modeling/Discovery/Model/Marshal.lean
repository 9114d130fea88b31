import Discovery.Model.Config
import Discovery.PrefixCode

namespace Discovery

/-- An ASCII byte in a string literal. -/
def escapeByte (b : UInt8) : GoString :=
  if b = 0x5C ∨ b = 0x22 then [0x5C, b]
  else if b = 0x08 then "\\b"
  else if b = 0x0C then "\\f"
  else if b = 0x0A then "\\n"
  else if b = 0x0D then "\\r"
  else if b = 0x09 then "\\t"
  else if b < 0x20 ∨ b = 0x3C ∨ b = 0x3E ∨ b = 0x26 then
    ofString "\\u00" ++ [hexChar (b.toNat / 16), hexChar (b.toNat % 16)]
  else [b]

/-- The body of a string literal; `n` counts the bytes of the current rune still to come, which are
copied, or dropped where the rune was written as an escape. -/
def quoteFrom (copy : Bool) : Nat → GoString → GoString
  | _, [] => []
  | n + 1, b :: s => if copy then b :: quoteFrom copy n s else quoteFrom copy n s
  | 0, b :: s =>
    match runeWidth (b :: s) with
    | 0 => ofString "\\ufffd" ++ quoteFrom true 0 s
    | 1 => escapeByte b ++ quoteFrom true 0 s
    | w + 2 =>
      if (b :: s).take 3 = [0xE2, 0x80, 0xA8] then ofString "\\u2028" ++ quoteFrom false (w + 1) s
      else if (b :: s).take 3 = [0xE2, 0x80, 0xA9] then ofString "\\u2029" ++ quoteFrom false (w + 1) s
      else b :: quoteFrom true (w + 1) s

def quoteJson (s : GoString) : GoString := 0x22 :: (quoteFrom true 0 s ++ [0x22])

theorem hexDigit_hexChar : ∀ n < 16, hexDigit (hexChar n) = n := by decide

theorem encodeRune_ascii : ∀ n < 0x80, encodeRune n = [UInt8.ofNat n] := by decide

/-- An escape of one code unit is read as the rune it spells. -/
theorem unquoteBody_u {a b c d : UInt8} {n : Nat} (t : GoString)
    (value : ((hexDigit a * 16 + hexDigit b) * 16 + hexDigit c) * 16 + hexDigit d = n)
    (whole : ¬(0xD800 ≤ n ∧ n < 0xDC00)) :
    unquoteBody .plain none (0x5C :: 0x75 :: a :: b :: c :: d :: t) = encodeRune n ++ unquoteBody .plain none t := by
  subst value
  simp [unquoteBody, whole]

theorem unquoteBody_copy {b : UInt8} (open_ : b ≠ 0x22 ∧ b ≠ 0x5C) (t : GoString) :
    unquoteBody .plain none (b :: t) = b :: unquoteBody .plain none t := by
  simp [unquoteBody, open_]

/-- However an ASCII byte is escaped, it is read back. -/
theorem unquoteBody_escapeByte {b : UInt8} (ascii : b < 0x80) (t : GoString) :
    unquoteBody .plain none (escapeByte b ++ t) = b :: unquoteBody .plain none t := by
  unfold escapeByte
  split
  next special => rcases special with rfl | rfl <;> rfl
  next open_ =>
    split
    next same => rw [same]; rfl
    next =>
      split
      next same => rw [same]; rfl
      next =>
        split
        next same => rw [same]; rfl
        next =>
          split
          next same => rw [same]; rfl
          next =>
            split
            next same => rw [same]; rfl
            next =>
              split
              next =>
                have small : b.toNat < 0x80 := UInt8.lt_iff_toNat_lt.mp ascii
                have high := hexDigit_hexChar (b.toNat / 16) (by omega)
                have low := hexDigit_hexChar (b.toNat % 16) (by omega)
                have value : ((hexDigit 0x30 * 16 + hexDigit 0x30) * 16 + hexDigit (hexChar (b.toNat / 16))) * 16 +
                    hexDigit (hexChar (b.toNat % 16)) = b.toNat := by
                  have zero : hexDigit 0x30 = 0 := by decide
                  rw [zero, high, low]
                  omega
                have read := unquoteBody_u t value (by omega)
                rw [encodeRune_ascii b.toNat small, UInt8.ofNat_toNat] at read
                exact read
              next => exact unquoteBody_copy (by tauto) t

/-- The bytes after the first one of a long rune are no quotes or backslashes. -/
theorem continuation_of_runeWidth {b : UInt8} {s : GoString} {w : Nat} (width : runeWidth (b :: s) = w + 1) :
    ∀ c ∈ s.take w, 0x80 ≤ c := by
  have lead := (runeWidth_pos width).1
  simp only [runeWidth] at width
  split at width
  next cond =>
    simp only [Bool.and_eq_true, lead, Nat.add_sub_cancel, List.all_eq_true, isCont, decide_eq_true_eq] at cond
    exact fun c member => (cond.1.2 c member).1
  next => omega

theorem open_of_high {b : UInt8} (high : 0x80 ≤ b) : b ≠ 0x22 ∧ b ≠ 0x5C := by
  constructor
  · rintro rfl
    exact absurd high (by decide)
  · rintro rfl
    exact absurd high (by decide)

theorem ascii_of_leadWidth {b : UInt8} (lead : leadWidth b = 1) : b < 0x80 := by
  by_contra high
  unfold leadWidth at lead
  rw [if_neg high] at lead
  split at lead
  · cases lead
  · split at lead
    · cases lead
    · split at lead
      · cases lead
      · split at lead <;> cases lead

theorem high_of_leadWidth {b : UInt8} {w : Nat} (lead : leadWidth b = w + 2) : 0x80 ≤ b := by
  by_contra low
  rw [leadWidth_ascii (UInt8.not_le.mp low)] at lead
  omega

theorem eq_of_take_three {b x y z : UInt8} {s : GoString} (same : (b :: s).take 3 = [x, y, z]) :
    b = x ∧ ∃ s', s = y :: z :: s' := by
  match s with
  | [] => simp at same
  | [c] => simp at same
  | c :: d :: s =>
    simp only [List.take_succ_cons, List.take_zero, List.cons.injEq, and_true] at same
    obtain ⟨rfl, rfl, rfl⟩ := same
    exact ⟨rfl, s, rfl⟩

/-- The closing quote is found where the encoder put it, and what was read is the string with its
invalid bytes replaced. -/
theorem unquoteBody_quoteFrom (copy : Bool) (n : Nat) (s t : GoString) (high : ∀ c ∈ s.take n, 0x80 ≤ c) :
    unquoteBody .plain none (quoteFrom copy n s ++ 0x22 :: t) =
      if copy then jsonStringFrom n s else (jsonStringFrom n s).drop n := by
  induction s generalizing copy n with
  | nil => cases n <;> cases copy <;> rfl
  | cons b s ih =>
    cases n with
    | succ n =>
      have rest := fun copy => ih copy n fun c member => high c (List.mem_cons_of_mem b member)
      cases copy with
      | true =>
        have first := open_of_high (high b List.mem_cons_self)
        simp only [quoteFrom, jsonStringFrom, if_true, List.cons_append, unquoteBody_copy first, rest]
      | false => simp only [quoteFrom, jsonStringFrom, rest, List.drop_succ_cons, Bool.false_eq_true, if_false]
    | zero =>
      have start : unquoteBody .plain none (quoteFrom copy 0 (b :: s) ++ 0x22 :: t) = jsonStringFrom 0 (b :: s) := by
        cases width : runeWidth (b :: s) with
        | zero =>
          have rest := ih true 0 (by simp)
          have read := unquoteBody_u (a := 0x66) (b := 0x66) (c := 0x66) (d := 0x64) (n := 0xFFFD)
            (quoteFrom true 0 s ++ 0x22 :: t) (by decide) (by decide)
          rw [rest] at read
          simp only [quoteFrom, jsonStringFrom, width]
          exact read
        | succ w =>
          cases w with
          | zero =>
            have ascii := ascii_of_leadWidth (runeWidth_pos width).1
            have rest := ih true 0 (by simp)
            simp only [quoteFrom, jsonStringFrom, width, List.append_assoc, unquoteBody_escapeByte ascii, rest, if_true]
          | succ w =>
            have high := continuation_of_runeWidth width
            have rest := fun copy => ih copy (w + 1) high
            simp only [quoteFrom, jsonStringFrom, width]
            split
            next separator =>
              obtain ⟨rfl, s, rfl⟩ := eq_of_take_three separator
              obtain rfl : w = 1 := by
                have three : runeWidth (0xE2 :: 0x80 :: 0xA8 :: s) = 3 := rfl
                omega
              have read := unquoteBody_u (a := 0x32) (b := 0x30) (c := 0x32) (d := 0x38) (n := 0x2028)
                (quoteFrom false 2 (0x80 :: 0xA8 :: s) ++ 0x22 :: t) (by decide) (by decide)
              rw [rest false] at read
              exact read
            next =>
              split
              next separator =>
                obtain ⟨rfl, s, rfl⟩ := eq_of_take_three separator
                obtain rfl : w = 1 := by
                  have three : runeWidth (0xE2 :: 0x80 :: 0xA9 :: s) = 3 := rfl
                  omega
                have read := unquoteBody_u (a := 0x32) (b := 0x30) (c := 0x32) (d := 0x39) (n := 0x2029)
                  (quoteFrom false 2 (0x80 :: 0xA9 :: s) ++ 0x22 :: t) (by decide) (by decide)
                rw [rest false] at read
                exact read
              next =>
                have first := open_of_high (high_of_leadWidth (runeWidth_pos width).1)
                rw [List.cons_append, unquoteBody_copy first, rest true, if_pos rfl]
      rw [start]
      cases copy <;> rfl

/-- The end of a string literal can be told from the literal. -/
theorem delimits_quoteJson : PrefixCode.Delimits quoteJson {s | ValidUTF8 s} := by
  intro v left w right s t same
  have decoded (u rest : GoString) :
      unquoteBody .plain none (quoteFrom true 0 u ++ 0x22 :: rest) = jsonString u :=
    unquoteBody_quoteFrom true 0 u rest (by simp)
  have body : quoteFrom true 0 v ++ 0x22 :: s = quoteFrom true 0 w ++ 0x22 :: t := by
    simpa [quoteJson] using same
  obtain rfl : v = w := by
    calc
      v = jsonString v := left.symm
      _ = jsonString w := by rw [← decoded v s, body, decoded w t]
      _ = w := right
  exact ⟨rfl, List.append_cancel_left same⟩

/-- A finished value cannot go on with a closing brace. -/
theorem scanStep_brace {q : Scanner} (finished : scanStep q 0x20 = some (.endValue, [])) : scanStep q 0x7D = none := by
  obtain ⟨state, stack⟩ := q
  have ended (ended : scanEndValue stack 0x20 = some (.endValue, [])) : scanEndValue stack 0x7D = none := by
    obtain rfl : stack = [] := congrArg Prod.snd (Option.some.inj ended)
    rfl
  cases state with
  | endValue => exact ended finished
  | int => exact ended finished
  | zero => exact ended finished
  | frac => exact ended finished
  | expDigits => exact ended finished
  | literal rest =>
    match rest with
    | [] => rfl
    | [d] =>
      simp only [scanStep] at finished ⊢
      split at finished
      next same => rw [← same]; rfl
      next => cases finished
    | d :: e :: rest =>
      simp only [scanStep] at finished
      split at finished <;> cases finished
  | _ => cases finished

/-- The end of a raw value can be told where a brace follows. -/
theorem delimits_raw : PrefixCode.Delimits (fun v : GoString => v ++ [0x7D]) {v | jsonValid v = true} := by
  refine PrefixCode.delimits_closed fun v left a right => ?_
  simp only [Set.mem_ofPred_eq, jsonValid, decide_eq_true_eq, List.foldlM_append] at left right
  cases run : v.foldlM scanStep (.beginValue, []) with
  | none =>
    rw [run] at left
    cases left
  | some q =>
    rw [run] at left right
    have finished : scanStep q 0x20 = some (.endValue, []) := by simpa using left
    simp [scanStep_brace finished] at right

def marshalEntry (e : GoString × TypedValue) : GoString :=
  quoteJson e.1 ++ (ofString ":\x7b\"type\":" ++ (quoteJson e.2.type ++ (ofString ",\"value\":" ++
    (compact e.2.value ++ [0x7D]))))

/-- The JSON object of a map of variables, in key order. -/
def marshalVars (vars : Vars) : GoString :=
  let entries :=
    match vars.toList with
    | [] => []
    | e :: es => marshalEntry e ++ es.flatMap fun e => 0x2C :: marshalEntry e
  0x7B :: (entries ++ [0x7D])

/-- An entry as a revision holds it: text in UTF-8, and a value that is compact JSON. -/
def Servable (e : GoString × TypedValue) : Prop :=
  ValidUTF8 e.1 ∧ e.2.json = e.2 ∧ jsonValid e.2.value = true

/-- So the text of an entry can be taken apart in one way. -/
theorem delimits_marshalEntry : PrefixCode.Delimits marshalEntry {e | Servable e} := by
  rintro ⟨k, v⟩ ⟨key, clean, valid⟩ ⟨k', v'⟩ ⟨key', clean', valid'⟩ s t same
  have type : ValidUTF8 v.type := congrArg TypedValue.type clean
  have type' : ValidUTF8 v'.type := congrArg TypedValue.type clean'
  have value : compact v.value = v.value := congrArg TypedValue.value clean
  have value' : compact v'.value = v'.value := congrArg TypedValue.value clean'
  simp only [marshalEntry, value, value', List.append_assoc] at same
  obtain ⟨keys, afterKey⟩ := delimits_quoteJson k key k' key' _ _ same
  obtain ⟨types, afterType⟩ :=
    delimits_quoteJson v.type type v'.type type' _ _ (List.append_cancel_left afterKey)
  have rest := List.append_cancel_left afterType
  simp only [← List.append_assoc] at rest
  obtain ⟨values, tails⟩ := delimits_raw v.value valid v'.value valid' s t rest
  obtain ⟨_, _⟩ := v
  obtain ⟨_, _⟩ := v'
  dsimp only at types values
  rw [keys, types, values]
  exact ⟨rfl, tails⟩

theorem vars_eq_of_toList {vars vars' : Vars} (same : vars.toList = vars'.toList) : vars = vars' := by
  apply Std.ExtTreeMap.ext_getElem?
  intro k
  ext v
  rw [← Std.ExtTreeMap.mem_toList_iff_getElem?_eq_some, ← Std.ExtTreeMap.mem_toList_iff_getElem?_eq_some, same]

/-- The served text determines the variables. -/
theorem marshalVars_inj {vars vars' : Vars} (left : ∀ e ∈ vars.toList, Servable e)
    (right : ∀ e ∈ vars'.toList, Servable e) : marshalVars vars = marshalVars vars' ↔ vars = vars' := by
  refine ⟨fun same => vars_eq_of_toList ?_, fun same => by rw [same]⟩
  have entries := List.append_cancel_right (List.cons.inj same).2
  have following : PrefixCode.Delimits (fun e => 0x2C :: marshalEntry e) {e | Servable e} :=
    fun a first b second s t same => delimits_marshalEntry a first b second s t (List.cons.inj same).2
  generalize vars.toList = l at left entries
  generalize vars'.toList = m at right entries
  cases l with
  | nil =>
    cases m with
    | nil => rfl
    | cons b m => cases entries
  | cons a l =>
    cases m with
    | nil => cases entries
    | cons b m =>
      obtain ⟨first, others⟩ := delimits_marshalEntry a (left a List.mem_cons_self) b (right b List.mem_cons_self) _ _
        entries
      have rest := following.injOn_flatMap (fun _ _ blank => by cases blank)
        (fun e member => left e (List.mem_cons_of_mem a member))
        (fun e member => right e (List.mem_cons_of_mem b member)) others
      rw [first, rest]

end Discovery
