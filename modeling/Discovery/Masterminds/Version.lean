import Discovery.GoString
import Mathlib.Data.Nat.Digits.Defs

/-! `version.go` of the vendored Masterminds package. -/

namespace Discovery
namespace Mm

def isDigit (b : UInt8) : Bool := 0x30 ≤ b && b ≤ 0x39

/-- A byte of `[0-9A-Za-z\-]`. -/
def isIdent (b : UInt8) : Bool := isDigit b || (0x61 ≤ b && b ≤ 0x7A) || (0x41 ≤ b && b ≤ 0x5A) || b == 0x2D

/-- The groups of a match: the minor and the patch part with their dot, the prerelease with its hyphen and the
metadata with its plus. -/
structure Parts where
  v : Bool
  major : GoString
  minor : GoString
  patch : GoString
  pre : GoString
  metadata : GoString
  deriving DecidableEq

/-- `(\.[…]+)?`. -/
def dotSegment (seg : UInt8 → Bool) : GoString → GoString × GoString
  | 0x2E :: s => if (s.takeWhile seg).isEmpty then ([], 0x2E :: s) else (0x2E :: s.takeWhile seg, s.dropWhile seg)
  | s => ([], s)

/-- `(\.[0-9A-Za-z\-]+)*` behind an identifier, and the rest of that identifier. -/
def identTail : GoString → GoString × GoString
  | [] => ([], [])
  | b :: s =>
    if isIdent b || (b == 0x2E && s.head?.any isIdent) then (b :: (identTail s).1, (identTail s).2) else ([], b :: s)

/-- `(-([0-9A-Za-z\-]+(\.[0-9A-Za-z\-]+)*))?`, and the same with a plus. -/
def identifiers (lead : UInt8) : GoString → GoString × GoString
  | [] => ([], [])
  | b :: s => if b = lead ∧ s.head?.any isIdent then (b :: (identTail s).1, (identTail s).2) else ([], b :: s)

/-- The groups behind the `v`. -/
def looseGroups (seg : UInt8 → Bool) (v : Bool) (s : GoString) : Option (Parts × GoString) :=
  let minor := dotSegment seg (s.dropWhile seg)
  let patch := dotSegment seg minor.2
  let pre := identifiers 0x2D patch.2
  let metadata := identifiers 0x2B pre.2
  if (s.takeWhile seg).isEmpty then none
  else some (⟨v, s.takeWhile seg, minor.1, patch.1, pre.1, metadata.1⟩, metadata.2)

/-- The head of a string read by the groups of `looseSemVerRegex`, where a segment consists of digits, and of
`cvRegex`, where wildcards count. No byte can go to two groups, so taking all a group can is the only match. -/
def looseParts (seg : UInt8 → Bool) (s : GoString) : Option (Parts × GoString) :=
  if s.head? = some 0x76 then looseGroups seg true s.tail else looseGroups seg false s

/-- `strconv.ParseUint(s, 10, 64)`. -/
def parseUint (s : GoString) : Option Nat :=
  let n := Nat.ofDigits 10 (s.reverse.map fun b => b.toNat - 0x30)
  if s ≠ [] ∧ s.all isDigit ∧ n < 2 ^ 64 then some n else none

/-- One identifier of a prerelease. -/
def validIdentifier (p : GoString) : Bool :=
  if p = [] then false
  else if p.all isDigit then !(1 < p.length && p.head? == some 0x30)
  else p.all isIdent

def validatePrerelease (p : GoString) : Bool := (p.splitOn 0x2E).all validIdentifier

def validateMetadata (m : GoString) : Bool := (m.splitOn 0x2E).all fun p => !p.isEmpty && p.all isIdent

structure Version where
  major : Nat
  minor : Nat
  patch : Nat
  pre : GoString
  valid : pre = [] ∨ validatePrerelease pre = true
  deriving DecidableEq

/-- A segment that is left out counts as zero. -/
def segment (s : GoString) : Option Nat := if s = [] then some 0 else parseUint s.tail

def Parts.version (p : Parts) : Option Version := do
  let major ← parseUint p.major
  let minor ← segment p.minor
  let patch ← segment p.patch
  if valid : p.pre.tail = [] ∨ validatePrerelease p.pre.tail = true then
    if p.metadata.tail = [] ∨ validateMetadata p.metadata.tail then some ⟨major, minor, patch, p.pre.tail, valid⟩
    else none
  else none

def maxVersionLen : Nat := 256

/-- `NewVersion` with `CoerceNewVersion` set, as the package has it. -/
def newVersion (s : GoString) : Option Version :=
  if maxVersionLen < s.length then none
  else
    match looseParts isDigit s with
    | some (parts, []) => parts.version
    | _ => none

def comparePrePart (s o : GoString) : Ordering :=
  if s = o then .eq
  else if s = [] then .lt
  else if o = [] then .gt
  else
    match parseUint o, parseUint s with
    | none, none => if Ord.compare s o = .gt then .gt else .lt
    | none, some _ => .lt
    | some _, none => .gt
    | some oi, some si => if oi < si then .gt else .lt

/-- The loop over the parts; a missing part is the empty one. -/
def compareParts : List GoString → List GoString → Ordering
  | [], os => os.foldr (fun o rest => (comparePrePart [] o).then rest) .eq
  | s :: ss, os => (comparePrePart s (os.headD [])).then (compareParts ss os.tail)

def comparePrerelease (v o : GoString) : Ordering := compareParts (v.splitOn 0x2E) (o.splitOn 0x2E)

def Version.compare (v o : Version) : Ordering :=
  (Ord.compare v.major o.major).then <| (Ord.compare v.minor o.minor).then <| (Ord.compare v.patch o.patch).then <|
    if v.pre = [] ∧ o.pre = [] then .eq
    else if v.pre = [] then .gt
    else if o.pre = [] then .lt
    else comparePrerelease v.pre o.pre

/-- Numbers come before words, numbers by value and words by their bytes. -/
def partCmp : GoString → GoString → Ordering :=
  compareLex (compareOn fun s => if (parseUint s).isSome then 0 else 1)
    (compareLex (compareOn fun s => (parseUint s).getD 0) (compareOn fun s => if (parseUint s).isSome then [] else s))

instance : Std.TransCmp partCmp := inferInstanceAs (Std.TransCmp (compareLex _ (compareLex _ _)))

/-- Only digits are read as a number, and as the number they denote. -/
theorem parseUint_some {s : GoString} {n : Nat} (parsed : parseUint s = some n) :
    s ≠ [] ∧ s.all isDigit = true ∧ Nat.ofDigits 10 (s.reverse.map fun b => b.toNat - 0x30) = n := by
  simp only [parseUint] at parsed
  split at parsed
  next cond => exact ⟨cond.1, cond.2.1, Option.some.inj parsed⟩
  next => cases parsed

theorem isDigit_toNat {b : UInt8} (digit : isDigit b = true) : 0x30 ≤ b.toNat ∧ b.toNat ≤ 0x39 := by
  simp only [isDigit, Bool.and_eq_true, decide_eq_true_eq] at digit
  exact ⟨UInt8.le_iff_toNat_le.mp digit.1, UInt8.le_iff_toNat_le.mp digit.2⟩

/-- The digits of a number without leading zeros are those of its value. -/
theorem digits_parseUint {s : GoString} {n : Nat} (parsed : parseUint s = some n) (noZero : s.head? ≠ some 0x30) :
    Nat.digits 10 n = s.reverse.map fun b => b.toNat - 0x30 := by
  obtain ⟨nonempty, digits, rfl⟩ := parseUint_some parsed
  have digit (b : UInt8) (member : b ∈ s) := isDigit_toNat (List.all_eq_true.mp digits b member)
  apply Nat.digits_ofDigits 10 (by decide)
  · intro d member
    obtain ⟨b, inside, rfl⟩ := List.mem_map.mp member
    have bounds := digit b (List.mem_reverse.mp inside)
    omega
  · intro _
    cases s with
    | nil => exact absurd rfl nonempty
    | cons b s =>
      have bounds := digit b List.mem_cons_self
      have lead : b.toNat ≠ 0x30 := by
        intro zero
        exact noZero (congrArg some (UInt8.toNat_inj.mp zero))
      simp only [List.reverse_cons, List.map_append, List.map_cons, List.map_nil, List.getLast_append_singleton]
      omega

/-- A numeric identifier with a leading zero is the zero itself. -/
theorem eq_zero_of_leading {s : GoString} (digits : s.all isDigit = true) (valid : validIdentifier s = true)
    (zero : s.head? = some 0x30) : s = [0x30] := by
  match s with
  | [] => cases zero
  | [b] =>
    obtain rfl := Option.some.inj zero
    rfl
  | b :: c :: s =>
    simp [validIdentifier, digits] at valid
    exact absurd (Option.some.inj zero) valid

/-- A number without leading zeros is written in one way only. -/
theorem parseUint_inj {s o : GoString} {n : Nat} (first : parseUint s = some n) (second : parseUint o = some n)
    (valid : validIdentifier s = true) (valid' : validIdentifier o = true) : s = o := by
  obtain ⟨nonempty, digits, _⟩ := parseUint_some first
  obtain ⟨nonempty', digits', _⟩ := parseUint_some second
  have zero {t t' : GoString} (read : parseUint t = some n) (leading : t = [0x30]) (read' : parseUint t' = some n)
      (other : t'.head? ≠ some 0x30) : t' = [] := by
    subst leading
    obtain rfl : 0 = n := Option.some.inj read
    have none := digits_parseUint read' other
    rw [Nat.digits_zero] at none
    exact List.reverse_eq_nil_iff.mp (List.map_eq_nil_iff.mp none.symm)
  by_cases lead : s.head? = some 0x30
  · have here := eq_zero_of_leading digits valid lead
    by_cases lead' : o.head? = some 0x30
    · rw [here, eq_zero_of_leading digits' valid' lead']
    · exact absurd (zero first here second lead') nonempty'
  · by_cases lead' : o.head? = some 0x30
    · exact absurd (zero second (eq_zero_of_leading digits' valid' lead') first lead) nonempty
    · have same := (digits_parseUint first lead).symm.trans (digits_parseUint second lead')
      have restore {t : GoString} (digits : t.all isDigit = true) :
          (t.reverse.map fun b => b.toNat - 0x30).map (fun d => UInt8.ofNat (d + 0x30)) = t.reverse := by
        rw [List.map_map]
        refine (List.map_congr_left fun b member => ?_).trans (List.map_id _)
        have bounds := isDigit_toNat (List.all_eq_true.mp digits b (List.mem_reverse.mp member))
        show UInt8.ofNat (b.toNat - 0x30 + 0x30) = b
        rw [Nat.sub_add_cancel bounds.1, UInt8.ofNat_toNat]
      have reversed : s.reverse = o.reverse := by rw [← restore digits, same, restore digits']
      exact List.reverse_injective reversed

/-- On identifiers as a prerelease has them the source compares by that order. -/
theorem comparePrePart_eq {s o : GoString} (valid : validIdentifier s = true) (valid' : validIdentifier o = true) :
    comparePrePart s o = partCmp s o := by
  have nonempty {t : GoString} (ok : validIdentifier t = true) : t ≠ [] := by
    rintro rfl
    cases ok
  rw [comparePrePart]
  by_cases same : s = o
  · have self : partCmp o o = .eq := Std.ReflCmp.compare_self
    rw [if_pos same, same, self]
  · rw [if_neg same, if_neg (nonempty valid), if_neg (nonempty valid')]
    cases first : parseUint s with
    | none =>
      cases second : parseUint o with
      | none =>
        have words : partCmp s o = Ord.compare s o := by simp [partCmp, compareLex, compareOn, first, second]
        rw [words]
        cases order : Ord.compare s o with
        | eq => exact absurd (Std.LawfulEqCmp.eq_of_compare order) same
        | lt => rfl
        | gt => rfl
      | some oi => simp [partCmp, compareLex, compareOn, first, second]; rfl
    | some si =>
      cases second : parseUint o with
      | none => simp [partCmp, compareLex, compareOn, first, second]; rfl
      | some oi =>
        have different : si ≠ oi := by
          rintro rfl
          exact same (parseUint_inj first second valid valid')
        have numbers : partCmp s o = Ord.compare si oi := by simp [partCmp, compareLex, compareOn, first, second]
        rw [numbers]
        rcases Nat.lt_or_gt_of_ne different with less | greater
        · rw [Nat.compare_eq_lt.mpr less]
          exact if_neg (Nat.not_lt.mpr less.le)
        · rw [Nat.compare_eq_gt.mpr greater]
          exact if_pos greater

/-- A prerelease that goes on is above one that has ended. -/
theorem comparePrePart_fill {s : GoString} (valid : validIdentifier s = true) :
    comparePrePart s [] = .gt ∧ comparePrePart [] s = .lt := by
  have nonempty : s ≠ [] := by
    rintro rfl
    cases valid
  simp [comparePrePart, nonempty, nonempty.symm]

/-- A missing part comes before every other, so the loop compares the parts lexicographically. -/
theorem compareParts_eq {ss os : List GoString} (valid : ss.all validIdentifier = true)
    (valid' : os.all validIdentifier = true) : compareParts ss os = List.compareLex partCmp ss os := by
  induction ss generalizing os with
  | nil =>
    cases os with
    | nil => rfl
    | cons o os =>
      have first := (comparePrePart_fill (Bool.and_eq_true_iff.mp valid').1).2
      rw [compareParts, List.foldr_cons, first]
      rfl
  | cons s ss ih =>
    obtain ⟨head, tail⟩ := Bool.and_eq_true_iff.mp valid
    cases os with
    | nil =>
      rw [compareParts, List.headD_nil, (comparePrePart_fill head).1]
      rfl
    | cons o os =>
      obtain ⟨head', tail'⟩ := Bool.and_eq_true_iff.mp valid'
      rw [compareParts, List.headD_cons, List.tail_cons, comparePrePart_eq head head', ih tail tail',
        List.compareLex_cons_cons]

/-- A release comes after its prereleases. -/
def Version.released (v : Version) : Nat := if v.pre = [] then 1 else 0

def preCmp (v o : Version) : Ordering := List.compareLex partCmp (v.pre.splitOn 0x2E) (o.pre.splitOn 0x2E)

instance : Std.TransCmp preCmp :=
  have parts : Std.TransCmp (List.compareLex partCmp) := inferInstance
  { eq_swap := parts.eq_swap
    isLE_trans := parts.isLE_trans }

/-- Versions are compared by their numbers first, then a release is above its prereleases, and then these are
compared. -/
theorem Version.compare_eq (v o : Version) :
    v.compare o = compareLex (compareOn Version.major) (compareLex (compareOn Version.minor)
      (compareLex (compareOn Version.patch) (compareLex (compareOn Version.released) preCmp))) v o := by
  have last : (if v.pre = [] ∧ o.pre = [] then Ordering.eq
      else if v.pre = [] then .gt
      else if o.pre = [] then .lt
      else comparePrerelease v.pre o.pre) = compareLex (compareOn Version.released) preCmp v o := by
    by_cases release : v.pre = []
    · by_cases release' : o.pre = []
      · simp only [release, release', and_self, if_true, compareLex, compareOn, Version.released, preCmp]
        rfl
      · simp only [release, release', and_false, if_false, if_true, compareLex, compareOn, Version.released]
        rfl
    · by_cases release' : o.pre = []
      · simp only [release, release', false_and, if_false, if_true, compareLex, compareOn, Version.released]
        rfl
      · have valid := v.valid.resolve_left release
        have valid' := o.valid.resolve_left release'
        simp only [release, release', false_and, if_false, compareLex, compareOn, Version.released]
        exact compareParts_eq valid valid'
  rw [Version.compare, last]
  rfl

instance : Std.TransCmp Version.compare := by
  have same : Version.compare = compareLex (compareOn Version.major) (compareLex (compareOn Version.minor)
      (compareLex (compareOn Version.patch) (compareLex (compareOn Version.released) preCmp))) := by
    funext v o
    exact Version.compare_eq v o
  rw [same]
  infer_instance

/-- The matched text, put together again. -/
def Parts.text (p : Parts) : GoString :=
  (if p.v then [0x76] else []) ++ (p.major ++ (p.minor ++ (p.patch ++ (p.pre ++ p.metadata))))

/-- The optional group of a minor or patch number. -/
def Segment (seg : UInt8 → Bool) (x : GoString) : Prop :=
  x = [] ∨ ∃ run, x = 0x2E :: run ∧ run ≠ [] ∧ run.all seg = true

/-- The optional group of a prerelease or of metadata. -/
def Identifiers (lead : UInt8) (x : GoString) : Prop :=
  x = [] ∨ ∃ run, x = lead :: run ∧ run.head?.any isIdent = true ∧ identTail run = (run, [])

/-- What the groups of a match look like. -/
structure Parts.Groups (seg : UInt8 → Bool) (p : Parts) : Prop where
  major : p.major ≠ [] ∧ p.major.all seg = true
  minor : Segment seg p.minor
  patch : Segment seg p.patch
  short : p.minor = [] → p.patch = []
  pre : Identifiers 0x2D p.pre
  metadata : Identifiers 0x2B p.metadata

/-- No group begins with a byte of a segment. -/
structure Separates (seg : UInt8 → Bool) : Prop where
  v : seg 0x76 = false
  dot : seg 0x2E = false
  hyphen : seg 0x2D = false
  plus : seg 0x2B = false

theorem dotSegment_groups (seg : UInt8 → Bool) (s : GoString) :
    s = (dotSegment seg s).1 ++ (dotSegment seg s).2 ∧ Segment seg (dotSegment seg s).1 := by
  rw [dotSegment.eq_def]
  split
  next t =>
    split
    next => exact ⟨rfl, Or.inl rfl⟩
    next run =>
      refine ⟨?_, Or.inr ⟨_, rfl, ?_, List.all_takeWhile⟩⟩
      · rw [List.cons_append, List.takeWhile_append_dropWhile]
      · simpa using run
  next => exact ⟨rfl, Or.inl rfl⟩

/-- A group of the pattern ends where its alphabet does. -/
theorem dotSegment_append {seg : UInt8 → Bool} {x t : GoString} (group : Segment seg x)
    (stop : t.head?.any seg = false) (other : x = [] → t.head? ≠ some 0x2E) : dotSegment seg (x ++ t) = (x, t) := by
  rcases group with rfl | ⟨run, rfl, nonempty, all⟩
  · rw [List.nil_append, dotSegment.eq_def]
    split
    next => exact absurd rfl (other rfl)
    next => rfl
  · have within : ∀ b ∈ run, seg b = true := List.all_eq_true.mp all
    have ends : t.takeWhile seg = [] ∧ t.dropWhile seg = t := by
      cases t with
      | nil => exact ⟨rfl, rfl⟩
      | cons b t =>
        have stops : seg b = false := stop
        simp [stops]
    have taken : (run ++ t).takeWhile seg = run := by
      rw [List.takeWhile_append_of_pos within, ends.1, List.append_nil]
    have left : (run ++ t).dropWhile seg = t := by rw [List.dropWhile_append_of_pos within, ends.2]
    rw [List.cons_append, dotSegment, taken, left, if_neg (by simpa using nonempty)]

theorem identTail_groups (s : GoString) :
    s = (identTail s).1 ++ (identTail s).2 ∧ identTail (identTail s).1 = ((identTail s).1, []) ∧
      (s.head?.any isIdent = true → (identTail s).1.head?.any isIdent = true) := by
  induction s with
  | nil => exact ⟨rfl, rfl, id⟩
  | cons b s ih =>
    obtain ⟨whole, again, head⟩ := ih
    rw [identTail]
    split
    next taken =>
      refine ⟨?_, ?_, id⟩
      · rw [List.cons_append, ← whole]
      · have kept : (isIdent b || (b == 0x2E && (identTail s).1.head?.any isIdent)) = true := by
          rcases Bool.or_eq_true_iff.mp taken with ident | dot
          · rw [ident]
            rfl
          · obtain ⟨dot, next⟩ := Bool.and_eq_true_iff.mp dot
            rw [dot, head next]
            simp
        rw [identTail, if_pos kept, again]
    next left =>
      refine ⟨rfl, rfl, fun ident => ?_⟩
      have here : isIdent b = true := ident
      rw [here] at left
      exact absurd rfl left

theorem identifiers_groups (lead : UInt8) (s : GoString) :
    s = (identifiers lead s).1 ++ (identifiers lead s).2 ∧ Identifiers lead (identifiers lead s).1 := by
  cases s with
  | nil => exact ⟨rfl, Or.inl rfl⟩
  | cons b s =>
    obtain ⟨whole, again, head⟩ := identTail_groups s
    rw [identifiers]
    split
    next taken =>
      refine ⟨?_, Or.inr ⟨_, by rw [taken.1], head taken.2, again⟩⟩
      rw [List.cons_append, ← whole]
    next => exact ⟨rfl, Or.inl rfl⟩

/-- Where an identifier group ends. -/
def Ends (t : GoString) : Prop := t = [] ∨ t.head? = some 0x2B

theorem identTail_append {run : GoString} (whole : identTail run = (run, [])) {t : GoString} (ends : Ends t) :
    identTail (run ++ t) = (run, t) := by
  induction run with
  | nil =>
    rcases ends with rfl | plus
    · rfl
    · cases t with
      | nil => cases plus
      | cons b t =>
        obtain rfl : b = 0x2B := Option.some.inj plus
        rfl
  | cons b run ih =>
    rw [identTail] at whole
    split at whole
    next taken =>
      have rest : identTail run = (run, []) := by
        have first := congrArg Prod.fst whole
        have second := congrArg Prod.snd whole
        exact Prod.ext (List.cons.inj first).2 second
      have kept : (isIdent b || (b == 0x2E && (run ++ t).head?.any isIdent)) = true := by
        cases run with
        | nil => simp_all
        | cons c run => exact taken
      rw [List.cons_append, identTail, if_pos kept, ih rest]
    next => cases whole

/-- A list of identifiers ends where it cannot go on, unless a metadata part follows. -/
theorem identifiers_append {lead : UInt8} {x t : GoString} (group : Identifiers lead x) (ends : Ends t)
    (other : lead ≠ 0x2B ∨ t = []) : identifiers lead (x ++ t) = (x, t) := by
  rcases group with rfl | ⟨run, rfl, ident, whole⟩
  · rcases ends with rfl | plus
    · rfl
    · cases t with
      | nil => cases plus
      | cons b t =>
        obtain rfl : b = 0x2B := Option.some.inj plus
        have differs : lead ≠ 0x2B := other.resolve_right (by simp)
        simp [identifiers, Ne.symm differs]
  · have first : (run ++ t).head?.any isIdent = true := by
      cases run with
      | nil => cases ident
      | cons b run => exact ident
    rw [List.cons_append, identifiers, if_pos ⟨rfl, first⟩, identTail_append whole ends]

/-- What the pattern matches is taken apart into its groups, and nothing is lost. -/
theorem looseGroups_groups {seg : UInt8 → Bool} {v : Bool} {s rest : GoString} {p : Parts}
    (read : looseGroups seg v s = some (p, rest)) :
    p.v = v ∧ s = p.major ++ (p.minor ++ (p.patch ++ (p.pre ++ p.metadata))) ++ rest ∧ p.Groups seg := by
  simp only [looseGroups] at read
  split at read
  next => cases read
  next major =>
    obtain ⟨rfl, rfl⟩ := Prod.mk.inj (Option.some.inj read)
    obtain ⟨minorWhole, minor⟩ := dotSegment_groups seg (s.dropWhile seg)
    obtain ⟨patchWhole, patch⟩ := dotSegment_groups seg (dotSegment seg (s.dropWhile seg)).2
    obtain ⟨preWhole, pre⟩ :=
      identifiers_groups 0x2D (dotSegment seg (dotSegment seg (s.dropWhile seg)).2).2
    obtain ⟨metadataWhole, metadata⟩ :=
      identifiers_groups 0x2B (identifiers 0x2D (dotSegment seg (dotSegment seg (s.dropWhile seg)).2).2).2
    refine ⟨rfl, ?_, ⟨by simpa using major, List.all_takeWhile⟩, minor, patch, fun none => ?_, pre, metadata⟩
    · simp only [List.append_assoc]
      rw [← metadataWhole, ← preWhole, ← patchWhole, ← minorWhole, List.takeWhile_append_dropWhile]
    · dsimp only at none ⊢
      rw [none, List.nil_append] at minorWhole
      rw [← minorWhole]
      exact none

theorem looseParts_groups {seg : UInt8 → Bool} {s rest : GoString} {p : Parts}
    (read : looseParts seg s = some (p, rest)) : s = p.text ++ rest ∧ p.Groups seg := by
  rw [looseParts] at read
  split at read
  next prefixed =>
    obtain ⟨v, whole, groups⟩ := looseGroups_groups read
    refine ⟨?_, groups⟩
    cases s with
    | nil => cases prefixed
    | cons b s =>
      obtain rfl : b = 0x76 := Option.some.inj prefixed
      rw [Parts.text, v, if_pos rfl, List.append_assoc, ← whole]
      rfl
  next =>
    obtain ⟨v, whole, groups⟩ := looseGroups_groups read
    refine ⟨?_, groups⟩
    rw [Parts.text, v, if_neg Bool.false_ne_true, List.nil_append]
    exact whole

/-- What a segment ends at: the next group or the end. -/
theorem head_identifiers {lead : UInt8} {x : GoString} (group : Identifiers lead x) (t : GoString) :
    (x ++ t).head? = some lead ∨ x = [] ∧ (x ++ t).head? = t.head? := by
  rcases group with rfl | ⟨run, rfl, _, _⟩
  · exact Or.inr ⟨rfl, rfl⟩
  · exact Or.inl rfl

/-- The text of groups is read as these groups. -/
theorem looseParts_text {seg : UInt8 → Bool} (separates : Separates seg) {p : Parts} (groups : p.Groups seg) :
    looseParts seg p.text = some (p, []) := by
  obtain ⟨v, major, minor, patch, pre, metadata⟩ := p
  obtain ⟨⟨nonempty, all⟩, minorOk, patchOk, short, preOk, metadataOk⟩ := groups
  dsimp only at nonempty all minorOk patchOk short preOk metadataOk
  have metadataEnds : Ends metadata := by
    rcases metadataOk with rfl | ⟨run, rfl, _, _⟩
    · exact Or.inl rfl
    · exact Or.inr rfl
  -- the last two groups
  have metadataRead : identifiers 0x2B metadata = (metadata, []) := by
    have read := identifiers_append metadataOk (t := []) (Or.inl rfl) (Or.inr rfl)
    rwa [List.append_nil] at read
  have preRead : identifiers 0x2D (pre ++ metadata) = (pre, metadata) :=
    identifiers_append preOk metadataEnds (Or.inl (by decide))
  have tailHead : (pre ++ metadata).head? = some 0x2D ∨ (pre ++ metadata).head? = some 0x2B ∨
      (pre ++ metadata).head? = none := by
    rcases head_identifiers preOk metadata with lead | ⟨_, same⟩
    · exact Or.inl lead
    · rw [same]
      rcases metadataEnds with rfl | plus
      · exact Or.inr (Or.inr rfl)
      · exact Or.inr (Or.inl plus)
  have tailStop : (pre ++ metadata).head?.any seg = false ∧ (pre ++ metadata).head? ≠ some 0x2E := by
    rcases tailHead with head | head | head <;> rw [head]
    · exact ⟨separates.hyphen, by decide⟩
    · exact ⟨separates.plus, by decide⟩
    · exact ⟨rfl, by decide⟩
  have patchRead : dotSegment seg (patch ++ (pre ++ metadata)) = (patch, pre ++ metadata) :=
    dotSegment_append patchOk tailStop.1 fun _ => tailStop.2
  have segmentStop {x t : GoString} (segment : Segment seg x) (stop : t.head?.any seg = false) :
      (x ++ t).head?.any seg = false := by
    rcases segment with rfl | ⟨run, rfl, _, _⟩
    · exact stop
    · exact separates.dot
  have minorRead : dotSegment seg (minor ++ (patch ++ (pre ++ metadata))) = (minor, patch ++ (pre ++ metadata)) := by
    refine dotSegment_append minorOk (segmentStop patchOk tailStop.1) fun none => ?_
    rw [short none, List.nil_append]
    exact tailStop.2
  have minorStop := segmentStop minorOk (segmentStop patchOk tailStop.1)
  have majorRead : (major ++ (minor ++ (patch ++ (pre ++ metadata)))).takeWhile seg = major ∧
      (major ++ (minor ++ (patch ++ (pre ++ metadata)))).dropWhile seg = minor ++ (patch ++ (pre ++ metadata)) := by
    have within : ∀ b ∈ major, seg b = true := List.all_eq_true.mp all
    rw [List.takeWhile_append_of_pos within, List.dropWhile_append_of_pos within]
    cases rest : minor ++ (patch ++ (pre ++ metadata)) with
    | nil => simp
    | cons b t =>
      have stops : seg b = false := by
        rw [rest] at minorStop
        exact minorStop
      simp [stops]
  have whole : looseGroups seg v (major ++ (minor ++ (patch ++ (pre ++ metadata)))) =
      some (⟨v, major, minor, patch, pre, metadata⟩, []) := by
    simp only [looseGroups, majorRead.1, majorRead.2, minorRead, patchRead, preRead, metadataRead]
    rw [if_neg (by simpa using nonempty)]
  cases v with
  | true => exact whole
  | false =>
    have noPrefix : (major ++ (minor ++ (patch ++ (pre ++ metadata)))).head? ≠ some 0x76 := by
      cases major with
      | nil => exact absurd rfl nonempty
      | cons b major =>
        intro head
        obtain rfl : b = 0x76 := Option.some.inj head
        have first := (Bool.and_eq_true_iff.mp all).1
        rw [separates.v] at first
        cases first
    show looseParts seg (major ++ (minor ++ (patch ++ (pre ++ metadata)))) = _
    rw [looseParts, if_neg noPrefix, whole]

theorem separates_isDigit : Separates isDigit := ⟨rfl, rfl, rfl, rfl⟩

/-- A version that is read is the text of its groups, and these are its numbers. -/
theorem newVersion_eq_some {s : GoString} {u : Version} (read : newVersion s = some u) :
    ∃ p : Parts, s = p.text ∧ p.Groups isDigit ∧ p.version = some u := by
  rw [newVersion] at read
  split at read
  next => cases read
  next =>
    split at read
    next p parts =>
      obtain ⟨whole, groups⟩ := looseParts_groups parts
      exact ⟨p, by rw [whole, List.append_nil], groups, read⟩
    next => cases read

/-- Groups that are printed are read as the same groups. -/
theorem newVersion_text {p : Parts} (groups : p.Groups isDigit) {u : Version} (read : newVersion p.text = some u) :
    p.version = some u := by
  rw [newVersion] at read
  split at read
  next => cases read
  next =>
    rw [looseParts_text separates_isDigit groups] at read
    exact read

/-- What a version consists of. -/
theorem Parts.version_eq_some {p : Parts} {u : Version} (read : p.version = some u) :
    parseUint p.major = some u.major ∧ segment p.minor = some u.minor ∧ segment p.patch = some u.patch ∧
      p.pre.tail = u.pre := by
  simp only [Parts.version, Option.bind_eq_bind, Option.bind_eq_some_iff] at read
  obtain ⟨major, majorRead, minor, minorRead, patch, patchRead, rest⟩ := read
  split at rest
  next =>
    split at rest
    next =>
      obtain rfl := Option.some.inj rest
      exact ⟨majorRead, minorRead, patchRead, rfl⟩
    next => cases rest
  next => cases rest

theorem Version.ext_parts {u w : Version} (major : u.major = w.major) (minor : u.minor = w.minor)
    (patch : u.patch = w.patch) (pre : u.pre = w.pre) : u = w := by
  obtain ⟨_, _, _, _, _⟩ := u
  obtain ⟨_, _, _, _, _⟩ := w
  obtain rfl := major
  obtain rfl := minor
  obtain rfl := patch
  obtain rfl := pre
  rfl

end Mm
end Discovery
