import Discovery.LowerCase
import Mathlib.Data.List.TakeWhile

/-! Addresses and URLs as `net.SplitHostPort` and `url.Parse` take them apart. -/

namespace Discovery
namespace Url

/-- The text in front of the first `c`, and the text after it if there is one. -/
def cut (c : UInt8) : GoString → GoString × Option GoString
  | [] => ([], none)
  | b :: s => if b = c then ([], some s) else (b :: (cut c s).1, (cut c s).2)

/-- The texts around the last `c`. -/
def cutLast (c : UInt8) : GoString → Option (GoString × GoString)
  | [] => none
  | b :: s =>
    match cutLast c s with
    | some (x, y) => some (b :: x, y)
    | none => if b = c then some ([], s) else none

theorem cut_of_notMem {c : UInt8} {s : GoString} (absent : c ∉ s) : cut c s = (s, none) := by
  induction s with
  | nil => rfl
  | cons b s ih =>
    rw [List.mem_cons, not_or] at absent
    rw [cut, if_neg (Ne.symm absent.1), ih absent.2]

/-- The part in front of the cut has no separator. -/
theorem notMem_cut (c : UInt8) (s : GoString) : c ∉ (cut c s).1 := by
  induction s with
  | nil => exact List.not_mem_nil
  | cons b s ih =>
    rw [cut]
    split
    next => exact List.not_mem_nil
    next other =>
      rw [List.mem_cons, not_or]
      exact ⟨Ne.symm other, ih⟩

theorem mem_of_mem_cut {c b : UInt8} {s : GoString} (member : b ∈ (cut c s).1) : b ∈ s := by
  induction s with
  | nil => exact member
  | cons a s ih =>
    rw [cut] at member
    split at member
    next => cases member
    next =>
      rcases List.mem_cons.mp member with rfl | later
      · exact List.mem_cons_self
      · exact List.mem_cons_of_mem a (ih later)

/-- Nothing is cut off in front of the first `c`. -/
theorem cut_append {c : UInt8} {s : GoString} (absent : c ∉ s) (t : GoString) :
    cut c (s ++ t) = (s ++ (cut c t).1, (cut c t).2) := by
  induction s with
  | nil => rfl
  | cons b s ih =>
    rw [List.mem_cons, not_or] at absent
    rw [List.cons_append, cut, if_neg (Ne.symm absent.1), ih absent.2]
    rfl

theorem cutLast_eq_none {c : UInt8} {s : GoString} : cutLast c s = none ↔ c ∉ s := by
  induction s with
  | nil => exact iff_of_true rfl List.not_mem_nil
  | cons b s ih =>
    rw [cutLast, List.mem_cons, not_or, ← ih]
    cases cutLast c s with
    | some parts => simp
    | none => simp [eq_comm]

theorem cutLast_append {c : UInt8} {t : GoString} (absent : c ∉ t) (s : GoString) :
    cutLast c (s ++ c :: t) = some (s, t) := by
  induction s with
  | nil =>
    rw [List.nil_append, cutLast, cutLast_eq_none.mpr absent]
    exact if_pos rfl
  | cons b s ih => rw [List.cons_append, cutLast, ih]

/-- The cut at the last separator leaves none behind it. -/
theorem cutLast_some {c : UInt8} {s x y : GoString} (cuts : cutLast c s = some (x, y)) :
    s = x ++ c :: y ∧ c ∉ y := by
  induction s generalizing x with
  | nil => cases cuts
  | cons b s ih =>
    rw [cutLast] at cuts
    split at cuts
    next x' y' later =>
      cases cuts
      obtain ⟨same, absent⟩ := ih later
      exact ⟨by rw [same]; rfl, absent⟩
    next none =>
      split at cuts
      next same =>
        cases cuts
        exact ⟨by rw [same]; rfl, cutLast_eq_none.mp none⟩
      next => cases cuts

/-- `net.SplitHostPort`. -/
def splitHostPort (hostport : GoString) : Option (GoString × GoString) :=
  match cutLast 0x3A hostport with
  | none => none
  | some (before, port) =>
    match hostport with
    | 0x5B :: rest =>
      match cut 0x5D rest with
      | (host, some after) =>
        -- the first closing bracket has to stand in front of the last colon
        if after = 0x3A :: port then
          if 0x5B ∈ rest ∨ 0x5D ∈ after then none else some (host, port)
        else none
      | (_, none) => none
    | _ =>
      if 0x3A ∈ before then none
      else if 0x5B ∈ hostport ∨ 0x5D ∈ hostport then none
      else some (before, port)

/-- A host followed by a port is split in front of the port where it has no colons and brackets. -/
theorem splitHostPort_iff {host port : GoString} (digits : 0x3A ∉ port ∧ 0x5B ∉ port ∧ 0x5D ∉ port) :
    splitHostPort (host ++ 0x3A :: port) = some (host, port) ↔ 0x3A ∉ host ∧ 0x5B ∉ host ∧ 0x5D ∉ host := by
  obtain ⟨noColon, noOpen, noClose⟩ := digits
  rw [splitHostPort, cutLast_append noColon]
  dsimp only
  split
  next rest starts =>
    -- a host in brackets comes back without them
    constructor
    · intro splits
      split at splits
      next inner after cuts =>
        split at splits
        next =>
          split at splits
          next => cases splits
          next clean =>
            rw [not_or] at clean
            simp only [Option.some.injEq, Prod.mk.injEq, and_true] at splits
            have inside : inner = (cut 0x5D rest).1 := by rw [cuts]
            cases host with
            | nil => cases starts
            | cons b host =>
              obtain ⟨rfl, _⟩ := List.cons.inj starts
              have bracket : 0x5B ∈ inner := by rw [splits]; exact List.mem_cons_self
              exact absurd (mem_of_mem_cut (inside ▸ bracket)) clean.1
        next => cases splits
      next => cases splits
    · rintro ⟨_, unopened, _⟩
      cases host with
      | nil => cases starts
      | cons b host =>
        obtain ⟨rfl, _⟩ := List.cons.inj starts
        exact absurd List.mem_cons_self unopened
  next =>
    have brackets (b : UInt8) (other : b ≠ 0x3A) (absent : b ∉ port) : b ∈ host ++ 0x3A :: port ↔ b ∈ host := by
      simp [other, absent]
    simp only [brackets 0x5B (by decide) noOpen, brackets 0x5D (by decide) noClose]
    by_cases colon : 0x3A ∈ host
    · simp [colon]
    · by_cases bracketed : 0x5B ∈ host ∨ 0x5D ∈ host
      · simp only [colon, bracketed, if_false, if_true]
        exact iff_of_false (by simp) fun clean => bracketed.elim clean.2.1 clean.2.2
      · rw [if_neg colon, if_neg bracketed]
        exact iff_of_true rfl ⟨colon, not_or.mp bracketed⟩

def isHex (b : UInt8) : Bool := (0x30 ≤ b && b ≤ 0x39) || (0x61 ≤ b && b ≤ 0x66) || (0x41 ≤ b && b ≤ 0x46)

def isAlnum (b : UInt8) : Bool := (0x61 ≤ b && b ≤ 0x7A) || (0x41 ≤ b && b ≤ 0x5A) || (0x30 ≤ b && b ≤ 0x39)

/-- What stands for itself in a host, of ASCII. -/
def hostByte (b : UInt8) : Bool := isAlnum b || (ofString "-_.~!$&'()*+,;=:[]<>\"").contains b

def userByte (b : UInt8) : Bool := isAlnum b || (ofString "-._:~!$&'()*+,;=%@").contains b

def isControl (b : UInt8) : Bool := b < 0x20 || b == 0x7F

/-- Each percent sign begins an escape, as `unescape` asks of paths, fragments and user names. -/
def escapesOk : GoString → Bool
  | [] => true
  | b :: s =>
    if b = 0x25 then
      match s with
      | c :: d :: t => isHex c && isHex d && escapesOk t
      | _ => false
    else escapesOk s

/-- The value of two hexadecimal digits. -/
def hexPair (c d : UInt8) : UInt8 :=
  let digit (b : UInt8) : UInt8 :=
    if b ≤ 0x39 then b - 0x30 else if 0x61 ≤ b then b - 0x57 else b - 0x37
  digit c * 16 + digit d

/-- An escape that `unescape` accepts in a host, in the zone of an IP literal if `zone` is set. -/
def hostEscape (zone : Bool) (c d : UInt8) : Bool :=
  isHex c && isHex d &&
    (if zone then (c = 0x32 ∧ d = 0x35) ∨ hexPair c d = 0x20 ∨ hostByte (hexPair c d) else
      (c = 0x32 ∧ d = 0x35) ∨ 0x80 ≤ hexPair c d)

/-- Whether `unescape` accepts the text as a host. -/
def hostText (zone : Bool) : GoString → Bool
  | [] => true
  | b :: s =>
    if b = 0x25 then
      match s with
      | c :: d :: t => hostEscape zone c d && hostText zone t
      | _ => false
    else (hostByte b || 0x80 ≤ b) && hostText zone s

/-- The text in front of a `%25` and the rest from it on. -/
def cutZone : GoString → GoString × GoString
  | [] => ([], [])
  | b :: s =>
    if [0x25, 0x32, 0x35].isPrefixOf (b :: s) then ([], b :: s) else (b :: (cutZone s).1, (cutZone s).2)

def digits (s : GoString) : Bool := s.all fun b => 0x30 ≤ b && b ≤ 0x39

/-- Nothing, or a colon and digits. -/
def validOptionalPort : GoString → Bool
  | [] => true
  | b :: s => b == 0x3A && digits s

/-- Whether `parseHost` accepts a host with its port. -/
def hostOk (s : GoString) : Bool :=
  match s with
  | 0x5B :: _ =>
    match cutLast 0x5D s with
    | none => false
    | some (literal, port) =>
      validOptionalPort port && hostText false (cutZone literal).1 && hostText true (cutZone literal).2 &&
        hostText false (0x5D :: port)
  | _ =>
    (match cutLast 0x3A s with
      | some (_, port) => digits port
      | none => true) && hostText false s

def unbracket : GoString → GoString
  | 0x5B :: inner => if inner.getLast? = some 0x5D then inner.dropLast else 0x5B :: inner
  | host => host

/-- `Hostname` and `Port`. -/
def hostPort (s : GoString) : GoString × GoString :=
  match cutLast 0x3A s with
  | some (host, port) => if digits port then (unbracket host, port) else (unbracket s, [])
  | none => (unbracket s, [])

def schemeRest : GoString → Option (GoString × GoString)
  | [] => none
  | b :: s =>
    if isAlnum b || (ofString "+-.").contains b then (schemeRest s).map fun parts => (b :: parts.1, parts.2)
    else if b = 0x3A then some ([], s)
    else none

/-- The scheme of an absolute URL. -/
def getScheme : GoString → Option (GoString × GoString)
  | [] => none
  | b :: s =>
    if isAlnum b && !(0x30 ≤ b && b ≤ 0x39) then (schemeRest s).map fun parts => (b :: parts.1, parts.2) else none

end Url

/-- The parts of an absolute URL, as they are written. -/
structure Url where
  scheme : GoString
  user : Option GoString := none
  host : GoString
  port : GoString
  path : GoString
  query : GoString := []
  fragment : GoString := []
  deriving DecidableEq

namespace Url

/-- The user information of an authority and the rest. -/
def splitUser (authority : GoString) : Option GoString × GoString :=
  match cutLast 0x40 authority with
  | some (user, host) => (some user, host)
  | none => (none, authority)

/-- What follows the two slashes. -/
def parseRest (scheme rest : GoString) (query fragment : Option GoString) : Option Url :=
  let authority := rest.takeWhile (· != 0x2F)
  let path := rest.dropWhile (· != 0x2F)
  let user := (splitUser authority).1
  let host := (splitUser authority).2
  if hostOk host && (user.all fun u => u.all userByte && escapesOk u) && escapesOk path &&
      escapesOk (fragment.getD []) then
    some
      { scheme := toLower scheme
        user
        host := (hostPort host).1
        port := (hostPort host).2
        path
        query := query.getD []
        fragment := fragment.getD [] }
  else none

/-- `url.Parse` on absolute URLs with a host part; others are refused. -/
def parse (raw : GoString) : Option Url :=
  let whole := cut 0x23 raw
  if whole.1.any isControl then none
  else
    match getScheme whole.1 with
    | none => none
    | some (scheme, rest) =>
      let parts := cut 0x3F rest
      match parts.1 with
      | 0x2F :: 0x2F :: rest => parseRest scheme rest parts.2 whole.2
      | _ => none

/-- A byte that can stand in a host with its escapes. -/
def hostAlphabet (b : UInt8) : Bool := hostByte b || 0x80 ≤ b || b == 0x25 || isHex b

/-- Accepted host text is of the alphabet of hosts. -/
theorem hostAlphabet_of_hostText {zone : Bool} {s : GoString} (text : hostText zone s = true) :
    ∀ b ∈ s, hostAlphabet b = true := by
  fun_induction hostText zone s with
  | case1 => exact fun b member => by cases member
  | case2 c d t ih =>
    obtain ⟨escape, rest⟩ := Bool.and_eq_true_iff.mp text
    obtain ⟨hex, _⟩ := Bool.and_eq_true_iff.mp escape
    obtain ⟨first, second⟩ := Bool.and_eq_true_iff.mp hex
    intro b member
    simp only [List.mem_cons] at member
    rcases member with rfl | rfl | rfl | later
    · rfl
    · simp [hostAlphabet, first]
    · simp [hostAlphabet, second]
    · exact ih rest b later
  | case3 => cases text
  | case4 b s other ih =>
    obtain ⟨first, rest⟩ := Bool.and_eq_true_iff.mp text
    intro c member
    rcases List.mem_cons.mp member with rfl | later
    · rw [hostAlphabet, first]
      rfl
    · exact ih rest c later

theorem hostText_cons (zone : Bool) {b : UInt8} (plain : b ≠ 0x25) (s : GoString) :
    hostText zone (b :: s) = ((hostByte b || 0x80 ≤ b) && hostText zone s) := by
  rw [hostText.eq_def]
  exact if_neg plain

theorem hostText_percent (zone : Bool) (s : GoString) :
    hostText zone (0x25 :: s) =
      match s with
      | c :: d :: t => hostEscape zone c d && hostText zone t
      | _ => false := by
  rw [hostText.eq_def]
  exact if_pos rfl

/-- A colon is no part of an escape, so the texts around it are read on their own. -/
theorem hostText_append_colon (zone : Bool) (s t : GoString) :
    hostText zone (s ++ 0x3A :: t) = (hostText zone s && hostText zone t) := by
  have colon (t : GoString) : hostText zone (0x3A :: t) = hostText zone t := by
    rw [hostText_cons zone (by decide)]
    rfl
  fun_induction hostText zone s with
  | case1 => exact colon t
  | case2 c d s ih =>
    rw [List.cons_append, List.cons_append, List.cons_append, hostText_percent]
    dsimp only
    rw [ih, Bool.and_assoc]
  | case3 s cut =>
    rw [List.cons_append, hostText_percent, Bool.false_and]
    match s with
    | [] => cases t <;> rfl
    | [c] =>
      have noHex : hostEscape zone c 0x3A = false := by simp [hostEscape, isHex]
      show (hostEscape zone c 0x3A && hostText zone t) = false
      rw [noHex, Bool.false_and]
    | c :: d :: s => exact absurd rfl (cut c d s)
  | case4 b s plain ih => rw [List.cons_append, hostText_cons zone plain, ih, Bool.and_assoc]

/-- Digits can stand in a host. -/
theorem hostText_digits {s : GoString} (decimal : digits s = true) : hostText false s = true := by
  induction s with
  | nil => rfl
  | cons b s ih =>
    obtain ⟨first, rest⟩ := Bool.and_eq_true_iff.mp decimal
    have plain : b ≠ 0x25 := by
      rintro rfl
      exact absurd first (by decide)
    have decimal : (0x30 ≤ b && b ≤ 0x39) = true := first
    rw [hostText_cons false plain, ih rest, hostByte, isAlnum, decimal]
    simp

/-- What a host cannot hold unescaped. -/
theorem notMem_of_hostText {zone : Bool} {s : GoString} (text : hostText zone s = true) {b : UInt8}
    (outside : hostAlphabet b = false) : b ∉ s := by
  intro member
  rw [hostAlphabet_of_hostText text b member] at outside
  cases outside

theorem isControl_of_hostAlphabet {b : UInt8} (inside : hostAlphabet b = true) : isControl b = false := by
  have low : ∀ n < 0x20, hostAlphabet (UInt8.ofNat n) = false := by decide +kernel
  rw [Bool.eq_false_iff]
  intro control
  rcases Bool.or_eq_true_iff.mp control with less | delete
  · have here := low b.toNat (UInt8.lt_iff_toNat_lt.mp (of_decide_eq_true less))
    rw [UInt8.ofNat_toNat, inside] at here
    cases here
  · obtain rfl := beq_iff_eq.mp delete
    exact absurd inside (by decide +kernel)

/-- A host has no delimiters and no control characters. -/
theorem plain_of_hostText {zone : Bool} {s : GoString} (text : hostText zone s = true) :
    (∀ b ∈ s, b ≠ 0x23 ∧ b ≠ 0x3F ∧ b ≠ 0x2F ∧ b ≠ 0x40) ∧ s.any isControl = false := by
  constructor
  · intro b member
    refine ⟨?_, ?_, ?_, ?_⟩ <;> rintro rfl <;> exact notMem_of_hostText text (by decide) member
  · rw [List.any_eq_false]
    exact fun b member => Bool.eq_false_iff.mp (isControl_of_hostAlphabet (hostAlphabet_of_hostText text b member))

theorem unbracket_of_notMem {host : GoString} (unopened : 0x5B ∉ host) : unbracket host = host := by
  rw [unbracket.eq_def]
  split
  next => exact absurd List.mem_cons_self unopened
  next => rfl

theorem mem_of_mem_unbracket {host : GoString} {b : UInt8} (member : b ∈ unbracket host) : b ∈ host := by
  rw [unbracket.eq_def] at member
  split at member
  next inner =>
    split at member
    next => exact List.mem_cons_of_mem _ (List.mem_of_mem_dropLast member)
    next => exact member
  next => exact member

/-- Behind an unbracketed host the digits after the colon are the port. -/
theorem hostPort_port {host port : GoString} (unopened : 0x5B ∉ host) (decimal : digits port = true)
    (noColon : 0x3A ∉ port) : hostPort (host ++ 0x3A :: port) = (host, port) := by
  rw [hostPort, cutLast_append noColon]
  simp only [decimal, if_true, unbracket_of_notMem unopened]

theorem hostPort_bare {host : GoString} (unopened : 0x5B ∉ host) (noColon : 0x3A ∉ host) :
    hostPort host = (host, []) := by
  rw [hostPort, cutLast_eq_none.mpr noColon]
  simp only [unbracket_of_notMem unopened]

/-- Taking off brackets and a port leaves bytes that were there. -/
theorem mem_of_mem_hostPort {s : GoString} {b : UInt8} (member : b ∈ (hostPort s).1) : b ∈ s := by
  rw [hostPort] at member
  split at member
  next host port cuts =>
    split at member
    next =>
      rw [(cutLast_some cuts).1]
      exact List.mem_append_left _ (mem_of_mem_unbracket member)
    next => exact mem_of_mem_unbracket member
  next => exact mem_of_mem_unbracket member

theorem mem_splitUser {authority : GoString} {b : UInt8} (member : b ∈ (splitUser authority).2) :
    b ∈ authority ∧ b ≠ 0x40 := by
  rw [splitUser] at member
  split at member
  next user host cuts =>
    obtain ⟨same, absent⟩ := cutLast_some cuts
    refine ⟨same ▸ List.mem_append_right _ (List.mem_cons_of_mem _ member), ?_⟩
    rintro rfl
    exact absent member
  next none =>
    refine ⟨member, ?_⟩
    rintro rfl
    exact cutLast_eq_none.mp none member

theorem not_opened {host : GoString} (unopened : 0x5B ∉ host) (port rest : GoString) :
    host ++ 0x3A :: port ≠ 0x5B :: rest := by
  intro same
  cases host with
  | nil => cases same
  | cons b host =>
    obtain ⟨rfl, _⟩ := List.cons.inj same
    exact unopened List.mem_cons_self

/-- A host is accepted with a port exactly when its text is. -/
theorem hostOk_port {host port : GoString} (unopened : 0x5B ∉ host) (decimal : digits port = true)
    (noColon : 0x3A ∉ port) : hostOk (host ++ 0x3A :: port) = hostText false host := by
  rw [hostOk.eq_def]
  split
  next rest same => exact absurd same (not_opened unopened port rest)
  next =>
    rw [cutLast_append noColon, hostText_append_colon, hostText_digits decimal, Bool.and_true]
    simp [decimal]

theorem hostOk_bare {host : GoString} (unopened : 0x5B ∉ host) (noColon : 0x3A ∉ host) :
    hostOk host = hostText false host := by
  rw [hostOk.eq_def]
  split
  next => exact absurd List.mem_cons_self unopened
  next => rw [cutLast_eq_none.mpr noColon, Bool.true_and]

/-- Nothing, or a path from the root. -/
def Rooted (path : GoString) : Prop := path = [] ∨ path.head? = some 0x2F

/-- The authority ends at the first slash. -/
theorem split_authority {host path : GoString} (noSlash : 0x2F ∉ host) (rooted : Rooted path) :
    (host ++ path).takeWhile (· != 0x2F) = host ∧ (host ++ path).dropWhile (· != 0x2F) = path := by
  have within : ∀ b ∈ host, (b != 0x2F) = true := by
    intro b member
    rw [bne_iff_ne]
    rintro rfl
    exact noSlash member
  rw [List.takeWhile_append_of_pos within, List.dropWhile_append_of_pos within]
  rcases rooted with rfl | slash
  · simp
  · cases path with
    | nil => cases slash
    | cons b path =>
      obtain rfl : b = 0x2F := Option.some.inj slash
      simp

/-- A plain authority is read whole. -/
theorem parseRest_plain {host path : GoString} (noSlash : 0x2F ∉ host) (noUser : 0x40 ∉ host) (rooted : Rooted path)
    (scheme : GoString) :
    parseRest scheme (host ++ path) none none =
      if hostOk host && escapesOk path then
        some { scheme := toLower scheme, host := (hostPort host).1, port := (hostPort host).2, path }
      else none := by
  obtain ⟨authority, rest⟩ := split_authority noSlash rooted
  have user : splitUser host = (none, host) := by rw [splitUser, cutLast_eq_none.mpr noUser]
  simp only [parseRest, authority, rest, user, Option.all_none, Option.getD_none, Bool.and_true, escapesOk]

theorem rooted_dropWhile (s : GoString) : Rooted (s.dropWhile (· != 0x2F)) := by
  induction s with
  | nil => exact Or.inl rfl
  | cons b s ih =>
    rw [List.dropWhile_cons]
    split
    next => exact ih
    next slash =>
      right
      simpa using slash

/-- Where the parts of a URL come from. -/
theorem parseRest_parts {scheme rest : GoString} {query fragment : Option GoString} {u : Url}
    (parsed : parseRest scheme rest query fragment = some u) :
    Rooted u.path ∧ (∀ b ∈ u.path, b ∈ rest) ∧ ∀ b ∈ u.host, b ∈ rest ∧ b ≠ 0x2F ∧ b ≠ 0x40 := by
  simp only [parseRest] at parsed
  split at parsed
  next =>
    obtain rfl := Option.some.inj parsed
    refine ⟨rooted_dropWhile rest, fun b member => (List.dropWhile_suffix _).subset member, fun b member => ?_⟩
    obtain ⟨inside, noUser⟩ := mem_splitUser (mem_of_mem_hostPort member)
    have noSlash : b ≠ 0x2F := by simpa using List.mem_takeWhile_imp inside
    exact ⟨(List.takeWhile_prefix _).subset inside, noSlash, noUser⟩
  next => cases parsed

/-- The two schemes of published URLs. -/
def webScheme (secure : Bool) : GoString := if secure then "https" else "http"

/-- Both schemes of the web are read as they are written. -/
theorem getScheme_web (secure : Bool) (rest : GoString) :
    getScheme (webScheme secure ++ 0x3A :: rest) = some (webScheme secure, rest) := by
  cases secure <;> rfl

/-- Of a web address the fragment and the query are cut off before the authority is read. -/
theorem parse_web (secure : Bool) (rest : GoString) :
    parse (webScheme secure ++ ofString "://" ++ rest) =
      if (cut 0x23 rest).1.any isControl then none
      else
        parseRest (webScheme secure) (cut 0x3F (cut 0x23 rest).1).1 (cut 0x3F (cut 0x23 rest).1).2
          (cut 0x23 rest).2 := by
  have noFragment : 0x23 ∉ webScheme secure ++ ofString "://" := by cases secure <;> decide
  have noControl : (webScheme secure ++ ofString "://").any isControl = false := by cases secure <;> rfl
  have slashes (t : GoString) : cut 0x3F (0x2F :: 0x2F :: t) = (0x2F :: 0x2F :: (cut 0x3F t).1, (cut 0x3F t).2) := rfl
  rw [parse, cut_append noFragment]
  dsimp only
  rw [List.any_append, noControl, Bool.false_or]
  split
  next => rfl
  next =>
    have absolute : getScheme (webScheme secure ++ ofString "://" ++ (cut 0x23 rest).1) =
        some (webScheme secure, 0x2F :: 0x2F :: (cut 0x23 rest).1) := by
      rw [List.append_assoc]
      exact getScheme_web secure _
    rw [absolute]
    dsimp only
    rw [slashes]
    rfl

/-- A path that a URL can hold. -/
structure PathText (path : GoString) : Prop where
  rooted : Rooted path
  noQuery : 0x3F ∉ path
  noFragment : 0x23 ∉ path
  noControl : path.any isControl = false
  escapes : escapesOk path = true

/-- Paths are compared with the empty one counting as the root. -/
def SamePath (p q : GoString) : Prop := (if p = [] then [0x2F] else p) = if q = [] then [0x2F] else q

instance (p q : GoString) : Decidable (SamePath p q) := inferInstanceAs (Decidable (_ = _))

theorem SamePath.mem {p q : GoString} (same : SamePath p q) {b : UInt8} (member : b ∈ q) (noSlash : b ≠ 0x2F) :
    b ∈ p := by
  have nonempty : q ≠ [] := List.ne_nil_of_mem member
  rw [SamePath, if_neg nonempty] at same
  split at same
  next =>
    rw [← same] at member
    exact absurd (List.mem_singleton.mp member) noSlash
  next => exact same ▸ member

/-- A path that is the same as one from the root is one from the root. -/
theorem SamePath.rooted {p q : GoString} (same : SamePath p q) (rooted : Rooted p) : Rooted q := by
  by_cases empty : q = []
  · exact Or.inl empty
  · right
    rw [SamePath, if_neg empty] at same
    rw [← same]
    split
    next => rfl
    next nonempty => exact rooted.resolve_left nonempty

/-- The parts of an accepted URL hold no delimiters. -/
theorem parse_parts {secure : Bool} {rest : GoString} {u : Url}
    (parsed : parse (webScheme secure ++ ofString "://" ++ rest) = some u) :
    Rooted u.path ∧ (∀ b ∈ u.path, b ≠ 0x23 ∧ b ≠ 0x3F ∧ isControl b = false) ∧
      ∀ b ∈ u.host, b ≠ 0x23 ∧ b ≠ 0x3F ∧ b ≠ 0x2F ∧ b ≠ 0x40 := by
  rw [parse_web] at parsed
  split at parsed
  next => cases parsed
  next clean =>
    obtain ⟨rooted, path, host⟩ := parseRest_parts parsed
    have inside (b : UInt8) (member : b ∈ (cut 0x3F (cut 0x23 rest).1).1) :
        b ≠ 0x23 ∧ b ≠ 0x3F ∧ isControl b = false := by
      have whole := mem_of_mem_cut member
      refine ⟨?_, ?_, ?_⟩
      · rintro rfl
        exact notMem_cut 0x23 rest whole
      · rintro rfl
        exact notMem_cut 0x3F _ member
      · simp only [List.any_eq_true, not_exists, not_and] at clean
        exact Bool.eq_false_iff.mpr (clean b whole)
    refine ⟨rooted, fun b member => inside b (path b member), fun b member => ?_⟩
    obtain ⟨here, noSlash, noUser⟩ := host b member
    obtain ⟨noFragment, noQuery, _⟩ := inside b here
    exact ⟨noFragment, noQuery, noSlash, noUser⟩

/-- An authority without delimiters in front of a path without them is read whole. -/
theorem parse_plain (secure : Bool) {authority path : GoString}
    (plain : ∀ b ∈ authority, b ≠ 0x23 ∧ b ≠ 0x3F ∧ b ≠ 0x2F ∧ b ≠ 0x40) (rooted : Rooted path)
    (noQuery : 0x3F ∉ path) (noFragment : 0x23 ∉ path) :
    parse (webScheme secure ++ ofString "://" ++ (authority ++ path)) =
      if (authority ++ path).any isControl then none
      else if hostOk authority && escapesOk path then
        some { scheme := webScheme secure, host := (hostPort authority).1, port := (hostPort authority).2, path }
      else none := by
  have outside (b : UInt8) (inPlain : b ∉ authority) (inPath : b ∉ path) : b ∉ authority ++ path := by
    rw [List.mem_append, not_or]
    exact ⟨inPlain, inPath⟩
  have fragment := cut_of_notMem (outside 0x23 (fun member => (plain _ member).1 rfl) noFragment)
  have query := cut_of_notMem (outside 0x3F (fun member => (plain _ member).2.1 rfl) noQuery)
  have lower : toLower (webScheme secure) = webScheme secure := by cases secure <;> decide
  rw [parse_web, fragment]
  dsimp only
  rw [query]
  dsimp only
  rw [parseRest_plain (fun member => (plain _ member).2.2.1 rfl) (fun member => (plain _ member).2.2.2 rfl) rooted,
    lower]

theorem digits_byte {s : GoString} (decimal : digits s = true) {b : UInt8}
    (outside : (0x30 ≤ b && b ≤ 0x39) = false) : b ∉ s := by
  intro member
  have digit := List.all_eq_true.mp decimal b member
  rw [outside] at digit
  cases digit

/-- A host without a port, followed by a path, is read as the two of them. -/
theorem parse_bare (secure : Bool) {host path : GoString} (text : hostText false host = true) (noColon : 0x3A ∉ host)
    (unopened : 0x5B ∉ host) (inUrl : PathText path) :
    parse (webScheme secure ++ ofString "://" ++ (host ++ path)) =
      some { scheme := webScheme secure, host, port := [], path } := by
  obtain ⟨plain, noControl⟩ := plain_of_hostText text
  rw [parse_plain secure plain inUrl.rooted inUrl.noQuery inUrl.noFragment, List.any_append, noControl,
    inUrl.noControl, hostOk_bare unopened noColon, text, inUrl.escapes, hostPort_bare unopened noColon]
  rfl

/-- A host with a port, followed by a path, is read as the three of them. -/
theorem parse_port (secure : Bool) {host port path : GoString} (text : hostText false host = true)
    (unopened : 0x5B ∉ host) (decimal : digits port = true) (inUrl : PathText path) :
    parse (webScheme secure ++ ofString "://" ++ (host ++ 0x3A :: port ++ path)) =
      some { scheme := webScheme secure, host, port, path } := by
  have portColon := digits_byte decimal (b := 0x3A) (by decide)
  have whole : hostText false (host ++ 0x3A :: port) = true := by
    rw [hostText_append_colon, text, hostText_digits decimal, Bool.and_self]
  obtain ⟨plain, noControl⟩ := plain_of_hostText whole
  rw [parse_plain secure plain inUrl.rooted inUrl.noQuery inUrl.noFragment, List.any_append, noControl,
    inUrl.noControl, hostOk_port unopened decimal portColon, text, inUrl.escapes,
    hostPort_port unopened decimal portColon]
  rfl

/-- A host and a port written into a URL come back exactly where the host consists of host bytes and the path
can stand in a URL. -/
theorem parse_iff (secure : Bool) {host port path : GoString} (unopened : 0x5B ∉ host)
    (decimal : digits port = true) :
    (∃ p, parse (webScheme secure ++ ofString "://" ++ (host ++ 0x3A :: port ++ path)) =
        some { scheme := webScheme secure, host, port, path := p } ∧ SamePath p path) ↔
      hostText false host = true ∧ PathText path := by
  have portColon := digits_byte decimal (b := 0x3A) (by decide)
  have delimiters (plain : ∀ b ∈ host, b ≠ 0x23 ∧ b ≠ 0x3F ∧ b ≠ 0x2F ∧ b ≠ 0x40) (b : UInt8)
      (member : b ∈ host ++ 0x3A :: port) : b ≠ 0x23 ∧ b ≠ 0x3F ∧ b ≠ 0x2F ∧ b ≠ 0x40 := by
    rcases List.mem_append.mp member with inHost | later
    · exact plain b inHost
    · rcases List.mem_cons.mp later with rfl | inPort
      · decide
      · refine ⟨?_, ?_, ?_, ?_⟩ <;> rintro rfl <;> exact digits_byte decimal (by decide) inPort
  constructor
  · rintro ⟨p, parsed, same⟩
    obtain ⟨rooted, path_, host_⟩ := parse_parts parsed
    have noQuery : 0x3F ∉ path := fun member => (path_ _ (same.mem member (by decide))).2.1 rfl
    have noFragment : 0x23 ∉ path := fun member => (path_ _ (same.mem member (by decide))).1 rfl
    have pathRooted := same.rooted rooted
    rw [parse_plain secure (delimiters host_) pathRooted noQuery noFragment] at parsed
    split at parsed
    next => cases parsed
    next clean =>
      split at parsed
      next accepted =>
        obtain ⟨hostAccepted, escapes⟩ := Bool.and_eq_true_iff.mp accepted
        rw [hostOk_port unopened decimal portColon] at hostAccepted
        refine ⟨hostAccepted, pathRooted, noQuery, noFragment, ?_, escapes⟩
        rw [List.any_append, Bool.or_eq_true, not_or] at clean
        exact Bool.eq_false_iff.mpr clean.2
      next => cases parsed
  · rintro ⟨text, inUrl⟩
    exact ⟨path, parse_port secure text unopened decimal inUrl, rfl⟩

end Url
end Discovery
