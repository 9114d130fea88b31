import Discovery.Masterminds.Version
import Discovery.Semver

/-! `constraints.go` of the vendored Masterminds package. -/

namespace Discovery
namespace Mm

/-- `\s`. -/
def isSpace (b : UInt8) : Bool := b == 0x20 || b == 0x09 || b == 0x0A || b == 0x0C || b == 0x0D

/-- A byte of `[0-9|x|X|\*]`; the bars between the others stand for themselves. -/
def isSegment (b : UInt8) : Bool := isDigit b || b == 0x7C || b == 0x78 || b == 0x58 || b == 0x2A

/-- The keys of `constraintOps`. -/
inductive Op
  | bare
  | equal
  | notEqual
  | greater
  | less
  | greaterEqual
  | equalGreater
  | lessEqual
  | equalLess
  | tilde
  | tildeGreater
  | caret
  deriving DecidableEq

def Op.text : Op → GoString
  | .bare => []
  | .equal => "="
  | .notEqual => "!="
  | .greater => ">"
  | .less => "<"
  | .greaterEqual => ">="
  | .equalGreater => "=>"
  | .lessEqual => "<="
  | .equalLess => "=<"
  | .tilde => "~"
  | .tildeGreater => "~>"
  | .caret => "^"

/-- The alternatives in the order of the expression. -/
def ops : List Op :=
  [.equal, .bare, .notEqual, .greater, .less, .greaterEqual, .equalGreater, .lessEqual, .equalLess, .tilde,
    .tildeGreater, .caret]

/-- `(ops)\s*(cv)` at the head of a string, with what is left behind it. Behind an operator no other one leads to
a version. -/
def matchHead (s : GoString) : Option (Op × Parts × GoString) :=
  ops.findSome? fun op =>
    if op.text.isPrefixOf s then
      (looseParts isSegment ((s.drop op.text.length).dropWhile isSpace)).map fun read => (op, read.1, read.2)
    else none

/-- `findConstraintRegex.FindAllString`: from left to right, skipping bytes that no match begins with. -/
def findConstraints : Nat → GoString → List GoString
  | 0, _ => []
  | n + 1, s =>
    match matchHead s with
    | some (_, _, rest) => s.take (s.length - rest.length) :: findConstraints n rest
    | none =>
      match s with
      | [] => []
      | _ :: t => findConstraints n t

/-- The repeated group of `validConstraintRegex` up to the end. -/
def validRest : Nat → GoString → Bool
  | 0, _ => false
  | n + 1, s =>
    match s.dropWhile isSpace with
    | [] => true
    | b :: t =>
      let next := if b = 0x2C then some (t.dropWhile isSpace) else if s.head?.any isSpace then some (b :: t) else none
      match next.bind matchHead with
      | some (_, _, rest) => validRest n rest
      | none => false

/-- `validConstraintRegex.MatchString`. -/
def validSegment (s : GoString) : Bool :=
  match matchHead (s.dropWhile isSpace) with
  | some (_, _, rest) => validRest (rest.length + 1) rest
  | none => false

structure Comparator where
  con : Version
  orig : GoString
  origfunc : Op
  minorDirty : Bool := false
  dirty : Bool := false
  patchDirty : Bool := false
  deriving DecidableEq

def isX (x : GoString) : Bool := x == [0x78] || x == [0x2A] || x == [0x58]

/-- The comparator of a match, with zeros for what is left out or a wildcard. -/
def comparator (op : Op) (m : Parts) : Option Comparator :=
  if isX m.major || m.major.isEmpty then
    (newVersion (ofString "0.0.0" ++ m.pre)).map fun con => { con, orig := m.text, origfunc := op, dirty := true }
  else if isX m.minor.tail || m.minor.isEmpty then
    (newVersion (m.major ++ (ofString ".0.0" ++ m.pre))).map fun con =>
      { con, orig := m.text, origfunc := op, minorDirty := true, dirty := true }
  else if isX m.patch.tail || m.patch.isEmpty then
    (newVersion (m.major ++ (m.minor ++ (ofString ".0" ++ m.pre)))).map fun con =>
      { con, orig := m.text, origfunc := op, dirty := true, patchDirty := true }
  else (newVersion m.text).map fun con => { con, orig := m.text, origfunc := op }

def parseConstraint (s : GoString) : Option Comparator :=
  if s = [] then
    some { con := ⟨0, 0, 0, [], Or.inl rfl⟩, orig := [], origfunc := .bare, dirty := true }
  else
    match matchHead (s.dropWhile isSpace) with
    | some (op, m, rest) => if rest.all isSpace then comparator op m else none
    | none => none

/-- `\s*(cv)\s+-\s+(cv)\s*` at the head of a string. -/
def matchRange (s : GoString) : Option (Parts × Parts × GoString) :=
  match looseParts isSegment (s.dropWhile isSpace) with
  | none => none
  | some (low, t) =>
    match t.dropWhile isSpace with
    | 0x2D :: u =>
      if t.head?.any isSpace && u.head?.any isSpace then
        (looseParts isSegment (u.dropWhile isSpace)).map fun read => (low, read.1, read.2.dropWhile isSpace)
      else none
    | _ => none

/-- `constraintRangeRegex.FindAllStringSubmatch`: each match with its two versions. -/
def findRanges : Nat → GoString → List (GoString × Parts × Parts)
  | 0, _ => []
  | n + 1, s =>
    match matchRange s with
    | some (low, high, rest) => (s.take (s.length - rest.length), low, high) :: findRanges n rest
    | none =>
      match s with
      | [] => []
      | _ :: t => findRanges n t

/-- `strings.Replace(s, old, new, 1)`. -/
def replaceFirst (old new : GoString) : GoString → GoString
  | [] => []
  | b :: s => if old.isPrefixOf (b :: s) then new ++ (b :: s).drop old.length else b :: replaceFirst old new s

def rewriteRange (s : GoString) : GoString :=
  (findRanges (s.length + 1) s).foldl (fun o m =>
    replaceFirst m.1 (ofString ">= " ++ m.2.1.text ++ ofString ", <= " ++ m.2.2.text ++ ofString " ") o) s

/-- `strings.Split(c, "||")`. -/
def splitOrs : GoString → List GoString
  | [] => [[]]
  | [b] => [[b]]
  | b :: c :: s =>
    if b = 0x7C ∧ c = 0x7C then [] :: splitOrs s else (splitOrs (c :: s)).modifyHead (b :: ·)

def maxConstraintLen : Nat := 512

def maxConstraintGroups : Nat := 32

/-- The comparators of an OR group, and whether one of them names a prerelease. -/
structure Group where
  comparators : List Comparator
  containsPre : Bool
  deriving DecidableEq

def parseGroup (s : GoString) : Option Group :=
  if validSegment s then
    let found := findConstraints (s.length + 1) s
    ((if found = [] then [s] else found).mapM parseConstraint).map fun comparators =>
      ⟨comparators, comparators.any fun c => c.con.pre != []⟩
  else none

def newConstraint (c : GoString) : Option (List Group) :=
  if maxConstraintLen < c.length then none
  else
    let groups := splitOrs (rewriteRange c)
    if maxConstraintGroups < groups.length then none else groups.mapM parseGroup

section
variable (v : Version) (c : Comparator)

def constraintNotEqual : Bool :=
  if c.dirty then
    if c.con.major ≠ v.major then true
    else if c.con.minor ≠ v.minor ∧ !c.minorDirty then true
    else if c.minorDirty then false
    else if c.con.patch ≠ v.patch ∧ !c.patchDirty then true
    else if c.patchDirty then
      if v.pre ≠ [] ∨ c.con.pre ≠ [] then comparePrerelease v.pre c.con.pre != .eq else false
    else v.compare c.con != .eq
  else v.compare c.con != .eq

def constraintGreaterThan : Bool :=
  if !c.dirty then v.compare c.con == .gt
  else if c.con.major < v.major then true
  else if v.major < c.con.major then false
  else if c.minorDirty then false
  else if c.patchDirty then c.con.minor < v.minor
  else v.compare c.con == .gt

def constraintLessThan : Bool := v.compare c.con == .lt

def constraintGreaterThanEqual : Bool := v.compare c.con != .lt

def constraintLessThanEqual : Bool :=
  if !c.dirty then v.compare c.con != .gt
  else if c.con.major < v.major then false
  else if v.major = c.con.major ∧ c.con.minor < v.minor ∧ !c.minorDirty then false
  else true

def constraintTilde : Bool :=
  if v.compare c.con = .lt then false
  else if c.con.major = 0 ∧ c.con.minor = 0 ∧ c.con.patch = 0 ∧ !c.minorDirty ∧ !c.patchDirty then true
  else if v.major ≠ c.con.major then false
  else if v.minor ≠ c.con.minor ∧ !c.minorDirty then false
  else true

def constraintTildeOrEqual : Bool := if c.dirty then constraintTilde v c else v.compare c.con == .eq

def constraintCaret : Bool :=
  if v.compare c.con = .lt then false
  else if 0 < c.con.major ∨ c.minorDirty then v.major = c.con.major
  else if c.con.major = 0 ∧ 0 < v.major then false
  else if 0 < c.con.minor ∨ c.patchDirty then v.minor = c.con.minor
  else if c.con.minor = 0 ∧ 0 < v.minor then false
  else c.con.patch = v.patch

/-- `check`. Every function first refuses a prerelease where none is asked for. -/
def Comparator.check (includePre : Bool) : Bool :=
  if v.pre ≠ [] ∧ !includePre then false
  else
    match c.origfunc with
    | .bare | .equal => constraintTildeOrEqual v c
    | .notEqual => constraintNotEqual v c
    | .greater => constraintGreaterThan v c
    | .less => constraintLessThan v c
    | .greaterEqual | .equalGreater => constraintGreaterThanEqual v c
    | .lessEqual | .equalLess => constraintLessThanEqual v c
    | .tilde | .tildeGreater => constraintTilde v c
    | .caret => constraintCaret v c

end

/-- `Check`, with `IncludePrerelease` unset. -/
def check (cs : List Group) (v : Version) : Bool :=
  cs.any fun group => group.comparators.all fun c => c.check v group.containsPre

/-- The package as the wrapper uses it. -/
def vendored : Masterminds where
  Version := Version
  Constraints := List Group
  newVersion := newVersion
  newConstraint := newConstraint
  check := check
  compare := Version.compare

instance : Std.TransCmp vendored.compare := inferInstanceAs (Std.TransCmp Version.compare)

end Mm
end Discovery
