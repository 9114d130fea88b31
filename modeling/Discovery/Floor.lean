import Discovery.Masterminds.Constraints

namespace Discovery

namespace Semver
variable {mm : Masterminds}

/-- One token of the loop. -/
def lower (mm : Masterminds) (best t : GoString) : GoString :=
  if (mm.newVersion t).isNone then best
  else if best.isEmpty || compare mm t best == .lt then t
  else best

/-- The loop keeps the lowest readable token so far. -/
theorem floor_eq (c : GoString) : floor mm c = (fields c).foldl (lower mm) [] := rfl

/-- One round of the loop keeps what it has or takes the token, which then is readable and lower. -/
theorem lower_cases (mm : Masterminds) (best t : GoString) : lower mm best t = best ∨
    lower mm best t = t ∧ (mm.newVersion t).isSome ∧ (best = [] ∨ compare mm t best = .lt) := by
  rw [lower]
  split
  next => exact Or.inl rfl
  next parses =>
    have some : (mm.newVersion t).isSome := by simpa [Option.isSome_iff_ne_none] using parses
    split
    next better =>
      refine Or.inr ⟨rfl, some, ?_⟩
      simpa using better
    next => exact Or.inl rfl

/-- What is found is a token that parses. -/
theorem foldl_lower_mem (ts : List GoString) (best : GoString) : ts.foldl (lower mm) best = best ∨
    ts.foldl (lower mm) best ∈ ts ∧ (mm.newVersion (ts.foldl (lower mm) best)).isSome := by
  induction ts generalizing best with
  | nil => exact Or.inl rfl
  | cons t ts ih =>
    rw [List.foldl_cons]
    rcases ih (lower mm best t) with same | ⟨member, parses⟩
    · rw [same]
      rcases lower_cases mm best t with kept | ⟨taken, parses, _⟩
      · exact Or.inl kept
      · rw [taken]
        exact Or.inr ⟨List.mem_cons_self, parses⟩
    · exact Or.inr ⟨List.mem_cons_of_mem t member, parses⟩

variable [Std.TransCmp mm.compare]

/-- The loop never rises. -/
theorem foldl_lower_le {ts : List GoString} (nonempty : [] ∉ ts) {best : GoString} (found : best ≠ []) :
    (compare mm (ts.foldl (lower mm) best) best).isLE := by
  induction ts generalizing best with
  | nil =>
    have same : compare mm best best = .eq := Std.ReflCmp.compare_self
    rw [List.foldl_nil, same]
    rfl
  | cons t ts ih =>
    rw [List.mem_cons, not_or] at nonempty
    rw [List.foldl_cons]
    rcases lower_cases mm best t with kept | ⟨taken, _, less⟩
    · rw [kept]
      exact ih nonempty.2 found
    · rw [taken]
      have below := less.resolve_left found
      exact compare_trans (ih nonempty.2 (Ne.symm nonempty.1)) (by rw [below]; rfl)

/-- No token that parses is below what is found. -/
theorem foldl_lower_le_of_mem {ts : List GoString} (nonempty : [] ∉ ts) (best : GoString) {t : GoString}
    (member : t ∈ ts) (parses : (mm.newVersion t).isSome) : (compare mm (ts.foldl (lower mm) best) t).isLE := by
  induction ts generalizing best with
  | nil => cases member
  | cons u ts ih =>
    rw [List.mem_cons, not_or] at nonempty
    rw [List.foldl_cons]
    rcases List.mem_cons.mp member with rfl | later
    · by_cases kept : best = [] ∨ compare mm t best = .lt
      · have taken : lower mm best t = t := by
          have read : (mm.newVersion t).isNone = false := by simpa using parses
          rw [lower, read]
          rcases kept with rfl | less
          · simp
          · simp [less]
        rw [taken]
        exact foldl_lower_le nonempty.2 (Ne.symm nonempty.1)
      · rw [not_or] at kept
        have same : lower mm best t = best := (lower_cases mm best t).resolve_right fun taken =>
          taken.2.2.elim kept.1 kept.2
        rw [same]
        have above : (compare mm best t).isLE := by
          rw [compare_swap]
          cases order : compare mm t best with
          | lt => exact absurd order kept.2
          | eq => rfl
          | gt => rfl
        exact compare_trans (foldl_lower_le nonempty.2 kept.1) above
    · exact ih nonempty.2 _ later

omit [Std.TransCmp mm.compare] in
theorem nil_notMem_fields (c : GoString) : [] ∉ fields c := by
  intro member
  simpa using (List.mem_filter.mp member).2

/-- `Floor` is one of the tokens that parse, and none of them is below it. -/
theorem floor_le {c t : GoString} (token : t ∈ fields c) (parses : (mm.newVersion t).isSome) :
    (compare mm (floor mm c) t).isLE := by
  rw [floor_eq]
  exact foldl_lower_le_of_mem (nil_notMem_fields c) [] token parses

omit [Std.TransCmp mm.compare] in
/-- What is found is one of the tokens, and can be read as a version. -/
theorem floor_mem {c : GoString} (found : floor mm c ≠ []) :
    floor mm c ∈ fields c ∧ (mm.newVersion (floor mm c)).isSome := by
  rw [floor_eq] at found ⊢
  exact (foldl_lower_mem (fields c) []).resolve_left found

end Semver

namespace Mm

/-- The operators that refuse every version below the one they name. -/
def Op.bounds : Op → Bool
  | .bare | .equal | .greater | .greaterEqual | .equalGreater | .tilde | .tildeGreater | .caret => true
  | .notEqual | .less | .lessEqual | .equalLess => false

theorem compare_of_not_lt {v o : Version} (above : v.compare o ≠ .lt) : (o.compare v).isLE := by
  have swap : o.compare v = (v.compare o).swap := Std.OrientedCmp.eq_swap
  rw [swap]
  cases order : v.compare o with
  | lt => exact absurd order above
  | eq => rfl
  | gt => rfl

/-- A lower major number makes a version lower, whatever the rest is. -/
theorem compare_of_major {v o : Version} (less : o.major < v.major) : (o.compare v).isLE := by
  rw [Version.compare, Nat.compare_eq_lt.mpr less]
  rfl

theorem compare_of_minor {v o : Version} (same : o.major = v.major) (less : o.minor < v.minor) :
    (o.compare v).isLE := by
  rw [Version.compare, same, Nat.compare_eq_eq.mpr rfl, Nat.compare_eq_lt.mpr less]
  rfl

/-- A version that a tilde admits is not below the one behind the tilde. -/
theorem bound_of_tilde {v : Version} {c : Comparator} (met : constraintTilde v c = true) :
    (c.con.compare v).isLE := by
  rw [constraintTilde] at met
  split at met
  next => cases met
  next above => exact compare_of_not_lt above

/-- A version that meets a bounding comparator is not below the one the comparator names. -/
theorem bound_of_check {v : Version} {c : Comparator} {includePre : Bool} (met : c.check v includePre = true)
    (bounds : c.origfunc.bounds = true) : (c.con.compare v).isLE := by
  have equal (same : (v.compare c.con == .eq) = true) : (c.con.compare v).isLE :=
    compare_of_not_lt (by rw [beq_iff_eq.mp same]; decide)
  have tildeOrEqual (met : constraintTildeOrEqual v c = true) : (c.con.compare v).isLE := by
    rw [constraintTildeOrEqual] at met
    split at met
    next => exact bound_of_tilde met
    next => exact equal met
  have greaterEqual (met : constraintGreaterThanEqual v c = true) : (c.con.compare v).isLE :=
    compare_of_not_lt (by simpa [constraintGreaterThanEqual] using met)
  have greater (met : (v.compare c.con == .gt) = true) : (c.con.compare v).isLE :=
    compare_of_not_lt (by rw [beq_iff_eq.mp met]; decide)
  rw [Comparator.check] at met
  split at met
  next => cases met
  next =>
    cases op : c.origfunc with
    | bare => exact tildeOrEqual (by simpa [op] using met)
    | equal => exact tildeOrEqual (by simpa [op] using met)
    | greaterEqual => exact greaterEqual (by simpa [op] using met)
    | equalGreater => exact greaterEqual (by simpa [op] using met)
    | tilde => exact bound_of_tilde (by simpa [op] using met)
    | tildeGreater => exact bound_of_tilde (by simpa [op] using met)
    | caret =>
      have caret : constraintCaret v c = true := by simpa [op] using met
      rw [constraintCaret] at caret
      split at caret
      next => cases caret
      next above => exact compare_of_not_lt above
    | greater =>
      have above : constraintGreaterThan v c = true := by simpa [op] using met
      rw [constraintGreaterThan] at above
      split at above
      next => exact greater above
      next =>
        split at above
        next major => exact compare_of_major major
        next notAbove =>
          split at above
          next => cases above
          next notBelow =>
            split at above
            next => cases above
            next =>
              split at above
              next => exact compare_of_minor (by omega) (of_decide_eq_true above)
              next => exact greater above
    | notEqual => rw [op] at bounds; cases bounds
    | less => rw [op] at bounds; cases bounds
    | lessEqual => rw [op] at bounds; cases bounds
    | equalLess => rw [op] at bounds; cases bounds

theorem separates_isSegment : Separates isSegment := ⟨rfl, rfl, rfl, rfl⟩

theorem isSegment_of_isDigit {b : UInt8} (digit : isDigit b = true) : isSegment b = true := by
  rw [isSegment, digit]
  rfl

theorem all_isSegment {s : GoString} (digits : s.all isDigit = true) : s.all isSegment = true :=
  List.all_eq_true.mpr fun b member => isSegment_of_isDigit (List.all_eq_true.mp digits b member)

theorem Segment.wider {x : GoString} (group : Segment isDigit x) : Segment isSegment x := by
  rcases group with none | ⟨run, same, nonempty, digits⟩
  · exact Or.inl none
  · exact Or.inr ⟨run, same, nonempty, all_isSegment digits⟩

/-- Groups of digits are groups of the wider alphabet, in which wildcards may stand. -/
theorem Parts.Groups.wider {p : Parts} (groups : p.Groups isDigit) : p.Groups isSegment where
  major := ⟨groups.major.1, all_isSegment groups.major.2⟩
  minor := groups.minor.wider
  patch := groups.patch.wider
  short := groups.short
  pre := groups.pre
  metadata := groups.metadata

/-- A version of a constraint that parses on its own has digits for segments. -/
theorem groups_of_newVersion {m : Parts} (groups : m.Groups isSegment) {u : Version}
    (read : newVersion m.text = some u) : m.Groups isDigit ∧ m.version = some u := by
  obtain ⟨p, same, digits, version⟩ := newVersion_eq_some read
  have twice := looseParts_text separates_isSegment groups
  rw [same, looseParts_text separates_isSegment digits.wider] at twice
  obtain rfl : p = m := (Prod.mk.inj (Option.some.inj twice)).1
  exact ⟨digits, version⟩

theorem not_isX {s : GoString} (digits : s.all isDigit = true) : isX s = false := by
  rw [Bool.eq_false_iff]
  intro wildcard
  simp only [isX, Bool.or_eq_true, beq_iff_eq] at wildcard
  rcases wildcard with (rfl | rfl) | rfl <;> cases digits

/-- No group of digits is a wildcard. -/
theorem Segment.not_isX {x : GoString} (group : Segment isDigit x) : isX x.tail = false := by
  rcases group with rfl | ⟨run, rfl, _, digits⟩
  · rfl
  · exact Mm.not_isX digits

theorem segment_zero : Segment isDigit (ofString ".0") := Or.inr ⟨[0x30], rfl, by simp, rfl⟩

theorem identifiers_none (lead : UInt8) : Identifiers lead [] := Or.inl rfl

/-- The version a comparator names is read from the same segments, zeros standing for those left out. -/
theorem con_of_filled {m q : Parts} {u con : Version} (version : m.version = some u) (groups : q.Groups isDigit)
    (parsed : newVersion q.text = some con) (major : q.major = m.major) (minor : segment q.minor = segment m.minor)
    (patch : segment q.patch = segment m.patch) (pre : q.pre = m.pre) : con = u := by
  obtain ⟨readMajor, readMinor, readPatch, readPre⟩ := Parts.version_eq_some version
  obtain ⟨conMajor, conMinor, conPatch, conPre⟩ := Parts.version_eq_some (newVersion_text groups parsed)
  rw [major, readMajor] at conMajor
  rw [minor, readMinor] at conMinor
  rw [patch, readPatch] at conPatch
  rw [pre, readPre] at conPre
  exact Version.ext_parts (Option.some.inj conMajor).symm (Option.some.inj conMinor).symm
    (Option.some.inj conPatch).symm conPre.symm

/-- Left out segments count as zeros in the comparator as they do in the version. -/
theorem con_of_comparator {op : Op} {m : Parts} (groups : m.Groups isSegment) {c : Comparator}
    (made : comparator op m = some c) {u : Version} (read : newVersion m.text = some u) : c.con = u := by
  obtain ⟨digits, version⟩ := groups_of_newVersion groups read
  have present : m.major.isEmpty = false := by simpa using digits.major.1
  have zero : ofString ".0" ≠ [] := by decide
  have filler : segment (ofString ".0") = segment [] := by decide
  rw [comparator, not_isX digits.major.2, digits.minor.not_isX, digits.patch.not_isX, present] at made
  simp only [Bool.or_self, Bool.false_eq_true, if_false, Bool.false_or] at made
  split at made
  next noMinor =>
    have minorNone : m.minor = [] := List.isEmpty_iff.mp noMinor
    obtain ⟨con, parsed, rfl⟩ := Option.map_eq_some_iff.mp made
    have filled : Parts.Groups isDigit ⟨false, m.major, ".0", ".0", m.pre, []⟩ :=
      ⟨digits.major, segment_zero, segment_zero, fun none => absurd none zero, digits.pre, identifiers_none _⟩
    have text : m.major ++ (ofString ".0.0" ++ m.pre) = Parts.text ⟨false, m.major, ".0", ".0", m.pre, []⟩ := by
      have zeros : ofString ".0.0" = ofString ".0" ++ ofString ".0" := rfl
      simp [Parts.text, zeros]
    rw [text] at parsed
    refine con_of_filled version filled parsed rfl ?_ ?_ rfl
    · rw [minorNone]
      exact filler
    · rw [digits.short minorNone]
      exact filler
  next hasMinor =>
    split at made
    next noPatch =>
      have patchNone : m.patch = [] := List.isEmpty_iff.mp noPatch
      obtain ⟨con, parsed, rfl⟩ := Option.map_eq_some_iff.mp made
      have filled : Parts.Groups isDigit ⟨false, m.major, m.minor, ".0", m.pre, []⟩ :=
        ⟨digits.major, digits.minor, segment_zero, fun none => absurd (List.isEmpty_iff.mpr none) hasMinor,
          digits.pre, identifiers_none _⟩
      have text : m.major ++ (m.minor ++ (ofString ".0" ++ m.pre)) =
          Parts.text ⟨false, m.major, m.minor, ".0", m.pre, []⟩ := by
        simp [Parts.text]
      rw [text] at parsed
      refine con_of_filled version filled parsed rfl rfl ?_ rfl
      rw [patchNone]
      exact filler
    next =>
      obtain ⟨con, parsed, rfl⟩ := Option.map_eq_some_iff.mp made
      rw [read] at parsed
      exact (Option.some.inj parsed).symm

/-- What the scanner of comparators matches has the groups of a version. -/
theorem matchHead_groups {s rest : GoString} {op : Op} {m : Parts} (found : matchHead s = some (op, m, rest)) :
    m.Groups isSegment := by
  obtain ⟨op', _, matched⟩ := List.exists_of_findSome?_eq_some found
  split at matched
  next =>
    obtain ⟨read, parts, same⟩ := Option.map_eq_some_iff.mp matched
    obtain rfl : read = (m, rest) := (Prod.mk.inj same).2
    exact (looseParts_groups parts).2
  next => cases matched

/-- A comparator keeps the text of the version it was made of. -/
theorem comparator_orig {op : Op} {m : Parts} {c : Comparator} (made : comparator op m = some c) :
    c.orig = m.text := by
  rw [comparator] at made
  split at made
  next =>
    obtain ⟨con, _, rfl⟩ := Option.map_eq_some_iff.mp made
    rfl
  next =>
    split at made
    next =>
      obtain ⟨con, _, rfl⟩ := Option.map_eq_some_iff.mp made
      rfl
    next =>
      split at made
      all_goals
        obtain ⟨con, _, rfl⟩ := Option.map_eq_some_iff.mp made
        rfl

/-- A comparator whose text is itself a version names that version. -/
theorem con_of_parseConstraint {s : GoString} {c : Comparator} (parsed : parseConstraint s = some c) {u : Version}
    (read : newVersion c.orig = some u) : c.con = u := by
  rw [parseConstraint] at parsed
  split at parsed
  next =>
    obtain rfl := Option.some.inj parsed
    have none : newVersion [] = none := by decide
    rw [none] at read
    cases read
  next =>
    split at parsed
    next op m rest found =>
      split at parsed
      next =>
        rw [comparator_orig parsed] at read
        exact con_of_comparator (matchHead_groups found) parsed read
      next => cases parsed
    next => cases parsed

theorem mem_of_mapM {α β : Type} {read : α → Option β} {l : List α} {r : List β} (all : l.mapM read = some r) {y : β}
    (member : y ∈ r) : ∃ x ∈ l, read x = some y := by
  induction l generalizing r with
  | nil =>
    obtain rfl := Option.some.inj all
    cases member
  | cons x l ih =>
    rw [List.mapM_cons] at all
    obtain ⟨head, first, all⟩ := Option.bind_eq_some_iff.mp all
    obtain ⟨tail, rest, all⟩ := Option.bind_eq_some_iff.mp all
    obtain rfl := Option.some.inj all
    rcases List.mem_cons.mp member with rfl | later
    · exact ⟨x, List.mem_cons_self, first⟩
    · obtain ⟨x', inside, found⟩ := ih rest later
      exact ⟨x', List.mem_cons_of_mem x inside, found⟩

/-- The comparators of an accepted constraint are those `parseConstraint` returns. -/
theorem parsed_of_newConstraint {c : GoString} {groups : List Group} (made : newConstraint c = some groups)
    {g : Group} (group : g ∈ groups) {cmp : Comparator} (member : cmp ∈ g.comparators) :
    ∃ s, parseConstraint s = some cmp := by
  rw [newConstraint] at made
  split at made
  next => cases made
  next =>
    dsimp only at made
    split at made
    next => cases made
    next =>
      obtain ⟨segment, _, parsed⟩ := mem_of_mapM made group
      rw [parseGroup] at parsed
      split at parsed
      next =>
        obtain ⟨comparators, all, rfl⟩ := Option.map_eq_some_iff.mp parsed
        obtain ⟨s, _, parsed⟩ := mem_of_mapM all member
        exact ⟨s, parsed⟩
      next => cases parsed

/-- Every group of a constraint has a lower bound that is not below all version tokens of the constraint. -/
def Anchored (c : GoString) : Prop :=
  ∀ groups, newConstraint c = some groups → ∀ g ∈ groups, ∃ cmp ∈ g.comparators, cmp.origfunc.bounds = true ∧
    ∃ t ∈ Semver.fields c, ∃ u, newVersion t = some u ∧ (u.compare cmp.con).isLE

/-- A lower bound that is itself a version token of the constraint will do. -/
theorem anchored_of_written {c : GoString} {groups : List Group} (made : newConstraint c = some groups)
    (written : ∀ g ∈ groups, ∃ cmp ∈ g.comparators, cmp.origfunc.bounds = true ∧ cmp.orig ∈ Semver.fields c ∧
      (newVersion cmp.orig).isSome) : Anchored c := by
  intro groups' made' g group
  obtain rfl : groups = groups' := Option.some.inj (made.symm.trans made')
  obtain ⟨cmp, member, bounds, token, parses⟩ := written g group
  obtain ⟨s, parsed⟩ := parsed_of_newConstraint made group member
  obtain ⟨u, read⟩ := Option.isSome_iff_exists.mp parses
  refine ⟨cmp, member, bounds, cmp.orig, token, u, read, ?_⟩
  have same : u.compare u = .eq := Std.ReflCmp.compare_self
  rw [con_of_parseConstraint parsed read, same]
  rfl

/-- A version that an anchored constraint accepts is not below one of its tokens. -/
theorem token_le_of_check {c : GoString} (anchored : Anchored c) {groups : List Group}
    (made : newConstraint c = some groups) {v : Version} (accepted : check groups v = true) :
    ∃ t ∈ Semver.fields c, ∃ u, newVersion t = some u ∧ (u.compare v).isLE := by
  obtain ⟨g, group, met⟩ := List.any_eq_true.mp accepted
  obtain ⟨cmp, member, bounds, t, token, u, read, le⟩ := anchored groups made g group
  have above := bound_of_check (List.all_eq_true.mp met cmp member) bounds
  exact ⟨t, token, u, read, Std.TransCmp.isLE_trans le above⟩

/-- The induction behind the result: the floor is not above the token that bounds the accepted version from below. -/
theorem floor_le_of_accepted {c version : GoString} (anchored : Anchored c)
    (accepted : Semver.satisfies vendored version c = some true) :
    (Semver.compare vendored (Semver.floor vendored c) version).isLE := by
  rw [Semver.satisfies] at accepted
  split at accepted
  next => cases accepted
  next groups made =>
    split at accepted
    next => cases accepted
    next v read =>
      obtain ⟨t, token, u, parses, le⟩ := token_le_of_check anchored made (Option.some.inj accepted)
      have parsed : vendored.newVersion t = some u := parses
      have tokenLe : (Semver.compare vendored t version).isLE := by
        rw [Semver.compare, parsed, read]
        exact le
      exact Semver.compare_trans (Semver.floor_le token (Option.isSome_of_eq_some parsed)) tokenLe

/-- `Floor` is the lowest version token, and below all versions that an anchored constraint accepts. -/
theorem floor_spec (c : GoString) :
    (Semver.floor vendored c ≠ [] →
      Semver.floor vendored c ∈ Semver.fields c ∧ (newVersion (Semver.floor vendored c)).isSome) ∧
    (∀ t ∈ Semver.fields c, (newVersion t).isSome → (Semver.compare vendored (Semver.floor vendored c) t).isLE) ∧
    (Anchored c → ∀ version, Semver.satisfies vendored version c = some true →
      (Semver.compare vendored (Semver.floor vendored c) version).isLE) :=
  ⟨Semver.floor_mem, fun _ token parses => Semver.floor_le token parses, fun anchored _ accepted =>
    floor_le_of_accepted anchored accepted⟩

def twoMajors : GoString := ">=2.1.0 <3.0.0 || ^4.0.0"

theorem anchored_twoMajors : Anchored twoMajors := by
  have made : newConstraint twoMajors = some ((newConstraint twoMajors).getD []) := by decide
  exact anchored_of_written made (by decide)

theorem floor_spec_twoMajors : Anchored twoMajors ∧ Semver.satisfies vendored "4.2.0" twoMajors = some true ∧
    (Semver.compare vendored (Semver.floor vendored twoMajors) "4.2.0").isLE :=
  ⟨anchored_twoMajors, by decide, (floor_spec twoMajors).2.2 anchored_twoMajors "4.2.0" (by decide)⟩

/-- An upper bound is the lowest token of `<3.0.0` and above everything the constraint accepts. -/
theorem upper_bound_above : ¬ ∀ c version : GoString, Semver.validConstraint vendored c = true →
    Semver.satisfies vendored version c = some true → Semver.floor vendored c ≠ [] →
      (Semver.compare vendored (Semver.floor vendored c) version).isLE := by
  intro claimed
  have lower := claimed "<3.0.0" "2.0.0" (by decide) (by decide) (by decide)
  exact absurd lower (by decide)

end Mm
end Discovery
