import Discovery.Store.State
import Discovery.Ui.ConfigVars

namespace Discovery
namespace Ui

open Js

/-- The last row is assigned to what the rows before it have made, and may throw. -/
theorem rowsToVars_append (rows : List Row) (r : Row) :
    rowsToVars (rows ++ [r]) = (rowsToVars rows).bind fun out => assignRow out r := by
  rw [rowsToVars, List.foldlM_append]
  refine congrArg _ (funext fun out => ?_)
  exact bind_pure (assignRow out r)

/-- A row whose key is blank edits nothing. -/
theorem edits_append (rows : List Row) (r : Row) :
    edits (rows ++ [r]) = edits rows ++ if trim r.key = [] then [] else [(trim r.key, r.type, r.val)] := by
  rw [edits, List.map_append, List.filter_append, List.map_singleton]
  by_cases empty : trim r.key = []
  · rw [if_pos empty, List.filter_cons_of_neg (by simp [empty])]
    rfl
  · rw [if_neg empty, List.filter_cons_of_pos (by simp [empty])]
    rfl

theorem mem_edits {rows : List Row} {e : JsString × VarType × JsString} :
    e ∈ edits rows ↔ ∃ r ∈ rows, e = (trim r.key, r.type, r.val) ∧ trim r.key ≠ [] := by
  rw [edits, List.mem_filter, List.mem_map]
  constructor
  · rintro ⟨⟨r, member, rfl⟩, nonempty⟩
    exact ⟨r, member, rfl, of_decide_eq_true nonempty⟩
  · rintro ⟨r, member, rfl, nonempty⟩
    exact ⟨⟨r, member, rfl⟩, decide_eq_true nonempty⟩

/-- The last edit under a key. -/
def lastEdit (k : JsString) (rows : List Row) : Option (JsString × VarType × JsString) :=
  ((edits rows).filter fun e => e.1 = k).getLast?

/-- A later row of a key is the one that counts. -/
theorem lastEdit_append_of_eq {k : JsString} (rows : List Row) {r : Row} (nonempty : trim r.key ≠ [])
    (same : trim r.key = k) : lastEdit k (rows ++ [r]) = some (trim r.key, r.type, r.val) := by
  rw [lastEdit, edits_append, if_neg nonempty, List.filter_append, List.filter_cons_of_pos (by simpa using same),
    List.filter_nil, List.getLast?_concat]

/-- Rows of other keys, and rows without one, change nothing for a key. -/
theorem lastEdit_append_of_ne {k : JsString} (rows : List Row) {r : Row} (other : trim r.key = [] ∨ trim r.key ≠ k) :
    lastEdit k (rows ++ [r]) = lastEdit k rows := by
  rw [lastEdit, edits_append, List.filter_append]
  split
  next => rw [List.filter_nil, List.append_nil, lastEdit]
  next nonempty =>
    have ne : trim r.key ≠ k := other.resolve_left nonempty
    rw [List.filter_cons_of_neg (by simpa using ne), List.filter_nil, List.append_nil, lastEdit]

theorem mem_of_lastEdit {k : JsString} {rows : List Row} {e : JsString × VarType × JsString}
    (last : lastEdit k rows = some e) : e ∈ edits rows ∧ e.1 = k := by
  obtain ⟨member, same⟩ := List.mem_filter.mp (List.mem_of_getLast? last)
  exact ⟨member, of_decide_eq_true same⟩

/-- An edit that can be parsed. -/
def Parses (e : JsString × VarType × JsString) : Prop := ∃ tv, strToTypedValue e.2.1 e.2.2 = .ok tv

/-- An assignment sets the property, except under `__proto__`, where it sets the prototype. -/
theorem get_assign (j k : JsString) (tv : TypedValue Number) (out : Vars) :
    get j (assign k tv out) = if j = k ∧ k ≠ ascii "__proto__" then some tv else get j out := by
  rw [assign]
  by_cases proto : k = ascii "__proto__"
  · rw [if_pos proto, if_neg (fun found => found.2 proto)]
  · rw [if_neg proto, get_put]
    by_cases same : j = k
    · rw [if_pos same, if_pos ⟨same, proto⟩]
    · rw [if_neg same, if_neg (fun found => same found.1)]

/-- The property that is left under a key. -/
def assigned (k : JsString) (rows : List Row) : Option (TypedValue Number) :=
  if k = ascii "__proto__" then none else (lastEdit k rows).bind fun e => (strToTypedValue e.2.1 e.2.2).toOption

/-- The loop throws at an edit that does not parse, and what it gives is decided by the last edit under each key. -/
theorem rowsToVars_spec (rows : List Row) : ((∃ out, rowsToVars rows = .ok out) ↔ ∀ e ∈ edits rows, Parses e) ∧
    ∀ out, rowsToVars rows = .ok out → ∀ k, get k out = assigned k rows := by
  induction rows using List.reverseRecOn with
  | nil =>
    refine ⟨iff_of_true ⟨[], rfl⟩ (fun e member => absurd member List.not_mem_nil), fun out run k => ?_⟩
    cases run
    exact (ite_self none).symm
  | append_singleton rows r ih =>
    obtain ⟨parses, given⟩ := ih
    rw [rowsToVars_append, edits_append]
    by_cases empty : trim r.key = []
    · have skips (out : Vars) : assignRow out r = .ok out := if_pos empty
      have kept : ((rowsToVars rows).bind fun out => assignRow out r) = rowsToVars rows := by
        cases rowsToVars rows with
        | error => rfl
        | ok out => exact skips out
      rw [kept, if_pos empty, List.append_nil]
      refine ⟨parses, fun out run k => ?_⟩
      rw [given out run, assigned, assigned, lastEdit_append_of_ne rows (.inl empty)]
    · have step (out : Vars) :
          assignRow out r = (strToTypedValue r.type r.val).map fun tv => assign (trim r.key) tv out := by
        rw [assignRow]
        exact (if_neg empty).trans rfl
      rw [if_neg empty, List.forall_mem_append, List.forall_mem_singleton, ← parses]
      cases before : rowsToVars rows with
      | error t =>
        refine ⟨iff_of_false ?_ ?_, ?_⟩
        · rintro ⟨out, run⟩
          cases run
        · rintro ⟨⟨out, run⟩, _⟩
          cases run
        · intro out run
          cases run
      | ok out =>
        have next : ((Except.ok out).bind fun out => assignRow out r) = assignRow out r := rfl
        rw [next, step]
        cases read : strToTypedValue r.type r.val with
        | error t =>
          refine ⟨iff_of_false ?_ ?_, ?_⟩
          · rintro ⟨out, run⟩
            cases run
          · rintro ⟨_, tv, run⟩
            rw [read] at run
            cases run
          · intro out run
            cases run
        | ok tv =>
          refine ⟨iff_of_true ⟨_, rfl⟩ ⟨⟨out, rfl⟩, tv, read⟩, fun out' run k => ?_⟩
          cases run
          rw [get_assign, given out before, assigned, assigned]
          by_cases same : k = trim r.key
          · rw [lastEdit_append_of_eq rows empty same.symm, ← same, Option.bind_some, read]
            by_cases proto : k = ascii "__proto__"
            · rw [if_neg (fun found => found.2 proto), if_pos proto, if_pos proto]
            · rw [if_pos ⟨rfl, proto⟩, if_neg proto]
              rfl
          · rw [if_neg (fun found => same found.1), lastEdit_append_of_ne rows (.inr (Ne.symm same))]

theorem mem_foldl_put {entries : List (JsString × TypedValue ℚ)} {vars : Vars} {e : JsString × TypedValue Number}
    (member : e ∈ entries.foldl (fun vars e => put e.1 e.2.received vars) vars) :
    e ∈ vars ∨ ∃ a, (e.1, a) ∈ entries ∧ e.2 = a.received := by
  induction entries generalizing vars with
  | nil => exact .inl member
  | cons e' entries ih =>
    rcases ih member with old | ⟨a, later, value⟩
    · rcases mem_put old with rfl | old
      · exact .inr ⟨e'.2, List.mem_cons_self, rfl⟩
      · exact .inl old
    · exact .inr ⟨a, List.mem_cons_of_mem e' later, value⟩

/-- A variable is received as the server has sent it, whatever comes before or after it. -/
theorem get_foldl_put {entries : List (JsString × TypedValue ℚ)} (distinct : (entries.map Prod.fst).Nodup) (vars : Vars)
    (k : JsString) : get k (entries.foldl (fun vars e => put e.1 e.2.received vars) vars) =
      ((get k entries).map TypedValue.received).or (get k vars) := by
  induction entries generalizing vars with
  | nil => rfl
  | cons e entries ih =>
    obtain ⟨other, rest⟩ := List.nodup_cons.mp distinct
    rw [List.foldl_cons, ih rest, get_put, Js.get]
    split
    next same =>
      have absent : get k entries = none := by
        by_contra some
        obtain ⟨a, found⟩ := Option.ne_none_iff_exists'.mp some
        exact other (List.mem_map.mpr ⟨_, mem_of_get found, same⟩)
      rw [absent]
      rfl
    next => rfl

theorem VarMap.mem_received {m : VarMap} {k : JsString} {tv : TypedValue Number} :
    (k, tv) ∈ m.received ↔ ∃ a, (k, a) ∈ m.entries ∧ tv = a.received := by
  constructor
  · intro member
    rcases mem_foldl_put member with old | found
    · cases old
    · exact found
  · rintro ⟨a, member, rfl⟩
    refine mem_of_get ?_
    rw [received, get_foldl_put m.distinct, get_eq_some_of_mem m.distinct member]
    rfl

/-- A map has one value for a key. -/
theorem VarMap.eq_of_mem {m : VarMap} {k : JsString} {a b : TypedValue ℚ} (first : (k, a) ∈ m.entries)
    (second : (k, b) ∈ m.entries) : a = b :=
  Option.some.inj ((get_eq_some_of_mem m.distinct first).symm.trans (get_eq_some_of_mem m.distinct second))

/-- Rows that are converted without an exception are converted one by one. -/
theorem mem_of_mapM_eq_ok {ε α β : Type} {f : α → Except ε β} {l : List α} {l' : List β} (run : l.mapM f = .ok l')
    {y : β} : y ∈ l' ↔ ∃ x ∈ l, f x = .ok y := by
  induction l generalizing l' with
  | nil =>
    cases run
    simp
  | cons x l ih =>
    rw [List.mapM_cons] at run
    obtain ⟨z, first, run⟩ := bind_eq_ok.mp run
    obtain ⟨zs, rest, same⟩ := bind_eq_ok.mp run
    cases same
    simp only [List.mem_cons, ih rest, exists_eq_or_imp, first, Except.ok.injEq, @eq_comm _ y z]

theorem exists_mapM_eq_ok {ε α β : Type} {f : α → Except ε β} {l : List α} (all : ∀ x ∈ l, ∃ y, f x = .ok y) :
    ∃ l', l.mapM f = .ok l' := by
  induction l with
  | nil => exact ⟨[], rfl⟩
  | cons x l ih =>
    obtain ⟨⟨y, first⟩, rest⟩ := List.forall_mem_cons.mp all
    obtain ⟨l', run⟩ := ih rest
    exact ⟨y :: l', by rw [List.mapM_cons, first, run]; rfl⟩

section
variable {localeCompare : JsString → JsString → Ordering} {m : VarMap}

/-- The rows are those of the variables, in some order. -/
theorem mem_rows {rows : List Row} (load : varsToRows localeCompare m.received = .ok rows) {r : Row} :
    r ∈ rows ↔ ∃ a, (r.key, a) ∈ m.entries ∧ r.type = a.type ∧ tvToStr a.received = .ok r.val := by
  obtain ⟨k, type, val⟩ := r
  rw [mem_of_mapM_eq_ok load]
  constructor
  · rintro ⟨⟨k, tv⟩, present, row⟩
    obtain ⟨a, member, rfl⟩ := VarMap.mem_received.mp (List.mem_mergeSort.mp present)
    obtain ⟨val, text, same⟩ := bind_eq_ok.mp row
    cases same
    exact ⟨a, member, rfl, text⟩
  · rintro ⟨a, member, rfl, text⟩
    refine ⟨(k, a.received), List.mem_mergeSort.mpr (VarMap.mem_received.mpr ⟨a, member, rfl⟩), ?_⟩
    exact bind_eq_ok.mpr ⟨val, text, rfl⟩

/-- The edit of a row that is loaded. -/
theorem mem_edits_load {rows : List Row} (load : varsToRows localeCompare m.received = .ok rows)
    {e : JsString × VarType × JsString} : e ∈ edits rows ↔
      ∃ k a, (k, a) ∈ m.entries ∧ e.1 = trim k ∧ trim k ≠ [] ∧ e.2.1 = a.type ∧ tvToStr a.received = .ok e.2.2 := by
  rw [mem_edits]
  constructor
  · rintro ⟨r, member, rfl, nonempty⟩
    obtain ⟨a, present, type, text⟩ := (mem_rows load).mp member
    exact ⟨r.key, a, present, rfl, nonempty, type, text⟩
  · rintro ⟨k, a, present, key, nonempty, type, text⟩
    refine ⟨⟨k, e.2.1, e.2.2⟩, (mem_rows load).mpr ⟨a, present, type, text⟩, ?_, nonempty⟩
    rw [← key]

/-- A property that is left has a trimmed key, and stems from the last edit under it. -/
theorem assigned_eq_some {k : JsString} {rows : List Row} {b : TypedValue Number} (found : assigned k rows = some b) :
    KeepsKey k ∧ ∃ e ∈ edits rows, e.1 = k ∧ strToTypedValue e.2.1 e.2.2 = .ok b := by
  rw [assigned] at found
  split at found
  next => cases found
  next proto =>
    obtain ⟨e, last, read⟩ := Option.bind_eq_some_iff.mp found
    obtain ⟨member, rfl⟩ := mem_of_lastEdit last
    obtain ⟨r, _, rfl, nonempty⟩ := mem_edits.mp member
    refine ⟨⟨trim_trim r.key, nonempty, proto⟩, _, member, rfl, ?_⟩
    cases parsed : strToTypedValue r.type r.val with
    | error t =>
      rw [parsed] at read
      cases read
    | ok tv =>
      rw [parsed] at read
      rw [← Option.some.inj read]

/-- There is a property where there is an edit. -/
theorem exists_assigned {k : JsString} {rows : List Row} (parses : ∀ e ∈ edits rows, Parses e)
    {e : JsString × VarType × JsString} (member : e ∈ edits rows) (same : e.1 = k) (keeps : KeepsKey k) :
    ∃ b, assigned k rows = some b := by
  cases last : lastEdit k rows with
  | none =>
    rw [lastEdit, List.getLast?_eq_none_iff, List.filter_eq_nil_iff] at last
    exact absurd (decide_eq_true same) (last e member)
  | some e' =>
    obtain ⟨tv, read⟩ := parses e' (mem_of_lastEdit last).1
    exact ⟨tv, by rw [assigned, if_neg keeps.2.2, last, Option.bind_some, read]; rfl⟩

/-- Where all keys are kept, a loaded edit is the one of the variable with its key. -/
theorem load_edit {rows : List Row} (load : varsToRows localeCompare m.received = .ok rows)
    (keys : ∀ e ∈ m.entries, KeepsKey e.1) {e : JsString × VarType × JsString} (member : e ∈ edits rows) :
    ∃ a, (e.1, a) ∈ m.entries ∧ e.2.1 = a.type ∧ tvToStr a.received = .ok e.2.2 := by
  obtain ⟨k, a, present, key, _, type, text⟩ := (mem_edits_load load).mp member
  rw [(keys _ present).1] at key
  exact ⟨a, key ▸ present, type, text⟩

/-- Where every variable comes back, every key can be a key of a row and every value is one that its type keeps. -/
theorem keeps_of_kept (kept : Kept localeCompare m) : ∀ e ∈ m.entries, KeepsKey e.1 ∧ KeepsValue e.2 := by
  obtain ⟨rows, out, load, run, related⟩ := kept
  have given := (rowsToVars_spec rows).2 out run
  have property {k : JsString} {a : TypedValue ℚ} (present : (k, a) ∈ m.entries) :
      ∃ b, assigned k rows = some b ∧ Same a b := by
    have rel := related k
    rw [get_eq_some_of_mem m.distinct present, given] at rel
    cases found : assigned k rows with
    | none =>
      rw [found] at rel
      cases rel
    | some b =>
      rw [found] at rel
      cases rel with
      | some same => exact ⟨b, rfl, same⟩
  have keys : ∀ e ∈ m.entries, KeepsKey e.1 := fun e present =>
    let ⟨_, found, _⟩ := property present
    (assigned_eq_some found).1
  intro e present
  obtain ⟨b, found, same⟩ := property present
  obtain ⟨keeps, edit, member, key, read⟩ := assigned_eq_some found
  obtain ⟨a, loaded, type, text⟩ := load_edit load keys member
  rw [key] at loaded
  obtain rfl := VarMap.eq_of_mem present loaded
  exact ⟨keeps, (survives_iff e.2).mp ⟨edit.2.2, b, text, by rw [← type]; exact read, same⟩⟩

/-- Keys and values that are kept one by one are kept together, since no two rows of a loaded map have the same
key. -/
theorem kept_of_keeps (keeps : ∀ e ∈ m.entries, KeepsKey e.1 ∧ KeepsValue e.2) : Kept localeCompare m := by
  have keys : ∀ e ∈ m.entries, KeepsKey e.1 := fun e present => (keeps e present).1
  have survives {k : JsString} {a : TypedValue ℚ} (present : (k, a) ∈ m.entries) : Survives a :=
    (survives_iff a).mpr (keeps _ present).2
  obtain ⟨rows, load⟩ : ∃ rows, varsToRows localeCompare m.received = .ok rows := by
    refine exists_mapM_eq_ok fun ⟨k, tv⟩ present => ?_
    obtain ⟨a, member, rfl⟩ := VarMap.mem_received.mp (List.mem_mergeSort.mp present)
    obtain ⟨s, _, text, _⟩ := survives member
    exact ⟨_, bind_eq_ok.mpr ⟨s, text, rfl⟩⟩
  have reads {k : JsString} {a : TypedValue ℚ} (present : (k, a) ∈ m.entries) {e : JsString × VarType × JsString}
      (type : e.2.1 = a.type) (text : tvToStr a.received = .ok e.2.2) :
      ∃ b, strToTypedValue e.2.1 e.2.2 = .ok b ∧ Same a b := by
    obtain ⟨s, b, rendered, read, same⟩ := survives present
    rw [text] at rendered
    cases rendered
    exact ⟨b, by rw [type]; exact read, same⟩
  have parses : ∀ e ∈ edits rows, Parses e := by
    intro e member
    obtain ⟨a, present, type, text⟩ := load_edit load keys member
    obtain ⟨b, read, _⟩ := reads present type text
    exact ⟨b, read⟩
  obtain ⟨out, run⟩ := (rowsToVars_spec rows).1.mpr parses
  refine ⟨rows, out, load, run, fun k => ?_⟩
  rw [(rowsToVars_spec rows).2 out run k]
  cases found : assigned k rows with
  | none =>
    cases entry : Js.get k m.entries with
    | none => exact .none
    | some a =>
      -- the edit of the variable would have left a property
      have present := mem_of_get entry
      obtain ⟨trimmed, nonempty, _⟩ := keys _ present
      obtain ⟨s, _, text, _⟩ := survives present
      have member : (k, a.type, s) ∈ edits rows := (mem_edits_load load).mpr
        ⟨k, a, present, trimmed.symm, by rw [trimmed]; exact nonempty, rfl, text⟩
      obtain ⟨b, some⟩ := exists_assigned parses member rfl (keys _ present)
      rw [found] at some
      cases some
  | some b =>
    obtain ⟨_, edit, member, rfl, read⟩ := assigned_eq_some found
    obtain ⟨a, present, type, text⟩ := load_edit load keys member
    obtain ⟨b', read', same⟩ := reads present type text
    rw [read] at read'
    cases read'
    rw [get_eq_some_of_mem m.distinct present]
    exact .some same

/-- The editor gives the variables back exactly if it keeps each key and each value. -/
theorem kept_iff : Kept localeCompare m ↔ ∀ e ∈ m.entries, KeepsKey e.1 ∧ KeepsValue e.2 :=
  ⟨keeps_of_kept, kept_of_keeps⟩

/-- What was kept on loading is left alone by edits under other keys. -/
theorem Kept.of_lastEdit {rows loaded : List Row} {out : Vars} (kept : Kept localeCompare m)
    (load : varsToRows localeCompare m.received = .ok loaded) (run : rowsToVars rows = .ok out) {k : JsString}
    (same : lastEdit k rows = lastEdit k loaded) : Option.Rel Same (Js.get k m.entries) (Js.get k out) := by
  obtain ⟨rows', out', load', run', related⟩ := kept
  rw [load] at load'
  cases load'
  have before := related k
  rw [(rowsToVars_spec loaded).2 out' run', assigned, ← same] at before
  rw [(rowsToVars_spec rows).2 out run, assigned]
  exact before

end

/-- The order of code units. -/
def byCodeUnit : JsString → JsString → Ordering := List.compareLex compare

instance : Std.TransCmp byCodeUnit := inferInstanceAs (Std.TransCmp (List.compareLex compare))

def levels : VarMap := ⟨[(ascii "LEVEL", ⟨.string, .string (ascii "warn")⟩)], by decide⟩

theorem keeps_levels : ∀ e ∈ levels.entries, KeepsKey e.1 ∧ KeepsValue e.2 := by
  refine List.forall_mem_singleton.mpr ⟨by unfold KeepsKey; decide, ascii "warn", rfl⟩

def warn : Row := ⟨ascii "LEVEL", .string, ascii "warn"⟩

theorem level_kept_beside_added_row : ∃ out, rowsToVars [warn, ⟨ascii "DEBUG", .bool, ascii "true"⟩] = .ok out ∧
    Option.Rel Same (Js.get (ascii "LEVEL") levels.entries) (Js.get (ascii "LEVEL") out) := by
  have load : varsToRows byCodeUnit levels.received = .ok [warn] := by
    have sorted : levels.received.mergeSort (fun a b => (byCodeUnit a.1 b.1).isLE) = levels.received :=
      List.mergeSort_singleton _
    rw [varsToRows, sorted]
    rfl
  have run : rowsToVars [warn, ⟨ascii "DEBUG", .bool, ascii "true"⟩] = .ok
      [(ascii "LEVEL", ⟨.string, .string (ascii "warn")⟩), (ascii "DEBUG", ⟨.bool, .bool true⟩)] := rfl
  exact ⟨_, run, Kept.of_lastEdit (kept_of_keeps keeps_levels) load run rfl⟩

-- 2^53 + 1 is rounded
example : ¬Kept byCodeUnit ⟨[(ascii "ID", ⟨.int, .number 9007199254740993⟩)], by decide⟩ := by
  intro kept
  obtain ⟨_, i, value, digits⟩ := keeps_of_kept kept _ List.mem_cons_self
  have exactly : i = 9007199254740993 := by exact_mod_cast (Json.number.inj value).symm
  subst exactly
  exact absurd digits (by decide +kernel)

/-- Both throw, or both give the same properties. -/
def SameOutcome : Except Thrown Vars → Except Thrown Vars → Prop
  | .ok out, .ok out' => ∀ k, Js.get k out = Js.get k out'
  | .error _, .error _ => True
  | _, _ => False

theorem VarType.text_injective : Function.Injective VarType.text := by
  have found (t : VarType) : [string, int, float, bool, json, bytes].find? (fun t' => t'.text = t.text) = some t := by
    cases t <;> rfl
  intro t t' same
  have both := found t
  rw [same, found t'] at both
  exact (Option.some.inj both).symm

/-- The triples of the signature can be told apart by their text. -/
theorem editJson_injective : Function.Injective fun e => (editJson e).bind numberJson := by
  intro e e' same
  obtain ⟨k, type, val⟩ := e
  obtain ⟨k', type', val'⟩ := e'
  have elements := List.cons.inj (Json.array.inj same)
  have rest := List.cons.inj elements.2
  have last := List.cons.inj rest.2
  have key : k = k' := Json.string.inj elements.1
  have kind : type = type' := VarType.text_injective (Json.string.inj rest.1)
  have text : val = val' := Json.string.inj last.1
  rw [key, kind, text]

theorem allElements_editJson (l : List (JsString × VarType × JsString)) :
    Json.AllElements Proper (l.map editJson) := by
  induction l with
  | nil => trivial
  | cons e l ih => exact ⟨⟨trivial, trivial, trivial, trivial⟩, ih⟩

/-- The signature holds no number, so its text says all of it. -/
theorem bindElements_editJson (l : List (JsString × VarType × JsString)) :
    Json.bindElements numberJson (l.map editJson) = l.map fun e => (editJson e).bind numberJson := by
  induction l with
  | nil => rfl
  | cons e l ih => rw [List.map_cons, Json.bindElements, ih, List.map_cons]

/-- The text of the signature determines the sorted edits. -/
theorem sorted_edits_of_signature {localeCompare : JsString → JsString → Ordering} {rows rows' : List Row}
    (same : rowsSignature localeCompare rows = rowsSignature localeCompare rows') :
    (edits rows).mergeSort (fun a b => (localeCompare a.1 b.1).isLE) =
      (edits rows').mergeSort fun a b => (localeCompare a.1 b.1).isLE := by
  have read (l : List (JsString × VarType × JsString)) : readJson (stringify [] 0 (.array (l.map editJson))) =
      some (.array (l.map fun e => (editJson e).bind numberJson)) := by
    rw [readJson_stringify spaces_nil (v := .array (l.map editJson)) (allElements_editJson l), Json.bind,
      bindElements_editJson]
  have texts := congrArg readJson same
  rw [rowsSignature, rowsSignature, read, read] at texts
  exact List.map_injective_iff.mpr editJson_injective (Json.array.inj (Option.some.inj texts))

/-- Edits under one key stay in their order. -/
theorem filter_mergeSort (localeCompare : JsString → JsString → Ordering) [Std.TransCmp localeCompare]
    (l : List (JsString × VarType × JsString)) (k : JsString) :
    (l.mergeSort fun a b => (localeCompare a.1 b.1).isLE).filter (fun e => e.1 = k) = l.filter fun e => e.1 = k := by
  have trans (a b c : JsString × VarType × JsString) (first : (localeCompare a.1 b.1).isLE = true)
      (second : (localeCompare b.1 c.1).isLE = true) : (localeCompare a.1 c.1).isLE = true :=
    Std.TransCmp.isLE_trans first second
  have total (a b : JsString × VarType × JsString) :
      ((localeCompare a.1 b.1).isLE || (localeCompare b.1 a.1).isLE) = true := by
    have swapped : localeCompare b.1 a.1 = (localeCompare a.1 b.1).swap := Std.OrientedCmp.eq_swap
    rw [swapped]
    cases localeCompare a.1 b.1 <;> rfl
  have equal : (l.filter fun e => e.1 = k).Pairwise fun a b => (localeCompare a.1 b.1).isLE = true := by
    refine List.pairwise_of_forall_mem_list fun a inA b inB => ?_
    have self : localeCompare k k = .eq := Std.ReflCmp.compare_self
    rw [of_decide_eq_true (List.mem_filter.mp inA).2, of_decide_eq_true (List.mem_filter.mp inB).2, self]
    rfl
  have kept := (List.sublist_mergeSort trans total equal List.filter_sublist).filter fun e => e.1 = k
  rw [List.filter_filter] at kept
  have length := ((List.mergeSort_perm l fun a b => (localeCompare a.1 b.1).isLE).filter fun e => e.1 = k).length_eq
  simp only [Bool.and_self] at kept
  exact (kept.eq_of_length length.symm).symm

/-- Rows with the same signature are published alike: both throw, or both give every key the same value. The
signature lists the trimmed keys with their types and values, in an order that is stable within a key, so the last
edit of each key can be read off it. -/
theorem sameOutcome_of_signature {localeCompare : JsString → JsString → Ordering} [Std.TransCmp localeCompare]
    {rows rows' : List Row} (same : rowsSignature localeCompare rows = rowsSignature localeCompare rows') :
    SameOutcome (rowsToVars rows) (rowsToVars rows') := by
  have sorted := sorted_edits_of_signature same
  have last (k : JsString) : lastEdit k rows = lastEdit k rows' := by
    have stable := filter_mergeSort localeCompare (edits rows) k
    rw [sorted, filter_mergeSort] at stable
    rw [lastEdit, lastEdit, stable]
  have members (e : JsString × VarType × JsString) : e ∈ edits rows ↔ e ∈ edits rows' := by
    have sorts := (List.mergeSort_perm (edits rows) fun a b => (localeCompare a.1 b.1).isLE).mem_iff (a := e)
    rw [sorted, List.mem_mergeSort] at sorts
    exact sorts.symm
  obtain ⟨parses, given⟩ := rowsToVars_spec rows
  obtain ⟨parses', given'⟩ := rowsToVars_spec rows'
  have both : (∃ out, rowsToVars rows = .ok out) ↔ ∃ out, rowsToVars rows' = .ok out := by
    rw [parses, parses']
    exact forall_congr' fun e => imp_congr_left (members e)
  cases run : rowsToVars rows with
  | error t =>
    cases run' : rowsToVars rows' with
    | error t' => trivial
    | ok out' =>
      obtain ⟨out, some⟩ := both.mpr ⟨out', run'⟩
      rw [run] at some
      cases some
  | ok out =>
    cases run' : rowsToVars rows' with
    | error t' =>
      obtain ⟨out', some⟩ := both.mp ⟨out, run⟩
      rw [run'] at some
      cases some
    | ok out' =>
      intro k
      rw [given out run, given' out' run', assigned, assigned, last]

theorem sameOutcome_spaced :
    SameOutcome (rowsToVars [warn]) (rowsToVars [⟨ascii " LEVEL ", .string, ascii "warn"⟩, ⟨ascii " ", .int, []⟩]) := by
  have edited : edits [warn] = edits [⟨ascii " LEVEL ", .string, ascii "warn"⟩, ⟨ascii " ", .int, []⟩] := rfl
  have signed : rowsSignature byCodeUnit [warn] =
      rowsSignature byCodeUnit [⟨ascii " LEVEL ", .string, ascii "warn"⟩, ⟨ascii " ", .int, []⟩] := by
    rw [rowsSignature, rowsSignature, edited]
  exact sameOutcome_of_signature signed

end Ui
end Discovery
