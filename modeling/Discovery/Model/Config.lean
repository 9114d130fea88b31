import Discovery.Model.Unmarshal

namespace Discovery

/-- A declared type plus the raw JSON text of the value. -/
structure TypedValue where
  type : GoString
  value : GoString
  deriving DecidableEq

abbrev Vars := Std.ExtTreeMap GoString TypedValue

def varString : GoString := "string"
def varInt : GoString := "int"
def varFloat : GoString := "float"
def varBool : GoString := "bool"
def varJSON : GoString := "json"
def varBytes : GoString := "bytes"

def maxValueBytes : Nat := 1048576

def decimal (n : Nat) : GoString := (Nat.toDigits 10 n).map (fun c => c.val.toUInt8)

/-- `%d`. -/
def formatInt (n : Int) : GoString := (if n < 0 then ofString "-" else []) ++ decimal n.natAbs

def hexChar (n : Nat) : UInt8 := UInt8.ofNat (if n < 10 then 0x30 + n else 0x57 + n)

/-- `hex.EncodeToString`. -/
def hexEncode (s : GoString) : GoString := s.flatMap (fun b => [hexChar (b.toNat / 16), hexChar (b.toNat % 16)])

/-- The content hash of a value, over type, NUL and raw value. -/
def hashValue (sha256 : GoString → GoString) (v : TypedValue) : GoString :=
  hexEncode (sha256 (v.type ++ 0 :: v.value))

/-- Checks that the value is well-formed for its type. -/
def TypedValue.validate (v : TypedValue) : Except Err Unit :=
  let check (ok : Bool) (message : GoString) : Except Err Unit :=
    if ok then .ok () else .error (.text message)
  if maxValueBytes < v.value.length then
    .error (.text (ofString "value too large (" ++ decimal v.value.length ++ ofString " bytes, max " ++
      decimal maxValueBytes ++ ofString ")"))
  else if v.type = varString then
    check (unmarshalString v.value).isSome "string value must be a JSON string"
  else if v.type = varInt then
    check (unmarshalInt64 v.value).isSome "int value must be a whole number"
  else if v.type = varFloat then check (isFloat v.value) "float value must be a number"
  else if v.type = varBool then
    check (unmarshalBool v.value).isSome "bool value must be true or false"
  else if v.type = varJSON then check (jsonValid v.value) "json value must be valid JSON"
  else if v.type = varBytes then
    match unmarshalString v.value with
    | none => .error (.text "bytes value must be a base64 JSON string")
    | some s => check (base64Valid s) "bytes value must be valid base64"
  else .error (.quoted "unknown var type " v.type)

def declaredTypes : List GoString := [varString, varInt, varFloat, varBool, varJSON, varBytes]

/-- A validated value has one of the declared types. -/
theorem TypedValue.type_of_validate {v : TypedValue} (valid : v.validate = .ok ()) :
    v.type ∈ declaredTypes := by
  by_contra undeclared
  simp only [declaredTypes, List.mem_cons, List.not_mem_nil, or_false, not_or] at undeclared
  obtain ⟨h1, h2, h3, h4, h5, h6⟩ := undeclared
  unfold TypedValue.validate at valid
  simp only [h1, h2, h3, h4, h5, h6, if_false] at valid
  split at valid <;> cases valid

structure ConfigScope where
  kind : GoString
  service : GoString := []
  constraint : GoString := []
  deriving DecidableEq

def scopeGlobal : GoString := "global"
def scopeService : GoString := "service"
def scopeVersion : GoString := "version"

def ConfigScope.ID (s : ConfigScope) : GoString :=
  if s.kind = scopeGlobal then "global"
  else if s.kind = scopeService then ofString "service:" ++ s.service
  else if s.kind = scopeVersion then ofString "version:" ++ s.service ++ ofString ":" ++ s.constraint
  else s.kind ++ ofString ":" ++ s.service ++ ofString ":" ++ s.constraint

/-- The normalised scope. -/
def ConfigScope.validate (s : ConfigScope) : Except Err ConfigScope :=
  let kind := trimSpace s.kind
  let service := trimSpace s.service
  let constraint := trimSpace s.constraint
  if kind = scopeGlobal then .ok { kind, service := [], constraint := [] }
  else if kind = scopeService then
    if service = [] then .error (.text "service scope requires a service name")
    else .ok { kind, service, constraint := [] }
  else if kind = scopeVersion then
    if service = [] then .error (.text "version scope requires a service name")
    else if constraint = [] then .error (.text "version scope requires a constraint")
    else .ok { kind, service, constraint }
  else .error (.quoted "unknown scope kind " kind)

structure ConfigRevision where
  scope : ConfigScope
  revision : Int
  vars : Vars
  hashes : Option (Std.ExtTreeMap GoString GoString) := none
  note : GoString := []
  author : GoString := []
  createdAt : Time := 0
  updatedAt : Time := 0
  deriving DecidableEq

structure ConfigDraft where
  scope : ConfigScope
  vars : Vars
  baseRevision : Int := 0
  author : GoString := []
  updatedAt : Time := 0
  deriving DecidableEq

/-- The value through `encoding/json`: the text is compacted. -/
def TypedValue.json (v : TypedValue) : TypedValue :=
  { type := jsonString v.type, value := compact v.value }

@[simp] theorem TypedValue.json_idem (v : TypedValue) : v.json.json = v.json := by
  simp [TypedValue.json]

def ConfigScope.json (s : ConfigScope) : ConfigScope :=
  { kind := jsonString s.kind, service := jsonString s.service, constraint := jsonString s.constraint }

@[simp] theorem ConfigScope.json_idem (s : ConfigScope) : s.json.json = s.json := by
  simp [ConfigScope.json]

/-- A map through JSON. Keys are marshalled in their order; of those that become the same the last
one wins. -/
def mapJson {α : Type} (f : α → α) (m : Std.ExtTreeMap GoString α) : Std.ExtTreeMap GoString α :=
  Std.ExtTreeMap.ofList (m.toList.map (fun e => (jsonString e.1, f e.2)))

def varsJson (vars : Vars) : Vars := mapJson TypedValue.json vars

/-- An empty `hashes` map is omitted, so it reads back as nil. -/
def ConfigRevision.json (r : ConfigRevision) : ConfigRevision :=
  { r with
    scope := r.scope.json
    vars := varsJson r.vars
    hashes := r.hashes.bind (fun m => if m = ∅ then none else some (mapJson jsonString m))
    note := jsonString r.note
    author := jsonString r.author }

def ConfigDraft.json (d : ConfigDraft) : ConfigDraft :=
  { d with scope := d.scope.json, vars := varsJson d.vars, author := jsonString d.author }

instance : Kv.JsonCodec ConfigRevision := ⟨ConfigRevision.json⟩
instance : Kv.JsonCodec ConfigDraft := ⟨ConfigDraft.json⟩

@[simp] theorem ConfigRevision.roundTrip_eq (r : ConfigRevision) : Kv.JsonCodec.roundTrip r = r.json := rfl

@[simp] theorem ConfigDraft.roundTrip_eq (d : ConfigDraft) : Kv.JsonCodec.roundTrip d = d.json := rfl

/-- The value that ends up under `k` in a marshalled map: the last one whose key becomes `k`. -/
def jsonSource {α : Type} (m : Std.ExtTreeMap GoString α) (k : GoString) : Option α :=
  m.toList.reverse.findSome? fun e => if jsonString e.1 = k then some e.2 else none

/-- The JSON of a map holds under each key the value of the entry that is written last under it. Keys that are no
valid UTF-8 can collide. -/
theorem getElem?_mapJson {α : Type} (f : α → α) (m : Std.ExtTreeMap GoString α) (k : GoString) :
    (mapJson f m)[k]? = (jsonSource m k).map f := by
  rw [mapJson, Std.ExtTreeMap.ofList_eq_insertMany_empty, Std.ExtTreeMap.getElem?_insertMany_list]
  simp only [Std.ExtTreeMap.getElem?_empty, Option.or_none, Std.LawfulEqCmp.compare_eq_iff_eq]
  rw [List.findSomeRev?_eq_findSome?_reverse, ← List.map_reverse, List.findSome?_map, jsonSource, List.map_findSome?]
  congr 1
  funext e
  simp only [Function.comp_apply]
  split <;> rfl

theorem jsonSource_map {α β : Type} (h : α → β) (m : Std.ExtTreeMap GoString α) (k : GoString) :
    jsonSource (m.map fun _ v => h v) k = (jsonSource m k).map h := by
  rw [jsonSource, Std.ExtTreeMap.toList_map, ← List.map_reverse, List.findSome?_map, jsonSource, List.map_findSome?]
  congr 1
  funext e
  simp only [Function.comp_apply]
  split <;> rfl

/-- Every entry of the JSON comes from one of the map. -/
theorem of_jsonSource {α : Type} {m : Std.ExtTreeMap GoString α} {k : GoString} {v : α}
    (source : jsonSource m k = some v) : ∃ k₀, m[k₀]? = some v ∧ jsonString k₀ = k := by
  obtain ⟨e, member, here⟩ := List.exists_of_findSome?_eq_some source
  simp only [Option.ite_none_right_eq_some, Option.some.injEq] at here
  obtain ⟨key, rfl⟩ := here
  exact ⟨e.1, Std.ExtTreeMap.mem_toList_iff_getElem?_eq_some.mp (List.mem_reverse.mp member), key⟩

/-- Every entry of a marshalled map comes from one of the map. -/
theorem get_mapJson {α : Type} {f : α → α} {m : Std.ExtTreeMap GoString α} {k : GoString} {v : α}
    (present : (mapJson f m)[k]? = some v) : ∃ k₀ v₀, m[k₀]? = some v₀ ∧ jsonString k₀ = k ∧ f v₀ = v := by
  rw [getElem?_mapJson, Option.map_eq_some_iff] at present
  obtain ⟨v₀, source, same⟩ := present
  obtain ⟨k₀, stored, key⟩ := of_jsonSource source
  exact ⟨k₀, v₀, stored, key, same⟩

/-- A map of clean keys and values marshals to itself. -/
theorem mapJson_of_clean {α : Type} {f : α → α} {m : Std.ExtTreeMap GoString α}
    (clean : ∀ k v, m[k]? = some v → jsonString k = k ∧ f v = v) : mapJson f m = m := by
  have entries : m.toList.map (fun e => (jsonString e.1, f e.2)) = m.toList := by
    refine (List.map_congr_left fun e member => ?_).trans (List.map_id _)
    obtain ⟨key, value⟩ := clean e.1 e.2 (Std.ExtTreeMap.mem_toList_iff_getElem?_eq_some.mp member)
    rw [key, value]
    rfl
  rw [mapJson, entries]
  apply Std.ExtTreeMap.ext_getElem?
  intro k
  cases present : m[k]? with
  | some v =>
    exact Std.ExtTreeMap.getElem?_ofList_of_mem Std.ReflCmp.compare_self Std.ExtTreeMap.distinct_keys_toList
      (Std.ExtTreeMap.mem_toList_iff_getElem?_eq_some.mpr present)
  | none =>
    apply Std.ExtTreeMap.getElem?_ofList_of_contains_eq_false
    rw [Bool.eq_false_iff]
    intro listed
    obtain ⟨⟨k', v⟩, member, rfl⟩ := List.mem_map.mp (List.contains_iff_mem.mp listed)
    rw [Std.ExtTreeMap.mem_toList_iff_getElem?_eq_some.mp member] at present
    cases present

/-- A map that has gone through JSON is not changed by it again. -/
theorem mapJson_idem {α : Type} {f : α → α} (idem : ∀ v, f (f v) = f v) (m : Std.ExtTreeMap GoString α) :
    mapJson f (mapJson f m) = mapJson f m := by
  apply mapJson_of_clean
  intro k v present
  obtain ⟨k₀, v₀, _, rfl, rfl⟩ := get_mapJson present
  exact ⟨jsonString_idem k₀, idem v₀⟩

@[simp] theorem varsJson_idem (vars : Vars) : varsJson (varsJson vars) = varsJson vars :=
  mapJson_idem TypedValue.json_idem vars

@[simp] theorem mapJson_eq_empty {α : Type} {f : α → α} {m : Std.ExtTreeMap GoString α} :
    mapJson f m = ∅ ↔ m = ∅ := by
  rw [mapJson, Std.ExtTreeMap.ofList_eq_empty_iff, List.map_eq_nil_iff, Std.ExtTreeMap.toList_eq_nil_iff]

@[simp] theorem ConfigRevision.json_idem (r : ConfigRevision) : r.json.json = r.json := by
  cases hashes : r.hashes with
  | none => simp [ConfigRevision.json, hashes]
  | some m =>
    by_cases empty : m = ∅
    · simp [ConfigRevision.json, hashes, empty]
    · simp [ConfigRevision.json, hashes, empty, mapJson_idem jsonString_idem]

@[simp] theorem ConfigDraft.json_idem (d : ConfigDraft) : d.json.json = d.json := by
  simp [ConfigDraft.json]

instance : Kv.LawfulJsonCodec ConfigRevision := ⟨ConfigRevision.json_idem⟩
instance : Kv.LawfulJsonCodec ConfigDraft := ⟨ConfigDraft.json_idem⟩

@[simp] theorem ConfigRevision.json_revision (r : ConfigRevision) : r.json.revision = r.revision := rfl

@[simp] theorem ConfigRevision.json_updatedAt (r : ConfigRevision) : r.json.updatedAt = r.updatedAt := rfl

def revPad : Nat := 10

/-- `%0*d` with width `revPad`. -/
def padRevision (n : Int) : GoString :=
  let sign : GoString := if n < 0 then "-" else []
  let digits := decimal n.natAbs
  sign ++ List.replicate (revPad - sign.length - digits.length) 0x30 ++ digits

def cfgActiveKey (id : GoString) : GoString := ofString "active/" ++ id
def cfgDraftKey (id : GoString) : GoString := ofString "draft/" ++ id
def cfgRevPrefix (id : GoString) : GoString := ofString "rev/" ++ id ++ [slash]
def cfgRevKey (id : GoString) (n : Int) : GoString := cfgRevPrefix id ++ padRevision n

end Discovery
