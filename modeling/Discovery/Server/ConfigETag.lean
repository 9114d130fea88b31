import Discovery.Model.ConfigHash
import Discovery.Server.Config
import Discovery.Store.Precedence

namespace Discovery
open Kv

/-- Keys without a NUL, and values that `json.Marshal` writes as they are. -/
def Canonical (vars : Vars) : Prop :=
  ∀ (k : GoString) (v : TypedValue), vars[k]? = some v → 0 ∉ k ∧ compact v.value = v.value

/-- Values of a known type that are JSON. -/
def WellFormed (vars : Vars) : Prop :=
  ∀ (k : GoString) (v : TypedValue), vars[k]? = some v → v.type ∈ declaredTypes ∧ jsonValid v.value = true

theorem wellFormed_of_validateConfigVars {vars : Vars} (valid : validateConfigVars vars = .ok ()) : WellFormed vars := by
  intro k v present
  have checked := validate_of_validateConfigVars valid present
  exact ⟨TypedValue.type_of_validate checked, jsonValid_of_validate checked⟩

/-- A key and a value from which the tag can be read back. -/
structure Taggable (k : GoString) (v : TypedValue) : Prop where
  key : 0 ∉ k
  declared : v.type ∈ declaredTypes
  servable : Servable (k, v)

variable {sha256 : GoString → GoString}

variable (sha256) in
/-- A stored revision whose variables carry their own hashes. -/
structure Tagged (r : ConfigRevision) : Prop where
  taggable : ∀ k v, r.vars[k]? = some v → Taggable k v
  hashed : ∀ k v, r.vars[k]? = some v → r.hashOf sha256 k v = hashValue sha256 v

theorem json_of_canonical {v : TypedValue} (declared : v.type ∈ declaredTypes) (compacted : compact v.value = v.value) :
    v.json = v := by
  rw [TypedValue.json, jsonString_of_declared declared, compacted]

/-- What is stored under a key is a value that was published, and its hash stands beside it. -/
theorem get_published {r : ConfigRevision} (hashes : r.hashes = some (hashVars sha256 r.vars)) {k : GoString}
    {v : TypedValue} (present : r.json.vars[k]? = some v) :
    ∃ k₀ v₀, r.vars[k₀]? = some v₀ ∧ jsonString k₀ = k ∧ v₀.json = v ∧
      r.json.hashOf sha256 k v = hashValue sha256 v₀ := by
  have read : (jsonSource r.vars k).map TypedValue.json = some v := by rw [← getElem?_mapJson]; exact present
  obtain ⟨v₀, source, json⟩ := Option.map_eq_some_iff.mp read
  obtain ⟨k₀, stored, key⟩ := of_jsonSource source
  refine ⟨k₀, v₀, stored, key, json, ?_⟩
  have nonempty : hashVars sha256 r.vars ≠ ∅ := by
    intro empty
    have hashed : (hashVars sha256 r.vars)[k₀]? = some (hashValue sha256 v₀) := by
      rw [hashVars, Std.ExtTreeMap.getElem?_map, stored, Option.map_some]
    rw [empty] at hashed
    simp at hashed
  have kept : r.json.hashes = some (mapJson jsonString (hashVars sha256 r.vars)) := by
    simp [ConfigRevision.json, hashes, nonempty]
  have beside : (mapJson jsonString (hashVars sha256 r.vars))[k]? = some (hashValue sha256 v₀) := by
    rw [getElem?_mapJson, hashVars, jsonSource_map, source, Option.map_some, Option.map_some, jsonString_hashValue]
  rw [ConfigRevision.hashOf, kept]
  simp [Std.ExtTreeMap.getD_eq_getD_getElem?, beside]

/-- A publication in canonical form stores hashes that are those of the stored values. -/
theorem Tagged.published {r : ConfigRevision} (hashes : r.hashes = some (hashVars sha256 r.vars))
    (canonical : Canonical r.vars) (wellFormed : WellFormed r.vars) : Tagged sha256 r.json := by
  have tags (k : GoString) (v : TypedValue) (present : r.json.vars[k]? = some v) :
      Taggable k v ∧ r.json.hashOf sha256 k v = hashValue sha256 v := by
    obtain ⟨k₀, v₀, stored, rfl, rfl, hashed⟩ := get_published hashes present
    obtain ⟨key, compacted⟩ := canonical k₀ v₀ stored
    obtain ⟨declared, valid⟩ := wellFormed k₀ v₀ stored
    have same := json_of_canonical declared compacted
    have noZero : 0 ∉ jsonString k₀ := fun member => key ((jsonStringFrom_mem_ascii (by decide) 0 k₀).mp member)
    rw [same] at hashed ⊢
    exact ⟨⟨noZero, declared, jsonString_idem k₀, same, valid⟩, hashed⟩
  exact ⟨fun k v present => (tags k v present).1, fun k v present => (tags k v present).2⟩

/-- What a rollback publishes again has been through the encoder. -/
theorem Tagged.canonical {r : ConfigRevision} (tagged : Tagged sha256 r) : Canonical r.vars ∧ WellFormed r.vars := by
  constructor
  · intro k v present
    obtain ⟨key, _, servable⟩ := tagged.taggable k v present
    exact ⟨key, congrArg TypedValue.value servable.2.1⟩
  · intro k v present
    obtain ⟨_, declared, servable⟩ := tagged.taggable k v present
    exact ⟨declared, servable.2.2⟩

namespace Store

/-- Every revision of the store carries its own hashes. -/
structure AllTagged (sha256 : GoString → GoString) (st : Store) : Prop where
  active : ∀ key r, st.configActive.get key = some r → Tagged sha256 r
  revisions : ∀ key r, st.configRevs.get key = some r → Tagged sha256 r

theorem allTagged_empty : empty.AllTagged sha256 where
  active key r stored := by cases stored.symm.trans (Bucket.get_empty key)
  revisions key r stored := by cases stored.symm.trans (Bucket.get_empty key)

/-- It keeps every other revision as it was. -/
theorem AllTagged.withPublished {st : Store} (all : st.AllTagged sha256) {id : GoString} {rev : ConfigRevision}
    (fitsActive : KeyFits (cfgActiveKey id)) (fits : KeyFits (cfgRevKey id rev.revision))
    (tagged : Tagged sha256 rev.json) : (st.withPublished id rev fitsActive fits).AllTagged sha256 where
  active key r stored := by
    rw [Store.withPublished, Bucket.get_insert, ConfigRevision.roundTrip_eq] at stored
    split at stored
    next => rwa [← Option.some.inj stored]
    next => exact all.active key r stored
  revisions key r stored := by
    rw [Store.withPublished, Bucket.get_insert, ConfigRevision.roundTrip_eq] at stored
    split at stored
    next => rwa [← Option.some.inj stored]
    next => exact all.revisions key r stored

theorem AllTagged.applyConfig {st : Store} (all : st.AllTagged sha256) {now : Time} {scope : ConfigScope}
    {vars : Vars} {note author : GoString} {r : Outcome ConfigRevision}
    (run : st.applyConfig sha256 now scope vars note author = .ok r) (canonical : Canonical vars)
    (wellFormed : WellFormed vars) : r.store.AllTagged sha256 := by
  obtain ⟨s, _, _, fitsActive, fits, rfl⟩ := applyConfig_eq_ok.mp run
  exact all.withPublished fitsActive fits (Tagged.published rfl canonical wellFormed)

end Store

namespace ConfigStep

/-- A publication of variables the handler let through, or a rollback. -/
def Publishes : ConfigStep → Prop
  | .applyConfig _ _ vars _ _ => validateConfigVars vars = .ok ()
  | .rollbackConfig _ _ _ _ => True
  | _ => False

/-- What is published is canonical. -/
def PublishesCanonical : ConfigStep → Prop
  | .applyConfig _ _ vars _ _ => Canonical vars
  | _ => True

end ConfigStep

namespace Store

/-- A step that publishes in canonical form, or nothing, keeps all stored hashes true. -/
theorem AllTagged.configStep {st : Store} (all : st.AllTagged sha256) {step : ConfigStep}
    (publishes : step.Publishes) (canonical : step.PublishesCanonical) :
    (st.configStep sha256 step).1.AllTagged sha256 := by
  cases step with
  | applyConfig now scope vars note author =>
    exact settle_store (AllTagged sha256) all fun r run =>
      all.applyConfig run canonical (wellFormed_of_validateConfigVars publishes)
  | rollbackConfig now scope revision author =>
    refine settle_store (AllTagged sha256) all fun r run => ?_
    obtain ⟨target, stored, again⟩ := rollbackConfig_eq_ok.mp run
    obtain ⟨canonical, wellFormed⟩ := (all.revisions _ target stored).canonical
    exact all.applyConfig again canonical wellFormed
  | _ => exact publishes.elim

/-- The part of the stream for one variable. -/
def tagEntry (sha256 : GoString → GoString) (e : GoString × TypedValue) : GoString :=
  e.1 ++ 0 :: (hashValue sha256 e.2 ++ [0])

/-- What is hashed of a variable can be told from what follows it. -/
theorem delimits_tagEntry (injective : Function.Injective sha256) :
    PrefixCode.Delimits (tagEntry sha256) {e | Taggable e.1 e.2} := by
  have terminated := PrefixCode.delimits_terminated (0 : UInt8)
  rintro ⟨k, v⟩ left ⟨k', v'⟩ right s t same
  obtain ⟨keys, afterKey⟩ := terminated k left.key k' right.key _ _ (by simpa [tagEntry] using same)
  obtain ⟨hashes, tails⟩ := terminated _ (zero_notMem_hashValue v) _ (zero_notMem_hashValue v') s t
    (by simpa using afterKey)
  have values := hashValue_inj injective left.declared right.declared hashes
  exact ⟨Prod.ext keys values, tails⟩

/-- A key that holds a NUL, a hash and another NUL reads like two variables. -/
theorem tagEntry_of_nul (k l : GoString) (v w : TypedValue) :
    tagEntry sha256 (k ++ 0 :: (hashValue sha256 v ++ 0 :: l), w) =
      tagEntry sha256 (k, v) ++ tagEntry sha256 (l, w) := by
  simp [tagEntry]

section Query
variable {mm : Masterminds} {st st' : Store} {service version : GoString} {prefixes keys : List GoString}

/-- Every resolved variable comes from a stored revision, and its hash was taken from there. -/
theorem AllTagged.resolved (all : st.AllTagged sha256) {k : GoString} {v : TypedValue}
    (present : (st.resolveConfig sha256 mm service version prefixes keys).vars[k]? = some v) :
    Taggable k v ∧ (resolution sha256 mm st service version).winHash[k]? = some (hashValue sha256 v) := by
  rw [resolveConfig_vars] at present
  split at present
  next =>
    obtain ⟨⟨scope, rev, w⟩, decides, rfl⟩ := Option.map_eq_some_iff.mp present
    obtain ⟨_, _, speech⟩ := Overlay.exists_of_last decides
    obtain ⟨rfl, active, stored⟩ := said_eq_some.mp speech
    have tagged := all.active _ rev active
    refine ⟨tagged.taggable k w stored, ?_⟩
    rw [resolution_winHash, decides, Option.map_some, tagged.hashed k w stored]
  next => cases present

/-- Where all stored hashes are true, the tag is a function of the resolved variables alone. -/
theorem AllTagged.etag (all : st.AllTagged sha256) :
    (st.resolveConfig sha256 mm service version prefixes keys).etag =
      hexEncode (sha256 ((st.resolveConfig sha256 mm service version prefixes keys).vars.toList.flatMap
        (tagEntry sha256))) := by
  have stream : etagStream sha256 (st.resolveConfig sha256 mm service version prefixes keys).vars
      (resolution sha256 mm st service version).winHash =
        (st.resolveConfig sha256 mm service version prefixes keys).vars.toList.flatMap (tagEntry sha256) := by
    refine List.flatMap_congr fun e member => ?_
    have present := Std.ExtTreeMap.mem_toList_iff_getElem?_eq_some.mp member
    have hash := (all.resolved present).2
    simp only [Std.ExtTreeMap.getD_eq_getD_getElem?, hash, Option.getD_some, tagEntry]
    split
    next blank => rw [blank]
    next => rfl
  rw [← stream]
  rfl

/-- Stores whose revisions carry their own hashes serve the same variables exactly under the same tag. -/
theorem etag_eq_iff_of_tagged (injective : Function.Injective sha256) (left : st.AllTagged sha256)
    (right : st'.AllTagged sha256) :
    (st.resolveConfig sha256 mm service version prefixes keys).etag =
        (st'.resolveConfig sha256 mm service version prefixes keys).etag ↔
      marshalVars (st.resolveConfig sha256 mm service version prefixes keys).vars =
        marshalVars (st'.resolveConfig sha256 mm service version prefixes keys).vars := by
  have taggable {st : Store} (all : st.AllTagged sha256) :
      ∀ e ∈ (st.resolveConfig sha256 mm service version prefixes keys).vars.toList, Taggable e.1 e.2 :=
    fun e member => (all.resolved (Std.ExtTreeMap.mem_toList_iff_getElem?_eq_some.mp member)).1
  rw [left.etag, right.etag, marshalVars_inj (fun e member => (taggable left e member).servable)
    (fun e member => (taggable right e member).servable), hexEncode_injective.eq_iff, injective.eq_iff]
  constructor
  · intro same
    have nonempty : ∀ e ∈ {e : GoString × TypedValue | Taggable e.1 e.2}, tagEntry sha256 e ≠ [] := by
      intro e _ blank
      cases (List.append_eq_nil_iff.mp blank).2
    exact vars_eq_of_toList
      ((delimits_tagEntry injective).injOn_flatMap nonempty (taggable left) (taggable right) same)
  · intro same
    rw [same]

end Query

/-- So it is in every store that publications in canonical form lead to. -/
theorem allTagged_exec {steps : List ConfigStep} (publishes : ∀ step ∈ steps, step.Publishes)
    (canonical : ∀ step ∈ steps, step.PublishesCanonical) :
    (Machine.exec (configStep sha256) empty steps).1.AllTagged sha256 := by
  have run : Machine.Meets (configStep sha256) (fun _ step => step.Publishes ∧ step.PublishesCanonical) empty steps :=
    Machine.meets_of_forall fun step member => ⟨publishes step member, canonical step member⟩
  exact Machine.exec_invariant (AllTagged sha256) (fun st step all ok => all.configStep ok.1 ok.2) allTagged_empty run

/-- In the states two runs of canonical publications and rollbacks reach, a query has one tag exactly
if it is served one text. -/
theorem etag_eq_iff (injective : Function.Injective sha256) (mm : Masterminds) {steps steps' : List ConfigStep}
    (publishes : ∀ step ∈ steps, step.Publishes) (publishes' : ∀ step ∈ steps', step.Publishes)
    (canonical : ∀ step ∈ steps, step.PublishesCanonical) (canonical' : ∀ step ∈ steps', step.PublishesCanonical)
    (service version : GoString) (prefixes keys : List GoString) :
    let r := (Machine.exec (configStep sha256) empty steps).1.resolveConfig sha256 mm service version prefixes keys
    let r' := (Machine.exec (configStep sha256) empty steps').1.resolveConfig sha256 mm service version prefixes keys
    r.etag = r'.etag ↔ marshalVars r.vars = marshalVars r'.vars :=
  etag_eq_iff_of_tagged injective (allTagged_exec publishes canonical) (allTagged_exec publishes' canonical')

/-- The only variable of a map. -/
theorem get_single {k j : GoString} {v w : TypedValue} (present : ((∅ : Vars).insert k v)[j]? = some w) :
    j = k ∧ w = v := by
  rw [Std.ExtTreeMap.getElem?_insert] at present
  split at present
  next here => exact ⟨(Std.LawfulEqCmp.eq_of_compare here).symm, (Option.some.inj present).symm⟩
  next => simp at present

theorem canonical_single {k : GoString} {v : TypedValue} (key : 0 ∉ k) (value : compact v.value = v.value) :
    Canonical ((∅ : Vars).insert k v) := by
  intro j w present
  obtain ⟨rfl, rfl⟩ := get_single present
  exact ⟨key, value⟩

/-- A publication and its rollback, against the publication alone. -/
theorem etag_eq_iff_rollback :
    let vars : Vars := (∅ : Vars).insert "LOG" ⟨"string", "\"info\""⟩
    let steps : List ConfigStep := [
      .applyConfig 1 { kind := "global" } vars [] "a", .rollbackConfig 2 { kind := "global" } 1 "b"]
    let steps' : List ConfigStep := [.applyConfig 3 { kind := "global" } vars [] "c"]
    let r := (Machine.exec (configStep id) empty steps).1.resolveConfig id dotted "s" "2.0.5" ["L"] []
    let r' := (Machine.exec (configStep id) empty steps').1.resolveConfig id dotted "s" "2.0.5" ["L"] []
    r.etag = r'.etag ↔ marshalVars r.vars = marshalVars r'.vars := by
  intro vars steps steps'
  have valid : validateConfigVars vars = .ok () := by decide
  have canonical : Canonical vars :=
    canonical_single (by decide) (compact_of_plain (by decide) (forall_of_all (by decide)) (by decide))
  have none (P : ConfigStep → Prop) : ∀ step ∈ ([] : List ConfigStep), P step := fun _ member => by cases member
  have publishes : ∀ step ∈ steps, step.Publishes :=
    List.forall_mem_cons.mpr ⟨valid, List.forall_mem_cons.mpr ⟨trivial, none _⟩⟩
  have publishes' : ∀ step ∈ steps', step.Publishes := List.forall_mem_cons.mpr ⟨valid, none _⟩
  have plain : ∀ step ∈ steps, step.PublishesCanonical :=
    List.forall_mem_cons.mpr ⟨canonical, List.forall_mem_cons.mpr ⟨trivial, none _⟩⟩
  have plain' : ∀ step ∈ steps', step.PublishesCanonical := List.forall_mem_cons.mpr ⟨canonical, none _⟩
  exact etag_eq_iff Function.injective_id dotted publishes publishes' plain plain' _ _ _ _

theorem varsJson_single {k : GoString} (text : jsonString k = k) (v : TypedValue) :
    varsJson ((∅ : Vars).insert k v) = (∅ : Vars).insert k v.json := by
  apply Std.ExtTreeMap.ext_getElem?
  intro j
  have source : jsonSource ((∅ : Vars).insert k v) j = if k = j then some v else none := by
    have entries : ((∅ : Vars).insert k v).toList = [(k, v)] := rfl
    rw [jsonSource, entries, List.reverse_singleton, List.findSome?_singleton, text]
  rw [varsJson, getElem?_mapJson, source, Std.ExtTreeMap.getElem?_insert]
  simp only [Std.LawfulEqCmp.compare_eq_iff_eq]
  split
  · rfl
  · simp

theorem decided_global (mm : Masterminds) (st : Store) (k : GoString) :
    st.decided mm [] [] k = st.said k { kind := scopeGlobal } := by
  simp [decided, layers, Overlay.last]

/-- Without a service the global variables are served. -/
theorem vars_global (mm : Masterminds) {st : Store} {rev : ConfigRevision}
    (active : st.activeOf (ConfigScope.ID { kind := scopeGlobal }) = some rev) :
    (st.resolveConfig sha256 mm [] [] [] []).vars = rev.vars := by
  apply Std.ExtTreeMap.ext_getElem?
  intro k
  have passes : Passes [] [] k := Or.inl ⟨rfl, rfl⟩
  rw [resolveConfig_vars, if_pos passes, decided_global, said, active]
  simp [Function.comp_def]

/-- The first publication of a scope is active. -/
theorem active_first (sha256 : GoString → GoString) {scope : ConfigScope} {vars : Vars} (accepted : scope.Accepted)
    (marshals : Marshals vars) (fits : KeyFits (cfgRevKey scope.ID 1)) :
    (empty.configStep sha256 (.applyConfig 1 scope vars [] "a")).1.activeOf scope.ID =
      some (empty.published sha256 1 scope vars [] "a").json := by
  have fresh : empty.activeOf scope.ID = none := Bucket.get_empty _
  have first : (empty.published sha256 1 scope vars [] "a").revision = 1 := by
    show empty.allocate scope.ID = 1
    rw [allocate, fresh]
  rw [← first] at fits
  rw [configStep_applyConfig sha256 empty 1 [] "a" accepted marshals fits, activeOf_withPublished, if_pos rfl]

/-- The tag of a single global variable is made of the hash of what was published, not of what is
served. -/
theorem resolve_single (mm : Masterminds) {v : TypedValue} (marshals : Marshals ((∅ : Vars).insert "k" v))
    (hashed : hashValue sha256 v ≠ []) :
    let st := (Machine.exec (configStep sha256) empty
      [.applyConfig 1 { kind := scopeGlobal } ((∅ : Vars).insert "k" v) [] "a"]).1
    let r := st.resolveConfig sha256 mm [] [] [] []
    r.vars = (∅ : Vars).insert "k" v.json ∧ r.etag = hexEncode (sha256 (tagEntry sha256 ("k", v))) := by
  intro st r
  have active : st.activeOf (ConfigScope.ID { kind := scopeGlobal }) =
      some (empty.published sha256 1 { kind := scopeGlobal } ((∅ : Vars).insert "k" v) [] "a").json :=
    active_first sha256 (by decide) marshals (by decide)
  have stored : (empty.published sha256 1 { kind := scopeGlobal } ((∅ : Vars).insert "k" v) [] "a").json.vars =
      (∅ : Vars).insert "k" v.json := varsJson_single (by decide) v
  have vars : r.vars = (∅ : Vars).insert "k" v.json := (vars_global mm active).trans stored
  have present : (empty.published sha256 1 { kind := scopeGlobal } ((∅ : Vars).insert "k" v) [] "a").json.vars[
      ofString "k"]? = some v.json := by rw [stored, Std.ExtTreeMap.getElem?_insert_self]
  have hash : (resolution sha256 mm st [] []).winHash[ofString "k"]? = some (hashValue sha256 v) := by
    obtain ⟨_, _, source, _, _, hashOf⟩ := get_published rfl present
    obtain ⟨_, rfl⟩ := get_single source
    rw [resolution_winHash, decided_global, said, active, Option.bind_some, present, Option.map_some, Option.map_some,
      hashOf]
  refine ⟨vars, ?_⟩
  have tag : r.etag = configETag sha256 r.vars (resolution sha256 mm st [] []).winHash := rfl
  have entries : ((∅ : Vars).insert "k" v.json).toList = [(ofString "k", v.json)] := rfl
  rw [tag, vars, configETag, etagStream, entries]
  simp [Std.ExtTreeMap.getD_eq_getD_getElem?, hash, hashed, tagEntry]

/-- The tag tells `[1, 2]` from `[1,2]`, which are served as the same text. -/
theorem etag_of_spacing :
    ¬∃ (mm : Masterminds) (sha256 : GoString → GoString), Function.Injective sha256 ∧ (∀ s, sha256 s ≠ []) ∧
      ∀ steps steps' : List ConfigStep, (∀ step ∈ steps, step.Publishes) → (∀ step ∈ steps', step.Publishes) →
        ∀ (service version : GoString) (prefixes keys : List GoString),
          let r := (Machine.exec (configStep sha256) empty steps).1.resolveConfig sha256 mm service version prefixes keys
          let r' := (Machine.exec (configStep sha256) empty steps').1.resolveConfig sha256 mm service version prefixes keys
          r.etag = r'.etag ↔ marshalVars r.vars = marshalVars r'.vars := by
  rintro ⟨mm, sha256, injective, long, same⟩
  let spaced : TypedValue := ⟨"json", "[1, 2]"⟩
  let tight : TypedValue := ⟨"json", "[1,2]"⟩
  have hashed (v : TypedValue) : hashValue sha256 v ≠ [] := by
    intro blank
    exact long _ (hexEncode_injective (blank.trans (by rfl : [] = hexEncode [])))
  have publishes (v : TypedValue) (valid : validateConfigVars ((∅ : Vars).insert "k" v) = .ok ()) :
      ∀ step ∈ [ConfigStep.applyConfig 1 { kind := scopeGlobal } ((∅ : Vars).insert "k" v) [] "a"], step.Publishes :=
    List.forall_mem_cons.mpr ⟨valid, fun _ member => by cases member⟩
  obtain ⟨vars, tag⟩ := resolve_single mm (by decide : Marshals ((∅ : Vars).insert "k" spaced)) (hashed spaced)
  obtain ⟨vars', tag'⟩ := resolve_single mm (by decide : Marshals ((∅ : Vars).insert "k" tight)) (hashed tight)
  have served : spaced.json = tight.json := by
    have left : compact spaced.value = tight.value := compact_of_plain (by decide) (forall_of_all (by decide)) (by decide)
    have right : compact tight.value = tight.value := compact_of_plain (by decide) (forall_of_all (by decide)) (by decide)
    rw [TypedValue.json, TypedValue.json, left, right]
  have tags := (same _ _ (publishes spaced (by decide)) (publishes tight (by decide)) [] [] [] []).mpr
    (by rw [vars, vars', served])
  rw [tag, tag'] at tags
  have entries := injective (hexEncode_injective tags)
  have hashes : hashValue sha256 spaced = hashValue sha256 tight := by simpa [tagEntry] using entries
  have values := hashValue_inj injective (by decide) (by decide) hashes
  exact absurd values (by decide)

end Store
end Discovery
