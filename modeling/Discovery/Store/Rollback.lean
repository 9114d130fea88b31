import Discovery.Model.Compact
import Discovery.Store.Precedence
import Discovery.Store.Publications

namespace Discovery
open Kv Machine

/-- A publication under the ID of `s` is one of `s` itself. -/
def ConfigStep.Unambiguous (s : ConfigScope) : ConfigStep → Prop
  | .applyConfig _ scope _ _ _ | .rollbackConfig _ scope _ _ => ∀ u, scope.validate = .ok u → u.ID = s.ID → u = s
  | _ => True

namespace Store
variable {sha256 : GoString → GoString} {mm : Masterminds} {st : Store}

/-- The store in which a revision is the active one of an ID. -/
def reactivate (st : Store) (id : GoString) (rev : ConfigRevision) : Store :=
  if fits : KeyFits (cfgActiveKey id) then
    { st with configActive := st.configActive.insert (cfgActiveKey id) rev fits }
  else st

/-- What a resolution returns of an active revision. -/
def content (rev : ConfigRevision) : ConfigScope × Vars := (rev.scope, rev.vars)

/-- The active revisions differ in nothing that a resolution returns. -/
def SameContent (st st' : Store) : Prop :=
  ∀ key, (st.configActive.get key).map content = (st'.configActive.get key).map content

/-- What decides a key, without the other parts of its revision. -/
def verdict (e : ConfigScope × ConfigRevision × TypedValue) : ConfigScope × TypedValue := (e.1, e.2.2)

theorem SameContent.versionScopes {st' : Store} (same : SameContent st st') (service : GoString) :
    st.versionScopes service = st'.versionScopes service := by
  have scans := Bucket.scan_map_congr (p := ofString "active/") (f := content) fun key _ => same key
  have scopes := congrArg (List.map fun e : Key × (ConfigScope × Vars) => e.2.1) scans
  rw [List.map_map, List.map_map] at scopes
  exact congrArg (List.filter _) scopes

theorem SameContent.layers {st' : Store} (same : SameContent st st') (service version : GoString) :
    st.layers mm service version = st'.layers mm service version := by
  simp only [Store.layers, matchingBlocks, same.versionScopes]

theorem SameContent.said {st' : Store} (same : SameContent st st') (k : GoString) (scope : ConfigScope) :
    (st.said k scope).map verdict = (st'.said k scope).map verdict := by
  have here := same (cfgActiveKey scope.ID)
  simp only [Store.said, activeOf]
  cases one : st.configActive.get (cfgActiveKey scope.ID) with
  | none =>
    rw [one] at here
    rw [Option.map_eq_none_iff.mp here.symm]
  | some rev =>
    rw [one] at here
    obtain ⟨rev', other, alike⟩ := Option.map_eq_some_iff.mp here.symm
    have vars : rev'.vars = rev.vars := congrArg Prod.snd alike
    rw [other, Option.bind_some, Option.bind_some, vars, Option.map_map, Option.map_map]
    rfl

theorem SameContent.decided {st' : Store} (same : SameContent st st') (service version k : GoString) :
    (st.decided mm service version k).map verdict = (st'.decided mm service version k).map verdict := by
  rw [Store.decided, Store.decided, Overlay.map_last, Overlay.map_last, same.layers]
  exact congrArg (Overlay.last · _) (funext fun scope => same.said k scope)

theorem SameContent.resolveConfig {st' : Store} (same : SameContent st st') (sha256 : GoString → GoString)
    (service version : GoString) (prefixes keys : List GoString) :
    (st.resolveConfig sha256 mm service version prefixes keys).vars =
        (st'.resolveConfig sha256 mm service version prefixes keys).vars ∧
      (st.resolveConfig sha256 mm service version prefixes keys).provenance =
        (st'.resolveConfig sha256 mm service version prefixes keys).provenance := by
  have decides (k : GoString) : (st.decided mm service version k).map verdict =
      (st'.decided mm service version k).map verdict := same.decided service version k
  have value (k : GoString) := congrArg (Option.map Prod.snd) (decides k)
  have source (k : GoString) := congrArg (Option.map fun e => e.1.ID) (decides k)
  simp only [Option.map_map] at value source
  constructor
  · apply Std.ExtTreeMap.ext_getElem?
    intro k
    rw [resolveConfig_vars, resolveConfig_vars]
    exact congrArg (fun v => if Passes prefixes keys k then v else none) (value k)
  · apply Std.ExtTreeMap.ext_getElem?
    intro k
    rw [resolveConfig_provenance, resolveConfig_provenance]
    exact congrArg (fun v => if Passes prefixes keys k then v else none) (source k)

/-- Every revision in the history of the scope is one of the scope, with values that can be published
again. -/
def Republishable (st : Store) (scope : ConfigScope) : Prop :=
  ∀ n r, st.historyOf scope.ID n = some r → Marshals r.vars ∧ r.scope = scope.json

theorem marshals_json {vars : Vars} (marshals : Marshals vars) : Marshals (varsJson vars) := by
  rintro ⟨k, v⟩ member
  obtain ⟨k₀, v₀, stored, _, rfl⟩ := get_mapJson (Std.ExtTreeMap.mem_toList_iff_getElem?_eq_some.mp member)
  rcases marshals (k₀, v₀) (Std.ExtTreeMap.mem_toList_iff_getElem?_eq_some.mpr stored) with nil | valid
  · have null : compact v₀.value = "null" := by
      rw [show v₀.value = [] from nil]
      rfl
    refine Or.inr ?_
    rw [show (TypedValue.json v₀).value = compact v₀.value from rfl, null]
    decide
  · exact Or.inr (jsonValid_compact valid)

theorem marshals_of_publication {step : ConfigStep} {rev : ConfigRevision}
    (found : st.publication sha256 step = some rev) : Marshals rev.vars := by
  have applied {now : Time} {scope : ConfigScope} {vars : Vars} {note author : GoString} {r : Outcome ConfigRevision}
      (run : st.applyConfig sha256 now scope vars note author = .ok r) : Marshals r.value.vars := by
    obtain ⟨_, _, marshals, _, _, rfl⟩ := applyConfig_eq_ok.mp run
    exact marshals
  cases step with
  | applyConfig now scope vars note author =>
    rw [publication] at found
    cases run : st.applyConfig sha256 now scope vars note author with
    | error e =>
      rw [run] at found
      cases found
    | ok r =>
      rw [run] at found
      obtain rfl := Option.some.inj found
      exact applied run
  | rollbackConfig now scope revision author =>
    rw [publication] at found
    cases run : st.rollbackConfig sha256 now scope revision author with
    | error e =>
      rw [run] at found
      cases found
    | ok r =>
      rw [run] at found
      obtain rfl := Option.some.inj found
      obtain ⟨target, _, again⟩ := rollbackConfig_eq_ok.mp run
      exact applied again
  | putDraft now scope vars author => cases found
  | deleteDraft scope => cases found
  | deleteConfigScope scope => cases found
  | applyRemote ev => cases found

/-- What a publication under the ID says of its scope. -/
theorem scope_of_named {step : ConfigStep} {rev : ConfigRevision} {scope : ConfigScope}
    (alone : step.Unambiguous scope) (says_ : st.Says sha256 rev step) (here : rev.scope.ID = scope.ID) :
    rev.scope = scope := by
  cases step with
  | applyConfig now own vars note author => exact alone rev.scope says_.1 here
  | rollbackConfig now own revision author =>
    obtain ⟨_, _, valid, _⟩ := says_
    exact alone rev.scope valid here
  | putDraft now own vars author => cases says_
  | deleteDraft own => cases says_
  | deleteConfigScope own => cases says_
  | applyRemote ev => cases says_

theorem Republishable.step {scope : ConfigScope} (recorded_ : st.Republishable scope) {step : ConfigStep}
    (edit : step.isEdit = true) (alone : step.Unambiguous scope) :
    (st.configStep sha256 step).1.Republishable scope := by
  rcases publication_cases sha256 st edit with ⟨_, same⟩ | ⟨rev, fitsActive, fits, found, store, _, says_⟩
  · intro n r entry
    rw [(same scope.ID).2] at entry
    exact recorded_ n r entry
  · intro n r entry
    rw [store, historyOf_withPublished] at entry
    split at entry
    next here =>
      rw [recorded] at entry
      split at entry
      next =>
        obtain rfl := Option.some.inj entry
        exact ⟨marshals_json (marshals_of_publication found),
          congrArg ConfigScope.json (scope_of_named alone says_ here.symm)⟩
      next => exact recorded_ n r entry
    next => exact recorded_ n r entry

theorem Republishable.run {scope : ConfigScope} (recorded_ : st.Republishable scope) {steps : List ConfigStep}
    (edits : ∀ step ∈ steps, step.isEdit = true) (alone : ∀ step ∈ steps, step.Unambiguous scope) :
    (exec (configStep sha256) st steps).1.Republishable scope := by
  induction steps generalizing st with
  | nil => exact recorded_
  | cons step steps ih =>
    obtain ⟨edit, edits⟩ := List.forall_mem_cons.mp edits
    obtain ⟨first, rest⟩ := List.forall_mem_cons.mp alone
    exact ih (recorded_.step edit first) edits rest

/-- What a rollback to a recorded revision `target` does to a scope whose active revision is `act`. -/
structure Restores (sha256 : GoString → GoString) (mm : Masterminds) (st after : Store) (scope : ConfigScope)
    (act target : ConfigRevision) : Prop where
  active : ∃ rev, after.activeOf scope.ID = some rev ∧ rev.revision = act.revision + 1 ∧ rev.vars = target.vars
  history : ∀ n, n ≤ act.revision → after.historyOf scope.ID n = st.historyOf scope.ID n
  resolved : ∀ service version prefixes keys,
    (after.resolveConfig sha256 mm service version prefixes keys).vars =
        ((st.reactivate scope.ID target).resolveConfig sha256 mm service version prefixes keys).vars ∧
      (after.resolveConfig sha256 mm service version prefixes keys).provenance =
        ((st.reactivate scope.ID target).resolveConfig sha256 mm service version prefixes keys).provenance

/-- A rollback restores a revision of the history. Without one it fails, and does nothing. -/
structure RollsBack (sha256 : GoString → GoString) (mm : Masterminds) (st : Store) (now : Time) (scope : ConfigScope)
    (n : Int) (author : GoString) (act : ConfigRevision) : Prop where
  restored : ∀ target, st.historyOf scope.ID n = some target →
    ∃ r, st.rollbackConfig sha256 now scope n author = .ok r ∧ Restores sha256 mm st r.store scope act target
  missing : st.historyOf scope.ID n = none →
    st.rollbackConfig sha256 now scope n author = .error .notFound ∧
      st.configStep sha256 (.rollbackConfig now scope n author) = (st, [])

theorem sameContent_reactivate {scope : ConfigScope} {rev target : ConfigRevision}
    (fitsActive : KeyFits (cfgActiveKey scope.ID)) (fits : KeyFits (cfgRevKey scope.ID rev.revision))
    (alike : content rev.json = content target.json) :
    SameContent (st.withPublished scope.ID rev fitsActive fits) (st.reactivate scope.ID target) := by
  intro key
  simp only [withPublished, reactivate, dif_pos fitsActive, Bucket.get_insert, ConfigRevision.roundTrip_eq]
  split
  · exact congrArg some alike
  · rfl

/-- In every state of a run of publications, rollbacks and drafts that never publishes another scope under
the ID of this one, and does not run out of numbers or of space for the key, a rollback does what it should. -/
theorem rollback_restores (sha256 : GoString → GoString) (mm : Masterminds) {steps : List ConfigStep}
    (edits : ∀ step ∈ steps, step.isEdit = true) {scope : ConfigScope} (accepted : scope.Accepted)
    (alone : ∀ step ∈ steps, step.Unambiguous scope)
    (few : (under scope.ID (publications sha256 empty steps)).length + 1 < 2 ^ 63) {act : ConfigRevision}
    (active : (exec (configStep sha256) empty steps).1.activeOf scope.ID = some act)
    (fits : KeyFits (cfgRevKey scope.ID (act.revision + 1))) (now : Time) (n : Int) (author : GoString) :
    RollsBack sha256 mm (exec (configStep sha256) empty steps).1 now scope n author act := by
  have start : empty.Republishable scope := by
    intro n r entry
    cases entry.symm.trans (Bucket.get_empty _)
  have republishable : (exec (configStep sha256) empty steps).1.Republishable scope := start.run edits alone
  have ledger := (ledger_empty scope.ID).run sha256 edits (by rw [List.nil_append]; omega)
  rw [List.nil_append] at ledger
  have next := ledger.allocate few
  have number := ledger.contiguous.active
  generalize (exec (configStep sha256) empty steps).1 = st at *
  rw [active, Option.map_some] at number
  have last : st.allocate scope.ID = act.revision + 1 := by
    rw [next]
    split at number
    · cases number
    · rw [Option.some.inj number]
  constructor
  · intro target entry
    obtain ⟨marshals, own⟩ := republishable n target entry
    have clean : target.json = target := Bucket.clean entry
    have fits' : KeyFits (cfgRevKey scope.ID (st.published sha256 now scope target.vars
        (ofString "rollback to revision " ++ formatInt n) author).revision) := by
      rw [← last] at fits
      exact fits
    have applied := applyConfig_eq_ok.mpr ⟨scope, accepted, marshals, fits_cfgActiveKey fits', fits', rfl⟩
    refine ⟨_, rollbackConfig_eq_ok.mpr ⟨target, entry, applied⟩, ?_, ?_, ?_⟩
    · refine ⟨_, (activeOf_withPublished st _ fits' scope.ID).trans (if_pos rfl), last, ?_⟩
      have vars : varsJson target.vars = target.vars := congrArg ConfigRevision.vars clean
      exact vars
    · intro m old
      rw [historyOf_withPublished, if_pos rfl, recorded, if_neg]
      intro newest
      have top : m = st.allocate scope.ID := newest
      omega
    · intro service version prefixes keys
      refine SameContent.resolveConfig (sameContent_reactivate _ fits' ?_) sha256 service version prefixes keys
      have scopes : target.json.scope = scope.json := (congrArg ConfigRevision.scope clean).trans own
      exact Prod.ext scopes.symm rfl
  · intro none
    have failed : st.rollbackConfig sha256 now scope n author = .error .notFound := by
      have absent : st.configRevs.get (cfgRevKey scope.ID n) = Option.none := none
      simp only [rollbackConfig, read, absent]
      rfl
    refine ⟨failed, ?_⟩
    show st.settle (st.rollbackConfig sha256 now scope n author) = _
    rw [failed]
    rfl

def greeting : Vars := (∅ : Vars).insert "G" ⟨"string", "\"1\""⟩

def farewell : Vars := (∅ : Vars).insert "G" ⟨"string", "\"2\""⟩

def globalScope : ConfigScope := { kind := scopeGlobal }

/-- A greeting that a farewell replaces. -/
def twoEdits : List ConfigStep := [.applyConfig 1 globalScope greeting [] "a", .applyConfig 2 globalScope farewell [] "b"]

/-- The second revision is active, and a rollback brings the first one back. -/
theorem rollback_restores_greeting :
    ∃ act first, act.revision = 2 ∧ act.vars = varsJson farewell ∧
      (exec (configStep id) empty twoEdits).1.activeOf globalScope.ID = some act ∧
        (exec (configStep id) empty twoEdits).1.historyOf globalScope.ID 1 = some first ∧
          first.vars = varsJson greeting ∧
            RollsBack id dotted (exec (configStep id) empty twoEdits).1 3 globalScope 1 "c" act := by
  have accepted : globalScope.Accepted := by decide
  have fresh : empty.activeOf globalScope.ID = none := Bucket.get_empty _
  obtain ⟨rev, fitsActive, fits, number, _, vars, published⟩ :=
    step_first_published id 1 [] "a" accepted (by decide : Marshals greeting) (fits_cfgRevKey (by decide) (by decide))
      fresh
  have greeted : (empty.withPublished globalScope.ID rev fitsActive fits).activeOf globalScope.ID = some rev.json :=
    (activeOf_withPublished empty fitsActive fits _).trans (if_pos rfl)
  have second : nextRevision rev.json.revision = 2 := by rw [ConfigRevision.json_revision, number]; decide
  obtain ⟨rev', fitsActive', fits', number', _, vars', published'⟩ :=
    step_next_published id 2 [] "b" accepted (by decide : Marshals farewell) greeted
      (by rw [second]; exact fits_cfgRevKey (by decide) (by decide))
  rw [second] at number'
  have state : (exec (configStep id) empty twoEdits).1 =
      (empty.withPublished globalScope.ID rev fitsActive fits).withPublished globalScope.ID rev' fitsActive' fits' := by
    rw [twoEdits, exec, exec, published, published']
    rfl
  have active : (exec (configStep id) empty twoEdits).1.activeOf globalScope.ID = some rev'.json := by
    rw [state]
    exact (activeOf_withPublished _ fitsActive' fits' _).trans (if_pos rfl)
  have recorded_ : (exec (configStep id) empty twoEdits).1.historyOf globalScope.ID 1 = some rev.json := by
    rw [state, historyOf_withPublished, if_pos rfl, recorded, if_neg, historyOf_withPublished, if_pos rfl, recorded,
      if_pos]
    · exact number.symm
    · rw [ConfigRevision.json_revision, number']
      decide
  have alone : ∀ step ∈ twoEdits, step.Unambiguous globalScope := by
    have same : ∀ u, globalScope.validate = .ok u → u.ID = globalScope.ID → u = globalScope :=
      fun u valid _ => (Except.ok.inj (accepted.symm.trans valid)).symm
    intro step member
    obtain rfl | rfl : step = _ ∨ step = _ := by simpa [twoEdits] using member
    · exact same
    · exact same
  have few : (under globalScope.ID (publications id empty twoEdits)).length + 1 < 2 ^ 63 := by
    have short := length_publications id empty twoEdits
    have fewer := List.length_filter_le (fun r : ConfigRevision => decide (r.scope.ID = globalScope.ID))
      (publications id empty twoEdits)
    have two : twoEdits.length = 2 := rfl
    rw [two] at short
    rw [under]
    omega
  have fits'' : KeyFits (cfgRevKey globalScope.ID (rev'.json.revision + 1)) := by
    rw [ConfigRevision.json_revision, number']
    exact fits_cfgRevKey (by decide) (by decide)
  exact ⟨rev'.json, rev.json, number', congrArg varsJson vars', active, recorded_, congrArg varsJson vars,
    rollback_restores id dotted (by decide) accepted alone few active fits'' 3 1 "c"⟩

def outerBlock : ConfigScope := { kind := scopeVersion, service := "a:b", constraint := ">=1" }

def innerBlock : ConfigScope := { kind := scopeVersion, service := "a", constraint := "b:>=1" }

/-- Where a block of another service becomes the only active one, nothing is resolved. -/
theorem decided_of_other (mm : Masterminds) {rev : ConfigRevision} {id : GoString} (service version k : GoString)
    (only : ∀ j, j ≠ id → st.activeOf j = none) (other : rev.json.scope.service ≠ service)
    (heads : id ≠ ConfigScope.ID { kind := scopeGlobal } ∧ id ≠ ConfigScope.ID { kind := scopeService, service })
    (fitsActive : KeyFits (cfgActiveKey id)) (fits : KeyFits (cfgRevKey id rev.revision)) :
    (st.withPublished id rev fitsActive fits).decided mm service version k = none := by
  have nobody : ¬((st.withPublished id rev fitsActive fits).contenders mm service version k).Nonempty := by
    rintro ⟨scope, applicable, says_⟩
    have silent {scope : ConfigScope} (apart : id ≠ scope.ID) :
        k ∉ (st.withPublished id rev fitsActive fits).activeVars scope := by
      rw [activeVars, activeOf_withPublished, if_neg (Ne.symm apart), only scope.ID (Ne.symm apart)]
      simp
    cases applicable with
    | global => exact silent heads.1 says_
    | service named => exact silent heads.2 says_
    | block named versioned constraint published satisfied =>
      obtain ⟨j, r, active, own⟩ := published
      rw [activeOf_withPublished] at active
      split at active
      next =>
        obtain rfl := Option.some.inj active
        exact other (congrArg ConfigScope.service own)
      next apart =>
        rw [only j apart] at active
        cases active
  exact Option.not_isSome_iff_eq_none.mp fun decided => nobody (decided_isSome_iff.mp decided)

/-- A block that matches and defines the key decides it where nothing else is active. -/
theorem decided_of_block {rev : ConfigRevision} {service version k : GoString} (constraint : GoString)
    (active : st.activeOf (ConfigScope.ID { kind := scopeVersion, service, constraint }) = some rev)
    (own : rev.scope = { kind := scopeVersion, service, constraint }) (named : service ≠ []) (versioned : version ≠ [])
    (satisfied : Semver.satisfies mm version constraint = some true) (defines : k ∈ rev.vars) :
    (st.decided mm service version k).isSome := by
  refine decided_isSome_iff.mpr ⟨_, .block named versioned constraint ⟨_, rev, active, own⟩ satisfied, ?_⟩
  rw [activeVars, active]
  exact defines

/-- A rollback of a scope to a revision that another scope with the same ID has published takes the revision
from that scope. -/
theorem rollback_moves_block :
    ¬∃ sha256, ∀ (mm : Masterminds) (steps : List ConfigStep) (scope : ConfigScope) (act : ConfigRevision) (now : Time)
      (n : Int) (author : GoString), (∀ step ∈ steps, step.isEdit = true) → scope.Accepted →
      (exec (configStep sha256) empty steps).1.activeOf scope.ID = some act →
        RollsBack sha256 mm (exec (configStep sha256) empty steps).1 now scope n author act := by
  rintro ⟨sha256, rollsBack⟩
  have shared : innerBlock.ID = outerBlock.ID := by decide
  have outer : outerBlock.Accepted := by decide
  have inner : innerBlock.Accepted := by decide
  have fresh (id : GoString) : empty.activeOf id = none := Bucket.get_empty _
  obtain ⟨rev, fitsActive, fits, number, scope, vars, published⟩ :=
    step_first_published sha256 1 [] "a" outer (by decide : Marshals greeting) (fits_cfgRevKey (by decide) (by decide))
      (fresh _)
  have edits : ∀ step ∈ [ConfigStep.applyConfig 1 outerBlock greeting [] "a"], step.isEdit = true := by
    intro step member
    rw [List.mem_singleton.mp member]
    rfl
  have state : (exec (configStep sha256) empty [.applyConfig 1 outerBlock greeting [] "a"]).1 =
      empty.withPublished outerBlock.ID rev fitsActive fits := published
  have rolls := rollsBack dotted [.applyConfig 1 outerBlock greeting [] "a"] innerBlock rev.json 2 1 "b" edits inner
  rw [state, shared] at rolls
  have only (j : GoString) : (empty.withPublished outerBlock.ID rev fitsActive fits).activeOf j =
      if j = outerBlock.ID then some rev.json else none :=
    (activeOf_withPublished empty fitsActive fits j).trans (if_congr Iff.rfl rfl (fresh j))
  have entry : (empty.withPublished outerBlock.ID rev fitsActive fits).historyOf innerBlock.ID 1 = some rev.json := by
    rw [shared, historyOf_withPublished, if_pos rfl, recorded, if_pos]
    exact number.symm
  obtain ⟨r, run, restores⟩ := (rolls ((only _).trans (if_pos rfl))).restored rev.json entry
  -- the published revision is of the inner block
  obtain ⟨target, _, again⟩ := rollbackConfig_eq_ok.mp run
  obtain ⟨own, valid, _, fitsActive', fits', rfl⟩ := applyConfig_eq_ok.mp again
  obtain rfl : own = innerBlock := Except.ok.inj (valid.symm.trans inner)
  have moved := decided_of_other dotted "a:b" "1.0.0" "G"
    (fun j apart => (only j).trans (if_neg (shared ▸ apart))) (by show jsonString "a" ≠ "a:b"; decide) (by decide)
    fitsActive' fits'
  -- revision 1 is of the outer one
  have listed : ((empty.withPublished outerBlock.ID rev fitsActive fits).reactivate innerBlock.ID rev.json).activeOf
      outerBlock.ID = some rev.json.json := by
    rw [shared, activeOf, reactivate, dif_pos fitsActive]
    exact (Bucket.get_insert _ _ _ _ fitsActive).trans (if_pos rfl)
  have stays : (((empty.withPublished outerBlock.ID rev fitsActive fits).reactivate innerBlock.ID rev.json).decided
      dotted "a:b" "1.0.0" "G").isSome := by
    refine decided_of_block ">=1" listed ?_ (by decide) (by decide) (by decide) ?_
    · have own : rev.json.json.scope = outerBlock.json.json := by
        rw [← scope]
        rfl
      rw [own]
      decide
    · have own : rev.json.json.vars = varsJson (varsJson greeting) := by
        rw [← vars]
        rfl
      rw [own, varsJson_idem, Std.ExtTreeMap.mem_iff_isSome_getElem?, varsJson, getElem?_mapJson]
      decide
  have same := congrArg (fun vars : Vars => vars[ofString "G"]?) (restores.resolved "a:b" "1.0.0" [] []).1
  have passes : Passes [] [] (ofString "G") := Or.inl ⟨rfl, rfl⟩
  simp only [resolveConfig_vars, if_pos passes, moved, Option.map_none] at same
  rw [Option.map_eq_none_iff.mp same.symm] at stays
  cases stays

end Store
end Discovery
