import Discovery.Store.Revisions

namespace Discovery
open Kv

/-- `int` has 64 bits and wraps around. -/
def nextRevision (n : Int) : Int := Int.bmod (n + 1) (2 ^ 64)

/-- What `json.Marshal` demands of the raw values: nil, or valid JSON. -/
def Marshals (vars : Vars) : Prop := ∀ e ∈ vars.toList, e.2.value = [] ∨ jsonValid e.2.value = true

instance (vars : Vars) : Decidable (Marshals vars) :=
  inferInstanceAs (Decidable (∀ e ∈ vars.toList, _))

section Hash
variable (sha256 : GoString → GoString)

def hashVars (vars : Vars) : Std.ExtTreeMap GoString GoString := vars.map (fun _ v => hashValue sha256 v)

namespace Store

def getActiveConfig (st : Store) (scope : ConfigScope) : Except Err ConfigRevision :=
  read st.configActive (cfgActiveKey scope.ID)

/-- The revisions under the scope's prefix, the greatest number first. -/
def configHistory (st : Store) (scope : ConfigScope) : List ConfigRevision :=
  ((st.configRevs.scan (cfgRevPrefix scope.ID)).map Prod.snd).mergeSort (fun r s => s.revision ≤ r.revision)

def getDraft (st : Store) (scope : ConfigScope) : Except Err ConfigDraft :=
  read st.configDrafts (cfgDraftKey scope.ID)

/-- The number the next revision of the scope gets. -/
def allocate (st : Store) (id : GoString) : Int :=
  match st.activeOf id with
  | some prev => nextRevision prev.revision
  | none => 1

/-- Publishes `vars` as the next revision of the scope, records it in the history and drops the draft. -/
def applyConfig (st : Store) (now : Time) (scope : ConfigScope) (vars : Vars) (note author : GoString) :
    Except Err (Outcome ConfigRevision) := do
  let scope ← scope.validate
  let id := scope.ID
  let next := st.allocate id
  let rev : ConfigRevision := {
    scope, revision := next, vars, hashes := some (hashVars sha256 vars), note, author
    createdAt := now, updatedAt := now }
  if ¬Marshals vars then .error .marshal
  else do
    let configActive ← write st.configActive (cfgActiveKey id) rev
    let configRevs ← write st.configRevs (cfgRevKey id next) rev
    let configDrafts := st.configDrafts.delete (cfgDraftKey id)
    .ok ⟨rev, { st with configActive, configRevs, configDrafts }, [.configApplied rev]⟩

/-- Publishes the variables of a past revision again. -/
def rollbackConfig (st : Store) (now : Time) (scope : ConfigScope) (revision : Int) (author : GoString) :
    Except Err (Outcome ConfigRevision) := do
  let target ← read st.configRevs (cfgRevKey scope.ID revision)
  st.applyConfig sha256 now scope target.vars (ofString "rollback to revision " ++ formatInt revision) author

def putDraft (st : Store) (now : Time) (scope : ConfigScope) (vars : Vars) (author : GoString) :
    Except Err (Outcome ConfigDraft) := do
  let scope ← scope.validate
  let baseRevision :=
    match st.configActive.get (cfgActiveKey scope.ID) with
    | some prev => prev.revision
    | none => 0
  let d : ConfigDraft := { scope, vars, baseRevision, author, updatedAt := now }
  if ¬Marshals vars then .error .marshal
  else do
    let configDrafts ← write st.configDrafts (cfgDraftKey scope.ID) d
    .ok ⟨d, { st with configDrafts }, [.configDraftSaved d]⟩

def deleteDraft (st : Store) (scope : ConfigScope) : Outcome Unit :=
  ⟨(), st.deleteDraftRaw scope, [.configDraftDeleted scope]⟩

/-- Removes active, draft and every key under the prefix of the history. -/
def deleteConfigScope (st : Store) (scope : ConfigScope) : Outcome Unit :=
  ⟨(), st.deleteConfigScopeRaw scope, [.configDeleted scope]⟩

end Store
end Hash

/-- What happens to the config of one node: local operations and events of other nodes. -/
inductive ConfigStep
  | applyConfig (now : Time) (scope : ConfigScope) (vars : Vars) (note author : GoString)
  | rollbackConfig (now : Time) (scope : ConfigScope) (revision : Int) (author : GoString)
  | putDraft (now : Time) (scope : ConfigScope) (vars : Vars) (author : GoString)
  | deleteDraft (scope : ConfigScope)
  | deleteConfigScope (scope : ConfigScope)
  | applyRemote (ev : Event)

def ConfigStep.isLocal : ConfigStep → Bool
  | .applyRemote _ => false
  | _ => true

namespace Store
variable (sha256 : GoString → GoString)

def configStep (st : Store) : ConfigStep → Store × List Event
  | .applyConfig now scope vars note author => st.settle (st.applyConfig sha256 now scope vars note author)
  | .rollbackConfig now scope revision author =>
    st.settle (st.rollbackConfig sha256 now scope revision author)
  | .putDraft now scope vars author => st.settle (st.putDraft now scope vars author)
  | .deleteDraft scope => st.settle (.ok (st.deleteDraft scope))
  | .deleteConfigScope scope => st.settle (.ok (st.deleteConfigScope scope))
  | .applyRemote ev => st.applyStep ev

variable {sha256}

/-- The revision a publication of `vars` under a validated scope stores. -/
def published (sha256 : GoString → GoString) (st : Store) (now : Time) (scope : ConfigScope) (vars : Vars)
    (note author : GoString) : ConfigRevision where
  scope := scope
  revision := st.allocate scope.ID
  vars := vars
  hashes := some (hashVars sha256 vars)
  note := note
  author := author
  createdAt := now
  updatedAt := now

/-- The draft a save under a validated scope stores. -/
def drafted (st : Store) (now : Time) (scope : ConfigScope) (vars : Vars) (author : GoString) : ConfigDraft where
  scope := scope
  vars := vars
  baseRevision := match st.activeOf scope.ID with
    | some prev => prev.revision
    | none => 0
  author := author
  updatedAt := now

/-- The store after `rev` was published under the ID `id`. -/
def withPublished (st : Store) (id : GoString) (rev : ConfigRevision)
    (fitsActive : KeyFits (cfgActiveKey id)) (fits : KeyFits (cfgRevKey id rev.revision)) : Store :=
  { st with
    configActive := st.configActive.insert (cfgActiveKey id) rev fitsActive
    configRevs := st.configRevs.insert (cfgRevKey id rev.revision) rev fits
    configDrafts := st.configDrafts.delete (cfgDraftKey id) }

section Published
variable (st : Store) {id : GoString} {rev : ConfigRevision} (fitsActive : KeyFits (cfgActiveKey id))
  (fits : KeyFits (cfgRevKey id rev.revision))

theorem activeOf_withPublished (j : GoString) :
    (st.withPublished id rev fitsActive fits).activeOf j = if j = id then some rev.json else st.activeOf j := by
  simp only [activeOf, withPublished, Bucket.get_insert, cfgActiveKey_inj, ConfigRevision.roundTrip_eq]

theorem historyOf_withPublished (j : GoString) :
    (st.withPublished id rev fitsActive fits).historyOf j =
      if j = id then recorded (st.historyOf j) rev.json else st.historyOf j := by
  funext n
  simp only [historyOf, withPublished, Bucket.get_insert, cfgRevKey_inj, ConfigRevision.roundTrip_eq]
  by_cases here : j = id
  · subst here
    simp only [true_and, if_true, recorded]
    rfl
  · simp only [here, false_and, if_false, historyOf]

theorem draftOf_withPublished (j : GoString) :
    (st.withPublished id rev fitsActive fits).draftOf j = if j = id then none else st.draftOf j := by
  simp only [draftOf, withPublished, Bucket.get_delete, cfgDraftKey_inj]

end Published

section Deleted
variable (st : Store) (scope : ConfigScope)

theorem activeOf_deleteConfigScopeRaw (j : GoString) :
    (st.deleteConfigScopeRaw scope).activeOf j = if j = scope.ID then none else st.activeOf j := by
  simp only [activeOf, deleteConfigScopeRaw, Bucket.get_delete, cfgActiveKey_inj]

/-- A deletion takes the history of every scope whose ID is the deleted one or begins with it and a
slash. -/
theorem historyOf_deleteConfigScopeRaw (j : GoString) (n : Int) :
    (st.deleteConfigScopeRaw scope).historyOf j n =
      if scope.ID = j ∨ scope.ID ++ [slash] <+: j then none else st.historyOf j n := by
  simp only [historyOf, deleteConfigScopeRaw, Bucket.get_deletePrefix, cfgRevPrefix_prefix_iff]

theorem draftOf_deleteConfigScopeRaw (j : GoString) :
    (st.deleteConfigScopeRaw scope).draftOf j = if j = scope.ID then none else st.draftOf j := by
  simp only [draftOf, deleteConfigScopeRaw, Bucket.get_delete, cfgDraftKey_inj]

end Deleted

theorem applyConfig_eq_ok {st : Store} {now : Time} {scope : ConfigScope} {vars : Vars}
    {note author : GoString} {r : Outcome ConfigRevision} :
    st.applyConfig sha256 now scope vars note author = .ok r ↔
      ∃ s, scope.validate = .ok s ∧ Marshals vars ∧
        ∃ (fitsActive : KeyFits (cfgActiveKey s.ID))
          (fits : KeyFits (cfgRevKey s.ID (st.published sha256 now s vars note author).revision)),
          r = ⟨st.published sha256 now s vars note author,
            st.withPublished s.ID (st.published sha256 now s vars note author) fitsActive fits,
            [.configApplied (st.published sha256 now s vars note author)]⟩ := by
  simp only [applyConfig, bind_eq_ok]
  constructor
  · rintro ⟨s, valid, run⟩
    refine ⟨s, valid, ?_⟩
    split at run
    · cases run
    next marshals =>
      simp only [bind_eq_ok, write_eq_ok] at run
      obtain ⟨_, ⟨fitsActive, rfl⟩, _, ⟨fits, rfl⟩, done⟩ := run
      exact ⟨not_not.mp marshals, fitsActive, fits, (Except.ok.inj done).symm⟩
  · rintro ⟨s, valid, marshals, fitsActive, fits, rfl⟩
    refine ⟨s, valid, ?_⟩
    rw [if_neg (not_not.mpr marshals)]
    simp only [bind_eq_ok, write_eq_ok]
    exact ⟨_, ⟨fitsActive, rfl⟩, _, ⟨fits, rfl⟩, rfl⟩

theorem configStep_applyConfig (sha256 : GoString → GoString) (st : Store) (now : Time) {scope : ConfigScope}
    {vars : Vars} (note author : GoString) (accepted : scope.Accepted) (marshals : Marshals vars)
    (fits : KeyFits (cfgRevKey scope.ID (st.published sha256 now scope vars note author).revision)) :
    (st.configStep sha256 (.applyConfig now scope vars note author)).1 =
      st.withPublished scope.ID (st.published sha256 now scope vars note author) (fits_cfgActiveKey fits) fits := by
  have run := applyConfig_eq_ok.mpr ⟨scope, accepted, marshals, fits_cfgActiveKey fits, fits, rfl⟩
  show (st.settle (st.applyConfig sha256 now scope vars note author)).1 = _
  rw [run]
  rfl

/-- A scope without an active revision is published as revision 1. -/
theorem step_first_published (sha256 : GoString → GoString) {st : Store} (now : Time) {scope : ConfigScope}
    {vars : Vars} (note author : GoString) (accepted : scope.Accepted) (marshals : Marshals vars)
    (fits : KeyFits (cfgRevKey scope.ID 1)) (fresh : st.activeOf scope.ID = none) :
    ∃ rev fitsActive fits', rev.revision = 1 ∧ rev.scope = scope ∧ rev.vars = vars ∧
      (st.configStep sha256 (.applyConfig now scope vars note author)).1 =
        st.withPublished scope.ID rev fitsActive fits' := by
  have first : (st.published sha256 now scope vars note author).revision = 1 := by
    show st.allocate scope.ID = 1
    rw [allocate, fresh]
  have run := configStep_applyConfig sha256 st now note author accepted marshals (first.symm ▸ fits)
  exact ⟨_, _, _, first, rfl, rfl, run⟩

/-- A scope with an active revision is published as the one after it. -/
theorem step_next_published (sha256 : GoString → GoString) {st : Store} (now : Time) {scope : ConfigScope}
    {vars : Vars} (note author : GoString) (accepted : scope.Accepted) (marshals : Marshals vars)
    {prev : ConfigRevision} (active : st.activeOf scope.ID = some prev)
    (fits : KeyFits (cfgRevKey scope.ID (nextRevision prev.revision))) :
    ∃ rev fitsActive fits', rev.revision = nextRevision prev.revision ∧ rev.scope = scope ∧ rev.vars = vars ∧
      (st.configStep sha256 (.applyConfig now scope vars note author)).1 =
        st.withPublished scope.ID rev fitsActive fits' := by
  have next : (st.published sha256 now scope vars note author).revision = nextRevision prev.revision := by
    show st.allocate scope.ID = nextRevision prev.revision
    rw [allocate, active]
  have run := configStep_applyConfig sha256 st now note author accepted marshals (next.symm ▸ fits)
  exact ⟨_, _, _, next, rfl, rfl, run⟩

theorem rollbackConfig_eq_ok {st : Store} {now : Time} {scope : ConfigScope} {revision : Int}
    {author : GoString} {r : Outcome ConfigRevision} :
    st.rollbackConfig sha256 now scope revision author = .ok r ↔
      ∃ target, st.configRevs.get (cfgRevKey scope.ID revision) = some target ∧
        st.applyConfig sha256 now scope target.vars
          (ofString "rollback to revision " ++ formatInt revision) author = .ok r := by
  simp only [rollbackConfig, bind_eq_ok, read_eq_ok]

theorem putDraft_eq_ok {st : Store} {now : Time} {scope : ConfigScope} {vars : Vars} {author : GoString}
    {r : Outcome ConfigDraft} :
    st.putDraft now scope vars author = .ok r ↔
      ∃ s, scope.validate = .ok s ∧ Marshals vars ∧ ∃ fits : KeyFits (cfgDraftKey s.ID),
        r = ⟨st.drafted now s vars author,
          { st with
            configDrafts := st.configDrafts.insert (cfgDraftKey s.ID) (st.drafted now s vars author) fits },
          [.configDraftSaved (st.drafted now s vars author)]⟩ := by
  simp only [putDraft, bind_eq_ok]
  constructor
  · rintro ⟨s, valid, run⟩
    refine ⟨s, valid, ?_⟩
    split at run
    · cases run
    next marshals =>
      simp only [bind_eq_ok, write_eq_ok] at run
      obtain ⟨_, ⟨fits, rfl⟩, done⟩ := run
      exact ⟨not_not.mp marshals, fits, (Except.ok.inj done).symm⟩
  · rintro ⟨s, valid, marshals, fits, rfl⟩
    refine ⟨s, valid, ?_⟩
    rw [if_neg (not_not.mpr marshals)]
    simp only [bind_eq_ok, write_eq_ok]
    exact ⟨_, ⟨fits, rfl⟩, rfl⟩

end Store
end Discovery
