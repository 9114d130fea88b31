import Discovery.Semver
import Discovery.Server.Access
import Discovery.Server.Config
import Discovery.Store.Config

namespace Discovery
open Kv

structure ConfigApplyInput where
  scope : ConfigScope
  vars : Vars := ∅
  note : GoString := []

structure ConfigDraftInput where
  scope : ConfigScope
  vars : Vars := ∅

structure ConfigScopeOnlyInput where
  scope : ConfigScope

structure ConfigRollbackInput where
  scope : ConfigScope
  revision : Int := 0

namespace Server

/-- Global config is for admins. Config of a missing service may be provisioned before it registers. -/
def allowConfigWrite (st : Store) (id : Identity) (scope : ConfigScope) : Except HttpError Unit :=
  if scope.kind = scopeGlobal then requireAdmin id
  else do
    requireWrite id
    match st.services.get scope.service with
    | none => .ok ()
    | some svc =>
      if canEditService svc id then .ok () else writeErr 403 "not allowed to edit this service's config"

section
variable (mm : Masterminds) (sha256 : GoString → GoString)

/-- The validated scope of a write that is allowed. -/
def prepareScopeWrite (st : Store) (id : Identity) (scope : ConfigScope) : Except HttpError ConfigScope := do
  let scope ← scope.validate.mapError (⟨400, ·⟩)
  if scope.kind = scopeVersion && !Semver.validConstraint mm scope.constraint then
    .error ⟨400, .quoted "invalid version constraint " scope.constraint⟩
  else
    allowConfigWrite st id scope
    .ok scope

def configApply (st : Store) (now : Time) (id : Identity) (body : Option ConfigApplyInput) :
    Except HttpError (Reply ConfigRevision) := do
  let input ← decode body
  let scope ← prepareScopeWrite mm st id input.scope
  (validateConfigVars input.vars).mapError (⟨400, ·⟩)
  let r ← (st.applyConfig sha256 now scope input.vars input.note id.actorName).mapError (⟨400, ·⟩)
  .ok ⟨200, r.value, r.store, r.events⟩

def configSaveDraft (st : Store) (now : Time) (id : Identity) (body : Option ConfigDraftInput) :
    Except HttpError (Reply ConfigDraft) := do
  let input ← decode body
  let scope ← prepareScopeWrite mm st id input.scope
  (validateConfigVars input.vars).mapError (⟨400, ·⟩)
  let r ← (st.putDraft now scope input.vars id.actorName).mapError (⟨400, ·⟩)
  .ok ⟨200, r.value, r.store, r.events⟩

def configDeleteDraft (st : Store) (id : Identity) (body : Option ConfigScopeOnlyInput) :
    Except HttpError (Reply Unit) := do
  let input ← decode body
  let scope ← prepareScopeWrite mm st id input.scope
  let r := st.deleteDraft scope
  .ok ⟨204, (), r.store, r.events⟩

def configRollback (st : Store) (now : Time) (id : Identity) (body : Option ConfigRollbackInput) :
    Except HttpError (Reply ConfigRevision) := do
  let input ← decode body
  let scope ← prepareScopeWrite mm st id input.scope
  let r ← (st.rollbackConfig sha256 now scope input.revision id.actorName).mapError safeStoreErr
  .ok ⟨200, r.value, r.store, r.events⟩

def configDeleteScope (st : Store) (id : Identity) (body : Option ConfigScopeOnlyInput) :
    Except HttpError (Reply Unit) := do
  let input ← decode body
  let scope ← prepareScopeWrite mm st id input.scope
  let r := st.deleteConfigScope scope
  .ok ⟨204, (), r.store, r.events⟩

end

/-- What a write of config needs: admin for the global scope, write access otherwise. -/
theorem allowConfigWrite_eq_ok {st : Store} {id : Identity} {scope : ConfigScope} {u : Unit} :
    allowConfigWrite st id scope = .ok u ↔
      if scope.kind = scopeGlobal then id.isAdmin = true ∨ id.system = true ∧ .admin ≤ id.role
      else .write ≤ id.role ∧ ∀ own, st.services.get scope.service = some own → canEditService own id := by
  unfold allowConfigWrite
  by_cases global : scope.kind = scopeGlobal
  · simp only [if_pos global, requireAdmin_eq_ok]
  · simp only [if_neg global, bind_eq_ok, requireWrite_eq_ok, exists_const]
    refine and_congr_right fun _ => ?_
    cases st.services.get scope.service with
    | none => simp
    | some own => by_cases allowed : canEditService own id <;> simp [allowed, writeErr]

theorem prepareScopeWrite_eq_ok {mm : Masterminds} {st : Store} {id : Identity} {scope v : ConfigScope} :
    prepareScopeWrite mm st id scope = .ok v ↔
      scope.validate = .ok v ∧ (v.kind = scopeVersion → Semver.validConstraint mm v.constraint = true) ∧
        allowConfigWrite st id v = .ok () := by
  simp only [prepareScopeWrite, bind_eq_ok, mapError_eq_ok]
  constructor
  · rintro ⟨w, valid, run⟩
    split at run
    next => cases run
    next parses =>
      obtain ⟨_, allowed, same⟩ := bind_eq_ok.mp run
      obtain rfl := Except.ok.inj same
      exact ⟨valid, by simpa using parses, allowed⟩
  · rintro ⟨valid, parses, allowed⟩
    refine ⟨v, valid, ?_⟩
    have passes : ¬(v.kind = scopeVersion && !Semver.validConstraint mm v.constraint) := by simpa using parses
    rw [if_neg passes]
    exact bind_eq_ok.mpr ⟨(), allowed, rfl⟩

end Server
end Discovery
