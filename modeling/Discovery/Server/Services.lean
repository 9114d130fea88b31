import Discovery.Server.Access
import Discovery.Store.Rename

namespace Discovery
open Kv

/-- The editable fields of a service; an omitted `grants` is nil. -/
structure ServiceInput where
  description : GoString := []
  tags : List GoString := []
  metadata : StringMap := []
  visibility : GoString := []
  ownerID : GoString := []
  grants : Option (List GoString) := none
  deriving DecidableEq

structure RenameRequest where
  newName : GoString := []
  deriving DecidableEq

structure GrantRequest where
  userID : GoString := []
  deriving DecidableEq

def ServiceInput.service (input : ServiceInput) (name : GoString) : Service where
  name := name
  description := input.description
  tags := input.tags
  metadata := input.metadata
  visibility := input.visibility
  ownerID := input.ownerID
  grants := input.grants.getD []

/-- The record of an update: owner and grants are preserved unless an admin or a static token sets
them. -/
def ServiceInput.updated (input : ServiceInput) (name : GoString) (existing : Service)
    (id : Identity) : Service :=
  let svc := { input.service name with createdAt := existing.createdAt }
  if !id.isAdmin && !id.system then
    { svc with ownerID := existing.ownerID, grants := existing.grants }
  else
    { svc with
      ownerID := if input.ownerID = [] then existing.ownerID else input.ownerID
      grants := input.grants.getD existing.grants }

/-- The record of a creation: owned by the caller and public unless the body says otherwise. -/
def ServiceInput.created (input : ServiceInput) (name : GoString) (id : Identity) : Service :=
  { input.service name with
    ownerID := if input.ownerID = [] then id.userID else input.ownerID
    visibility := if input.visibility = [] then visibilityPublic else input.visibility }

namespace Server

/-- The record an accepted request is going to store under `name`. -/
def requestedService (st : Store) (id : Identity) (name : GoString) (input : ServiceInput) :
    Except HttpError Service :=
  match st.services.get name with
  | some existing =>
    if canEditService existing id then .ok (input.updated name existing id)
    else writeErr 403 "not allowed to edit this service"
  | none => .ok (input.created name id)

def putService (st : Store) (now : Time) (id : Identity) (name : GoString)
    (body : Option ServiceInput) : Except HttpError (Reply Service) := do
  requireWrite id
  let input ← decode body
  let svc ← requestedService st id name input
  let r ← (st.putService now svc).mapError (⟨400, ·⟩)
  .ok ⟨200, r.value, r.store, r.events⟩

def renameService (st : Store) (now : Time) (id : Identity) (oldName : GoString)
    (body : Option RenameRequest) : Except HttpError (Reply Service) := do
  requireWrite id
  let svc ← (st.getService oldName).mapError safeStoreErr
  if canEditService svc id then
    let req ← decode body
    let r ← (st.renameService now oldName req.newName).mapError safeStoreErr
    .ok ⟨200, r.value, r.store, r.events⟩
  else writeErr 403 "not allowed to rename this service"

def deleteService (st : Store) (id : Identity) (name : GoString) :
    Except HttpError (Reply Unit) := do
  requireWrite id
  let svc ← (st.getService name).mapError safeStoreErr
  if canEditService svc id then
    let r ← (st.deleteService name).mapError safeStoreErr
    .ok ⟨204, (), r.store, r.events⟩
  else writeErr 403 "not allowed to delete this service"

/-- Grants edit permission. A user that has it already is no error. -/
def addGrant (st : Store) (now : Time) (id : Identity) (name : GoString)
    (body : Option GrantRequest) : Except HttpError (Reply Service) := do
  let svc ← (st.getService name).mapError safeStoreErr
  if canManageGrants svc id then
    let req ← decode body
    if req.userID = [] then writeErr 400 "userId required"
    else if req.userID ∈ svc.grants then .ok ⟨200, svc, st, []⟩
    else
      let svc := { svc with grants := svc.grants ++ [req.userID] }
      let r ← (st.putService now svc).mapError safeStoreErr
      .ok ⟨200, r.value, r.store, r.events⟩
  else writeErr 403 "only owner or admin can manage grants"

def removeGrant (st : Store) (now : Time) (id : Identity) (name userID : GoString) :
    Except HttpError (Reply Unit) := do
  let svc ← (st.getService name).mapError safeStoreErr
  if canManageGrants svc id then
    let grants := svc.grants.filter (· ≠ userID)
    if grants.length = svc.grants.length then .ok ⟨204, (), st, []⟩
    else
      let r ← (st.putService now { svc with grants }).mapError safeStoreErr
      .ok ⟨204, (), r.store, r.events⟩
  else writeErr 403 "only owner or admin can manage grants"

theorem putService_eq_ok {st : Store} {now : Time} {id : Identity} {name : GoString}
    {body : Option ServiceInput} {r : Reply Service} :
    putService st now id name body = .ok r ↔
      .write ≤ id.role ∧ ∃ input, body = some input ∧
        ∃ svc, requestedService st id name input = .ok svc ∧
          ∃ o, st.putService now svc = .ok o ∧ r = ⟨200, o.value, o.store, o.events⟩ := by
  simp only [putService, bind_eq_ok, requireWrite_eq_ok, decode_eq_ok, mapError_eq_ok,
    Except.ok.injEq, exists_const, eq_comm (b := r)]

/-- The record asked for carries the path's name, and needs the caller to be allowed on a record
already stored there. -/
theorem requestedService_eq_ok {st : Store} {id : Identity} {name : GoString} {input : ServiceInput}
    {svc : Service} :
    requestedService st id name input = .ok svc ↔
      (∀ own, st.services.get name = some own → canEditService own id) ∧
        svc = match st.services.get name with
          | some existing => input.updated name existing id
          | none => input.created name id := by
  unfold requestedService
  cases st.services.get name with
  | none =>
    simp only [reduceCtorEq, false_imp_iff, implies_true, true_and, Except.ok.injEq, eq_comm]
  | some existing =>
    by_cases allowed : canEditService existing id
    · simp only [allowed, if_true, Except.ok.injEq, Option.some.injEq, forall_eq', true_and, eq_comm]
    · simp [allowed, writeErr]

theorem requestedService_name {st : Store} {id : Identity} {name : GoString} {input : ServiceInput}
    {svc : Service} (run : requestedService st id name input = .ok svc) : svc.name = name := by
  obtain ⟨_, rfl⟩ := requestedService_eq_ok.mp run
  cases st.services.get name with
  | none => rfl
  | some existing =>
    simp only [ServiceInput.updated]
    split <;> rfl

/-- A put that passes the handler's checks goes through when the store takes the trimmed name. -/
theorem putService_of_storable {st : Store} (now : Time) {id : Identity} {name : GoString}
    (input : ServiceInput) (role : .write ≤ id.role)
    (allowed : ∀ own, st.services.get name = some own → canEditService own id)
    (storable : Storable (trimSpace name)) :
    ∃ svc o, svc.name = name ∧ st.putService now svc = .ok o ∧
      putService st now id name (some input) = .ok ⟨200, o.value, o.store, o.events⟩ := by
  obtain ⟨svc, wanted⟩ : ∃ svc, requestedService st id name input = .ok svc :=
    ⟨_, requestedService_eq_ok.mpr ⟨allowed, rfl⟩⟩
  have named := requestedService_name wanted
  obtain ⟨o, put⟩ : ∃ o, st.putService now svc = .ok o :=
    Store.putService_ok_iff.mpr (named ▸ storable)
  exact ⟨svc, o, named, put, putService_eq_ok.mpr ⟨role, input, rfl, svc, wanted, o, put, rfl⟩⟩

theorem renameService_eq_ok {st : Store} {now : Time} {id : Identity} {oldName : GoString}
    {body : Option RenameRequest} {r : Reply Service} :
    renameService st now id oldName body = .ok r ↔
      .write ≤ id.role ∧ ∃ own, st.services.get oldName = some own ∧ canEditService own id ∧
        ∃ req, body = some req ∧ ∃ o, st.renameService now oldName req.newName = .ok o ∧
          r = ⟨200, o.value, o.store, o.events⟩ := by
  simp only [renameService, bind_eq_ok, requireWrite_eq_ok, mapError_eq_ok,
    Store.getService_eq_ok, exists_const]
  refine and_congr_right fun _ => exists_congr fun own => and_congr_right fun _ => ?_
  by_cases allowed : canEditService own id
  · simp only [allowed, if_true, bind_eq_ok, decode_eq_ok, mapError_eq_ok, Except.ok.injEq,
      true_and, eq_comm (b := r)]
  · simp [allowed, writeErr]

/-- A rename by a caller that may edit the service goes through when the move can commit. -/
theorem renameService_of_canMove {st : Store} (now : Time) {id : Identity} {oldName : GoString}
    {req : RenameRequest} {own : Service} (role : .write ≤ id.role)
    (present : st.services.get oldName = some own) (allowed : canEditService own id)
    (movable : st.CanMove (trimSpace oldName) (trimSpace req.newName)) :
    ∃ o, st.Moves now (trimSpace oldName) (trimSpace req.newName) o ∧
      renameService st now id oldName (some req) = .ok ⟨200, o.value, o.store, o.events⟩ := by
  obtain ⟨o, moves⟩ : ∃ o, st.Moves now (trimSpace oldName) (trimSpace req.newName) o :=
    Store.moves_iff.mpr movable
  have ⟨free, old, source, fits, _⟩ := moves
  have differs : trimSpace oldName ≠ trimSpace req.newName := by
    intro same
    rw [same, free] at source
    cases source
  have renamed : st.renameService now oldName req.newName = .ok o :=
    Store.renameService_eq_ok.mpr
      ⟨(Bucket.fits_of_get source).1, fits.1, Or.inr ⟨differs, moves⟩⟩
  exact ⟨o, moves, renameService_eq_ok.mpr ⟨role, own, present, allowed, req, rfl, o, renamed, rfl⟩⟩

theorem deleteService_eq_ok {st : Store} {id : Identity} {name : GoString} {r : Reply Unit} :
    deleteService st id name = .ok r ↔
      .write ≤ id.role ∧ ∃ own, st.services.get name = some own ∧ canEditService own id ∧
        ∃ o, st.deleteService name = .ok o ∧ r = ⟨204, (), o.store, o.events⟩ := by
  simp only [deleteService, bind_eq_ok, requireWrite_eq_ok, mapError_eq_ok,
    Store.getService_eq_ok, exists_const]
  refine and_congr_right fun _ => exists_congr fun own => and_congr_right fun _ => ?_
  by_cases allowed : canEditService own id
  · simp only [allowed, if_true, bind_eq_ok, mapError_eq_ok, Except.ok.injEq, true_and,
      eq_comm (b := r)]
  · simp [allowed, writeErr]

theorem deleteService_of_get {st : Store} {id : Identity} {name : GoString} {own : Service}
    (role : .write ≤ id.role) (present : st.services.get name = some own)
    (allowed : canEditService own id) :
    deleteService st id name = .ok ⟨204, (), { st with
      services := st.services.delete name
      instances := st.instances.deletePrefix (servicePrefix name) }, [.serviceDeleted name]⟩ := by
  have deleted := Store.deleteService_eq_ok.mpr ⟨Option.isSome_of_eq_some present, rfl⟩
  exact deleteService_eq_ok.mpr ⟨role, own, present, allowed, _, deleted, rfl⟩

theorem addGrant_eq_ok {st : Store} {now : Time} {id : Identity} {name : GoString}
    {body : Option GrantRequest} {r : Reply Service} :
    addGrant st now id name body = .ok r ↔
      ∃ own, st.services.get name = some own ∧ canManageGrants own id ∧
        ∃ req, body = some req ∧ req.userID ≠ [] ∧
          (req.userID ∈ own.grants ∧ r = ⟨200, own, st, []⟩ ∨
            req.userID ∉ own.grants ∧
              ∃ o, st.putService now { own with grants := own.grants ++ [req.userID] } = .ok o ∧
                r = ⟨200, o.value, o.store, o.events⟩) := by
  simp only [addGrant, bind_eq_ok, mapError_eq_ok, Store.getService_eq_ok]
  refine exists_congr fun own => and_congr_right fun _ => ?_
  by_cases manages : canManageGrants own id
  · simp only [manages, if_true, bind_eq_ok, decode_eq_ok, true_and]
    refine exists_congr fun req => and_congr_right fun _ => ?_
    by_cases empty : req.userID = []
    · simp [empty, writeErr]
    · by_cases granted : req.userID ∈ own.grants
      · simp [empty, granted, eq_comm]
      · simp [empty, granted, bind_eq_ok, mapError_eq_ok, eq_comm (b := r)]
  · simp [manages, writeErr]

theorem removeGrant_eq_ok {st : Store} {now : Time} {id : Identity} {name userID : GoString}
    {r : Reply Unit} :
    removeGrant st now id name userID = .ok r ↔
      ∃ own, st.services.get name = some own ∧ canManageGrants own id ∧
        (userID ∉ own.grants ∧ r = ⟨204, (), st, []⟩ ∨
          userID ∈ own.grants ∧
            ∃ o, st.putService now { own with grants := own.grants.filter (· ≠ userID) } = .ok o ∧
              r = ⟨204, (), o.store, o.events⟩) := by
  simp only [removeGrant, bind_eq_ok, mapError_eq_ok, Store.getService_eq_ok]
  refine exists_congr fun own => and_congr_right fun _ => ?_
  have unchanged : (own.grants.filter (· ≠ userID)).length = own.grants.length ↔
      userID ∉ own.grants := by
    rw [List.length_filter_eq_length_iff]
    constructor
    · intro all member
      exact absurd (all userID member) (by simp)
    · intro absent g member
      simpa using fun same : g = userID => absent (same ▸ member)
  by_cases manages : canManageGrants own id
  · by_cases granted : userID ∈ own.grants
    · have changed := mt unchanged.mp (not_not_intro granted)
      simp only [manages, changed, granted, if_true, if_false, bind_eq_ok, mapError_eq_ok,
        not_true_eq_false, false_and, false_or, true_and, Except.ok.injEq, eq_comm (b := r)]
    · have same := unchanged.mpr granted
      simp only [manages, same, granted, if_true, true_and, false_and, or_false, not_false_eq_true,
        Except.ok.injEq, eq_comm (b := r)]
  · simp [manages, writeErr]

end Server

/-- A request that writes service records. -/
inductive ServiceRequest
  | putService (name : GoString) (body : Option ServiceInput)
  | renameService (name : GoString) (body : Option RenameRequest)
  | deleteService (name : GoString)
  | addGrant (name : GoString) (body : Option GrantRequest)
  | removeGrant (name userID : GoString)
  deriving DecidableEq

namespace Server

/-- The store after a request, successful or not. -/
def settle {α : Type} (st : Store) : Except HttpError (Reply α) → Store
  | .ok r => r.store
  | .error _ => st

theorem settle_eq {α : Type} {st : Store} {x : Except HttpError (Reply α)} (P : Store → Prop)
    (failed : P st) (done : ∀ r, x = .ok r → P r.store) : P (settle st x) := by
  cases x with
  | error e => exact failed
  | ok r => exact done r rfl

def serveService (st : Store) (now : Time) (id : Identity) : ServiceRequest → Store
  | .putService name body => settle st (putService st now id name body)
  | .renameService name body => settle st (renameService st now id name body)
  | .deleteService name => settle st (deleteService st id name)
  | .addGrant name body => settle st (addGrant st now id name body)
  | .removeGrant name userID => settle st (removeGrant st now id name userID)

/-- A store with one private service, owned by user 1. -/
def billing : Store :=
  (Store.empty.settle (Store.empty.putService 1
    { name := "billing", visibility := visibilityPrivate, ownerID := "1" })).1

end Server
end Discovery
