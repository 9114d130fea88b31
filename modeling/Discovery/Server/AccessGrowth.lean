import Discovery.Machine
import Discovery.Server.ServiceAcl

namespace Discovery
open Kv Machine

/-- One request of a run: when it comes, from whom, and what it asks. -/
structure AccessStep where
  now : Time
  caller : Identity
  request : ServiceRequest

/-- The caller is neither the owner nor privileged, and does not delete services. -/
structure AccessStep.Stranger (owner : GoString) (s : AccessStep) : Prop where
  plain : s.caller.isAdmin = false
  user : s.caller.system = false
  other : s.caller.userID ≠ owner
  keeps : ∀ name, s.request ≠ .deleteService name

/-- An update of `S` goes by its own path and sets a visibility that is not open; grants are changed
under `S` by its own path. -/
def AccessStep.Tight (st : Store) (S : GoString) (s : AccessStep) : Prop :=
  match s.request with
  | .putService _ body => ¬s.request.Crosses st s.caller S ∧
    (s.request.Writes st s.caller S → ∀ input, body = some input →
      input.visibility ≠ [] ∧ input.visibility ≠ visibilityPublic)
  | .addGrant _ _ | .removeGrant _ _ => ¬s.request.Crosses st s.caller S
  | .renameService _ _ | .deleteService _ => True

namespace Server

/-- The name of the service after a request: that of the new record if the request moved it. -/
def follow (st : Store) (S : GoString) (s : AccessStep) : GoString :=
  match s.request with
  | .renameService name (some req) =>
    if trimSpace name = S ∧ (renameService st s.now s.caller name (some req)).isOk then
      trimSpace req.newName
    else S
  | _ => S

def accessStep (p : Store × GoString) (s : AccessStep) : (Store × GoString) × List Event :=
  ((serveService p.1 s.now s.caller s.request, follow p.1 p.2 s), [])

/-- The record followed is closed, with this owner and these grants. -/
def Guarded (owner : GoString) (grants : List GoString) (p : Store × GoString) : Prop :=
  ∃ svc, p.1.services.get p.2 = some svc ∧ svc.Closed ∧ svc.ownerID = owner ∧ svc.grants = grants

theorem follow_of_not_writes {st : Store} {S : GoString} {s : AccessStep}
    (other : ¬s.request.Writes st s.caller S) : follow st S s = S := by
  obtain ⟨now, caller, request⟩ := s
  cases request with
  | putService name body => rfl
  | deleteService name => rfl
  | addGrant name body => rfl
  | removeGrant name userID => rfl
  | renameService name body =>
    cases body with
    | none => rfl
    | some req =>
      simp only [follow]
      by_cases moved : trimSpace name = S ∧ (renameService st now caller name (some req)).isOk
      · obtain ⟨here, success⟩ := moved
        rw [if_pos ⟨here, success⟩]
        cases run : renameService st now caller name (some req) with
        | error e =>
          rw [run] at success
          cases success
        | ok r =>
          obtain ⟨role, own, present, allowed, _, given, o, renamed, rfl⟩ := renameService_eq_ok.mp run
          obtain rfl := Option.some.inj given
          obtain ⟨_, _, ⟨same, _⟩ | ⟨differs, moves⟩⟩ := Store.renameService_eq_ok.mp renamed
          · rw [← same, here]
          · subst here
            exact absurd ⟨role, ⟨own, present, allowed⟩, req, rfl, rfl, Ne.symm differs,
              Store.moves_iff.mp ⟨o, moves⟩⟩ other
      · rw [if_neg moved]

/-- Storing a record keeps the fields that decide who may edit it, once they are clean. -/
theorem guarded_json {svc old : Service} (clean : old.json = old) (closed : svc.Closed)
    (owner : svc.ownerID = old.ownerID) (grants : svc.grants = old.grants) :
    svc.json.Closed ∧ svc.json.ownerID = old.ownerID ∧ svc.json.grants = old.grants := by
  refine ⟨closed.json, ?_, ?_⟩
  · show jsonString svc.ownerID = old.ownerID
    rw [owner]
    exact congrArg Service.ownerID clean
  · show jsonStrings svc.grants = old.grants
    rw [grants]
    exact congrArg Service.grants clean

/-- An update of the record itself by a stranger, to a visibility that is not open. -/
theorem guarded_putService {st : Store} {now : Time} {id : Identity} {S : GoString}
    {input : ServiceInput} {r : Reply Service} (plain : id.isAdmin = false) (user : id.system = false)
    (run : putService st now id S (some input) = .ok r) (trimmed : trimSpace S = S) {old : Service}
    (stored : st.services.get S = some old)
    (shut : input.visibility ≠ [] ∧ input.visibility ≠ visibilityPublic) :
    Guarded old.ownerID old.grants (r.store, S) := by
  obtain ⟨_, _, given, svc, wanted, o, put, rfl⟩ := putService_eq_ok.mp run
  obtain rfl := Option.some.inj given
  have named := requestedService_name wanted
  obtain ⟨_, rfl⟩ := requestedService_eq_ok.mp wanted
  simp only [stored] at named put
  have after := Store.get_putService put S
  rw [named, if_pos trimmed.symm] at after
  refine ⟨_, after, guarded_json (Bucket.clean stored) ?_ ?_ ?_⟩
  all_goals simp only [ServiceInput.updated, plain, user]
  · exact shut
  · rfl
  · rfl

theorem guarded_step {owner : GoString} {grants : List GoString} (p : Store × GoString)
    (s : AccessStep) (guarded : Guarded owner grants p) (ok : s.Tight p.1 p.2 ∧ s.Stranger owner) :
    Guarded owner grants (accessStep p s).1 := by
  obtain ⟨st, S⟩ := p
  obtain ⟨old, stored, closed, rfl, rfl⟩ := guarded
  obtain ⟨tight, plain, user, other, keeps⟩ := ok
  by_cases writes : s.request.Writes st s.caller S
  · obtain ⟨now, id, request⟩ := s
    cases request with
    | deleteService name => exact absurd rfl (keeps name)
    | putService name body =>
      obtain rfl : name = S := ServiceRequest.path_of_writes writes tight.1
      have ⟨role, provided, allowed, trimmed, storable⟩ := writes
      obtain ⟨input, rfl⟩ := Option.isSome_iff_exists.mp provided
      obtain ⟨svc, o, _, _, run⟩ :=
        putService_of_storable now input role allowed (trimmed.symm ▸ storable)
      have shut := tight.2 writes input rfl
      have kept := guarded_putService plain user run trimmed stored shut
      simp only [accessStep, serveService, run, settle, follow]
      exact kept
    | addGrant name body =>
      obtain rfl : name = S := ServiceRequest.path_of_writes writes tight
      obtain ⟨own, present, manages, _⟩ := writes
      obtain rfl : own = old := Option.some.inj (present.symm.trans stored)
      exact absurd ((canManageGrants_plain plain user).mp manages).2 (Ne.symm other)
    | removeGrant name userID =>
      obtain rfl : name = S := ServiceRequest.path_of_writes writes tight
      obtain ⟨own, present, manages, _⟩ := writes
      obtain rfl : own = old := Option.some.inj (present.symm.trans stored)
      exact absurd ((canManageGrants_plain plain user).mp manages).2 (Ne.symm other)
    | renameService name body =>
      obtain ⟨role, ⟨own, present, allowed⟩, req, rfl, rfl, differs, movable⟩ := writes
      obtain ⟨o, moves, run⟩ := renameService_of_canMove now role present allowed movable
      have after := moves.get_services (trimSpace req.newName)
      rw [if_neg differs, if_pos rfl] at after
      obtain ⟨_, old', source, _, _, _, rfl⟩ := moves
      obtain rfl : old' = old := Option.some.inj (source.symm.trans stored)
      simp only [accessStep, serveService, run, settle, follow, Except.isOk, Except.toBool, and_self,
        if_true]
      exact ⟨_, after, guarded_json (Bucket.clean stored) closed rfl rfl⟩
  · exact ⟨old, by rw [accessStep, follow_of_not_writes writes]; exact kept_of_not_writes stored writes,
      closed, rfl, rfl⟩

/-- Who may edit the service after such a run could edit it before. -/
theorem access_never_widens {st : Store} {S : GoString} {svc : Service} {steps : List AccessStep}
    (stored : st.services.get S = some svc) (hidden : svc.visibility = visibilityPrivate)
    (strangers : ∀ s ∈ steps, s.Stranger svc.ownerID)
    (tight : Meets accessStep (fun p s => s.Tight p.1 p.2) (st, S) steps) :
    ∃ after, (exec accessStep (st, S) steps).1.1.services.get (exec accessStep (st, S) steps).1.2 =
        some after ∧
      ∀ u, after.canEdit u false false → svc.canEdit u false false := by
  have closed := Service.closed_of_private hidden
  have start : Guarded svc.ownerID svc.grants (st, S) := ⟨svc, stored, closed, rfl, rfl⟩
  obtain ⟨after, found, still, owner, grants⟩ :=
    exec_invariant (Guarded svc.ownerID svc.grants) guarded_step start (tight.and strangers)
  refine ⟨after, found, fun u edits => ?_⟩
  rw [closed.canEdit_iff, ← owner, ← grants]
  exact still.canEdit_iff.mp edits

/-- A private service of user 1 that user 2 may edit too. -/
def shared : Service :=
  { name := "billing", visibility := visibilityPrivate, ownerID := "1", grants := ["2"], createdAt := 1,
    updatedAt := 1 }

def sharedStore : Store := (Store.empty.settle (Store.empty.putService 1 shared)).1

/-- User 2 updates the description. -/
def describe (visibility : GoString) : AccessStep where
  now := 2
  caller := { userID := "2", role := .write }
  request := .putService "billing" (some { description := "invoices", visibility })

theorem describe_stranger (visibility : GoString) : (describe visibility).Stranger "1" where
  plain := rfl
  user := rfl
  other := by
    show ofString "2" ≠ ofString "1"
    decide
  keeps := fun name same => by cases same

theorem access_never_widens_described :
    ∃ after, (exec accessStep (sharedStore, "billing") [describe "private"]).1.1.services.get
        (exec accessStep (sharedStore, "billing") [describe "private"]).1.2 = some after ∧
      ∀ u, after.canEdit u false false → shared.canEdit u false false := by
  refine access_never_widens (by decide) rfl ?_ ⟨⟨?_, ?_⟩, trivial⟩
  · intro s member
    obtain rfl := List.mem_singleton.mp member
    exact describe_stranger "private"
  · exact fun crosses => crosses.2 rfl
  · intro _ input given
    obtain rfl := Option.some.inj given
    decide

/-- The same update without a visibility opens the service to everybody. -/
theorem access_widened :
    ¬∀ (st : Store) (S : GoString) (svc : Service) (steps : List AccessStep),
      st.services.get S = some svc → svc.visibility = visibilityPrivate →
        (∀ s ∈ steps, s.Stranger svc.ownerID) →
          ∃ after, (exec accessStep (st, S) steps).1.1.services.get
              (exec accessStep (st, S) steps).1.2 = some after ∧
            ∀ u, after.canEdit u false false → svc.canEdit u false false := by
  intro closed
  obtain ⟨after, found, within⟩ := closed sharedStore "billing" shared [describe []] (by decide) rfl
    (fun s member => by
      obtain rfl := List.mem_singleton.mp member
      exact describe_stranger [])
  have opened : (exec accessStep (sharedStore, "billing") [describe []]).1.1.services.get "billing" =
      some { shared with description := "invoices", visibility := [], updatedAt := 2 } := by decide
  obtain rfl := Option.some.inj (found.symm.trans opened)
  exact absurd (within "3" (by decide)) (by decide)

end Server
end Discovery
