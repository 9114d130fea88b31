import Discovery.Server.Services

namespace Discovery
open Kv

def ServiceRequest.path : ServiceRequest → GoString
  | .putService name _ | .renameService name _ | .deleteService name | .addGrant name _
  | .removeGrant name _ => name

/-- The request passes every check of its handler and then writes the record stored under `S`. -/
def ServiceRequest.Writes (st : Store) (id : Identity) (S : GoString) : ServiceRequest → Prop
  | .putService name body => .write ≤ id.role ∧ body.isSome ∧
    (∀ own, st.services.get name = some own → canEditService own id) ∧
      trimSpace name = S ∧ Storable S
  | .renameService name body => .write ≤ id.role ∧
    (∃ own, st.services.get name = some own ∧ canEditService own id) ∧
      ∃ req, body = some req ∧ trimSpace name = S ∧ trimSpace req.newName ≠ S ∧
        st.CanMove S (trimSpace req.newName)
  | .deleteService name => .write ≤ id.role ∧
    (∃ own, st.services.get name = some own ∧ canEditService own id) ∧ name = S
  | .addGrant name body => ∃ own, st.services.get name = some own ∧
    Server.canManageGrants own id ∧
      (∃ req, body = some req ∧ req.userID ≠ [] ∧ req.userID ∉ own.grants) ∧
        trimSpace own.name = S ∧ Storable S
  | .removeGrant name userID => ∃ own, st.services.get name = some own ∧
    Server.canManageGrants own id ∧ userID ∈ own.grants ∧ trimSpace own.name = S ∧ Storable S

/-- It does so although the path spells another name, so that the check was made on another record
or on none. -/
def ServiceRequest.Crosses (st : Store) (id : Identity) (S : GoString) (req : ServiceRequest) : Prop :=
  req.Writes st id S ∧ req.path ≠ S

theorem ServiceRequest.path_of_writes {st : Store} {id : Identity} {S : GoString}
    {req : ServiceRequest} (writes : req.Writes st id S) (straight : ¬req.Crosses st id S) :
    req.path = S := by
  by_contra differs
  exact straight ⟨writes, differs⟩

namespace Server

/-- A put of a record of another name leaves a stored record alone. -/
theorem kept_putService {st : Store} {now : Time} {svc : Service} {o : Outcome Service}
    (run : st.putService now svc = .ok o) {S : GoString} {old : Service}
    (stored : st.services.get S = some old) (other : ¬(trimSpace svc.name = S ∧ Storable S)) :
    o.store.services.get S = some old := by
  have storable := Store.putService_ok_iff.mp ⟨o, run⟩
  have differs : S ≠ trimSpace svc.name := by
    intro same
    exact other ⟨same.symm, same ▸ storable⟩
  rw [Store.get_putService run, if_neg differs, stored]

theorem kept_of_not_writes {st : Store} {now : Time} {id : Identity} {req : ServiceRequest}
    {S : GoString} {old : Service} (stored : st.services.get S = some old)
    (other : ¬req.Writes st id S) : (serveService st now id req).services.get S = some old := by
  cases req with
  | putService name body =>
    refine settle_eq (·.services.get S = some old) stored fun r run => ?_
    obtain ⟨role, input, given, svc, wanted, o, put, rfl⟩ := putService_eq_ok.mp run
    refine kept_putService put stored fun both => other ?_
    rw [requestedService_name wanted] at both
    exact ⟨role, by simp [given], (requestedService_eq_ok.mp wanted).1, both⟩
  | renameService name body =>
    refine settle_eq (·.services.get S = some old) stored fun r run => ?_
    obtain ⟨role, own, present, allowed, req, given, o, renamed, rfl⟩ := renameService_eq_ok.mp run
    obtain ⟨_, _, ⟨_, svc, _, rfl⟩ | ⟨differs, moves⟩⟩ := Store.renameService_eq_ok.mp renamed
    · exact stored
    · have source : S ≠ trimSpace name := by
        rintro rfl
        exact other ⟨role, ⟨own, present, allowed⟩, req, given, rfl, fun same => differs same.symm,
          Store.moves_iff.mp ⟨o, moves⟩⟩
      have target : S ≠ trimSpace req.newName := by
        rintro rfl
        exact absurd (moves.1.symm.trans stored) (by simp)
      rw [moves.get_services, if_neg source, if_neg target, stored]
  | deleteService name =>
    refine settle_eq (·.services.get S = some old) stored fun r run => ?_
    obtain ⟨role, own, present, allowed, o, deleted, rfl⟩ := deleteService_eq_ok.mp run
    obtain ⟨_, rfl⟩ := Store.deleteService_eq_ok.mp deleted
    have differs : S ≠ name := by
      rintro rfl
      exact other ⟨role, ⟨own, present, allowed⟩, rfl⟩
    rw [Bucket.get_delete, if_neg differs, stored]
  | addGrant name body =>
    refine settle_eq (·.services.get S = some old) stored fun r run => ?_
    obtain ⟨own, present, manages, req, given, named, ⟨_, rfl⟩ | ⟨fresh, o, put, rfl⟩⟩ :=
      addGrant_eq_ok.mp run
    · exact stored
    · refine kept_putService put stored fun both => other ?_
      exact ⟨own, present, manages, ⟨req, given, named, fresh⟩, both⟩
  | removeGrant name userID =>
    refine settle_eq (·.services.get S = some old) stored fun r run => ?_
    obtain ⟨own, present, manages, ⟨_, rfl⟩ | ⟨granted, o, put, rfl⟩⟩ := removeGrant_eq_ok.mp run
    · exact stored
    · refine kept_putService put stored fun both => other ?_
      exact ⟨own, present, manages, granted, both⟩

/-- A put that a request gets as far as leaves a record of the present time. -/
theorem stamp_putService {st : Store} {now : Time} {svc : Service} {o : Outcome Service}
    (run : st.putService now svc = .ok o) {S : GoString} (here : trimSpace svc.name = S)
    {r : Service} (found : o.store.services.get S = some r) : r.updatedAt = now := by
  rw [Store.get_putService run, if_pos here.symm] at found
  obtain rfl := Option.some.inj found
  rfl

/-- What a request leaves under a name it writes is of the present time, if it leaves anything. -/
theorem stamp_of_writes {st : Store} {now : Time} {id : Identity} {req : ServiceRequest}
    {S : GoString} (writes : req.Writes st id S) {r : Service}
    (found : (serveService st now id req).services.get S = some r) : r.updatedAt = now := by
  cases req with
  | putService name body =>
    obtain ⟨role, provided, allowed, rfl, storable⟩ := writes
    obtain ⟨input, rfl⟩ := Option.isSome_iff_exists.mp provided
    obtain ⟨svc, o, rfl, put, run⟩ := putService_of_storable now input role allowed storable
    rw [serveService, run] at found
    exact stamp_putService put rfl found
  | renameService name body =>
    obtain ⟨role, ⟨own, present, allowed⟩, req, rfl, rfl, differs, movable⟩ := writes
    obtain ⟨o, moves, run⟩ := renameService_of_canMove now role present allowed movable
    rw [serveService, run, settle, moves.get_services, if_pos rfl] at found
    cases found
  | deleteService name =>
    obtain ⟨role, ⟨own, present, allowed⟩, here⟩ := writes
    rw [serveService, deleteService_of_get role present allowed, settle, Bucket.get_delete,
      if_pos here.symm] at found
    cases found
  | addGrant name body =>
    obtain ⟨own, present, manages, ⟨req, given, named, fresh⟩, here, storable⟩ := writes
    obtain ⟨o, put⟩ : ∃ o,
        st.putService now { own with grants := own.grants ++ [req.userID] } = .ok o :=
      Store.putService_ok_iff.mpr (here ▸ storable)
    have run := addGrant_eq_ok.mpr
      ⟨own, present, manages, req, given, named, Or.inr ⟨fresh, o, put, rfl⟩⟩
    rw [serveService, run] at found
    exact stamp_putService put here found
  | removeGrant name userID =>
    obtain ⟨own, present, manages, granted, here, storable⟩ := writes
    obtain ⟨o, put⟩ : ∃ o,
        st.putService now { own with grants := own.grants.filter (· ≠ userID) } = .ok o :=
      Store.putService_ok_iff.mpr (here ▸ storable)
    have run := removeGrant_eq_ok.mpr ⟨own, present, manages, Or.inr ⟨granted, o, put, rfl⟩⟩
    rw [serveService, run] at found
    exact stamp_putService put here found

/-- A request that writes a record under its own path was allowed to edit it. -/
theorem allowed_of_writes {st : Store} {id : Identity} {req : ServiceRequest} {S : GoString}
    (writes : req.Writes st id S) (here : req.path = S) {old : Service}
    (stored : st.services.get S = some old) : canEditService old id := by
  subst here
  cases req with
  | putService name body => exact writes.2.2.1 old stored
  | renameService name body =>
    obtain ⟨_, ⟨own, present, allowed⟩, _⟩ := writes
    obtain rfl : own = old := Option.some.inj (present.symm.trans stored)
    exact allowed
  | deleteService name =>
    obtain ⟨_, ⟨own, present, allowed⟩, _⟩ := writes
    obtain rfl : own = old := Option.some.inj (present.symm.trans stored)
    exact allowed
  | addGrant name body =>
    obtain ⟨own, present, manages, _⟩ := writes
    obtain rfl : own = old := Option.some.inj (present.symm.trans stored)
    exact canEditService_of_canManageGrants manages
  | removeGrant name userID =>
    obtain ⟨own, present, manages, _⟩ := writes
    obtain rfl : own = old := Option.some.inj (present.symm.trans stored)
    exact canEditService_of_canManageGrants manages

/-- A record that a request changes, replaces or removes was open to the caller. -/
def AclKept (st : Store) (now : Time) (id : Identity) (req : ServiceRequest) : Prop :=
  ∀ S old, st.services.get S = some old →
    (serveService st now id req).services.get S ≠ some old → canEditService old id

/-- The access rule holds of a request, whenever it comes, exactly if every record it writes under
another name than its path is open to the caller. -/
theorem aclKept_iff {st : Store} {id : Identity} {req : ServiceRequest} :
    (∀ now, AclKept st now id req) ↔
      ∀ S old, st.services.get S = some old → req.Crosses st id S → canEditService old id := by
  constructor
  · intro kept S old stored ⟨writes, _⟩
    refine kept (old.updatedAt + 1) S old stored fun same => ?_
    exact absurd (stamp_of_writes writes same) (Int.ne_of_lt (Int.lt_succ _))
  · intro closed now S old stored changed
    by_cases writes : req.Writes st id S
    · by_cases here : req.path = S
      · exact allowed_of_writes writes here stored
      · exact closed S old stored ⟨writes, here⟩
    · exact absurd (kept_of_not_writes stored writes) changed

/-- A path with a leading blank passes the check and replaces the private record. -/
theorem acl_bypassed :
    ¬∀ (st : Store) (now : Time) (id : Identity) (req : ServiceRequest), id.isAdmin = false →
      id.system = false → AclKept st now id req := by
  intro kept
  have closed := kept billing 2 { userID := "2", role := .write } (.putService " billing" (some {}))
    rfl rfl "billing"
    { name := "billing", visibility := visibilityPrivate, ownerID := "1", createdAt := 1, updatedAt := 1 }
    (by decide) (by decide)
  exact absurd closed (by decide)

end Server
end Discovery
