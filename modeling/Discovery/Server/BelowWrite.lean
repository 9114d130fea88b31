import Discovery.Server.Routes

namespace Discovery
open Kv

/-- Neither write access nor the admin flag. -/
structure Identity.BelowWrite (id : Identity) : Prop where
  role : ¬.write ≤ id.role
  plain : id.isAdmin = false

def Event.IsAffinity : Event → Prop
  | .affinityUpserted _ | .affinityDeleted _ => True
  | _ => False

/-- The request adds or removes a grant, and gets as far as writing the service. -/
def V1Request.ChangesGrants (st : Store) (id : Identity) : V1Request → Prop
  | .addGrant name body => ∃ S, (ServiceRequest.addGrant name body).Writes st id S
  | .removeGrant name userID => ∃ S, (ServiceRequest.removeGrant name userID).Writes st id S
  | _ => False

/-- Services, instances, config and client tokens are as before, and no event is about them. -/
structure CatalogKept (st : Store) (after : Store × List Event) : Prop where
  services : after.1.services = st.services
  instances : after.1.instances = st.instances
  configActive : after.1.configActive = st.configActive
  configRevs : after.1.configRevs = st.configRevs
  configDrafts : after.1.configDrafts = st.configDrafts
  clientTokens : after.1.clientTokens = st.clientTokens
  silent : ∀ ev ∈ after.2, ev.IsAffinity

theorem CatalogKept.refl (st : Store) : CatalogKept st (st, []) :=
  ⟨rfl, rfl, rfl, rfl, rfl, rfl, fun _ member => absurd member List.not_mem_nil⟩

/-- A change of the sessions alone may come before a request that keeps the catalog. -/
theorem CatalogKept.trans {st mid : Store} {after : Store × List Event} (first : CatalogKept st (mid, []))
    (second : CatalogKept mid after) : CatalogKept st after where
  services := second.services.trans first.services
  instances := second.instances.trans first.instances
  configActive := second.configActive.trans first.configActive
  configRevs := second.configRevs.trans first.configRevs
  configDrafts := second.configDrafts.trans first.configDrafts
  clientTokens := second.clientTokens.trans first.clientTokens
  silent := second.silent

namespace Server

/-- Never answers with a success. -/
def Refused {α : Type} (x : Except HttpError α) : Prop := ∀ a, x ≠ .ok a

theorem Refused.bind {α β : Type} {x : Except HttpError α} {f : α → Except HttpError β} (refused : Refused x) :
    Refused (x >>= f) := by
  intro b run
  obtain ⟨a, first, _⟩ := bind_eq_ok.mp run
  exact refused a first

/-- A handler that asks for more than the caller has is refused, whatever it would have done next. -/
theorem refused_bind {α β : Type} {x : Except HttpError α} {f : α → Except HttpError β}
    (refused : ∀ a, Refused (f a)) : Refused (x >>= f) := by
  intro b run
  obtain ⟨a, _, rest⟩ := bind_eq_ok.mp run
  exact refused a b rest

/-- A refused request leaves the store as it is and emits nothing. -/
theorem Refused.kept {α : Type} {x : Except HttpError (Reply α)} (refused : Refused x) (st : Store) :
    CatalogKept st (written st x) := by
  cases x with
  | error e => exact CatalogKept.refl st
  | ok r => exact absurd rfl (refused r)

/-- Below the write role the first check of a writing handler fails. -/
theorem refused_requireWrite {id : Identity} (low : id.BelowWrite) : Refused (requireWrite id) :=
  fun _ run => low.role (requireWrite_eq_ok.mp run)

/-- So does that of the handlers of instances, for every service. -/
theorem refused_allowInstanceWrite {id : Identity} (low : id.BelowWrite) (st : Store) (name : GoString) :
    Refused (allowInstanceWrite st id name) :=
  fun _ run => low.role (allowInstanceWrite_eq_ok.mp run).1

/-- And that of the config, for every scope. -/
theorem refused_prepareScopeWrite {id : Identity} (low : id.BelowWrite) (mm : Masterminds) (st : Store)
    (scope : ConfigScope) : Refused (prepareScopeWrite mm st id scope) := by
  intro v run
  have allowed := allowConfigWrite_eq_ok.mp (prepareScopeWrite_eq_ok.mp run).2.2
  split at allowed
  · rcases allowed with admin | ⟨_, role⟩
    · rw [low.plain] at admin
      cases admin
    · exact low.role (Role.le_trans (by decide) role)
  · exact low.role allowed.1

/-- The writes of config check the scope of their body. -/
theorem refused_scopeWrite {α β : Type} {id : Identity} (low : id.BelowWrite) (mm : Masterminds) (st : Store)
    (body : Option α) (scope : α → ConfigScope) (f : α → ConfigScope → Except HttpError β) :
    Refused (decode body >>= fun input => prepareScopeWrite mm st id (scope input) >>= f input) :=
  refused_bind fun input => (refused_prepareScopeWrite low mm st (scope input)).bind

/-- A binding is written with its own event, if any. -/
theorem kept_putAffinity (st : Store) (now : Time) (a : Affinity) (emit : Bool) :
    CatalogKept st (st.settle (st.putAffinity now a emit)) := by
  cases run : st.putAffinity now a emit with
  | error e => exact CatalogKept.refl st
  | ok r =>
    obtain ⟨affinity, _, done⟩ := bind_eq_ok.mp run
    obtain rfl := Except.ok.inj done
    refine ⟨rfl, rfl, rfl, rfl, rfl, rfl, fun ev member => ?_⟩
    have events : ev ∈ if emit then [Event.affinityUpserted _] else [] := member
    split at events
    · obtain rfl := List.mem_singleton.mp events
      trivial
    · cases events

theorem kept_getAffinity (st : Store) (now : Time) (service token : GoString) :
    CatalogKept st ((st.getAffinity now service token).2, []) := by
  unfold Store.getAffinity
  split
  next => exact CatalogKept.refl st
  next =>
    split
    · exact ⟨rfl, rfl, rfl, rfl, rfl, rfl, fun _ member => absurd member List.not_mem_nil⟩
    · exact CatalogKept.refl st

theorem kept_pickAndBind (st : Store) (configured : Int) (clocks : Clocks) (n : Int) (service token : GoString)
    (candidates : List Instance) (rebound : Bool) :
    CatalogKept st ((pickAndBind st configured clocks n service token candidates rebound).store,
      (pickAndBind st configured clocks n service token candidates rebound).events) := by
  unfold pickAndBind
  split
  next => exact CatalogKept.refl st
  next => exact kept_putAffinity st _ _ _

/-- A pick writes a binding at most, which is not part of the catalog. -/
theorem kept_stickyPick (st : Store) (configured : Int) (clocks : Clocks) (n : Int) (service token : GoString)
    (candidates : List Instance) :
    CatalogKept st ((stickyPick st configured clocks n service token candidates).store,
      (stickyPick st configured clocks n service token candidates).events) := by
  have first := kept_getAffinity st clocks.check service token
  unfold stickyPick
  cases read : st.getAffinity clocks.check service token with
  | mk answer mid =>
    rw [read] at first
    cases answer with
    | error e => exact first.trans (kept_pickAndBind mid configured clocks n service token candidates false)
    | ok aff =>
      simp only
      split
      next => exact first.trans (kept_pickAndBind mid configured clocks n service token candidates true)
      next =>
        split
        · exact first.trans (kept_putAffinity mid _ _ _)
        · exact first

theorem kept_discoverPick (mm : Masterminds) (st : Store) (configured : Int) (clocks : Clocks) (n : Int)
    (id : Identity) (name version token : GoString) :
    CatalogKept st (written st (discoverPick mm st configured clocks n id name version token)) := by
  cases run : discoverPick mm st configured clocks n id name version token with
  | error e => exact CatalogKept.refl st
  | ok r =>
    obtain ⟨_, _, run⟩ := bind_eq_ok.mp run
    obtain ⟨constraint, _, run⟩ := bind_eq_ok.mp run
    simp only at run
    split at run
    · cases run
    · split at run
      · obtain rfl := Except.ok.inj run
        exact kept_stickyPick st configured clocks n name _ _
      · obtain rfl := Except.ok.inj run
        exact CatalogKept.refl st

/-- A login writes a session at most. -/
theorem kept_login (st : Store) (now : Time) (allowed : Bool)
    (verify : Option (GoString → GoString → Option VerifiedUser)) (token : Except Err GoString)
    (body : Option LoginRequest) : CatalogKept st (written st (login st now allowed verify token body)) := by
  cases run : login st now allowed verify token body with
  | error e => exact CatalogKept.refl st
  | ok r =>
    unfold login at run
    split at run
    · cases run
    · obtain ⟨req, _, run⟩ := bind_eq_ok.mp run
      simp only at run
      generalize (if trimSpace req.identifier = [] then trimSpace req.username else trimSpace req.identifier) =
        identifier at run
      split at run
      · cases run
      · split at run
        next => cases run
        next verifyPassword =>
          split at run
          next => cases run
          next user =>
            obtain ⟨st', issued, run⟩ := bind_eq_ok.mp run
            obtain rfl := Except.ok.inj run
            obtain ⟨secret, _, put⟩ := bind_eq_ok.mp (mapError_eq_ok.mp issued)
            obtain ⟨sessions, _, done⟩ := bind_eq_ok.mp put
            obtain rfl := Except.ok.inj done
            exact ⟨rfl, rfl, rfl, rfl, rfl, rfl, fun _ member => absurd member List.not_mem_nil⟩

theorem kept_logout (st : Store) (cookie : Option GoString) :
    CatalogKept st (written st (.ok (logout st cookie))) := by
  cases cookie with
  | none => exact CatalogKept.refl st
  | some value =>
    by_cases given : value ≠ []
    · simp only [logout, if_pos given, written]
      exact ⟨rfl, rfl, rfl, rfl, rfl, rfl, fun _ member => absurd member List.not_mem_nil⟩
    · simp only [logout, if_neg given, written]
      exact CatalogKept.refl st

/-- Resolving a cookie deletes an expired session at most. -/
theorem kept_getSession (st : Store) (now : Time) (token : GoString) :
    CatalogKept st ((st.getSession now token).2, []) := by
  unfold Store.getSession
  split
  next => exact CatalogKept.refl st
  next =>
    split
    · exact ⟨rfl, rfl, rfl, rfl, rfl, rfl, fun _ member => absurd member List.not_mem_nil⟩
    · exact CatalogKept.refl st

/-- Resolving the caller, before any handler runs, touches only sessions. -/
theorem kept_resolve (r : Resolver) (st : Store) (now : Time) (c : Credentials) :
    CatalogKept st ((r.resolve st now c).2, []) := by
  unfold Resolver.resolve
  cases c.cookie with
  | none =>
    simp only
    split
    · exact CatalogKept.refl st
    · split
      · exact CatalogKept.refl st
      · split
        · exact CatalogKept.refl st
        · exact CatalogKept.refl st
  | some value =>
    have session : CatalogKept st ((if value ≠ [] then st.getSession now value else (.error .notFound, st)).2, []) := by
      split
      · exact kept_getSession st now value
      · exact CatalogKept.refl st
    simp only
    generalize (if value ≠ [] then st.getSession now value else (.error .notFound, st)) = answer at session ⊢
    split
    next => exact session
    next =>
      split
      · exact session
      · split
        · exact session
        · split
          · exact session
          · exact session

/-- A successful registration of a service is always a change, since it is stamped with the present time and
emitted. -/
theorem not_kept_putService {st : Store} {now : Time} {svc : Service} {o : Outcome Service}
    (put : st.putService now svc = .ok o) : ¬CatalogKept st (o.store, o.events) := by
  obtain ⟨v, _, fits, rfl⟩ := Store.putService_eq_ok.mp put
  intro kept
  exact kept.silent _ (List.mem_singleton_self _)

/-- The handlers of grants ask for no role, but for a caller who may manage the service's grants: they change the
catalog exactly where they write a service. -/
theorem kept_addGrant_iff {st : Store} {now : Time} {id : Identity} {name : GoString}
    {body : Option GrantRequest} : CatalogKept st (written st (addGrant st now id name body)) ↔
      ¬∃ S, (ServiceRequest.addGrant name body).Writes st id S := by
  constructor
  · rintro kept ⟨S, own, stored, manages, ⟨req, given, named, new⟩, home, storable⟩
    obtain ⟨o, put⟩ : ∃ o, st.putService now { own with grants := own.grants ++ [req.userID] } = .ok o :=
      Store.putService_ok_iff.mpr (home ▸ storable)
    have run := addGrant_eq_ok.mpr ⟨own, stored, manages, req, given, named, Or.inr ⟨new, o, put, rfl⟩⟩
    rw [run] at kept
    exact not_kept_putService put kept
  · intro none
    cases run : addGrant st now id name body with
    | error e => exact CatalogKept.refl st
    | ok r =>
      obtain ⟨own, stored, manages, req, given, named, ⟨_, rfl⟩ | ⟨new, o, put, rfl⟩⟩ := addGrant_eq_ok.mp run
      · exact CatalogKept.refl st
      · have storable := Store.putService_ok_iff.mp ⟨o, put⟩
        exact absurd ⟨_, own, stored, manages, ⟨req, given, named, new⟩, rfl, storable⟩ none

theorem kept_removeGrant_iff {st : Store} {now : Time} {id : Identity} {name userID : GoString} :
    CatalogKept st (written st (removeGrant st now id name userID)) ↔
      ¬∃ S, (ServiceRequest.removeGrant name userID).Writes st id S := by
  constructor
  · rintro kept ⟨S, own, stored, manages, granted, home, storable⟩
    obtain ⟨o, put⟩ : ∃ o, st.putService now { own with grants := own.grants.filter (· ≠ userID) } = .ok o :=
      Store.putService_ok_iff.mpr (home ▸ storable)
    have run := removeGrant_eq_ok.mpr ⟨own, stored, manages, Or.inr ⟨granted, o, put, rfl⟩⟩
    rw [run] at kept
    exact not_kept_putService put kept
  · intro none
    cases run : removeGrant st now id name userID with
    | error e => exact CatalogKept.refl st
    | ok r =>
      obtain ⟨own, stored, manages, ⟨_, rfl⟩ | ⟨granted, o, put, rfl⟩⟩ := removeGrant_eq_ok.mp run
      · exact CatalogKept.refl st
      · have storable := Store.putService_ok_iff.mp ⟨o, put⟩
        exact absurd ⟨_, own, stored, manages, granted, rfl, storable⟩ none

/-- A caller without write access changes nothing but bindings and sessions, whatever it requests, exactly
if the request is not one that changes the grants of a service it owns. -/
theorem kept_below_write_iff {d : Deployment} {st : Store} {m : Moment} {id : Identity} {req : V1Request}
    (low : id.BelowWrite) : CatalogKept st (serveV1 d st m id req) ↔ ¬req.ChangesGrants st id := by
  have holds (kept : CatalogKept st (serveV1 d st m id req)) (other : ¬req.ChangesGrants st id) :
      CatalogKept st (serveV1 d st m id req) ↔ ¬req.ChangesGrants st id := iff_of_true kept other
  have write := refused_requireWrite low
  have instanceWrite := refused_allowInstanceWrite low st
  cases req with
  | addGrant name body => exact kept_addGrant_iff
  | removeGrant name userID => exact kept_removeGrant_iff
  | login body => exact holds (kept_login st _ _ _ _ _) False.elim
  | logout cookie => exact holds (kept_logout st cookie) False.elim
  | discoverPick name version token => exact holds (kept_discoverPick _ st _ _ _ id _ _ _) False.elim
  | putService name body => exact holds (write.bind.kept st) False.elim
  | deleteService name => exact holds (write.bind.kept st) False.elim
  | renameService name body => exact holds (write.bind.kept st) False.elim
  | createClientToken body => exact holds (write.bind.kept st) False.elim
  | revokeClientToken tokenID => exact holds (write.bind.kept st) False.elim
  | registerInstance name body => exact holds ((instanceWrite name).bind.kept st) False.elim
  | upsertInstance name instID body => exact holds ((instanceWrite name).bind.kept st) False.elim
  | deleteInstance name instID => exact holds ((instanceWrite name).bind.kept st) False.elim
  | heartbeat name instID body => exact holds ((instanceWrite name).bind.kept st) False.elim
  | checkInstance name instID probe => exact holds ((instanceWrite name).bind.kept st) False.elim
  | blockInstance name instID body => exact holds ((instanceWrite name).bind.kept st) False.elim
  | configApply body =>
    have refused : Refused (configApply d.mm d.sha256 st m.now id body) := refused_scopeWrite low d.mm st body ConfigApplyInput.scope _
    exact holds (refused.kept st) False.elim
  | configSaveDraft body =>
    have refused : Refused (configSaveDraft d.mm st m.now id body) := refused_scopeWrite low d.mm st body ConfigDraftInput.scope _
    exact holds (refused.kept st) False.elim
  | configDeleteDraft body =>
    have refused : Refused (configDeleteDraft d.mm st id body) := refused_scopeWrite low d.mm st body ConfigScopeOnlyInput.scope _
    exact holds (refused.kept st) False.elim
  | configRollback body =>
    have refused : Refused (configRollback d.mm d.sha256 st m.now id body) := refused_scopeWrite low d.mm st body ConfigRollbackInput.scope _
    exact holds (refused.kept st) False.elim
  | configDeleteScope body =>
    have refused : Refused (configDeleteScope d.mm st id body) := refused_scopeWrite low d.mm st body ConfigScopeOnlyInput.scope _
    exact holds (refused.kept st) False.elim
  -- the handlers that only answer
  | _ => exact holds (CatalogKept.refl st) False.elim

/-- Reads versions and constraints as the library does where there are none to read. -/
def bareServer : Deployment where
  mm :=
    { Version := Empty
      Constraints := Empty
      newVersion := fun _ => none
      newConstraint := fun _ => none
      check := fun c _ => c.elim
      compare := fun v _ => v.elim }
  sha256 := id
  affinityTTL := 0
  authenticator := {}
  verifyPassword := none
  findUser := none
  cluster := none

def moment : Moment := { now := 2, clocks := ⟨2, 2, 2⟩ }

/-- A reader that does not own the service grants itself nothing. -/
theorem kept_below_write_stranger : CatalogKept billing (serveV1 bareServer billing moment
    { userID := "2", role := .read } (.addGrant "billing" (some { userID := "2" }))) := by
  refine (kept_below_write_iff ⟨by decide, rfl⟩).mpr ?_
  rintro ⟨S, own, stored, manages, _⟩
  have present : billing.services.get "billing" = some
      { name := "billing", visibility := visibilityPrivate, ownerID := "1", createdAt := 1, updatedAt := 1 } := by
    decide
  obtain rfl := Option.some.inj (present.symm.trans stored)
  exact absurd manages (by decide)

/-- The owner of a service, with read access only, grants another user the right to edit it. -/
theorem granted_by_reader :
    ¬∀ (d : Deployment) (st : Store) (m : Moment) (id : Identity) (req : V1Request), id.BelowWrite →
      CatalogKept st (serveV1 d st m id req) := by
  intro kept
  have silent := (kept bareServer billing moment { userID := "1", role := .read }
    (.addGrant "billing" (some { userID := "2" })) ⟨by decide, rfl⟩).silent
  have emitted : Event.serviceUpserted
      { name := "billing", visibility := visibilityPrivate, ownerID := "1", grants := ["2"], createdAt := 1
        updatedAt := 2 } ∈ (serveV1 bareServer billing moment { userID := "1", role := .read }
          (.addGrant "billing" (some { userID := "2" }))).2 := by
    decide
  exact silent _ emitted

end Server
end Discovery
