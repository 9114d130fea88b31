import Discovery.Server.BelowWrite
import Discovery.Server.ConfigWrites
import Discovery.Server.InstanceWrites
import Discovery.Store.Audit
import Discovery.Store.ConfigReplay

namespace Discovery
open Kv Machine

/-- A value among the details of an entry. -/
inductive AuditDetail
  | text (s : GoString)
  | number (n : Int)
  | texts (l : List GoString)
  deriving DecidableEq

abbrev AuditDetails := List (GoString × AuditDetail)

/-- What a handler passes to `AppendAudit`, which draws the id and the time. -/
abbrev AuditNote := AuditEntry AuditDetails

def Identity.actorID (id : Identity) : GoString :=
  if id.userID ≠ [] then id.userID else if id.system then "system" else "anonymous"

/-- A request, by whom and from where. -/
structure Call where
  moment : Moment
  caller : Identity
  ip : GoString := []
  request : V1Request

namespace Server

def audit (id : Identity) (action target targetType : GoString) (details : AuditDetails) : AuditNote where
  id := []
  timestamp := 0
  actorID := id.actorID
  actorName := id.actorName
  action := action
  target := target
  targetType := targetType
  details := details

/-- The entries of a handler that comes to its end. -/
def noted {α : Type} (r : Except HttpError (Reply α)) (notes : α → List AuditNote) : List AuditNote :=
  match r with
  | .ok r => notes r.value
  | .error _ => []

/-- The entries of a handler that changes config, about the scope it prepared. -/
def scopeNoted {α : Type} (prepared : Except HttpError ConfigScope) (r : Except HttpError (Reply α))
    (note : GoString → α → AuditNote) : List AuditNote :=
  match prepared with
  | .ok scope => noted r fun value => [note scope.ID value]
  | .error _ => []

def loginNotes (d : Deployment) (st : Store) (m : Moment) (ip : GoString) (body : Option LoginRequest) :
    List AuditNote :=
  match body, d.verifyPassword with
  | some req, some verifyPassword =>
    let identifier := if trimSpace req.identifier = [] then trimSpace req.username else trimSpace req.identifier
    if !m.allowed || identifier = [] || req.password = [] then []
    else match verifyPassword identifier req.password with
      | none => [{
          id := [], timestamp := 0, actorID := "anonymous", actorName := "anonymous", action := "user.login.failed"
          target := identifier, targetType := "user", details := [("ip", .text ip)] }]
      | some user => noted (login st m.now m.allowed d.verifyPassword m.sessionToken body) fun _ => [{
          id := [], timestamp := 0, actorID := user.snapshot.userID, actorName := user.snapshot.displayName
          action := "user.login", target := user.snapshot.userID, targetType := "user"
          details := [("email", .text user.snapshot.email), ("username", .text user.snapshot.username)] }]
  | _, _ => []

def instanceUpserted (id : Identity) (name : GoString) (inst : Instance) : AuditNote :=
  audit id "instance.upserted" name "instance" [("id", .text inst.id), ("address", .text inst.address)]

/-- What the handlers write to the audit log. The others write nothing. -/
def notes (d : Deployment) (st : Store) (c : Call) : List AuditNote :=
  let m := c.moment
  let id := c.caller
  match c.request with
  | .login body => loginNotes d st m c.ip body
  | .logout _ => if id.userID ≠ [] then [audit id "user.logout" id.userID "user" []] else []
  | .putService name body => noted (putService st m.now id name body) fun svc =>
    [audit id (if (st.services.get name).isSome then "service.updated" else "service.created") name "service"
      [("visibility", .text svc.visibility), ("ownerId", .text svc.ownerID)]]
  | .renameService oldName body => noted (renameService st m.now id oldName body) fun renamed =>
    [audit id "service.updated" renamed.name "service" [("renamedFrom", .text oldName)]]
  | .deleteService name => noted (deleteService st id name) fun _ => [audit id "service.deleted" name "service" []]
  | .registerInstance name body => noted (registerInstance st m.now id name body m.uuid) fun inst =>
    [instanceUpserted id name inst]
  | .upsertInstance name instID body => noted (upsertInstance st m.now id name instID body) fun inst =>
    [instanceUpserted id name inst]
  | .deleteInstance name instID => noted (deleteInstance st id name instID) fun _ =>
    [audit id "instance.deleted" name "instance" [("id", .text instID)]]
  | .blockInstance name instID body => noted (blockInstance st m.now id name instID body) fun _ =>
    [audit id (if body.any (·.blocked) then "instance.blocked" else "instance.unblocked") name "instance"
      [("id", .text instID)]]
  | .addGrant name body => noted (addGrant st m.now id name body) fun _ =>
    match st.services.get name, body with
    | some svc, some req =>
      if req.userID ∈ svc.grants then []
      else [audit id "service.grant.added" name "service" [("userId", .text req.userID)]]
    | _, _ => []
  | .removeGrant name userID => noted (removeGrant st m.now id name userID) fun _ =>
    match st.services.get name with
    | some svc =>
      if (svc.grants.filter (· ≠ userID)).length = svc.grants.length then []
      else [audit id "service.grant.removed" name "service" [("userId", .text userID)]]
    | none => []
  | .clusterJoin body =>
    match clusterJoin d.cluster id body with
    | .ok n =>
      let clean := ((body.elim [] (·.seeds)).map trimSpace).filter (· ≠ [])
      [audit id "service.updated" "cluster" "cluster"
        [("action", .text "join"), ("seeds", .texts clean), ("contacted", .number n)]]
    | .error _ => []
  | .configApply body =>
    scopeNoted (do prepareScopeWrite d.mm st id (← decode body).scope)
      (configApply d.mm d.sha256 st m.now id body) fun scope rev =>
        audit id "config.applied" scope "config" [("revision", .number rev.revision), ("vars", .number rev.vars.size)]
  | .configSaveDraft body =>
    scopeNoted (do prepareScopeWrite d.mm st id (← decode body).scope)
      (configSaveDraft d.mm st m.now id body) fun scope _ => audit id "config.draft.saved" scope "config" []
  | .configDeleteDraft body =>
    scopeNoted (do prepareScopeWrite d.mm st id (← decode body).scope)
      (configDeleteDraft d.mm st id body) fun scope _ => audit id "config.draft.discarded" scope "config" []
  | .configRollback body =>
    scopeNoted (do prepareScopeWrite d.mm st id (← decode body).scope)
      (configRollback d.mm d.sha256 st m.now id body) fun scope rev =>
        audit id "config.rolledback" scope "config"
          [("from", .number (body.elim 0 (·.revision))), ("newRevision", .number rev.revision)]
  | .configDeleteScope body =>
    scopeNoted (do prepareScopeWrite d.mm st id (← decode body).scope)
      (configDeleteScope d.mm st id body) fun scope _ => audit id "config.deleted" scope "config" []
  | .createClientToken body => noted (createClientToken st m.now id body m.random m.uuid) fun tok =>
    [audit id "token.created" tok.id "token" [("name", .text tok.name), ("role", .text tok.role)]]
  | .revokeClientToken tokenID => noted (revokeClientToken st id tokenID) fun _ =>
    match st.deleteClientTokenByID tokenID with
    | .ok r => [audit id "token.revoked" r.value.id "token" [("name", .text r.value.name)]]
    | .error _ => []
  | _ => []

/-- Serves a call: what it leaves, and what it writes to the audit log. -/
def serveCall (d : Deployment) (st : Store) (c : Call) : Store × List AuditNote :=
  ((serveV1 d st c.moment c.caller c.request).1, notes d st c)

end Server

/-- What a call may change: a service, an instance but for its liveness, the active revision and the draft of a
scope, its history, the tokens of an id. -/
inductive Place
  | service (name : Key)
  | inst (key : Key)
  | config (scope : GoString)
  | history (scope : GoString)
  | token (id : GoString)

/-- A registration without what heartbeats and probes write to it. -/
def Instance.registration (i : Instance) : Instance :=
  { i with status := [], lastHeartbeat := 0, lastCheck := none, updatedAt := 0 }

/-- The two stores have the same in a place. -/
def Place.Same (st st' : Store) : Place → Prop
  | .service name => st'.services.get name = st.services.get name
  | .inst key => (st'.instances.get key).map Instance.registration = (st.instances.get key).map Instance.registration
  | .config scope => st'.activeOf scope = st.activeOf scope ∧ st'.draftOf scope = st.draftOf scope
  | .history scope => st'.historyOf scope = st.historyOf scope
  | .token id => ∀ key t, t.id = id → (st'.clientTokens.get key = some t ↔ st.clientTokens.get key = some t)

def renamedFrom : GoString × AuditDetail → Option GoString
  | (key, .text s) => if key = "renamedFrom" then some s else none
  | _ => none

/-- The services an entry names: the one that is deleted or gets an instance as the path has it, and the one that
is written or renamed, with its former name, without the spaces around. -/
def AuditNote.services (e : AuditNote) : List GoString :=
  if e.targetType = "service" then
    if e.action = "service.deleted" then [e.target]
    else (e.target :: e.details.filterMap renamedFrom).map trimSpace
  else if e.targetType = "instance" ∧ e.action = "instance.upserted" then [e.target]
  else []

/-- The entry is about this very place. An instance is named by its service and its id. -/
def AuditNote.Names (e : AuditNote) : Place → Prop
  | .service name => name ∈ e.services
  | .inst key => e.targetType = "instance" ∧
      ∃ id, (("id" : GoString), AuditDetail.text id) ∈ e.details ∧ instanceKey e.target id = key
  | .config scope | .history scope => e.targetType = "config" ∧ e.target = scope
  | .token id => e.targetType = "token" ∧ jsonString e.target = id

/-- The entry is about a place that takes this one along: a service that was deleted or renamed its instances, a
scope that was deleted the histories of those below it. -/
def AuditNote.TakesAlong (e : AuditNote) : Place → Prop
  | .inst key => e.targetType = "service" ∧ (e.action = "service.deleted" ∨ e.details.filterMap renamedFrom ≠ []) ∧
      ∃ name ∈ e.services, servicePrefix name <+: key
  | .history scope => e.targetType = "config" ∧ e.action = "config.deleted" ∧ e.target ++ [slash] <+: scope
  | _ => False

def AuditNote.Concerns (e : AuditNote) (p : Place) : Prop := e.Names p ∨ e.TakesAlong p

/-- The entry is in the name of the identity. -/
def AuditNote.By (e : AuditNote) (id : Identity) : Prop := e.actorID = id.actorID ∧ e.actorName = id.actorName

theorem Place.Same.refl (p : Place) (st : Store) : p.Same st st := by
  cases p with
  | service name => exact rfl
  | inst key => exact rfl
  | config scope => exact ⟨rfl, rfl⟩
  | history scope => exact rfl
  | token id => exact fun _ _ _ => Iff.rfl

theorem Place.Same.trans {p : Place} {st mid st' : Store} (first : p.Same st mid) (second : p.Same mid st') :
    p.Same st st' := by
  cases p with
  | service name => exact Eq.trans second first
  | inst key => exact Eq.trans second first
  | config scope => exact ⟨second.1.trans first.1, second.2.trans first.2⟩
  | history scope => exact Eq.trans second first
  | token id => exact fun key t mine => (second key t mine).trans (first key t mine)

namespace Store

/-- Each service carries the name it is stored under. -/
def EachNamed (st : Store) : Prop := ∀ name s, st.services.get name = some s → s.name = name

theorem EachNamed.empty : EachNamed empty := by
  intro name s present
  simp [Store.empty] at present

/-- Each service is an old one or carries its name. -/
theorem EachNamed.extend {st st' : Store} (named : st.EachNamed)
    (services : ∀ name s, st'.services.get name = some s → st.services.get name = some s ∨ s.name = name) :
    st'.EachNamed := by
  intro name s present
  exact (services name s present).elim (named name s) id

/-- A record that is stored under its own name, in valid UTF-8, keeps every service under its own name. -/
theorem EachNamed.insert {st : Store} (named : st.EachNamed) {name : GoString} {s : Service} (fits : KeyFits name)
    (same : s.name = name) (valid : ValidUTF8 name) :
    EachNamed { st with services := st.services.insert name s fits } := by
  refine named.extend fun other t present => ?_
  rw [Bucket.get_insert] at present
  split at present
  next here =>
    obtain rfl := Option.some.inj present
    right
    rw [here]
    exact (congrArg jsonString same).trans valid
  next => exact Or.inl present

/-- The name of a stored service is valid UTF-8. -/
theorem EachNamed.valid {st : Store} (named : st.EachNamed) {name : GoString} {s : Service}
    (present : st.services.get name = some s) : ValidUTF8 name := by
  have clean : s.json = s := Bucket.clean present
  have same := named name s present
  exact same ▸ congrArg Service.name clean

/-- The log accounts for what differs between the two stores. -/
structure Accounted (st st' : Store) (log : List AuditNote) : Prop where
  unchanged : ∀ p : Place, (∀ e ∈ log, ¬e.Concerns p) → p.Same st st'
  named : st'.EachNamed

variable {st st' : Store} {log : List AuditNote}

theorem Accounted.refl (named : st.EachNamed) : Accounted st st log := ⟨fun p _ => .refl p st, named⟩

/-- Two steps that one log accounts for are accounted for together: what the second one leaves alone the first one
has noted. -/
theorem Accounted.trans {mid : Store} (first : Accounted st mid log) (second : Accounted mid st' log) :
    Accounted st st' log :=
  ⟨fun p quiet => (first.unchanged p quiet).trans (second.unchanged p quiet), second.named⟩

theorem accounted_of_kept {after : Store × List Event} (named : st.EachNamed) (kept : CatalogKept st after) :
    Accounted st after.1 log := by
  constructor
  · intro p _
    cases p with
    | service name => exact congrArg (Bucket.get · name) kept.services
    | inst key => exact congrArg (fun b => (Bucket.get b key).map Instance.registration) kept.instances
    | config scope =>
      exact ⟨congrArg (Bucket.get · _) kept.configActive, congrArg (Bucket.get · _) kept.configDrafts⟩
    | history scope => exact funext fun _ => congrArg (Bucket.get · _) kept.configRevs
    | token id =>
      intro key t _
      rw [kept.clientTokens]
  · rw [EachNamed, kept.services]
    exact named

/-- A step that changes services and instances only. -/
theorem accounted_catalog {services : Bucket Service} {instances : Bucket Instance}
    (named : EachNamed { st with services, instances })
    (others : ∀ name, (∀ e ∈ log, name ∉ e.services) → services.get name = st.services.get name)
    (away : ∀ key, (∀ e ∈ log, ¬e.Concerns (.inst key)) →
      (instances.get key).map Instance.registration = (st.instances.get key).map Instance.registration) :
    Accounted st { st with services, instances } log := by
  refine ⟨fun p quiet => ?_, named⟩
  cases p with
  | service name => exact others name fun e member named => quiet e member (.inl named)
  | inst key => exact away key quiet
  | config scope => exact ⟨rfl, rfl⟩
  | history scope => exact rfl
  | token id => exact fun _ _ _ => Iff.rfl

/-- An entry that names the service accounts for its registration, which writes no other record. -/
theorem accounted_putService {now : Time} {svc : Service} {o : Outcome Service} (named : st.EachNamed)
    (run : st.putService now svc = .ok o) (valid : ValidUTF8 (trimSpace svc.name))
    (noted : ∃ e ∈ log, trimSpace svc.name ∈ e.services) : Accounted st o.store log := by
  obtain ⟨v, checked, fits, rfl⟩ := putService_eq_ok.mp run
  obtain ⟨_, _, rfl⟩ := Service.validate_eq_ok.mp checked
  obtain ⟨e, member, mentioned⟩ := noted
  refine accounted_catalog (named.insert fits rfl valid) (fun name quiet => ?_) fun _ _ => rfl
  rw [Bucket.get_insert, if_neg]
  rintro rfl
  exact quiet e member mentioned

/-- Whatever an update does to a record, it must be named, unless the registration is as before. -/
theorem accounted_withInstance {service id : GoString} {inst : Instance} (named : st.EachNamed)
    (fits : KeyFits (instanceKey service id))
    (noted : (∃ e ∈ log, e.Concerns (.inst (instanceKey service id))) ∨
      ∃ prev, st.instances.get (instanceKey service id) = some prev ∧
        inst.json.registration = prev.json.registration) :
    Accounted st (st.withInstance (instanceKey service id) inst fits) log := by
  refine accounted_catalog named (fun _ _ => rfl) fun key quiet => ?_
  rw [Bucket.get_insert]
  by_cases here : key = instanceKey service id
  · rw [if_pos here]
    rcases noted with ⟨e, member, concerned⟩ | ⟨prev, present, same⟩
    · exact absurd (here ▸ concerned) (quiet e member)
    · have clean : prev.json = prev := Bucket.clean present
      rw [here, present]
      exact congrArg some (same.trans (congrArg Instance.registration clean))
  · rw [if_neg here]

/-- The registration of an instance may add a stub of its service, so the entry has to name the service as well as
the instance. -/
theorem accounted_putInstance {now : Time} {inst : Instance} {o : Outcome Instance} (named : st.EachNamed)
    (run : st.putInstance now inst = .ok o) (valid : ValidUTF8 inst.serviceName)
    (noted : ∃ e ∈ log, inst.serviceName ∈ e.services ∧ e.Concerns (.inst (instanceKey inst.serviceName inst.id))) :
    Accounted st o.store log := by
  obtain ⟨v, _, services, stubbed, fits, _, store, _⟩ := putInstance_eq_ok.mp run
  obtain ⟨e, member, mentioned, concerned⟩ := noted
  have stub : Accounted st { st with services } log := by
    rcases ensureService_eq_ok.mp stubbed with ⟨_, rfl⟩ | ⟨_, fits, rfl⟩
    · exact .refl named
    · refine accounted_catalog (named.insert fits rfl valid) (fun name quiet => ?_) fun _ _ => rfl
      rw [Bucket.get_insert, if_neg]
      rintro rfl
      exact quiet e member mentioned
  rw [store]
  exact stub.trans (accounted_withInstance stub.named fits (Or.inl ⟨e, member, concerned⟩))

/-- The instance is stored under the id of the request. -/
theorem putInstance_id {now : Time} {inst : Instance} {o : Outcome Instance} (run : st.putInstance now inst = .ok o) :
    o.value.id = inst.id := by
  obtain ⟨v, valid, _, _, _, value, _⟩ := putInstance_eq_ok.mp run
  rw [value]
  exact (Instance.validate_key valid).2

theorem accounted_deleteInstance (named : st.EachNamed) {service id : GoString}
    (noted : ∃ e ∈ log, e.Concerns (.inst (instanceKey service id))) :
    Accounted st (st.deleteInstance service id).store log := by
  obtain ⟨e, member, concerned⟩ := noted
  have shape : (st.deleteInstance service id).store =
      { st with instances := (st.deleteInstance service id).store.instances } := by
    rw [deleteInstance]
    split <;> rfl
  rw [shape]
  refine accounted_catalog named (fun _ _ => rfl) fun key quiet => ?_
  rw [get_deleteInstance, if_neg]
  rintro rfl
  exact quiet e member concerned

/-- An entry for the deletion of a service accounts for the instances deleted with it, whatever their ids are. -/
theorem accounted_deleteService {name : GoString} {o : Outcome Unit} (named : st.EachNamed)
    (run : st.deleteService name = .ok o)
    (noted : ∃ e ∈ log, name ∈ e.services ∧ ∀ key, servicePrefix name <+: key → e.Concerns (.inst key)) :
    Accounted st o.store log := by
  obtain ⟨_, rfl⟩ := deleteService_eq_ok.mp run
  obtain ⟨e, member, mentioned, along⟩ := noted
  refine accounted_catalog (named.extend fun other s present => ?_) (fun other quiet => ?_) fun key quiet => ?_
  · rw [Bucket.get_delete] at present
    split at present
    · cases present
    · exact Or.inl present
  · rw [Bucket.get_delete, if_neg]
    rintro rfl
    exact quiet e member mentioned
  · rw [Bucket.get_deletePrefix, if_neg fun under => quiet e member (along key under)]

/-- The entry names both services of a rename and speaks for the instances of both. -/
def Renames (e : AuditNote) (src dst : GoString) : Prop :=
  src ∈ e.services ∧ dst ∈ e.services ∧
    ∀ key, servicePrefix src <+: key ∨ servicePrefix dst <+: key → e.Concerns (.inst key)

/-- A rename touches the records of two services and moves the instances of the first to the keys of the second;
one entry that names both accounts for all of it. -/
theorem accounted_moves {now : Time} {src dst : GoString} {o : Outcome Service} (named : st.EachNamed)
    (moves : st.Moves now src dst o) (valid : ValidUTF8 dst)
    (noted : ∃ e ∈ log, Renames e src dst) : Accounted st o.store log := by
  have shape : o.store = { st with services := o.store.services, instances := o.store.instances } := by
    obtain ⟨_, _, _, _, _, _, rfl⟩ := moves
    rfl
  have renamed : o.value.json.name = dst := by
    obtain ⟨_, _, _, _, _, _, rfl⟩ := moves
    exact valid
  obtain ⟨e, member, source, target, along⟩ := noted
  rw [shape]
  refine accounted_catalog (named.extend fun name s present => ?_) (fun name quiet => ?_) fun key quiet => ?_
  · rw [moves.get_services] at present
    split at present
    · cases present
    · split at present
      next here =>
        obtain rfl := Option.some.inj present
        exact Or.inr (renamed.trans here.symm)
      next => exact Or.inl present
  · rw [moves.get_services, if_neg, if_neg]
    · rintro rfl
      exact quiet e member target
    · rintro rfl
      exact quiet e member source
  · have left : ¬servicePrefix src <+: key := fun under => quiet e member (along key (.inl under))
    rcases moves.get_instances key with ⟨same, _⟩ | ⟨i, _, rfl, _⟩
    · rw [same, if_neg fun both => left both.1]
    · exact absurd (along _ (.inr (servicePrefix_prefix_instanceKey dst i.id))) (quiet e member)

theorem accounted_renameService {now : Time} {oldName newName : GoString} {o : Outcome Service} (named : st.EachNamed)
    (run : st.renameService now oldName newName = .ok o) (valid : ValidUTF8 newName)
    (noted : ∃ e ∈ log, Renames e (trimSpace oldName) o.value.name) : Accounted st o.store log := by
  obtain ⟨_, _, ⟨_, svc, _, rfl⟩ | ⟨_, moves⟩⟩ := renameService_eq_ok.mp run
  · exact .refl named
  · have renamed : o.value.name = trimSpace newName := by
      obtain ⟨_, old, _, _, _, _, rfl⟩ := moves
      rfl
    rw [renamed] at noted
    exact accounted_moves named moves valid.trimSpace noted

/-- The name that a rename stores is the trimmed one, which the entry shows. -/
theorem renamed_trimmed {now : Time} {oldName newName : GoString} {o : Outcome Service} (named : st.EachNamed)
    (run : st.renameService now oldName newName = .ok o) : trimSpace o.value.name = o.value.name := by
  obtain ⟨_, _, ⟨_, svc, present, rfl⟩ | ⟨_, _, old, _, _, _, _, rfl⟩⟩ := renameService_eq_ok.mp run
  · rw [named _ svc present, trimSpace_idem]
  · exact trimSpace_idem newName

/-- What an instance or the health checker reports is no change of the registration, and needs no entry. -/
theorem accounted_heartbeat {now : Time} {service id status : GoString} {o : Outcome Instance} (named : st.EachNamed)
    (run : st.heartbeat now service id status = .ok o) : Accounted st o.store log := by
  obtain ⟨prev, present, rfl⟩ := heartbeat_eq_ok.mp run
  exact accounted_withInstance named _ (Or.inr ⟨prev, present, rfl⟩)

theorem accounted_setLastCheck {service id : GoString} {check : InstanceCheck} {o : Outcome Unit}
    (named : st.EachNamed) (run : st.setLastCheck service id check = .ok o) : Accounted st o.store log := by
  obtain ⟨prev, present, rfl⟩ := setLastCheck_eq_ok.mp run
  exact accounted_withInstance named _ (Or.inr ⟨prev, present, rfl⟩)

theorem accounted_setStatus {now : Time} {service id status : GoString} {o : Outcome Instance} (named : st.EachNamed)
    (run : st.setStatus now service id status = .ok o) : Accounted st o.store log := by
  obtain ⟨prev, present, ⟨_, rfl⟩ | ⟨_, rfl⟩⟩ := setStatus_eq_ok.mp run
  · exact .refl named
  · exact accounted_withInstance named _ (Or.inr ⟨prev, present, rfl⟩)

/-- A call that fails changes nothing, so only the successful ones need an entry. -/
theorem accounted_settle {α : Type} {x : Except Err (Outcome α)} (named : st.EachNamed)
    (done : ∀ o, x = .ok o → Accounted st o.store log) : Accounted st (st.settle x).1 log :=
  settle_store (Accounted st · log) (.refl named) done

/-- A step that changes config only. -/
theorem accounted_config {configActive configRevs : Bucket ConfigRevision} {configDrafts : Bucket ConfigDraft}
    (named : st.EachNamed)
    (others : ∀ scope, (∀ e ∈ log, ¬e.Concerns (.config scope)) →
      (Place.config scope).Same st { st with configActive, configRevs, configDrafts })
    (histories : ∀ scope, (∀ e ∈ log, ¬e.Concerns (.history scope)) →
      (Place.history scope).Same st { st with configActive, configRevs, configDrafts }) :
    Accounted st { st with configActive, configRevs, configDrafts } log := by
  refine ⟨fun p quiet => ?_, named⟩
  cases p with
  | service name => exact rfl
  | inst key => exact rfl
  | config scope => exact others scope quiet
  | history scope => exact histories scope quiet
  | token id => exact fun _ _ _ => Iff.rfl

/-- An entry about a scope speaks for all that is stored of it. -/
def AboutScope (e : AuditNote) (scope : GoString) : Prop := e.targetType = "config" ∧ e.target = scope

theorem AboutScope.config {e : AuditNote} {scope : GoString} (about : AboutScope e scope) :
    e.Concerns (.config scope) := .inl about

theorem AboutScope.history {e : AuditNote} {scope : GoString} (about : AboutScope e scope) :
    e.Concerns (.history scope) := .inl about

/-- A publication writes the active revision, the history and the draft of one scope, all of which the entry
names. -/
theorem accounted_applyConfig {sha256 : GoString → GoString} {now : Time} {scope : ConfigScope} {vars : Vars}
    {note author : GoString} {o : Outcome ConfigRevision} (named : st.EachNamed) (accepted : scope.Accepted)
    (run : st.applyConfig sha256 now scope vars note author = .ok o)
    (noted : ∃ e ∈ log, AboutScope e scope.ID) : Accounted st o.store log := by
  obtain ⟨s, valid, _, fitsActive, fits, rfl⟩ := applyConfig_eq_ok.mp run
  obtain rfl := Except.ok.inj (accepted.symm.trans valid)
  obtain ⟨e, member, about⟩ := noted
  refine accounted_config named (fun other quiet => ?_) fun other quiet => ?_
  · have apart : other ≠ scope.ID := by
      rintro rfl
      exact quiet e member about.config
    refine ⟨?_, ?_⟩
    · exact (activeOf_withPublished st fitsActive fits other).trans (if_neg apart)
    · exact (draftOf_withPublished st fitsActive fits other).trans (if_neg apart)
  · refine (historyOf_withPublished st fitsActive fits other).trans (if_neg ?_)
    rintro rfl
    exact quiet e member about.history

theorem accounted_putDraft {now : Time} {scope : ConfigScope} {vars : Vars} {author : GoString}
    {o : Outcome ConfigDraft} (named : st.EachNamed) (accepted : scope.Accepted)
    (run : st.putDraft now scope vars author = .ok o) (noted : ∃ e ∈ log, AboutScope e scope.ID) :
    Accounted st o.store log := by
  obtain ⟨s, valid, _, fits, rfl⟩ := putDraft_eq_ok.mp run
  obtain rfl := Except.ok.inj (accepted.symm.trans valid)
  obtain ⟨e, member, about⟩ := noted
  refine accounted_config named (fun other quiet => ⟨rfl, ?_⟩) fun other _ => rfl
  refine (draftOf_saved st scope.ID _ fits other).trans (if_neg ?_)
  rintro rfl
  exact quiet e member about.config

theorem accounted_deleteDraft {scope : ConfigScope} (named : st.EachNamed)
    (noted : ∃ e ∈ log, AboutScope e scope.ID) : Accounted st (st.deleteDraft scope).store log := by
  obtain ⟨e, member, about⟩ := noted
  refine accounted_config named (fun other quiet => ⟨rfl, ?_⟩) fun other _ => rfl
  refine (draftOf_deleteDraftRaw st scope other).trans (if_neg ?_)
  rintro rfl
  exact quiet e member about.config

/-- A deletion takes the history of the scopes below along, and nothing else of them. -/
theorem accounted_deleteConfigScope {scope : ConfigScope} (named : st.EachNamed)
    (noted : ∃ e ∈ log, AboutScope e scope.ID ∧ e.action = "config.deleted") :
    Accounted st (st.deleteConfigScope scope).store log := by
  obtain ⟨e, member, about, action⟩ := noted
  refine accounted_config named (fun other quiet => ?_) fun other quiet => funext fun n => ?_
  · have apart : other ≠ scope.ID := by
      rintro rfl
      exact quiet e member about.config
    refine ⟨?_, ?_⟩
    · exact (activeOf_deleteConfigScopeRaw st scope other).trans (if_neg apart)
    · exact (draftOf_deleteConfigScopeRaw st scope other).trans (if_neg apart)
  · refine (historyOf_deleteConfigScopeRaw st scope other n).trans (if_neg ?_)
    rintro (rfl | below)
    · exact quiet e member about.history
    · exact quiet e member (.inr ⟨about.1, action, about.2 ▸ below⟩)

/-- A step that changes client tokens only. -/
theorem accounted_tokens {clientTokens : Bucket ClientToken} (named : st.EachNamed)
    (others : ∀ id, (∀ e ∈ log, ¬e.Concerns (.token id)) →
      (Place.token id).Same st { st with clientTokens }) :
    Accounted st { st with clientTokens } log := by
  refine ⟨fun p quiet => ?_, named⟩
  cases p with
  | service name => exact rfl
  | inst key => exact rfl
  | config scope => exact ⟨rfl, rfl⟩
  | history scope => exact rfl
  | token id => exact others id quiet

/-- The secret of the new token is no other's. -/
theorem accounted_putClientToken {now : Time} {t : ClientToken} {o : Outcome ClientToken} (named : st.EachNamed)
    (run : st.putClientToken now t = .ok o) (fresh : st.clientTokens.get t.token = none)
    (noted : ∃ e ∈ log, e.Concerns (.token (jsonString t.id))) : Accounted st o.store log := by
  obtain ⟨st', raw, rfl⟩ := putClientToken_eq_ok.mp run
  obtain ⟨e, member, concerned⟩ := noted
  have written := putClientTokenRaw_eq_ok.mp raw
  rw [ClientToken.stamped_token, fresh, if_neg (by simp)] at written
  obtain ⟨fits, rfl⟩ := written
  refine accounted_tokens named fun id quiet => fun key u mine => ?_
  rw [Bucket.get_insert]
  by_cases here : key = t.token
  · rw [if_pos here, here, fresh]
    refine iff_of_false (fun same => ?_) nofun
    obtain rfl := Option.some.inj same
    exact quiet e member (mine ▸ concerned)
  · rw [if_neg here]

/-- A token is named by its id, as JSON keeps it; the secret is in no entry. -/
theorem accounted_deleteClientTokenByID {id : GoString} {o : Outcome ClientToken} (named : st.EachNamed)
    (run : st.deleteClientTokenByID id = .ok o) (noted : ∃ e ∈ log, e.Concerns (.token (jsonString o.value.id))) :
    Accounted st o.store log := by
  obtain ⟨key, found, picked, rfl⟩ := deleteClientTokenByID_eq_ok.mp run
  obtain ⟨e, member, concerned⟩ := noted
  have listed : (key, found) ∈ st.clientTokens.toList := (List.mem_filter.mp (List.mem_of_getLast? picked)).1
  have present := Bucket.mem_toList.mp listed
  have clean : jsonString found.id = found.id := congrArg ClientToken.id (Bucket.clean present)
  refine accounted_tokens named fun id quiet => fun other u mine => ?_
  rw [Bucket.get_delete]
  split
  next here =>
    subst here
    refine iff_of_false nofun fun same => ?_
    obtain rfl := Option.some.inj (present.symm.trans same)
    exact quiet e member (mine ▸ clean ▸ concerned)
  next => exact Iff.rfl

end Store

/-- The names and the secret that a call brings: text, and not in use. -/
def Call.Sensible (st : Store) (c : Call) : Prop :=
  match c.request with
  | .putService name _ | .registerInstance name _ | .upsertInstance name _ _ => ValidUTF8 name
  | .renameService _ body => ∀ req ∈ body, ValidUTF8 req.newName
  | .createClientToken _ => ∀ bytes, c.moment.random = .ok bytes → st.clientTokens.get (secretFrom bytes) = none
  | _ => True

namespace Server
variable {st : Store}

section Mentions
variable {id : Identity} {action target oldName instID : GoString} {details : AuditDetails}

/-- A service entry that deletes nothing names its target without the spaces around. -/
theorem mentions_written (keeps : action ≠ "service.deleted") :
    ∃ e ∈ [audit id action target "service" details], trimSpace target ∈ e.services := by
  refine ⟨_, List.mem_singleton_self _, ?_⟩
  have services : (audit id action target "service" details).services =
      (target :: details.filterMap renamedFrom).map trimSpace :=
    (if_pos rfl).trans (if_neg keeps)
  rw [services]
  exact List.mem_cons_self

/-- The entry of a deletion names the service, and takes its instances along. -/
theorem mentions_deleted : ∃ e ∈ [audit id "service.deleted" target "service" []],
    target ∈ e.services ∧ ∀ key, servicePrefix target <+: key → e.Concerns (.inst key) := by
  have named : target ∈ (audit id "service.deleted" target "service" []).services := List.mem_singleton_self _
  exact ⟨_, List.mem_singleton_self _, named, fun key under => .inr ⟨rfl, .inl rfl, target, named, under⟩⟩

/-- The entry of a rename names both services, and takes the instances along. -/
theorem mentions_renamed (trimmed : trimSpace target = target) :
    ∃ e ∈ [audit id "service.updated" target "service" [("renamedFrom", .text oldName)]],
      Store.Renames e (trimSpace oldName) target := by
  have services : (audit id "service.updated" target "service" [("renamedFrom", .text oldName)]).services =
      [target, trimSpace oldName] := congrArg (fun name => [name, trimSpace oldName]) trimmed
  refine ⟨_, List.mem_singleton_self _, ?_⟩
  rw [Store.Renames, services]
  refine ⟨List.mem_cons_of_mem _ List.mem_cons_self, List.mem_cons_self, fun key under => .inr ?_⟩
  refine ⟨rfl, .inr (List.cons_ne_nil oldName []), ?_⟩
  rw [services]
  rcases under with old | new
  · exact ⟨_, List.mem_cons_of_mem _ List.mem_cons_self, old⟩
  · exact ⟨_, List.mem_cons_self, new⟩

/-- An instance entry names the instance by the target and the id among its details. -/
theorem mentions_inst (given : (("id" : GoString), AuditDetail.text instID) ∈ details) :
    ∃ e ∈ [audit id action target "instance" details], e.Concerns (.inst (instanceKey target instID)) :=
  ⟨_, List.mem_singleton_self _, .inl ⟨rfl, instID, given, rfl⟩⟩

theorem mentions_upserted {inst : Instance} : ∃ e ∈ [instanceUpserted id target inst],
    target ∈ e.services ∧ e.Concerns (.inst (instanceKey target inst.id)) := by
  have named : target ∈ (instanceUpserted id target inst).services := List.mem_singleton_self _
  exact ⟨_, List.mem_singleton_self _, named, .inl ⟨rfl, inst.id, List.mem_cons_self, rfl⟩⟩

theorem about_scope {scope : GoString} :
    ∃ e ∈ [audit id action scope "config" details], Store.AboutScope e scope :=
  ⟨_, List.mem_singleton_self _, rfl, rfl⟩

end Mentions

/-- A handler that writes its entry after a successful call is accounted for when the call is. -/
theorem accounted_noted {α : Type} {r : Except HttpError (Reply α)} {f : α → List AuditNote} (named : st.EachNamed)
    (done : ∀ reply, r = .ok reply → Store.Accounted st reply.store (f reply.value)) :
    Store.Accounted st (written st r).1 (noted r f) := by
  cases r with
  | error e => exact .refl named
  | ok reply => exact done reply rfl

/-- The handlers that change config share their first steps. -/
theorem accounted_scopeWrite {α β : Type} (mm : Masterminds) (id : Identity) (body : Option α)
    (scope : α → ConfigScope) (f : α → ConfigScope → Except HttpError (Reply β)) {note : GoString → β → AuditNote}
    (named : st.EachNamed)
    (done : ∀ input v reply, v.Accepted → f input v = .ok reply →
      Store.Accounted st reply.store [note v.ID reply.value]) :
    let prepared := decode body >>= fun input => prepareScopeWrite mm st id (scope input)
    let r := decode body >>= fun input => prepareScopeWrite mm st id (scope input) >>= f input
    Store.Accounted st (written st r).1 (scopeNoted prepared r note) := by
  intro prepared r
  cases run : r with
  | error e => exact .refl named
  | ok reply =>
    obtain ⟨input, given, rest⟩ := bind_eq_ok.mp run
    obtain ⟨v, checked, rest⟩ := bind_eq_ok.mp rest
    have first : prepared = .ok v := bind_eq_ok.mpr ⟨input, given, checked⟩
    rw [first]
    exact done input v reply (ConfigScope.validate_accepted (prepareScopeWrite_eq_ok.mp checked).1) rest

/-- A change of the grants. -/
theorem accounted_grants {now : Time} {name : GoString} {own : Service} {grants : List GoString} {o : Outcome Service}
    {log : List AuditNote} (named : st.EachNamed) (present : st.services.get name = some own)
    (put : st.putService now { own with grants } = .ok o) (noted : ∃ e ∈ log, trimSpace name ∈ e.services) :
    Store.Accounted st o.store log := by
  have home := named name own present
  subst home
  exact Store.accounted_putService named put (named.valid present).trimSpace noted

theorem accounted_recordProbe {log : List AuditNote} (named : st.EachNamed) (now : Time) (name instID : GoString)
    (check : InstanceCheck) : Store.Accounted st (recordProbe st now name instID check).store log := by
  have checked : Store.Accounted st (st.settle (st.setLastCheck name instID check)).1 log :=
    Store.accounted_settle named fun o run => Store.accounted_setLastCheck named run
  exact checked.trans (Store.accounted_settle checked.named fun o run => Store.accounted_setStatus checked.named run)

/-- One call. -/
theorem accounted_serveCall {d : Deployment} {c : Call} (named : st.EachNamed) (sensible : c.Sensible st) :
    Store.Accounted st (serveCall d st c).1 (serveCall d st c).2 := by
  obtain ⟨m, id, ip, req⟩ := c
  show Store.Accounted st (serveV1 d st m id req).1 (notes d st ⟨m, id, ip, req⟩)
  cases req <;> dsimp only [serveV1, notes]
  case putService name body =>
    refine accounted_noted named fun reply run => ?_
    obtain ⟨_, input, _, svc, wanted, o, put, rfl⟩ := putService_eq_ok.mp run
    have path := requestedService_name wanted
    subst path
    refine Store.accounted_putService named put (ValidUTF8.trimSpace sensible) (mentions_written ?_)
    split <;> decide
  case renameService oldName body =>
    refine accounted_noted named fun reply run => ?_
    obtain ⟨_, own, _, _, input, given, o, renamed, rfl⟩ := renameService_eq_ok.mp run
    exact Store.accounted_renameService named renamed (sensible input given)
      (mentions_renamed (Store.renamed_trimmed named renamed))
  case deleteService name =>
    refine accounted_noted named fun reply run => ?_
    obtain ⟨_, own, _, _, o, deleted, rfl⟩ := deleteService_eq_ok.mp run
    exact Store.accounted_deleteService named deleted mentions_deleted
  case addGrant name body =>
    refine accounted_noted named fun reply run => ?_
    obtain ⟨own, present, _, input, rfl, _, ⟨_, rfl⟩ | ⟨new, o, put, rfl⟩⟩ := addGrant_eq_ok.mp run
    · exact .refl named
    · simp only [present, if_neg new]
      exact accounted_grants named present put (mentions_written (by decide))
  case removeGrant name userID =>
    refine accounted_noted named fun reply run => ?_
    obtain ⟨own, present, _, ⟨_, rfl⟩ | ⟨granted, o, put, rfl⟩⟩ := removeGrant_eq_ok.mp run
    · exact .refl named
    · have fewer : (own.grants.filter (· ≠ userID)).length ≠ own.grants.length := by
        rw [ne_eq, List.length_filter_eq_length_iff]
        exact fun all => absurd (all userID granted) (by simp)
      simp only [present, if_neg fewer]
      exact accounted_grants named present put (mentions_written (by decide))
  case registerInstance name body =>
    refine accounted_noted named fun reply run => ?_
    obtain ⟨_, input, _, o, put, rfl⟩ := registerInstance_eq_ok.mp run
    refine Store.accounted_putInstance named put sensible ?_
    rw [← Store.putInstance_id put]
    exact mentions_upserted
  case upsertInstance name instID body =>
    refine accounted_noted named fun reply run => ?_
    obtain ⟨_, _, input, _, o, put, rfl⟩ := upsertInstance_eq_ok.mp run
    refine Store.accounted_putInstance named put sensible ?_
    rw [← Store.putInstance_id put]
    exact mentions_upserted
  case deleteInstance name instID =>
    refine accounted_noted named fun reply run => ?_
    obtain ⟨_, _, rfl⟩ := deleteInstance_eq_ok.mp run
    exact Store.accounted_deleteInstance named (mentions_inst List.mem_cons_self)
  case blockInstance name instID body =>
    refine accounted_noted named fun reply run => ?_
    obtain ⟨_, input, _, o, blocked, rfl⟩ := blockInstance_eq_ok.mp run
    obtain ⟨prev, present, rfl⟩ := Store.setBlocked_eq_ok.mp blocked
    exact Store.accounted_withInstance named _ (Or.inl (mentions_inst List.mem_cons_self))
  case heartbeat name instID body =>
    cases run : heartbeat st m.now id name instID body with
    | error e => exact .refl named
    | ok reply =>
      obtain ⟨_, o, beat, rfl⟩ := heartbeat_eq_ok.mp run
      exact Store.accounted_heartbeat named beat
  case checkInstance name instID probe =>
    cases run : checkInstance st m.now id name instID probe with
    | error e => exact .refl named
    | ok reply =>
      obtain ⟨_, ok, results, _, inst, _, o, rfl, rfl⟩ := checkInstance_eq_ok.mp run
      exact accounted_recordProbe named _ _ _ _
  case configApply body =>
    refine accounted_scopeWrite d.mm id body ConfigApplyInput.scope _ named fun input v reply accepted run => ?_
    obtain ⟨_, _, run⟩ := bind_eq_ok.mp run
    obtain ⟨o, applied, done⟩ := bind_eq_ok.mp run
    obtain rfl := Except.ok.inj done
    exact Store.accounted_applyConfig named accepted (mapError_eq_ok.mp applied) about_scope
  case configSaveDraft body =>
    refine accounted_scopeWrite d.mm id body ConfigDraftInput.scope _ named fun input v reply accepted run => ?_
    obtain ⟨_, _, run⟩ := bind_eq_ok.mp run
    obtain ⟨o, saved, done⟩ := bind_eq_ok.mp run
    obtain rfl := Except.ok.inj done
    exact Store.accounted_putDraft named accepted (mapError_eq_ok.mp saved) about_scope
  case configDeleteDraft body =>
    refine accounted_scopeWrite d.mm id body ConfigScopeOnlyInput.scope _ named fun input v reply accepted run => ?_
    obtain rfl := Except.ok.inj run
    exact Store.accounted_deleteDraft named about_scope
  case configRollback body =>
    refine accounted_scopeWrite d.mm id body ConfigRollbackInput.scope _ named fun input v reply accepted run => ?_
    obtain ⟨o, rolled, done⟩ := bind_eq_ok.mp run
    obtain rfl := Except.ok.inj done
    obtain ⟨target, _, applied⟩ := Store.rollbackConfig_eq_ok.mp (mapError_eq_ok.mp rolled)
    exact Store.accounted_applyConfig named accepted applied about_scope
  case configDeleteScope body =>
    refine accounted_scopeWrite d.mm id body ConfigScopeOnlyInput.scope _ named fun input v reply accepted run => ?_
    obtain rfl := Except.ok.inj run
    exact Store.accounted_deleteConfigScope named ⟨_, List.mem_singleton_self _, ⟨rfl, rfl⟩, rfl⟩
  case createClientToken body =>
    refine accounted_noted named fun reply run => ?_
    obtain ⟨_, input, _, _, _, _, secret, drawn, o, put, rfl⟩ := createClientToken_eq_ok.mp run
    have fresh : st.clientTokens.get secret = none := by
      cases random : m.random with
      | error e => simp [generateToken, random, Except.map] at drawn
      | ok bytes =>
        rw [generateToken, random] at drawn
        obtain rfl := Except.ok.inj drawn
        exact sensible bytes random
    have value : o.value.id = m.uuid := by
      obtain ⟨_, _, rfl⟩ := Store.putClientToken_eq_ok.mp put
      rfl
    exact Store.accounted_putClientToken named put fresh
      ⟨_, List.mem_singleton_self _, .inl ⟨rfl, congrArg jsonString value⟩⟩
  case revokeClientToken tokenID =>
    refine accounted_noted named fun reply run => ?_
    obtain ⟨_, run⟩ := bind_eq_ok.mp run
    obtain ⟨o, revoked, done⟩ := bind_eq_ok.mp run.2
    obtain rfl := Except.ok.inj done
    have found := mapError_eq_ok.mp revoked
    simp only [found]
    exact Store.accounted_deleteClientTokenByID named found ⟨_, List.mem_singleton_self _, .inl ⟨rfl, rfl⟩⟩
  case login body => exact Store.accounted_of_kept named (kept_login st _ _ _ _ _)
  case logout cookie => exact Store.accounted_of_kept named (kept_logout st cookie)
  case discoverPick name version token => exact Store.accounted_of_kept named (kept_discoverPick _ st _ _ _ id _ _ _)
  -- the handlers that only answer
  all_goals exact .refl named

/-- What holds of every entry a handler can write holds of those it has written. -/
theorem forall_noted {α : Type} {r : Except HttpError (Reply α)} {f : α → List AuditNote} {P : AuditNote → Prop}
    (all : ∀ value, ∀ e ∈ f value, P e) : ∀ e ∈ noted r f, P e := by
  cases r with
  | error e => nofun
  | ok reply => exact all reply.value

theorem forall_scopeNoted {α : Type} {prepared : Except HttpError ConfigScope} {r : Except HttpError (Reply α)}
    {note : GoString → α → AuditNote} {P : AuditNote → Prop} (all : ∀ scope value, P (note scope value)) :
    ∀ e ∈ scopeNoted prepared r note, P e := by
  cases prepared with
  | error e => nofun
  | ok scope => exact forall_noted fun value => List.forall_mem_singleton.mpr (all scope.ID value)

/-- An entry is signed with the identity of the caller. -/
theorem by_audit (id : Identity) (action target type : GoString) (details : AuditDetails) :
    (audit id action target type details).By id :=
  ⟨rfl, rfl⟩

/-- A login writes entries about users only, whether or not it succeeds. -/
theorem users_loginNotes (d : Deployment) (st : Store) (m : Moment) (ip : GoString) (body : Option LoginRequest) :
    ∀ e ∈ loginNotes d st m ip body, e.targetType = "user" := by
  unfold loginNotes
  cases body with
  | none => nofun
  | some req =>
    cases d.verifyPassword with
    | none => nofun
    | some verifyPassword =>
      simp only
      generalize (if trimSpace req.identifier = [] then trimSpace req.username else trimSpace req.identifier) =
        identifier
      split
      · nofun
      · split
        next => exact List.forall_mem_singleton.mpr rfl
        next user => exact forall_noted fun _ => List.forall_mem_singleton.mpr rfl

/-- Only a login writes in a name that is not the caller's. -/
theorem by_caller (d : Deployment) (st : Store) (c : Call) :
    ∀ e ∈ notes d st c, e.targetType = "user" ∨ e.By c.caller := by
  obtain ⟨m, id, ip, req⟩ := c
  have one (action target type : GoString) (details : AuditDetails) :
      ∀ e ∈ [audit id action target type details], e.targetType = "user" ∨ e.By id :=
    List.forall_mem_singleton.mpr (Or.inr (by_audit id action target type details))
  cases req <;> dsimp only [notes]
  case login body => exact fun e member => Or.inl (users_loginNotes d st m ip body e member)
  case logout cookie =>
    split
    · exact one _ _ _ _
    · nofun
  case addGrant name body =>
    refine forall_noted fun _ => ?_
    split
    next =>
      split
      · nofun
      · exact one _ _ _ _
    next => nofun
  case removeGrant name userID =>
    refine forall_noted fun _ => ?_
    split
    next =>
      split
      · nofun
      · exact one _ _ _ _
    next => nofun
  case clusterJoin body =>
    split
    next => exact one _ _ _ _
    next => nofun
  case revokeClientToken tokenID =>
    refine forall_noted fun _ => ?_
    split
    next => exact one _ _ _ _
    next => nofun
  case putService | renameService | deleteService | registerInstance | upsertInstance | deleteInstance |
      blockInstance | createClientToken =>
    exact forall_noted fun _ => one _ _ _ _
  case configApply | configSaveDraft | configDeleteDraft | configRollback | configDeleteScope =>
    exact forall_scopeNoted fun _ _ => Or.inr (by_audit id _ _ _ _)
  all_goals nofun

/-- Entries about users concern none of the places. -/
theorem not_concerns_of_user {e : AuditNote} (user : e.targetType = "user") (p : Place) : ¬e.Concerns p := by
  have other {type : GoString} (differs : type ≠ "user") : e.targetType ≠ type := fun same =>
    differs (same.symm.trans user)
  have services : e.services = [] := by
    rw [AuditNote.services, if_neg (other (by decide)), if_neg fun both => other (by decide) both.1]
  rintro (named | along)
  · cases p with
    | service name =>
      rw [AuditNote.Names, services] at named
      cases named
    | inst key => exact other (by decide) named.1
    | config scope => exact other (by decide) named.1
    | history scope => exact other (by decide) named.1
    | token id => exact other (by decide) named.1
  · cases p with
    | inst key => exact other (by decide) along.1
    | history scope => exact other (by decide) along.1
    | service name => exact along
    | config scope => exact along
    | token id => exact along

/-- Whatever the API changes is in the log: in a run of calls that leaves a service, the registration of an instance,
the config of a scope or the tokens of an id other than it was, one of the calls wrote an entry that concerns it, in the
name of its caller. -/
theorem every_change_logged {d : Deployment} {calls : List Call} {p : Place} (named : st.EachNamed)
    (run : Meets (serveCall d) Call.Sensible st calls) (changed : ¬p.Same st (exec (serveCall d) st calls).1) :
    ∃ before c after, calls = before ++ c :: after ∧
      ∃ e ∈ (serveCall d (exec (serveCall d) st before).1 c).2, e.Concerns p ∧ e.By c.caller := by
  induction calls generalizing st with
  | nil => exact absurd (Place.Same.refl p st) changed
  | cons c calls ih =>
    obtain ⟨sensible, later⟩ := run
    have logged := accounted_serveCall (d := d) named sensible
    by_cases quiet : ∀ e ∈ (serveCall d st c).2, ¬e.Concerns p
    · have rest : ¬p.Same (serveCall d st c).1 (exec (serveCall d) (serveCall d st c).1 calls).1 :=
        fun same => changed ((logged.unchanged p quiet).trans same)
      obtain ⟨before, c', after, rfl, entry⟩ := ih logged.named later rest
      exact ⟨c :: before, c', after, rfl, entry⟩
    · simp only [not_forall, not_not] at quiet
      obtain ⟨e, member, concerned⟩ := quiet
      have mine := (by_caller d st c e member).resolve_left fun user => not_concerns_of_user user p concerned
      exact ⟨[], c, calls, rfl, e, member, concerned, mine⟩

/-- A user registers a service and shares it. -/
def sharing : List Call :=
  [{ moment, caller := { userID := "1", role := .write }, request := .putService "billing" (some {}) },
    { moment, caller := { userID := "1", role := .read }, request := .addGrant "billing" (some { userID := "2" }) }]

theorem every_change_logged_sharing : ∃ before c after, sharing = before ++ c :: after ∧
    ∃ e ∈ (serveCall bareServer (exec (serveCall bareServer) Store.empty before).1 c).2,
      e.Concerns (.service "billing") ∧ e.By c.caller := by
  refine every_change_logged Store.EachNamed.empty ⟨?_, trivial, trivial⟩ ?_
  · show ValidUTF8 "billing"
    unfold ValidUTF8
    decide
  · show ¬_ = _
    decide

end Server

end Discovery
