import Discovery.Server.Login
import Discovery.Server.Reads
import Discovery.Server.ServiceAcl
import Discovery.Server.Tokens

namespace Discovery
open Kv

structure CorpUserHit where
  id : GoString
  email : GoString := []
  username : GoString := []
  displayName : GoString := []
  accountID : GoString := []
  deriving DecidableEq

structure ClusterJoinRequest where
  seeds : List GoString := []
  deriving DecidableEq

/-- The gossip layer: its members, and what joining seeds returns, the number contacted and the error. -/
structure ClusterClient where
  members : List GoString
  join : List GoString → Nat × Option GoString

/-- What a server is configured with. -/
structure Deployment where
  mm : Masterminds
  sha256 : GoString → GoString
  affinityTTL : Int
  authenticator : Authenticator
  verifyPassword : Option (GoString → GoString → Option VerifiedUser)
  findUser : Option (GoString → Option CorpUserHit)
  cluster : Option ClusterClient

/-- What one request gets from outside: times, random numbers, the rate limiter's answer. -/
structure Moment where
  now : Time
  clocks : Clocks
  draw : Int := 0
  random : Except Err (List UInt8) := .ok []
  sessionToken : Except Err GoString := .ok []
  uuid : GoString := []
  allowed : Bool := true

/-- A request to `/v1`, one constructor for each route: what the handler reads of path, query and body. -/
inductive V1Request
  | login (body : Option LoginRequest)
  | logout (cookie : Option GoString)
  | me (iframe : Bool)
  | listServices (tag : GoString)
  | putService (name : GoString) (body : Option ServiceInput)
  | getService (name : GoString)
  | deleteService (name : GoString)
  | listTags
  | listAllInstances
  | listInstances (name : GoString)
  | registerInstance (name : GoString) (body : Option InstanceInput)
  | upsertInstance (name instID : GoString) (body : Option InstanceInput)
  | getInstance (name instID : GoString)
  | deleteInstance (name instID : GoString)
  | heartbeat (name instID : GoString) (body : Option HeartbeatReq)
  | checkInstance (name instID : GoString) (probe : Option (Bool × List ProbeResult))
  | blockInstance (name instID : GoString) (body : Option BlockInput)
  | addGrant (name : GoString) (body : Option GrantRequest)
  | removeGrant (name userID : GoString)
  | renameService (name : GoString) (body : Option RenameRequest)
  | discoverByTag (tag version : GoString)
  | discover (name version : GoString)
  | discoverPick (name version token : GoString)
  | clusterMembers
  | clusterJoin (body : Option ClusterJoinRequest)
  | healthz
  | listStats
  | watch
  | searchCorpUsers (q : GoString)
  | listTokens
  | configResolve (service version : GoString) (prefixes keys : List GoString)
  | configScopes
  | configGetScope (kind service constraint incl : GoString)
  | configApply (body : Option ConfigApplyInput)
  | configSaveDraft (body : Option ConfigDraftInput)
  | configDeleteDraft (body : Option ConfigScopeOnlyInput)
  | configRollback (body : Option ConfigRollbackInput)
  | configDeleteScope (body : Option ConfigScopeOnlyInput)
  | listClientTokens
  | createClientToken (body : Option CreateTokenInput)
  | revokeClientToken (tokenID : GoString)
  | listAudit

namespace Server

def clusterMembers (cluster : Option ClusterClient) : List GoString := (cluster.map (·.members)).getD []

/-- Only admins make a node join others. -/
def clusterJoin (cluster : Option ClusterClient) (id : Identity) (body : Option ClusterJoinRequest) :
    Except HttpError Nat := do
  requireAdmin id
  match cluster with
  | none => writeErr 503 "cluster not configured"
  | some c =>
    let req ← decode body
    let clean := (req.seeds.map trimSpace).filter (· ≠ [])
    if clean = [] then writeErr 400 "no seeds provided"
    else match c.join clean with
      | (0, some e) => writeErr 502 e
      | (n, _) => .ok n

def searchCorpUsers (findUser : Option (GoString → Option CorpUserHit)) (id : Identity) (q : GoString) :
    Except HttpError (List CorpUserHit) := do
  requireAdmin id
  let q := trimSpace q
  if q = [] then .ok []
  else match findUser with
    | none => writeErr 503 "corp-ui auth not configured"
    | some find => .ok (find q).toList

def healthz (now : Time) : Bool × Time := (true, now)

/-- The answer is the lookups this node has counted, which the store does not hold. -/
def listStats (id : Identity) : Except HttpError Unit := requireRead id

/-- The events of the store are sent on from here. -/
def watch (id : Identity) : Except HttpError Unit := requireRead id

/-- The answer is the audit log, which is kept apart. -/
def listAudit (id : Identity) : Except HttpError Unit := requireAdmin id

/-- The store and the events after a request that may write. -/
def written {α : Type} (st : Store) : Except HttpError (Reply α) → Store × List Event
  | .ok r => (r.store, r.events)
  | .error _ => (st, [])

/-- A request whose handler has only an answer. -/
def answered {α : Type} (st : Store) (_ : α) : Store × List Event := (st, [])

def serveV1 (d : Deployment) (st : Store) (m : Moment) (id : Identity) : V1Request → Store × List Event
  | .login body => written st (login st m.now m.allowed d.verifyPassword m.sessionToken body)
  | .logout cookie => written st (.ok (logout st cookie))
  | .me iframe => answered st (me id iframe)
  | .listServices tag => answered st (listServices st id tag)
  | .putService name body => written st (putService st m.now id name body)
  | .getService name => answered st (getService st id name)
  | .deleteService name => written st (deleteService st id name)
  | .listTags => answered st (listTags st id)
  | .listAllInstances => answered st (listAllInstances st id)
  | .listInstances name => answered st (listInstances st id name)
  | .registerInstance name body => written st (registerInstance st m.now id name body m.uuid)
  | .upsertInstance name instID body => written st (upsertInstance st m.now id name instID body)
  | .getInstance name instID => answered st (getInstance st id name instID)
  | .deleteInstance name instID => written st (deleteInstance st id name instID)
  | .heartbeat name instID body => written st (heartbeat st m.now id name instID body)
  | .checkInstance name instID probe => written st (checkInstance st m.now id name instID probe)
  | .blockInstance name instID body => written st (blockInstance st m.now id name instID body)
  | .addGrant name body => written st (addGrant st m.now id name body)
  | .removeGrant name userID => written st (removeGrant st m.now id name userID)
  | .renameService name body => written st (renameService st m.now id name body)
  | .discoverByTag tag version => answered st (discoverByTag d.mm st id tag version)
  | .discover name version => answered st (discover d.mm st id name version)
  | .discoverPick name version token =>
    written st (discoverPick d.mm st d.affinityTTL m.clocks m.draw id name version token)
  | .clusterMembers => answered st (clusterMembers d.cluster)
  | .clusterJoin body => answered st (clusterJoin d.cluster id body)
  | .healthz => answered st (healthz m.now)
  | .listStats => answered st (listStats id)
  | .watch => answered st (watch id)
  | .searchCorpUsers q => answered st (searchCorpUsers d.findUser id q)
  | .listTokens => answered st (listTokens d.authenticator id)
  | .configResolve service version prefixes keys =>
    answered st (configResolve d.mm d.sha256 st id service version prefixes keys)
  | .configScopes => answered st (configScopes st id)
  | .configGetScope kind service constraint incl =>
    answered st (configGetScope st id kind service constraint incl)
  | .configApply body => written st (configApply d.mm d.sha256 st m.now id body)
  | .configSaveDraft body => written st (configSaveDraft d.mm st m.now id body)
  | .configDeleteDraft body => written st (configDeleteDraft d.mm st id body)
  | .configRollback body => written st (configRollback d.mm d.sha256 st m.now id body)
  | .configDeleteScope body => written st (configDeleteScope d.mm st id body)
  | .listClientTokens => answered st (listClientTokens st id)
  | .createClientToken body => written st (createClientToken st m.now id body m.random m.uuid)
  | .revokeClientToken tokenID => written st (revokeClientToken st id tokenID)
  | .listAudit => answered st (listAudit id)

end Server
end Discovery
