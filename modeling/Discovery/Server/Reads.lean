import Mathlib.Data.List.Dedup
import Discovery.Server.ConfigWrites
import Discovery.Server.Sticky
import Discovery.Store.Resolve

namespace Discovery
open Kv

/-- A tag, and how many services carry it. -/
structure TagCount where
  tag : GoString
  count : Nat
  deriving DecidableEq

/-- A scope with an active revision. -/
structure ConfigScopeSummary where
  scope : ConfigScope
  revision : Int
  varCount : Nat
  hasDraft : Bool
  updatedAt : Time
  deriving DecidableEq

structure ConfigScopeResponse where
  scope : ConfigScope
  active : Option ConfigRevision := none
  draft : Option ConfigDraft := none
  history : List ConfigRevision := []
  deriving DecidableEq

namespace Store

def listConfigScopes (st : Store) : List ConfigScopeSummary :=
  (st.configActive.scan "active/").map fun e =>
    { scope := e.2.scope
      revision := e.2.revision
      varCount := e.2.vars.size
      hasDraft := (st.configDrafts.get (cfgDraftKey e.2.scope.ID)).isSome
      updatedAt := e.2.updatedAt }

end Store

namespace Server

def filterServicesByTag (svcs : List Service) (tag : GoString) : List Service :=
  svcs.filter (tag ∈ ·.tags)

def listServices (st : Store) (id : Identity) (tag : GoString) : Except HttpError (List Service) := do
  requireRead id
  let tag := trimSpace tag
  .ok (if tag ≠ [] then filterServicesByTag st.listServices tag else st.listServices)

/-- The tags of a service, trimmed and each counted once. -/
def ownTags (svc : Service) : List GoString := ((svc.tags.map trimSpace).filter (· ≠ [])).dedup

/-- The tags of all services in order, with how many services carry each. -/
def listTags (st : Store) (id : Identity) : Except HttpError (List TagCount) := do
  requireRead id
  let all := st.listServices.flatMap ownTags
  .ok ((all.dedup.mergeSort fun a b => compare a b ≠ .gt).map fun tag => ⟨tag, all.count tag⟩)

def getService (st : Store) (id : Identity) (name : GoString) : Except HttpError Service := do
  requireRead id
  (st.getService name).mapError safeStoreErr

def listAllInstances (st : Store) (id : Identity) : Except HttpError (List Instance) := do
  requireRead id
  .ok st.listAllInstances

def listInstances (st : Store) (id : Identity) (name : GoString) : Except HttpError (List Instance) := do
  requireRead id
  .ok (st.listInstances name)

def getInstance (st : Store) (id : Identity) (name instID : GoString) : Except HttpError Instance := do
  requireRead id
  (st.getInstance name instID).mapError safeStoreErr

section
variable (mm : Masterminds)

/-- The `?version=` of a query: empty when absent. -/
def versionConstraint (version : GoString) : Except HttpError GoString :=
  let c := trimSpace version
  if c = [] then .ok []
  else if Semver.validConstraint mm c then .ok c
  else .error ⟨400, .quoted "invalid version constraint " c⟩

/-- The test `upInstances` makes. -/
def matchVersion (version constraint : GoString) : Bool := (Semver.satisfies mm version constraint).getD false

def discover (st : Store) (id : Identity) (name version : GoString) : Except HttpError (List Instance) := do
  requireRead id
  let constraint ← versionConstraint mm version
  .ok (upInstances (matchVersion mm) (st.listInstances name) constraint)

def discoverByTag (st : Store) (id : Identity) (tag version : GoString) : Except HttpError (List Instance) := do
  requireRead id
  let tag := trimSpace tag
  if tag = [] then writeErr 400 "tag query parameter required"
  else
    let constraint ← versionConstraint mm version
    .ok ((filterServicesByTag st.listServices tag).flatMap fun svc =>
      upInstances (matchVersion mm) (st.listInstances svc.name) constraint)

/-- One instance, by weight, or the one the token is bound to. -/
def discoverPick (st : Store) (configured : Int) (clocks : Clocks) (n : Int) (id : Identity)
    (name version token : GoString) : Except HttpError (Reply Pick) := do
  requireRead id
  let constraint ← versionConstraint mm version
  let token := trimSpace token
  let candidates := upInstances (matchVersion mm) (st.listInstances name) constraint
  if candidates = [] then .error ⟨503, .quoted "no healthy instances for " name⟩
  else if token ≠ [] then
    let r := stickyPick st configured clocks n name token candidates
    .ok ⟨200, r.value, r.store, r.events⟩
  else .ok ⟨200, ⟨weightedPick n candidates, false, false⟩, st, []⟩

end

def configResolve (mm : Masterminds) (sha256 : GoString → GoString) (st : Store) (id : Identity)
    (service version : GoString) (prefixes keys : List GoString) : Except HttpError ResolvedConfig := do
  requireRead id
  .ok (st.resolveConfig sha256 mm (trimSpace service) (trimSpace version) prefixes keys)

def configScopes (st : Store) (id : Identity) : Except HttpError (List ConfigScopeSummary) := do
  requireRead id
  .ok st.listConfigScopes

/-- `strings.Contains`. -/
def containsPart (s part : GoString) : Bool := decide (part <:+: s)

def configGetScope (st : Store) (id : Identity) (kind service constraint incl : GoString) :
    Except HttpError ConfigScopeResponse := do
  requireRead id
  let asked : ConfigScope :=
    { kind := trimSpace kind, service := trimSpace service, constraint := trimSpace constraint }
  let scope ← asked.validate.mapError (⟨400, ·⟩)
  .ok {
    scope
    active := (st.getActiveConfig scope).toOption
    draft := if containsPart incl "draft" then (st.getDraft scope).toOption else none
    history := if containsPart incl "history" then st.configHistory scope else [] }

end Server
end Discovery
