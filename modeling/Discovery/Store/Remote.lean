import Discovery.Machine
import Discovery.Store.Rename
import Discovery.Store.Records

namespace Discovery
open Kv
namespace Store

/-- Stores a revision in the history unless a newer one has its number, and advances the active one
on a higher number or on the same number with a later time. -/
def putConfigRevisionRaw (st : Store) (rev : ConfigRevision) : Except Err Store :=
  let id := rev.scope.ID
  if (st.configRevs.get (cfgRevKey id rev.revision)).any (rev.updatedAt < ·.updatedAt) then .ok st
  else do
    let configRevs ← write st.configRevs (cfgRevKey id rev.revision) rev
    let advance := (st.configActive.get (cfgActiveKey id)).all fun act =>
      act.revision < rev.revision ||
        (rev.revision = act.revision && act.updatedAt < rev.updatedAt)
    if advance then
      let configActive ← write st.configActive (cfgActiveKey id) rev
      .ok { st with configRevs, configActive }
    else .ok { st with configRevs }

def putDraftRaw (st : Store) (d : ConfigDraft) : Except Err Store := do
  let configDrafts ← write st.configDrafts (cfgDraftKey d.scope.ID) d
  .ok { st with configDrafts }

def deleteDraftRaw (st : Store) (scope : ConfigScope) : Store :=
  { st with configDrafts := st.configDrafts.delete (cfgDraftKey scope.ID) }

def deleteConfigScopeRaw (st : Store) (scope : ConfigScope) : Store :=
  { st with
    configActive := st.configActive.delete (cfgActiveKey scope.ID)
    configDrafts := st.configDrafts.delete (cfgDraftKey scope.ID)
    configRevs := st.configRevs.deletePrefix (cfgRevPrefix scope.ID) }

/-- A stored record stays unless it is older than the incoming one. -/
def keepsExisting (existing : Option Time) (incoming : Time) : Bool :=
  existing.any (fun t => ¬t < incoming)

/-- Merges one event. Payloads are marshalled once more on the way in; deletions carry no time and
touch one key. -/
def applyRemote (st : Store) (ev : Event) : Except Err (Outcome Unit) :=
  let emit (st : Store) : Except Err (Outcome Unit) := .ok ⟨(), st, [ev]⟩
  match ev with
  | .serviceUpserted payload =>
    let svc := payload.json
    if keepsExisting ((st.services.get svc.name).map (·.updatedAt)) svc.updatedAt then
      .ok ⟨(), st, []⟩
    else do
      let services ← write st.services svc.name svc
      emit { st with services }
  | .serviceDeleted name => emit { st with services := st.services.delete name }
  | .instanceUpserted payload | .instanceStatus payload =>
    let inst := payload.json
    let key := instanceKey inst.serviceName inst.id
    if keepsExisting ((st.instances.get key).map (·.updatedAt)) inst.updatedAt then
      .ok ⟨(), st, []⟩
    else do
      let instances ← write st.instances key inst
      emit { st with instances }
  | .instanceDeleted service id =>
    emit { st with instances := st.instances.delete (instanceKey service id) }
  | .affinityUpserted payload =>
    let a := payload.json
    let key := affinityKey a.serviceName a.token
    if keepsExisting ((st.affinity.get key).map (·.updatedAt)) a.updatedAt then .ok ⟨(), st, []⟩
    else do
      let affinity ← write st.affinity key a
      emit { st with affinity }
  | .affinityDeleted payload => emit (st.deleteAffinity payload.json.serviceName payload.json.token)
  | .configApplied payload => do
    let st ← st.putConfigRevisionRaw payload.json
    emit st
  | .configDraftSaved payload => do
    let st ← st.putDraftRaw payload.json
    emit st
  | .configDraftDeleted payload => emit (st.deleteDraftRaw payload.json)
  | .configDeleted payload => emit (st.deleteConfigScopeRaw payload.json)
  | .tokenUpserted payload => do
    let st ← st.putClientTokenRaw payload.json
    emit st
  | .tokenDeleted payload => emit (st.deleteClientTokenRaw payload.json.token)

/-- The store and the events passed on to the subscribers, whether the event was accepted or not. -/
def applyStep (st : Store) (ev : Event) : Store × List Event := st.settle (st.applyRemote ev)

def apply (st : Store) (ev : Event) : Store := (st.applyStep ev).1

def applyAll (st : Store) (evs : List Event) : Store := evs.foldl apply st

/-- The state one node serves to its peers. -/
structure Snapshot where
  services : List Service := []
  instances : List Instance := []
  affinity : List Affinity := []
  configRevs : List ConfigRevision := []
  configDrafts : List ConfigDraft := []
  clientTokens : List ClientToken := []
  deriving DecidableEq

def snapshot (st : Store) : Snapshot where
  services := st.listServices
  instances := st.listAllInstances
  affinity := st.listAffinity
  configRevs := st.configRevs.values
  configDrafts := st.configDrafts.values
  clientTokens := st.listClientTokens

/-- The events a pulled snapshot is fed through, in the order `pullSnapshot` makes them. -/
def Snapshot.events (snap : Snapshot) : List Event :=
  snap.services.map .serviceUpserted ++ snap.instances.map .instanceUpserted ++
    snap.affinity.map .affinityUpserted ++ snap.configRevs.map .configApplied ++
    snap.configDrafts.map .configDraftSaved ++ snap.clientTokens.map .tokenUpserted

/-- Errors of single records are ignored. -/
def pullSnapshot (st : Store) (snap : Snapshot) : Store × List Event :=
  Machine.exec applyStep st snap.events

@[simp] theorem applyAll_nil (st : Store) : st.applyAll [] = st := rfl

@[simp] theorem applyAll_cons (st : Store) (ev : Event) (evs : List Event) :
    st.applyAll (ev :: evs) = (st.apply ev).applyAll evs := rfl

theorem applyAll_append (st : Store) (evs evs' : List Event) :
    st.applyAll (evs ++ evs') = (st.applyAll evs).applyAll evs' :=
  List.foldl_append

theorem exec_applyStep (st : Store) (evs : List Event) :
    (Machine.exec applyStep st evs).1 = st.applyAll evs := by
  induction evs generalizing st with
  | nil => rfl
  | cons ev evs ih => exact ih (st.apply ev)

theorem pullSnapshot_store (st : Store) (snap : Snapshot) :
    (st.pullSnapshot snap).1 = st.applyAll snap.events :=
  exec_applyStep st snap.events

end Store
end Discovery
