import Discovery.Store.Catalog
import Discovery.Store.Replica

namespace Discovery
open Kv

/-- What one node can do to its store: local operations, gossiped events and pulled snapshots. A
local config write is given by the config buckets it leaves and the events it emits. -/
inductive NodeStep
  | catalog (op : CatalogOp)
  | config (active revs : Bucket ConfigRevision) (drafts : Bucket ConfigDraft) (evs : List Event)
  | putAffinity (now : Time) (a : Affinity) (emit : Bool)
  | getAffinity (now : Time) (service token : GoString)
  | deleteAffinity (service token : GoString)
  | sweepExpiredAffinity (now : Time)
  | putSession (now : Time) (sess : Session)
  | getSession (now : Time) (token : GoString)
  | deleteSession (token : GoString)
  | sweepExpiredSessions (now : Time)
  | putClientToken (now : Time) (t : ClientToken)
  | deleteClientTokenByID (id : GoString)
  | applyRemote (ev : Event)
  | pullSnapshot (snap : Store.Snapshot)

/-- The events of other nodes that a step merges. -/
def NodeStep.remote : NodeStep → List Event
  | .applyRemote ev => [ev]
  | .pullSnapshot snap => snap.events
  | _ => []

namespace Store

def nodeStep (st : Store) : NodeStep → Store × List Event
  | .catalog op => st.catalogStep op
  | .config active revs drafts evs =>
    ({ st with configActive := active, configRevs := revs, configDrafts := drafts }, evs)
  | .putAffinity now a emit => st.settle (st.putAffinity now a emit)
  | .getAffinity now service token => ((st.getAffinity now service token).2, [])
  | .deleteAffinity service token => (st.deleteAffinity service token, [])
  | .sweepExpiredAffinity now => (st.sweepExpiredAffinity now, [])
  | .putSession now sess => ((st.putSession now sess).toOption.getD st, [])
  | .getSession now token => ((st.getSession now token).2, [])
  | .deleteSession token => (st.deleteSession token, [])
  | .sweepExpiredSessions now => (st.sweepExpiredSessions now, [])
  | .putClientToken now t => st.settle (st.putClientToken now t)
  | .deleteClientTokenByID id => st.settle (st.deleteClientTokenByID id)
  | .applyRemote ev => st.applyStep ev
  | .pullSnapshot snap => st.pullSnapshot snap

end Store
end Discovery
