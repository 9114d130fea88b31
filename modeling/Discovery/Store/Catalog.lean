import Discovery.Machine
import Discovery.Store.Rename

namespace Discovery
open Kv

/-- The local operations on services and instances, each with the clock it reads. -/
inductive CatalogOp
  | putService (now : Time) (svc : Service)
  | deleteService (name : GoString)
  | renameService (now : Time) (oldName newName : GoString)
  | putInstance (now : Time) (inst : Instance)
  | heartbeat (now : Time) (service id status : GoString)
  | setLastCheck (service id : GoString) (check : InstanceCheck)
  | setStatus (now : Time) (service id status : GoString)
  | setBlocked (now : Time) (service id : GoString) (blocked : Bool)
  | deleteInstance (service id : GoString)
  deriving DecidableEq

namespace Store

def catalogStep (st : Store) : CatalogOp → Store × List Event
  | .putService now svc => st.settle (st.putService now svc)
  | .deleteService name => st.settle (st.deleteService name)
  | .renameService now oldName newName => st.settle (st.renameService now oldName newName)
  | .putInstance now inst => st.settle (st.putInstance now inst)
  | .heartbeat now service id status => st.settle (st.heartbeat now service id status)
  | .setLastCheck service id check => st.settle (st.setLastCheck service id check)
  | .setStatus now service id status => st.settle (st.setStatus now service id status)
  | .setBlocked now service id blocked => st.settle (st.setBlocked now service id blocked)
  | .deleteInstance service id => st.settle (.ok (st.deleteInstance service id))

end Store
end Discovery
