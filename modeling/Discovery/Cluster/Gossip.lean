import Mathlib.Logic.Function.Basic
import Discovery.Store.Node

namespace Discovery
open Kv Machine

/-- An operation of a node on its own store: it merges nothing. -/
def LocalOp : Type := { op : NodeStep // op.remote = [] }

/-- An event with the id of the node it came from. The store's own operations leave the id empty. -/
structure Notification where
  event : Event
  originID : GoString
  deriving DecidableEq

/-- The notification as a peer decodes it. -/
def Notification.json (m : Notification) : Notification := { m with originID := jsonString m.originID }

namespace Cluster

/-- The buffer of the channel that `Run` subscribes with. -/
def bufferSize : Nat := 256

/-- A full channel drops the event. -/
def offer (buffer : List Notification) (m : Notification) : List Notification :=
  if buffer.length < bufferSize then buffer ++ [m] else buffer

def emit (buffer : List Notification) (ms : List Notification) : List Notification :=
  ms.foldl offer buffer

/-- One node. `said` and `sent` are history variables: the events of its own operations, and the
arguments of its `broadcastEvent` calls. -/
structure Node where
  store : Store
  buffer : List Notification
  said : List Event
  sent : List Notification

/-- The nodes and every message ever handed to memberlist. Messages stay, so loss, delay, duplication and
reordering need no steps of their own. -/
structure State (ι : Type) where
  nodes : ι → Node
  wire : List Notification

/-- The ids of the nodes. -/
structure NodeIDs (ι : Type) where
  id : ι → GoString
  distinct : Function.Injective id
  nonempty : ∀ n, id n ≠ []
  ne_snapshot : ∀ n, id n ≠ "snapshot"

/-- What can happen next: a local operation, a turn of the loop in `Run`, the delivery of a message,
or the merge of one record of a pulled snapshot. The record is any event, so that the snapshot may be
of any moment and other steps may come between its records. -/
inductive Step (ι : Type)
  | localOp (n : ι) (op : LocalOp)
  | run (n : ι)
  | notifyMsg (n : ι) (i : Nat)
  | pullRecord (n : ι) (ev : Event)

def perform (node : Node) (op : LocalOp) : Node :=
  let r := node.store.nodeStep op.1
  { node with
    store := r.1
    buffer := emit node.buffer (r.2.map (⟨·, []⟩))
    said := node.said ++ r.2 }

/-- What is merged is emitted again with the origin it came with. -/
def applyRemote (node : Node) (m : Notification) : Node :=
  let r := node.store.applyStep m.event
  { node with store := r.1, buffer := emit node.buffer (r.2.map (⟨·, m.originID⟩)) }

/-- One event off the channel: another node's is skipped, the rest is broadcast under the node's id. -/
def forward (nodeID : GoString) (node : Node) : Node × List Notification :=
  match node.buffer with
  | [] => (node, [])
  | m :: buffer =>
    if m.originID ≠ [] ∧ m.originID ≠ nodeID then ({ node with buffer }, [])
    else
      let m := { m with originID := nodeID }
      ({ node with buffer, sent := node.sent ++ [m] }, [m])

variable {ι : Type} [DecidableEq ι]

def step (ids : NodeIDs ι) (c : State ι) : Step ι → State ι × List Notification
  | .localOp n op => ({ c with nodes := Function.update c.nodes n (perform (c.nodes n) op) }, [])
  | .run n =>
    let r := forward (ids.id n) (c.nodes n)
    ({ nodes := Function.update c.nodes n r.1, wire := c.wire ++ r.2.map Notification.json }, r.2)
  | .notifyMsg n i =>
    match c.wire[i]? with
    | none => (c, [])
    | some m =>
      if m.originID = ids.id n then (c, [])
      else ({ c with nodes := Function.update c.nodes n (applyRemote (c.nodes n) m) }, [])
  | .pullRecord n ev =>
    ({ c with nodes := Function.update c.nodes n (applyRemote (c.nodes n) ⟨ev, "snapshot"⟩) }, [])

def start (stores : ι → Store) : State ι where
  nodes n := { store := stores n, buffer := [], said := [], sent := [] }
  wire := []

/-- The buffer of a subscriber takes some of the notifications, in their order, and loses the others when it is
full. -/
theorem emit_eq (buffer ms : List Notification) :
    ∃ accepted, accepted.Sublist ms ∧ emit buffer ms = buffer ++ accepted := by
  induction ms generalizing buffer with
  | nil => exact ⟨[], List.Sublist.refl [], (List.append_nil buffer).symm⟩
  | cons m ms ih =>
    obtain ⟨accepted, part, same⟩ := ih (offer buffer m)
    by_cases room : buffer.length < bufferSize
    · refine ⟨m :: accepted, part.cons_cons m, ?_⟩
      have offered : offer buffer m = buffer ++ [m] := if_pos room
      rw [emit, List.foldl_cons, ← emit, same, offered, List.append_assoc, List.singleton_append]
    · refine ⟨accepted, part.cons m, ?_⟩
      have offered : offer buffer m = buffer := if_neg room
      rw [emit, List.foldl_cons, ← emit, same, offered]

/-- The events in the channel that the node's own operations emitted. -/
def own (buffer : List Notification) : List Event :=
  (buffer.filter (·.originID = [])).map Notification.event

theorem own_append (buffer ms : List Notification) : own (buffer ++ ms) = own buffer ++ own ms := by
  simp [own]

/-- Events of local operations have no origin. -/
theorem own_local (evs : List Event) : own (evs.map (⟨·, []⟩)) = evs := by
  simp [own, List.filter_map, Function.comp_def]

/-- Events that came from a peer carry its id. -/
theorem own_remote {ms : List Notification} (remote : ∀ m ∈ ms, m.originID ≠ []) : own ms = [] := by
  rw [own, List.map_eq_nil_iff, List.filter_eq_nil_iff]
  intro m member
  simpa using remote m member

theorem own_sublist {accepted ms : List Notification} (part : accepted.Sublist ms) :
    (own accepted).Sublist (own ms) :=
  (part.filter _).map _

/-- What a node has broadcast and what waits in its channel to be broadcast are, together, some of the
events its own operations emitted, and each at most once. Everything else in the channel carries the
id of another node. -/
structure Quiet (nodeID : GoString) (node : Node) : Prop where
  foreign : ∀ m ∈ node.buffer, m.originID = [] ∨ m.originID ≠ nodeID
  origin : ∀ m ∈ node.sent, m.originID = nodeID
  ledger : (node.sent.map Notification.event ++ own node.buffer).Sublist node.said

/-- A local operation announces events of this node only. -/
theorem Quiet.perform {nodeID : GoString} {node : Node} (quiet : Quiet nodeID node) (op : LocalOp) :
    Quiet nodeID (perform node op) := by
  obtain ⟨accepted, part, same⟩ := emit_eq node.buffer ((node.store.nodeStep op.1).2.map (⟨·, []⟩))
  refine ⟨?_, quiet.origin, ?_⟩
  · intro m member
    rw [Cluster.perform, same] at member
    rcases List.mem_append.mp member with old | new
    · exact quiet.foreign m old
    · obtain ⟨ev, _, rfl⟩ := List.mem_map.mp (part.subset new)
      exact Or.inl rfl
  · have fresh := own_sublist part
    rw [own_local] at fresh
    rw [Cluster.perform, same, own_append, ← List.append_assoc]
    exact quiet.ledger.append fresh

/-- A merged event goes through the channel as another node's. -/
theorem Quiet.applyRemote {nodeID : GoString} {node : Node} (quiet : Quiet nodeID node)
    {m : Notification} (named : m.originID ≠ []) (other : m.originID ≠ nodeID) :
    Quiet nodeID (applyRemote node m) := by
  obtain ⟨accepted, part, same⟩ :=
    emit_eq node.buffer ((node.store.applyStep m.event).2.map (⟨·, m.originID⟩))
  have marked : ∀ m' ∈ accepted, m'.originID = m.originID := by
    intro m' member
    obtain ⟨ev, _, rfl⟩ := List.mem_map.mp (part.subset member)
    rfl
  refine ⟨?_, quiet.origin, ?_⟩
  · intro m' member
    rw [Cluster.applyRemote, same] at member
    rcases List.mem_append.mp member with old | new
    · exact quiet.foreign m' old
    · exact Or.inr (marked m' new ▸ other)
  · have none : own accepted = [] := own_remote fun m' member => marked m' member ▸ named
    rw [Cluster.applyRemote, same, own_append, none, List.append_nil]
    exact quiet.ledger

/-- What is forwarded to the peers is stamped with the id of this node. -/
theorem Quiet.forward {nodeID : GoString} {node : Node} (quiet : Quiet nodeID node) :
    Quiet nodeID (forward nodeID node).1 ∧ ∀ m ∈ (forward nodeID node).2, m.originID = nodeID := by
  unfold Cluster.forward
  cases buffer : node.buffer with
  | nil => exact ⟨quiet, fun m member => by cases member⟩
  | cons m rest =>
    have here : m.originID = [] ∨ m.originID ≠ nodeID := quiet.foreign m (by simp [buffer])
    have later : ∀ m' ∈ rest, m'.originID = [] ∨ m'.originID ≠ nodeID := fun m' member =>
      quiet.foreign m' (by simp [buffer, member])
    have ledger := quiet.ledger
    rw [buffer] at ledger
    simp only
    split
    next skipped =>
      have none : own (m :: rest) = own rest := by simp [own, skipped.1]
      rw [none] at ledger
      exact ⟨⟨later, quiet.origin, ledger⟩, fun m' member => by cases member⟩
    next passed =>
      -- an event under the node's own id never enters the channel, so this one is local
      have mine : m.originID = [] := by
        by_contra named
        exact passed ⟨named, here.resolve_left named⟩
      have first : own (m :: rest) = m.event :: own rest := by simp [own, mine]
      constructor
      · refine ⟨later, ?_, ?_⟩
        · intro m' member
          rcases List.mem_append.mp member with old | new
          · exact quiet.origin m' old
          · obtain rfl := List.mem_singleton.mp new
            rfl
        · rw [first] at ledger
          simpa using ledger
      · intro m' member
        obtain rfl := List.mem_singleton.mp member
        rfl

theorem jsonString_ne_nil {s : GoString} (nonempty : s ≠ []) : jsonString s ≠ [] := by
  intro none
  exact nonempty (eq_of_jsonString_eq (by decide) none)

/-- Every node is quiet, and every message in flight names its sender. -/
structure Silent (ids : NodeIDs ι) (c : State ι) : Prop where
  nodes : ∀ n, Quiet (ids.id n) (c.nodes n)
  wire : ∀ m ∈ c.wire, m.originID ≠ []

omit [DecidableEq ι] in
theorem Silent.start (ids : NodeIDs ι) (stores : ι → Store) : Silent ids (start stores) where
  nodes _ := ⟨fun _ member => absurd member List.not_mem_nil,
    fun _ member => absurd member List.not_mem_nil, List.Sublist.refl []⟩
  wire _ member := absurd member List.not_mem_nil

theorem Silent.update {ids : NodeIDs ι} {c : State ι} (silent : Silent ids c) (n : ι) {node : Node}
    (quiet : Quiet (ids.id n) node) (k : ι) :
    Quiet (ids.id k) (Function.update c.nodes n node k) := by
  by_cases here : k = n
  · subst here
    rw [Function.update_self]
    exact quiet
  · rw [Function.update_of_ne here]
    exact silent.nodes k

/-- No step of the cluster makes a node send an event that another one has originated. -/
theorem Silent.step {ids : NodeIDs ι} {c : State ι} (silent : Silent ids c) (s : Step ι) :
    Silent ids (step ids c s).1 := by
  cases s with
  | localOp n op => exact ⟨silent.update n ((silent.nodes n).perform op), silent.wire⟩
  | run n =>
    obtain ⟨quiet, named⟩ := (silent.nodes n).forward
    refine ⟨silent.update n quiet, fun m member => ?_⟩
    rcases List.mem_append.mp member with old | new
    · exact silent.wire m old
    · obtain ⟨sent, forwarded, rfl⟩ := List.mem_map.mp new
      have origin := named sent forwarded
      exact jsonString_ne_nil (origin ▸ ids.nonempty n)
  | notifyMsg n i =>
    rw [Cluster.step]
    split
    next => exact silent
    next m found =>
      have named := silent.wire m (List.mem_of_getElem? found)
      split
      next => exact silent
      next other => exact ⟨silent.update n ((silent.nodes n).applyRemote named other), silent.wire⟩
  | pullRecord n ev =>
    have other : (ofString "snapshot" : GoString) ≠ ids.id n := fun same => ids.ne_snapshot n same.symm
    have named : (ofString "snapshot" : GoString) ≠ [] := by decide
    exact ⟨silent.update n ((silent.nodes n).applyRemote named other), silent.wire⟩

/-- In every run, whatever a node broadcasts carries its own id and was emitted by one of its own
operations, and it broadcasts no more often than they emit. -/
theorem gossip_does_not_echo (ids : NodeIDs ι) (stores : ι → Store) (steps : List (Step ι)) (n : ι) :
    let node := (exec (step ids) (start stores) steps).1.nodes n
    (∀ m ∈ node.sent, m.originID = ids.id n ∧ m.event ∈ node.said) ∧
      node.sent.length ≤ node.said.length := by
  intro node
  have silent : Silent ids (exec (step ids) (start stores) steps).1 :=
    exec_invariant (Silent ids) (fun c s silent _ => silent.step s) (Silent.start ids stores)
      (meets_of_forall (P := fun _ => True) fun _ _ => trivial)
  have quiet : Quiet (ids.id n) node := silent.nodes n
  have part : (node.sent.map Notification.event).Sublist node.said :=
    (List.sublist_append_left _ _).trans quiet.ledger
  constructor
  · intro m member
    exact ⟨quiet.origin m member, part.subset (List.mem_map_of_mem member)⟩
  · simpa using part.length_le

/-- Two nodes. An event of one reaches the other and goes no further. -/
def pairIDs : NodeIDs Bool where
  id b := if b then "n1" else "n2"
  distinct a b same := by
    revert a b
    decide
  nonempty := by decide
  ne_snapshot := by decide

example : let op : LocalOp := ⟨.catalog (.putService 1 { name := "s" }), rfl⟩
    let c := (exec (step pairIDs) (start fun _ => Store.empty)
      [.localOp true op, .run true, .notifyMsg false 0, .run false, .notifyMsg true 0, .run true]).1
    (c.nodes true).sent.length = 1 ∧ (c.nodes false).store.listServices.length = 1 ∧
      (c.nodes false).sent = [] := by
  decide

end Cluster
end Discovery
