import Discovery.Model.Service
import Discovery.Model.Instance
import Discovery.Model.Tokens
import Discovery.Model.Config

namespace Discovery
open Kv

/-- A change notification with the payload its type carries. -/
inductive Event
  | serviceUpserted (svc : Service)
  | serviceDeleted (service : GoString)
  | instanceUpserted (inst : Instance)
  | instanceStatus (inst : Instance)
  | instanceDeleted (service id : GoString)
  | affinityUpserted (a : Affinity)
  | affinityDeleted (a : Affinity)
  | configApplied (rev : ConfigRevision)
  | configDraftSaved (d : ConfigDraft)
  | configDraftDeleted (scope : ConfigScope)
  | configDeleted (scope : ConfigScope)
  | tokenUpserted (t : ClientToken)
  | tokenDeleted (t : ClientToken)
  deriving DecidableEq

def Event.isDeletion : Event → Bool
  | .serviceDeleted _ | .instanceDeleted _ _ | .affinityDeleted _ | .configDraftDeleted _
  | .configDeleted _ | .tokenDeleted _ => true
  | _ => false

/-- The buckets of the bbolt file. The config bucket is kept as its three disjoint key ranges,
`active/`, `rev/` and `draft/`. -/
structure Store where
  services : Bucket Service
  instances : Bucket Instance
  affinity : Bucket Affinity
  configActive : Bucket ConfigRevision
  configRevs : Bucket ConfigRevision
  configDrafts : Bucket ConfigDraft
  clientTokens : Bucket ClientToken
  sessions : Bucket Session
  deriving DecidableEq

/-- A committed operation: what it returns, the store it leaves and what it emits to the
subscribers. A failed one changes and emits nothing. -/
structure Outcome (α : Type) where
  value : α
  store : Store
  events : List Event := []

theorem bind_eq_ok {ε α β : Type} {x : Except ε α} {f : α → Except ε β} {b : β} :
    (x >>= f) = .ok b ↔ ∃ a, x = .ok a ∧ f a = .ok b := by
  cases x with
  | error e => simp [bind, Except.bind]
  | ok a => simp [bind, Except.bind]

theorem mapError_eq_ok {ε ε' α : Type} {x : Except ε α} {f : ε → ε'} {a : α} :
    x.mapError f = .ok a ↔ x = .ok a := by
  cases x <;> simp [Except.mapError]

/-- `b.Put` in an update transaction. -/
def write {α : Type} [JsonCodec α] (b : Bucket α) (k : Key) (v : α) : Except Err (Bucket α) :=
  (b.put k v).mapError .put

theorem write_eq_ok {α : Type} [JsonCodec α] {b c : Bucket α} {k : Key} {v : α} :
    write b k v = .ok c ↔ ∃ ok : KeyFits k, c = b.insert k v ok := by
  rw [← Bucket.put_eq_ok, write]
  cases b.put k v <;> simp [Except.mapError]

theorem write_ok {α : Type} [JsonCodec α] (b : Bucket α) {k : Key} (v : α) (ok : KeyFits k) :
    write b k v = .ok (b.insert k v ok) :=
  write_eq_ok.mpr ⟨ok, rfl⟩

theorem write_error {α : Type} [JsonCodec α] (b : Bucket α) {k : Key} (v : α) (large : ¬KeyFits k) :
    ∃ e, write b k v = .error e := by
  cases run : write b k v with
  | error e => exact ⟨e, rfl⟩
  | ok c => exact absurd (write_eq_ok.mp run).1 large

/-- `b.Get`, a missing key being `ErrNotFound`. -/
def read {α : Type} [JsonCodec α] (b : Bucket α) (k : Key) : Except Err α :=
  match b.get k with
  | some v => .ok v
  | none => .error .notFound

theorem read_eq_ok {α : Type} [JsonCodec α] {b : Bucket α} {k : Key} {v : α} :
    read b k = .ok v ↔ b.get k = some v := by
  unfold read
  cases b.get k <;> simp

/-- The prefix of a service's instance keys. -/
def servicePrefix (service : GoString) : Key := service ++ [slash]

theorem servicePrefix_prefix_instanceKey (service id : GoString) :
    servicePrefix service <+: instanceKey service id :=
  ⟨id, by simp [servicePrefix, instanceKey]⟩

namespace Store

def empty : Store where
  services := Bucket.empty
  instances := Bucket.empty
  affinity := Bucket.empty
  configActive := Bucket.empty
  configRevs := Bucket.empty
  configDrafts := Bucket.empty
  clientTokens := Bucket.empty
  sessions := Bucket.empty

/-- Keys of the stores that hold one record. -/
theorem fits_s : KeyFits "s" := by decide

theorem fits_s_i : KeyFits "s/i" := by decide

/-- The store and the events after an operation; one that fails does nothing. -/
def settle {α : Type} (st : Store) : Except Err (Outcome α) → Store × List Event
  | .ok r => (r.store, r.events)
  | .error _ => (st, [])

/-- A property of the store that holds now and after every successful outcome holds of the settled
step. -/
theorem settle_store {α : Type} {st : Store} {x : Except Err (Outcome α)} (P : Store → Prop)
    (failed : P st) (done : ∀ r, x = .ok r → P r.store) : P (st.settle x).1 := by
  cases x with
  | error e => exact failed
  | ok r => exact done r rfl

theorem settle_of_events {α : Type} {st : Store} {x : Except Err (Outcome α)}
    (success : (st.settle x).2 ≠ []) : ∃ r, x = .ok r ∧ st.settle x = (r.store, r.events) := by
  cases x with
  | error e => exact absurd rfl success
  | ok r => exact ⟨r, rfl, rfl⟩

/-- An operation that says nothing does nothing, where that holds of its outcomes. -/
theorem settle_of_silent {α : Type} {st : Store} {x : Except Err (Outcome α)}
    (quiet : ∀ r, x = .ok r → r.events = [] → r.store = st) (silent : (st.settle x).2 = []) :
    (st.settle x).1 = st := by
  cases x with
  | error e => rfl
  | ok r => exact quiet r rfl silent

/-- An operation of one write. -/
theorem settle_write {α β : Type} [JsonCodec α] (st : Store) (b : Bucket α) (k : Key) (v : α)
    (next : Bucket α → Outcome β) : (st.settle (write b k v >>= fun b => .ok (next b))).1 =
      if fits : KeyFits k then (next (b.insert k v fits)).store else st := by
  by_cases fits : KeyFits k
  · rw [dif_pos fits, write_ok b v fits]
    rfl
  · obtain ⟨e, failed⟩ := write_error b v fits
    rw [dif_neg fits, failed]
    rfl

end Store
end Discovery
