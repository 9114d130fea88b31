import Discovery.Kv.Merge
import Discovery.Store.Remote

namespace Discovery
open Kv

/-- The kinds of record that replicate by last write wins. -/
inductive Kind
  | service
  | inst
  | affinity
  | token
  deriving DecidableEq

structure RecordKey where
  kind : Kind
  key : Key
  deriving DecidableEq

inductive Record
  | service (svc : Service)
  | inst (i : Instance)
  | affinity (a : Affinity)
  | token (t : ClientToken)
  deriving DecidableEq

def Record.updatedAt : Record → Time
  | .service svc => svc.updatedAt
  | .inst i => i.updatedAt
  | .affinity a => a.updatedAt
  | .token t => t.updatedAt

/-- The record an upsert event carries and the key it goes to. -/
def Event.carried : Event → Option (RecordKey × Record)
  | .serviceUpserted p => some (⟨.service, p.json.name⟩, .service p.json)
  | .instanceUpserted p | .instanceStatus p =>
    some (⟨.inst, instanceKey p.json.serviceName p.json.id⟩, .inst p.json)
  | .affinityUpserted p => some (⟨.affinity, affinityKey p.json.serviceName p.json.token⟩, .affinity p.json)
  | .tokenUpserted p => some (⟨.token, p.json.token⟩, .token p.json)
  | _ => none

/-- The part of `carried` whose key bbolt can hold. -/
def Event.record (ev : Event) : Option (RecordKey × Record) :=
  ev.carried.filter (fun e => KeyFits e.1.key)

theorem carried_of_record {e : Event} {k : RecordKey} {r : Record}
    (record : e.record = some (k, r)) : e.carried = some (k, r) :=
  (Option.filter_eq_some_iff.mp record).1

theorem record_of_carried {ev : Event} {k : RecordKey} {r : Record}
    (carried : ev.carried = some (k, r)) (fits : KeyFits k.key) : ev.record = some (k, r) := by
  rw [Event.record, carried]
  simp [fits]

/-- Whether an incoming time replaces a stored one. Tokens keep only what is newer, the other kinds
whatever is not older. -/
def Kind.replaces : Kind → Time → Time → Bool
  | .token => fun stored incoming => !(incoming < stored)
  | _ => fun stored incoming => stored < incoming

theorem settles_unless_after : Lww.Settles (fun s t : Time => !(decide (t < s))) where
  newer less := by simpa using Int.le_of_lt less
  older less := by simpa using less

theorem settles_if_before : Lww.Settles (fun s t : Time => decide (s < t)) where
  newer less := by simpa using less
  older less := by simpa using Int.le_of_lt less

/-- Each kind of record decides by the stamps alone, in one of two ways: tokens of one time replace each other,
and the other records stay. -/
theorem Kind.settles (k : Kind) : Lww.Settles k.replaces := by
  cases k with
  | token => exact settles_unless_after
  | service => exact settles_if_before
  | inst => exact settles_if_before
  | affinity => exact settles_if_before

namespace Store

def lookup (st : Store) (k : RecordKey) : Option Record :=
  match k.kind with
  | .service => (st.services.get k.key).map .service
  | .inst => (st.instances.get k.key).map .inst
  | .affinity => (st.affinity.get k.key).map .affinity
  | .token => (st.clientTokens.get k.key).map .token

/-- The read-compare-write of the three `Before` merges, on the bucket `b` that `f` puts back. -/
theorem settle_merge {α : Type} [JsonCodec α] {st : Store} {b : Bucket α} {stamp : α → Time}
    {key : Key} {v : α} {evs : List Event} (f : Bucket α → Store) (back : f b = st) :
    (st.settle (if keepsExisting ((b.get key).map stamp) (stamp v) then
        (.ok ⟨(), st, []⟩ : Except Err (Outcome Unit))
      else do
        let c ← write b key v
        .ok ⟨(), f c, evs⟩)).1 =
      f (b.mergePut stamp (fun stored incoming => stored < incoming) key v) := by
  have keeps : keepsExisting ((b.get key).map stamp) (stamp v) = true ↔
      ¬(b.get key).all (fun w => decide (stamp w < stamp v)) = true := by
    cases b.get key <;> simp [keepsExisting]
  unfold Bucket.mergePut
  split
  next kept =>
    rw [dif_neg fun both => keeps.mp kept both.2, back]
    rfl
  next replaced =>
    have taken := not_not.mp (mt keeps.mpr replaced)
    by_cases fits : KeyFits key
    · rw [dif_pos ⟨fits, taken⟩, write_ok b v fits]
      rfl
    · obtain ⟨e, run⟩ := write_error b v fits
      rw [dif_neg fun both => fits both.1, run, back]
      rfl

theorem settle_putClientTokenRaw (st : Store) (t : ClientToken) (evs : List Event) :
    (st.settle (do
        let st ← st.putClientTokenRaw t
        (.ok ⟨(), st, evs⟩ : Except Err (Outcome Unit)))).1 =
      { st with
        clientTokens := st.clientTokens.mergePut ClientToken.updatedAt Kind.token.replaces t.token t } := by
  unfold putClientTokenRaw Bucket.mergePut
  have stays : (st.clientTokens.get t.token).any (t.updatedAt < ·.updatedAt) = true ↔
      ¬(st.clientTokens.get t.token).all
        (fun w => Kind.token.replaces w.updatedAt t.updatedAt) = true := by
    cases st.clientTokens.get t.token <;> simp [Kind.replaces]
  split
  next kept =>
    rw [dif_neg fun both => stays.mp kept both.2]
    rfl
  next replaced =>
    have taken := not_not.mp (mt stays.mpr replaced)
    by_cases fits : KeyFits t.token
    · rw [dif_pos ⟨fits, taken⟩, write_ok _ t fits]
      rfl
    · obtain ⟨e, run⟩ := write_error st.clientTokens t fits
      rw [dif_neg fun both => fits both.1, run]
      rfl

/-- Each upsert event is one merge into one bucket. -/
theorem apply_serviceUpserted (st : Store) (p : Service) :
    st.apply (.serviceUpserted p) = { st with
      services := st.services.mergePut Service.updatedAt Kind.service.replaces p.json.name p.json } :=
  settle_merge (fun services => { st with services }) rfl

theorem apply_instanceUpserted (st : Store) (p : Instance) :
    st.apply (.instanceUpserted p) = { st with
      instances := st.instances.mergePut Instance.updatedAt Kind.inst.replaces
        (instanceKey p.json.serviceName p.json.id) p.json } :=
  settle_merge (fun instances => { st with instances }) rfl

/-- A status event carries the whole record, and is merged like an upsert. -/
theorem apply_instanceStatus (st : Store) (p : Instance) :
    st.apply (.instanceStatus p) = st.apply (.instanceUpserted p) := by
  rw [apply_instanceUpserted]
  exact settle_merge (fun instances => { st with instances }) rfl

theorem apply_affinityUpserted (st : Store) (p : Affinity) :
    st.apply (.affinityUpserted p) = { st with
      affinity := st.affinity.mergePut Affinity.updatedAt Kind.affinity.replaces
        (affinityKey p.json.serviceName p.json.token) p.json } :=
  settle_merge (fun affinity => { st with affinity }) rfl

theorem apply_tokenUpserted (st : Store) (p : ClientToken) :
    st.apply (.tokenUpserted p) = { st with
      clientTokens := st.clientTokens.mergePut ClientToken.updatedAt Kind.token.replaces p.json.token
        p.json } :=
  settle_putClientTokenRaw st p.json _

theorem map_get_mergePut {α : Type} [JsonCodec α] (stamp : α → Time) (f : α → Record)
    {replaces : Time → Time → Bool} (b : Bucket α) {key : Key} {v : α}
    (clean : JsonCodec.roundTrip v = v) (stamps : ∀ v, (f v).updatedAt = stamp v) (k : Key) :
    ((b.mergePut stamp replaces key v).get k).map f =
      if k = key ∧ KeyFits key then Lww.merge Record.updatedAt replaces ((b.get k).map f) (f v)
      else (b.get k).map f := by
  rw [b.get_mergePut clean]
  split
  · exact Lww.merge_map f stamps (b.get k) v
  · rfl

/-- An upsert merges its record into its key and leaves every other record alone. -/
theorem lookup_apply {ev : Event} {k₀ : RecordKey} {r : Record} (carried : ev.carried = some (k₀, r))
    (st : Store) (k : RecordKey) :
    (st.apply ev).lookup k =
      if k = k₀ ∧ KeyFits k₀.key then
        Lww.merge Record.updatedAt k.kind.replaces (st.lookup k) r
      else st.lookup k := by
  obtain ⟨kind, key⟩ := k
  cases ev with
  | serviceUpserted p =>
    cases carried
    rw [apply_serviceUpserted]
    cases kind with
    | service =>
      simpa [lookup] using
        map_get_mergePut Service.updatedAt .service st.services p.json_idem (fun _ => rfl) key
    | _ => simp [lookup]
  | instanceUpserted p =>
    cases carried
    rw [apply_instanceUpserted]
    cases kind with
    | inst =>
      simpa [lookup] using
        map_get_mergePut Instance.updatedAt .inst st.instances p.json_idem (fun _ => rfl) key
    | _ => simp [lookup]
  | instanceStatus p =>
    cases carried
    rw [apply_instanceStatus, apply_instanceUpserted]
    cases kind with
    | inst =>
      simpa [lookup] using
        map_get_mergePut Instance.updatedAt .inst st.instances p.json_idem (fun _ => rfl) key
    | _ => simp [lookup]
  | affinityUpserted p =>
    cases carried
    rw [apply_affinityUpserted]
    cases kind with
    | affinity =>
      simpa [lookup] using
        map_get_mergePut Affinity.updatedAt .affinity st.affinity p.json_idem (fun _ => rfl) key
    | _ => simp [lookup]
  | tokenUpserted p =>
    cases carried
    rw [apply_tokenUpserted]
    cases kind with
    | token =>
      simpa [lookup] using
        map_get_mergePut ClientToken.updatedAt .token st.clientTokens p.json_idem (fun _ => rfl) key
    | _ => simp [lookup]
  | _ => cases carried

/-- `ApplyRemote` on upserts is a last-write-wins replica. -/
theorem apply_merges {ev : Event} (upsert : ev.carried.isSome) (st : Store) :
    Lww.Merges Record.updatedAt (fun k : RecordKey => k.kind.replaces) lookup apply Event.record
      st ev := by
  obtain ⟨⟨k₀, r⟩, carried⟩ := Option.isSome_iff_exists.mp upsert
  intro k
  rw [lookup_apply carried, Event.record, carried]
  by_cases fits : KeyFits k₀.key
  · simp only [fits, and_true, Option.filter_some, decide_true, if_true]
  · simp only [fits, and_false, if_false, Option.filter_some, decide_false, Bool.false_eq_true]

end Store
end Discovery
