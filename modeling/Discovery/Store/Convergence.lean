import Discovery.Store.Replica

namespace Discovery
open Kv
namespace Store

/-- The four record buckets that upsert events write. -/
def SameRecords (st st' : Store) : Prop :=
  st.services = st'.services ∧ st.instances = st'.instances ∧ st.affinity = st'.affinity ∧
    st.clientTokens = st'.clientTokens

theorem sameRecords_of_lookup {st st' : Store} (same : ∀ k, st.lookup k = st'.lookup k) :
    SameRecords st st' := by
  refine ⟨Bucket.ext fun key => ?_, Bucket.ext fun key => ?_, Bucket.ext fun key => ?_,
    Bucket.ext fun key => ?_⟩
  · exact Option.map_injective (fun _ _ => Record.service.inj) (same ⟨.service, key⟩)
  · exact Option.map_injective (fun _ _ => Record.inst.inj) (same ⟨.inst, key⟩)
  · exact Option.map_injective (fun _ _ => Record.affinity.inj) (same ⟨.affinity, key⟩)
  · exact Option.map_injective (fun _ _ => Record.token.inj) (same ⟨.token, key⟩)

/-- Two different events for one record never carry the same time, and no event carries the time of
the record it finds. -/
structure SeparateTimes (st : Store) (es : List Event) : Prop where
  events : ∀ e ∈ es, ∀ f ∈ es, ∀ k r s, e.carried = some (k, r) → f.carried = some (k, s) → e ≠ f →
    r.updatedAt ≠ s.updatedAt
  initial : ∀ e ∈ es, ∀ k r s, e.carried = some (k, r) → st.lookup k = some s →
    s.updatedAt ≠ r.updatedAt

theorem SeparateTimes.separate {st : Store} {es : List Event} (times : SeparateTimes st es)
    (k : RecordKey) :
    Lww.Separate Record.updatedAt (Lww.candidates lookup Event.record st es k) := by
  intro r left s right equal
  rcases left with stored | ⟨e, member, record⟩
  · rcases right with stored' | ⟨f, member', record'⟩
    · exact Option.some.inj (stored.symm.trans stored')
    · exact absurd equal (times.initial f member' k s r (carried_of_record record') stored)
  · rcases right with stored' | ⟨f, member', record'⟩
    · exact absurd equal.symm (times.initial e member k r s (carried_of_record record) stored')
    · by_cases same : e = f
      · subst same
        have pair := Option.some.inj (record.symm.trans record')
        exact (Prod.mk.inj pair).2
      · exact absurd equal (times.events e member f member' k r s (carried_of_record record)
          (carried_of_record record') same)

/-- Upserts merge independently of order and repetition: two sequences with the same events leave
the same records, for each key the one with the greatest `UpdatedAt`. -/
theorem upserts_converge {st : Store} {es fs : List Event}
    (upserts : ∀ e ∈ es, e.carried.isSome) (sameEvents : ∀ e, e ∈ es ↔ e ∈ fs)
    (times : SeparateTimes st es) :
    SameRecords (st.applyAll es) (st.applyAll fs) ∧
      ∀ k, Lww.IsNewest Record.updatedAt
        {r | st.lookup k = some r ∨ ∃ e ∈ es, e.record = some (k, r)} ((st.applyAll es).lookup k) := by
  have merges (s : Store) (e : Event) (member : e ∈ es) := apply_merges (upserts e member) s
  have settles (k : RecordKey) := k.kind.settles
  constructor
  · apply sameRecords_of_lookup
    intro k
    exact Lww.agree_of_merges settles st sameEvents merges (times.separate k)
  · intro k
    exact Lww.newest_of_merges settles st merges k

/-- Two versions of one service, delivered once each and again with a repetition the other way. -/
theorem upserts_converge_two :
    SameRecords
      (empty.applyAll [.serviceUpserted { name := "s", updatedAt := 1 },
        .serviceUpserted { name := "s", updatedAt := 2 }])
      (empty.applyAll [.serviceUpserted { name := "s", updatedAt := 2 },
        .serviceUpserted { name := "s", updatedAt := 1 },
        .serviceUpserted { name := "s", updatedAt := 2 }]) := by
  refine (upserts_converge ?_ ?_ ⟨?_, ?_⟩).1
  · simp [Event.carried]
  · intro e
    simp only [List.mem_cons, List.not_mem_nil, or_false]
    tauto
  · intro e left f right k r s hr hs differs
    simp only [List.mem_cons, List.not_mem_nil, or_false] at left right
    rcases left with rfl | rfl <;> rcases right with rfl | rfl <;> cases hr <;> cases hs
    · exact absurd rfl differs
    · decide
    · decide
    · exact absurd rfl differs
  · intro e _ k r s _ stored
    obtain ⟨kind, key⟩ := k
    cases kind <;> simp [lookup, empty] at stored

end Store
end Discovery
