import Discovery.Kv.Bucket
import Discovery.Lww

namespace Kv.Bucket
variable {α T : Type} [JsonCodec α]

/-- Reads the record under the key and writes `v` if the policy lets it replace what was found. -/
def mergePut (stamp : α → T) (replaces : T → T → Bool) (b : Bucket α) (key : Key) (v : α) :
    Bucket α :=
  if ok : KeyFits key ∧ (b.get key).all (fun w => replaces (stamp w) (stamp v)) then
    b.insert key v ok.1
  else b

/-- On a key the bucket can hold, `mergePut` is the merge of last write wins. -/
theorem get_mergePut {stamp : α → T} {replaces : T → T → Bool} (b : Bucket α) {key : Key} {v : α}
    (clean : JsonCodec.roundTrip v = v) (k : Key) :
    (b.mergePut stamp replaces key v).get k =
      if k = key ∧ KeyFits key then Lww.merge stamp replaces (b.get k) v else b.get k := by
  unfold mergePut
  by_cases here : k = key ∧ KeyFits key
  · obtain ⟨rfl, fits⟩ := here
    by_cases taken : (b.get k).all (fun w => replaces (stamp w) (stamp v)) = true
    · rw [dif_pos ⟨fits, taken⟩, get_insert, clean, if_pos rfl, if_pos ⟨rfl, fits⟩]
      cases present : b.get k with
      | none => rfl
      | some w =>
        rw [present] at taken
        exact (if_pos taken).symm
    · rw [dif_neg fun both => taken both.2, if_pos ⟨rfl, fits⟩]
      cases present : b.get k with
      | none => simp [present] at taken
      | some w =>
        rw [present] at taken
        exact (if_neg taken).symm
  · rw [if_neg here]
    split
    next both => rw [get_insert, if_neg fun same => here ⟨same, both.1⟩]
    next => rfl

end Kv.Bucket
