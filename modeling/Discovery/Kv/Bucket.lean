import Mathlib.Data.List.Basic
import Mathlib.Tactic.Common

namespace Kv

/-- `roundTrip v` is what comes back of `v` after it was marshalled to JSON. -/
class JsonCodec (α : Type) where
  roundTrip : α → α

class LawfulJsonCodec (α : Type) [JsonCodec α] : Prop where
  idem : ∀ a : α, JsonCodec.roundTrip (JsonCodec.roundTrip a) = JsonCodec.roundTrip a

abbrev Key := List UInt8

def maxKeySize : Nat := 32768

inductive PutError
  | keyRequired
  | keyTooLarge
  deriving DecidableEq, Repr

def KeyFits (k : Key) : Prop := k ≠ [] ∧ k.length ≤ maxKeySize

instance (k : Key) : Decidable (KeyFits k) :=
  inferInstanceAs (Decidable (k ≠ [] ∧ k.length ≤ maxKeySize))

/-- A bucket of JSON values in key order. Every key was accepted by `put` and every value is
what some marshalled value reads back as. -/
structure Bucket (α : Type) [JsonCodec α] where
  entries : Std.ExtTreeMap Key α
  fits : ∀ (k : Key) (v : α), entries[k]? = some v → KeyFits k
  stored : ∀ (k : Key) (v : α), entries[k]? = some v → ∃ w, JsonCodec.roundTrip w = v

namespace Bucket
variable {α : Type} [JsonCodec α]

instance [DecidableEq α] : DecidableEq (Bucket α) := fun b c =>
  decidable_of_iff (b.entries = c.entries)
    ⟨fun h => by cases b; cases c; simpa using h, fun h => h ▸ rfl⟩

def empty : Bucket α := ⟨∅, by simp, by simp⟩

def get (b : Bucket α) (k : Key) : Option α := b.entries[k]?

def insert (b : Bucket α) (k : Key) (v : α) (ok : KeyFits k) : Bucket α where
  entries := b.entries.insert k (JsonCodec.roundTrip v)
  fits j w h := by
    rw [Std.ExtTreeMap.getElem?_insert] at h
    split at h
    next same => exact Std.LawfulEqCmp.eq_of_compare same ▸ ok
    next => exact b.fits j w h
  stored j w h := by
    rw [Std.ExtTreeMap.getElem?_insert] at h
    split at h
    · exact ⟨v, Option.some.inj h⟩
    · exact b.stored j w h

def put (b : Bucket α) (k : Key) (v : α) : Except PutError (Bucket α) :=
  if empty : k = [] then .error .keyRequired
  else if large : maxKeySize < k.length then .error .keyTooLarge
  else .ok (b.insert k v ⟨empty, Nat.le_of_not_lt large⟩)

def delete (b : Bucket α) (k : Key) : Bucket α where
  entries := b.entries.erase k
  fits j w h := by
    rw [Std.ExtTreeMap.getElem?_erase] at h
    split at h
    · simp at h
    · exact b.fits j w h
  stored j w h := by
    rw [Std.ExtTreeMap.getElem?_erase] at h
    split at h
    · simp at h
    · exact b.stored j w h

/-- All entries, in the order `ForEach` visits them. -/
def toList (b : Bucket α) : List (Key × α) := b.entries.toList

def values (b : Bucket α) : List α := b.toList.map Prod.snd

def putAll (b : Bucket α) (es : List (Key × α)) : Except PutError (Bucket α) :=
  es.foldlM (fun b e => b.put e.1 e.2) b

def deleteAll (b : Bucket α) (ks : List Key) : Bucket α := ks.foldl delete b

/-- Buckets that read alike are equal: a bucket is the sorted list of its entries. -/
@[ext] theorem ext {b c : Bucket α} (same : ∀ k, b.get k = c.get k) : b = c := by
  have entries : b.entries = c.entries := Std.ExtTreeMap.ext_getElem? same
  cases b
  cases c
  simpa using entries

@[simp] theorem get_empty (k : Key) : (empty : Bucket α).get k = none := by
  simp [empty, get]

/-- Only keys of the allowed sizes are stored. -/
theorem fits_of_get {b : Bucket α} {k : Key} {v : α} (present : b.get k = some v) : KeyFits k :=
  b.fits k v present

/-- A stored value marshals to itself. -/
theorem clean [LawfulJsonCodec α] {b : Bucket α} {k : Key} {v : α} (present : b.get k = some v) :
    JsonCodec.roundTrip v = v := by
  obtain ⟨w, rfl⟩ := b.stored k v present
  exact LawfulJsonCodec.idem w

/-- A write reads back as JSON keeps the value, and leaves the other keys. -/
theorem get_insert (b : Bucket α) (k j : Key) (v : α) (ok : KeyFits k) :
    (b.insert k v ok).get j = if j = k then some (JsonCodec.roundTrip v) else b.get j := by
  simp only [get, insert, Std.ExtTreeMap.getElem?_insert, Std.LawfulEqCmp.compare_eq_iff_eq]
  simp only [eq_comm]

/-- `Put` fails for an empty key and for one that is too large, and for no other reason. -/
theorem put_eq_ok {b c : Bucket α} {k : Key} {v : α} :
    b.put k v = .ok c ↔ ∃ ok : KeyFits k, c = b.insert k v ok := by
  unfold put
  constructor
  · intro run
    split at run
    · simp at run
    · split at run
      · simp at run
      · exact ⟨_, (Except.ok.inj run).symm⟩
  · rintro ⟨⟨nonempty, small⟩, rfl⟩
    rw [dif_neg nonempty, dif_neg (Nat.not_lt.mpr small)]

theorem put_ok (b : Bucket α) {k : Key} (v : α) (ok : KeyFits k) :
    b.put k v = .ok (b.insert k v ok) :=
  put_eq_ok.mpr ⟨ok, rfl⟩

theorem get_put {b c : Bucket α} {k : Key} {v : α} (run : b.put k v = .ok c) (j : Key) :
    c.get j = if j = k then some (JsonCodec.roundTrip v) else b.get j := by
  obtain ⟨ok, rfl⟩ := put_eq_ok.mp run
  exact b.get_insert k j v ok

theorem get_put_self {b c : Bucket α} {k : Key} {v : α} (run : b.put k v = .ok c) :
    c.get k = some (JsonCodec.roundTrip v) := by
  rw [get_put run, if_pos rfl]

theorem get_put_ne {b c : Bucket α} {k j : Key} {v : α} (run : b.put k v = .ok c) (other : j ≠ k) :
    c.get j = b.get j := by
  rw [get_put run, if_neg other]

theorem putAll_cons (b : Bucket α) (e : Key × α) (es : List (Key × α)) :
    b.putAll (e :: es) = (b.put e.1 e.2).bind (·.putAll es) := rfl

/-- A series of puts succeeds exactly if the bucket takes every key. -/
theorem putAll_ok_iff {b : Bucket α} {es : List (Key × α)} :
    (∃ c, b.putAll es = .ok c) ↔ ∀ e ∈ es, KeyFits e.1 := by
  induction es generalizing b with
  | nil => exact ⟨fun _ _ member => absurd member List.not_mem_nil, fun _ => ⟨b, rfl⟩⟩
  | cons e es ih =>
    rw [putAll_cons, List.forall_mem_cons]
    constructor
    · intro ⟨c, run⟩
      cases first : b.put e.1 e.2 with
      | error _ => simp [first, Except.bind] at run
      | ok d =>
        rw [first] at run
        exact ⟨(put_eq_ok.mp first).1, ih.mp ⟨c, run⟩⟩
    · intro ⟨fits, rest⟩
      rw [b.put_ok e.2 fits]
      exact ih.mpr rest

/-- After several writes a key holds the value of one of them, or what it held before. -/
theorem get_putAll {b c : Bucket α} {es : List (Key × α)} (run : b.putAll es = .ok c) (k : Key) :
    (∃ e ∈ es, e.1 = k ∧ c.get k = some (JsonCodec.roundTrip e.2)) ∨
      k ∉ es.map Prod.fst ∧ c.get k = b.get k := by
  induction es generalizing b with
  | nil =>
    obtain rfl := Except.ok.inj run
    exact Or.inr ⟨List.not_mem_nil, rfl⟩
  | cons e es ih =>
    rw [putAll_cons] at run
    cases first : b.put e.1 e.2 with
    | error _ => simp [first, Except.bind] at run
    | ok d =>
      rw [first] at run
      rcases ih run with ⟨f, member, key, value⟩ | ⟨fresh, value⟩
      · exact Or.inl ⟨f, List.mem_cons_of_mem _ member, key, value⟩
      · -- the last put under the key decides its value
        by_cases here : k = e.1
        · refine Or.inl ⟨e, List.mem_cons_self, here.symm, ?_⟩
          rw [value, here, get_put_self first]
        · refine Or.inr ⟨?_, value.trans (get_put_ne first here)⟩
          rw [List.map_cons, List.mem_cons]
          exact fun member => member.elim here fresh

theorem get_delete (b : Bucket α) (k j : Key) :
    (b.delete k).get j = if j = k then none else b.get j := by
  simp only [get, delete, Std.ExtTreeMap.getElem?_erase, Std.LawfulEqCmp.compare_eq_iff_eq]
  simp only [eq_comm]

/-- Deleting listed keys leaves all others. -/
theorem get_deleteAll (b : Bucket α) (ks : List Key) (j : Key) :
    (b.deleteAll ks).get j = if j ∈ ks then none else b.get j := by
  induction ks generalizing b with
  | nil => simp [deleteAll]
  | cons k ks ih =>
    have step : b.deleteAll (k :: ks) = (b.delete k).deleteAll ks := rfl
    rw [step, ih, get_delete]
    by_cases later : j ∈ ks <;> by_cases now : j = k <;> simp [later, now]

theorem mem_toList {b : Bucket α} {k : Key} {v : α} : (k, v) ∈ b.toList ↔ b.get k = some v :=
  Std.ExtTreeMap.mem_toList_iff_getElem?_eq_some

/-- A cursor visits the keys in their order, each once. -/
theorem toList_sorted (b : Bucket α) :
    b.toList.Pairwise (fun e f => compare e.1 f.1 = .lt) :=
  Std.ExtTreeMap.ordered_keys_toList

/-- The listed values are those stored under some key. -/
theorem mem_values {b : Bucket α} {v : α} : v ∈ b.values ↔ ∃ k, b.get k = some v := by
  simp only [values, List.mem_map, Prod.exists, exists_eq_right, mem_toList]

end Bucket
end Kv
