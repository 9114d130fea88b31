import Discovery.Kv.Scan
import Mathlib.Algebra.Group.Nat.Defs
import Mathlib.Data.List.Perm.Basic

namespace Kv

/-- The lowest `w` bytes of the number, highest first. -/
def bigEndian : Nat → Nat → Key
  | 0, _ => []
  | w + 1, n => UInt8.ofNat (n / 256 ^ w) :: bigEndian w (n % 256 ^ w)

@[simp] theorem bigEndian_length (w n : Nat) : (bigEndian w n).length = w := by
  induction w generalizing n with
  | zero => rfl
  | succ w ih => rw [bigEndian, List.length_cons, ih]

theorem compare_ofNat {m n : Nat} (less : m < n) (byte : n < 256) :
    compare (UInt8.ofNat m) (UInt8.ofNat n) = .lt := by
  rw [Std.compare_eq_lt, UInt8.lt_iff_toNat_lt, UInt8.toNat_ofNat', UInt8.toNat_ofNat']
  omega

/-- The keys of smaller numbers come first, whatever follows the number. -/
theorem compare_bigEndian {w m n : Nat} (less : m < n) (fits : n < 256 ^ w) (s t : Key) :
    compare (bigEndian w m ++ s) (bigEndian w n ++ t) = .lt := by
  induction w generalizing m n with
  | zero => omega
  | succ w ih =>
    have positive : 0 < 256 ^ w := Nat.pow_pos (by decide)
    have top : n / 256 ^ w < 256 := by
      rw [Nat.div_lt_iff_lt_mul positive]
      rwa [Nat.pow_succ, Nat.mul_comm] at fits
    simp only [bigEndian, List.cons_append, List.compare_cons_cons]
    rcases (Nat.div_le_div_right less.le : m / 256 ^ w ≤ n / 256 ^ w).lt_or_eq with first | same
    · rw [compare_ofNat first top]
      rfl
    · simp only [same, Std.ReflCmp.compare_self, Ordering.then]
      have lower : m % 256 ^ w < n % 256 ^ w := by
        have splitM := Nat.div_add_mod m (256 ^ w)
        have splitN := Nat.div_add_mod n (256 ^ w)
        rw [same] at splitM
        omega
      exact ih lower (Nat.mod_lt n positive)

namespace Bucket
variable {α : Type} [JsonCodec α]

/-- The cursor loop `for k, v := c.Last(); k != nil && len(out) < limit; k, v = c.Prev()` over the
entries in front of the cursor: collects the values that `keep` lets through. -/
def collect (keep : α → Bool) : Nat → List (Key × α) → List α
  | 0, _ => []
  | _ + 1, [] => []
  | limit + 1, (_, v) :: rest =>
    if keep v then v :: collect keep limit rest else collect keep (limit + 1) rest

/-- From the last key backwards. -/
def newest (b : Bucket α) (keep : α → Bool) (limit : Nat) : List α := collect keep limit b.toList.reverse

omit [JsonCodec α] in
theorem collect_eq (keep : α → Bool) (limit : Nat) (entries : List (Key × α)) :
    collect keep limit entries = ((entries.map Prod.snd).filter keep).take limit := by
  induction entries generalizing limit with
  | nil => cases limit <;> rfl
  | cons e rest ih =>
    cases limit with
    | zero => rfl
    | succ limit =>
      by_cases kept : keep e.2 = true
      · simp [collect, kept, ih]
      · simp [collect, kept, ih]

/-- A new key adds one entry. -/
theorem toList_insert_perm {b : Bucket α} {k : Key} (v : α) (ok : KeyFits k) (new : b.get k = none) :
    (b.insert k v ok).toList.Perm ((k, JsonCodec.roundTrip v) :: b.toList) := by
  have fresh : (k, JsonCodec.roundTrip v) ∉ b.toList := by
    intro member
    rw [mem_toList, new] at member
    cases member
  refine (List.perm_ext_iff_of_nodup (sorted_nodup (toList_sorted _))
    (List.nodup_cons.mpr ⟨fresh, sorted_nodup (toList_sorted b)⟩)).mpr ?_
  rintro ⟨j, w⟩
  rw [mem_toList, get_insert, List.mem_cons, mem_toList, Prod.mk.injEq]
  by_cases here : j = k
  · subst here
    simp [new, eq_comm]
  · simp [here]

/-- Of entries with known keys the loop returns the last ones that it lets through, by key, last first. -/
theorem newest_of_perm {ε : Type} {b : Bucket α} {entries : List ε} {key : ε → Key} {value : ε → α}
    (holds : b.toList.Perm (entries.map fun e => (key e, value e))) (keep : α → Bool) (limit : Nat) :
    ∃ returned left : List ε, (returned ++ left).Perm (entries.filter fun e => keep (value e)) ∧
      b.newest keep limit = returned.map value ∧
        returned.length = min limit (entries.countP fun e => keep (value e)) ∧
          (returned ++ left).Pairwise fun d e => compare (key e) (key d) = .lt := by
  have composed := congrFun (congrFun (List.eq_map_comp_perm fun e => (key e, value e)) b.toList.reverse) entries
  obtain ⟨ordered, listed, perm⟩ := composed.mpr (b.toList.reverse_perm.trans holds)
  have sorted : ordered.Pairwise fun d e => compare (key e) (key d) = .lt := by
    have down := List.pairwise_reverse.mpr b.toList_sorted
    rw [listed, List.pairwise_map] at down
    exact down
  have kept : (ordered.filter fun e => keep (value e)).Perm (entries.filter fun e => keep (value e)) :=
    perm.filter _
  refine ⟨(ordered.filter fun e => keep (value e)).take limit, (ordered.filter fun e => keep (value e)).drop limit,
    ?_, ?_, ?_, ?_⟩
  · rwa [List.take_append_drop]
  · rw [newest, collect_eq, listed, List.map_map, List.filter_map, List.map_take]
    rfl
  · rw [List.length_take, kept.length_eq, List.countP_eq_length_filter]
  · rw [List.take_append_drop]
    exact sorted.filter _

end Bucket
end Kv
