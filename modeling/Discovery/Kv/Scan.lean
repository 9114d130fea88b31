import Discovery.Kv.Bucket
import Mathlib.Data.List.Infix
import Mathlib.Data.List.Perm.Subperm

namespace Kv

theorem compare_swap (j k : Key) : compare j k = (compare k j).swap := Std.OrientedCmp.eq_swap

theorem isLE_of_prefix {p k : Key} (pre : p <+: k) : (compare p k).isLE := by
  obtain ⟨t, rfl⟩ := pre
  induction p with
  | nil => exact List.isLE_compare_nil_left
  | cons x p ih =>
    simp only [List.cons_append, List.compare_cons_cons, Std.ReflCmp.compare_self, Ordering.then]
    exact ih

/-- Every key between `p` and an extension of `p` extends `p`. -/
theorem prefix_of_between {p k t : Key} (lower : (compare p k).isLE)
    (upper : (compare k (p ++ t)).isLE) : p <+: k := by
  induction p generalizing k with
  | nil => exact List.nil_prefix
  | cons x p ih =>
    cases k with
    | nil => simp [List.compare_cons_nil] at lower
    | cons y k =>
      rw [List.compare_cons_cons, Ordering.isLE_then_iff_and] at lower
      rw [List.cons_append, List.compare_cons_cons, Ordering.isLE_then_iff_and] at upper
      obtain rfl : x = y := by
        have le := Std.isLE_compare.mp lower.1
        have ge := Std.isLE_compare.mp upper.1
        exact UInt8.le_antisymm le ge
      simp only [Std.ReflCmp.compare_self, reduceCtorEq, false_or] at lower upper
      exact List.cons_prefix_cons.mpr ⟨rfl, ih lower.2 upper.2⟩

namespace Bucket
variable {α : Type}

def under (p : Key) (e : Key × α) : Bool := p.isPrefixOf e.1

@[simp] theorem under_iff {p : Key} {e : Key × α} : under p e = true ↔ p <+: e.1 :=
  List.isPrefixOf_iff_prefix

theorem takeWhile_prefix {p : Key} {l : List (Key × α)}
    (sorted : l.Pairwise (fun e f => compare e.1 f.1 = .lt)) (above : ∀ e ∈ l, (compare p e.1).isLE) :
    l.takeWhile (under p) = l.filter (under p) := by
  induction l with
  | nil => rfl
  | cons e l ih =>
    obtain ⟨below, rest⟩ := List.pairwise_cons.mp sorted
    by_cases hit : under p e
    · rw [List.takeWhile_cons_of_pos hit, List.filter_cons_of_pos hit,
        ih rest fun f member => above f (List.mem_cons_of_mem _ member)]
    · -- once a key leaves the prefix, no later key returns to it
      have gone : ∀ f ∈ l, ¬under p f := by
        intro f member pre
        obtain ⟨t, ext⟩ := under_iff.mp pre
        have upper : (compare e.1 (p ++ t)).isLE := by
          rw [ext, below f member]
          rfl
        exact hit (under_iff.mpr (prefix_of_between (above e List.mem_cons_self) upper))
      rw [List.takeWhile_cons_of_neg hit, List.filter_cons_of_neg hit]
      exact (List.filter_eq_nil_iff.mpr gone).symm

theorem dropWhile_takeWhile_prefix {p : Key} {l : List (Key × α)}
    (sorted : l.Pairwise (fun e f => compare e.1 f.1 = .lt)) :
    (l.dropWhile (fun e => compare e.1 p == .lt)).takeWhile (under p) =
      l.filter (under p) := by
  induction l with
  | nil => rfl
  | cons e l ih =>
    obtain ⟨below, rest⟩ := List.pairwise_cons.mp sorted
    by_cases less : compare e.1 p = .lt
    · have miss : ¬under p e := by
        intro pre
        have le := isLE_of_prefix (under_iff.mp pre)
        rw [compare_swap, less] at le
        exact absurd le (by decide)
      rw [List.dropWhile_cons_of_pos (by rw [less]; rfl), List.filter_cons_of_neg miss]
      exact ih rest
    · have atLeast : (compare p e.1).isLE := by
        rw [compare_swap]
        cases order : compare e.1 p with
        | lt => exact absurd order less
        | eq => rfl
        | gt => rfl
      rw [List.dropWhile_cons_of_neg (by simpa using less)]
      apply takeWhile_prefix sorted
      intro f member
      rcases List.mem_cons.mp member with rfl | later
      · exact atLeast
      · exact Std.TransCmp.isLE_trans atLeast (by rw [below f later]; rfl)

theorem sorted_nodup {l : List (Key × α)} (hl : l.Pairwise (fun e f => compare e.1 f.1 = .lt)) :
    l.Nodup := by
  refine hl.imp fun {e f} less equal => ?_
  simp only [equal, Std.ReflCmp.compare_self, reduceCtorEq] at less

theorem sorted_eq {l m : List (Key × α)} (hl : l.Pairwise (fun e f => compare e.1 f.1 = .lt))
    (hm : m.Pairwise (fun e f => compare e.1 f.1 = .lt)) (same : ∀ e, e ∈ l ↔ e ∈ m) : l = m := by
  have perm := (List.perm_ext_iff_of_nodup (sorted_nodup hl) (sorted_nodup hm)).mpr same
  refine List.Perm.eq_of_pairwise ?_ hl hm perm
  intro e f _ _ less greater
  rw [compare_swap, less] at greater
  exact absurd greater (by decide)

variable [JsonCodec α]

/-- The cursor loop `for k, v := c.Seek(p); hasPrefix(k, p); k, v = c.Next()`: from the first key
not below `p`, as long as the keys begin with `p`. -/
def scan (b : Bucket α) (p : Key) : List (Key × α) :=
  (b.toList.dropWhile (fun e => compare e.1 p == .lt)).takeWhile (under p)

/-- Deletes every key the scan visits, after the scan. -/
def deletePrefix (b : Bucket α) (p : Key) : Bucket α := b.deleteAll ((b.scan p).map Prod.fst)

/-- The loop visits exactly the entries under the prefix, in key order. -/
theorem scan_eq_filter (b : Bucket α) (p : Key) :
    b.scan p = b.toList.filter (under p) :=
  dropWhile_takeWhile_prefix b.toList_sorted

theorem mem_scan {b : Bucket α} {p k : Key} {v : α} :
    (k, v) ∈ b.scan p ↔ b.get k = some v ∧ p <+: k := by
  rw [scan_eq_filter, List.mem_filter, mem_toList, under_iff]

/-- What a scan returns depends only on the entries under its prefix. -/
theorem scan_congr {b c : Bucket α} {p : Key} (same : ∀ k, p <+: k → b.get k = c.get k) :
    b.scan p = c.scan p := by
  rw [scan_eq_filter, scan_eq_filter]
  refine sorted_eq (b.toList_sorted.filter _) (c.toList_sorted.filter _) ?_
  rintro ⟨k, v⟩
  simp only [List.mem_filter, mem_toList, under_iff]
  constructor <;> rintro ⟨present, pre⟩
  · exact ⟨same k pre ▸ present, pre⟩
  · exact ⟨(same k pre).symm ▸ present, pre⟩

/-- Of the values, what a scan shows depends only on that. -/
theorem scan_map_congr {β : Type} {b c : Bucket α} {p : Key} {f : α → β}
    (same : ∀ k, p <+: k → (b.get k).map f = (c.get k).map f) :
    (b.scan p).map (fun e => (e.1, f e.2)) = (c.scan p).map (fun e => (e.1, f e.2)) := by
  have sorted (b : Bucket α) :
      ((b.scan p).map (fun e => (e.1, f e.2))).Pairwise (fun e f => compare e.1 f.1 = .lt) := by
    rw [scan_eq_filter, List.pairwise_map]
    exact b.toList_sorted.filter _
  have shown (b : Bucket α) (k : Key) (w : β) :
      (k, w) ∈ (b.scan p).map (fun e => (e.1, f e.2)) ↔ (b.get k).map f = some w ∧ p <+: k := by
    simp only [List.mem_map, Prod.exists, mem_scan, Prod.mk.injEq, Option.map_eq_some_iff]
    constructor
    · rintro ⟨j, v, ⟨present, pre⟩, rfl, rfl⟩
      exact ⟨⟨v, present, rfl⟩, pre⟩
    · rintro ⟨⟨v, present, rfl⟩, pre⟩
      exact ⟨k, v, ⟨present, pre⟩, rfl, rfl⟩
  refine sorted_eq (sorted b) (sorted c) ?_
  rintro ⟨k, w⟩
  rw [shown, shown]
  refine and_congr_left fun pre => ?_
  rw [same k pre]

/-- A scan gets shorter when records under the prefix only disappear, and one does. -/
theorem scan_length_lt {b c : Bucket α} {p : Key}
    (fewer : ∀ k, p <+: k → c.get k = b.get k ∨ c.get k = none) {k : Key} (under : p <+: k)
    (present : (b.get k).isSome) (gone : c.get k = none) : (c.scan p).length < (b.scan p).length := by
  obtain ⟨v, stored⟩ := Option.isSome_iff_exists.mp present
  have nodup : (c.scan p).Nodup := by
    rw [scan_eq_filter]
    exact sorted_nodup (c.toList_sorted.filter _)
  have within : c.scan p ⊆ b.scan p := by
    rintro ⟨j, w⟩ member
    obtain ⟨found, pre⟩ := mem_scan.mp member
    rcases fewer j pre with same | none
    · exact mem_scan.mpr ⟨same ▸ found, pre⟩
    · rw [none] at found
      cases found
  have sub := nodup.subperm within
  rw [Nat.lt_iff_le_and_not_ge]
  refine ⟨sub.length_le, fun long => ?_⟩
  have back := (sub.perm_of_length_le long).mem_iff.mpr (mem_scan.mpr ⟨stored, under⟩)
  rw [(mem_scan.mp back).1] at gone
  cases gone

theorem get_deletePrefix (b : Bucket α) (p k : Key) :
    (b.deletePrefix p).get k = if p <+: k then none else b.get k := by
  rw [deletePrefix, get_deleteAll]
  have visited : k ∈ (b.scan p).map Prod.fst ↔ p <+: k ∧ (b.get k).isSome := by
    rw [List.mem_map, Option.isSome_iff_exists]
    constructor
    · rintro ⟨⟨j, v⟩, member, rfl⟩
      exact ⟨(mem_scan.mp member).2, v, (mem_scan.mp member).1⟩
    · rintro ⟨pre, v, present⟩
      exact ⟨(k, v), mem_scan.mpr ⟨present, pre⟩, rfl⟩
  by_cases pre : p <+: k
  · by_cases present : (b.get k).isSome
    · rw [if_pos (visited.mpr ⟨pre, present⟩), if_pos pre]
    · rw [if_neg (fun h => present (visited.mp h).2), if_pos pre]
      exact Option.not_isSome_iff_eq_none.mp present
  · rw [if_neg (fun h => pre (visited.mp h).1), if_neg pre]

end Bucket
end Kv
