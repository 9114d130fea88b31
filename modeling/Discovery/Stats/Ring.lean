import Discovery.Server.Metrics
import Discovery.StampedCounters
import Mathlib.Data.Rat.Cast.Order

namespace Discovery
namespace Stats

/-- Seconds of per-second history. -/
abbrev ringSeconds : Nat := 120

/-- The count of each bucket, stamped with its second. -/
abbrev Ring := Stamped Int (Fin ringSeconds)

/-- `((now % ringSeconds) + ringSeconds) % ringSeconds`, whose `%` has the sign of its left side. -/
def slot (now : Int) : Fin ringSeconds :=
  Fin.ofNat ringSeconds (((now.tmod ringSeconds + ringSeconds).tmod ringSeconds).toNat)

namespace Ring

def fresh : Ring where
  stamps _ := 0
  counts _ := 0

def incr (r : Ring) (now : Int) : Ring := Stamped.incr slot r now

/-- `series`, without a result where `make` panics. The subtraction wraps. -/
def series (r : Ring) (now span : Int) : Option (List Int) :=
  let span : Int := if ringSeconds < span then ringSeconds else span
  if span < 0 then none
  else some ((List.range span.toNat).map fun k : Nat => Stamped.read slot r (Int.bmod (now - (span - 1 - k)) (2 ^ 64)))

/-- `rate`, in exact arithmetic. -/
def rate (r : Ring) (now window : Int) : Option ℚ :=
  let window := if window ≤ 0 then 1 else window
  (r.series now window).map fun counts => counts.sum / window

end Ring

@[simp] theorem ringSeconds_cast : (ringSeconds : Int) = 120 := rfl

theorem slot_val (t : Int) : ((slot t).val : Int) = t % 120 := by
  have least := Int.lt_tmod_of_pos t (show (0 : Int) < 120 by decide)
  have residue : (t.tmod 120 + 120).tmod 120 = t % 120 := by
    rw [Int.tmod_eq_emod_of_nonneg (by omega), Int.add_emod_right, Int.tmod_eq_emod]
    split <;> omega
  rw [slot, ringSeconds_cast, residue]
  show (((t % 120).toNat % 120 : Nat) : Int) = t % 120
  omega

/-- Seconds that share a bucket are the same or a round apart. -/
theorem eq_or_round_of_slot {s t : Int} (shared : slot s = slot t) (order : s ≤ t) : s = t ∨ s + ringSeconds ≤ t := by
  have sameS := slot_val s
  have sameT := slot_val t
  rw [shared] at sameS
  rw [ringSeconds_cast]
  omega

/-- Seconds that come less than a round behind the latest one so far come in order in each bucket. -/
theorem read_incrs {times : List Int} (recent : times.Pairwise fun s t : Int => s - ringSeconds < t) {sec : Int}
    (last : ∀ t ∈ times, t < sec + ringSeconds) :
    Stamped.read slot (times.foldl Ring.incr Ring.fresh) sec = times.count sec := by
  have ordered : times.Pairwise fun s t => slot s = slot t → s ≤ t := by
    refine recent.imp fun {s t} near shared => ?_
    by_contra late
    rcases eq_or_round_of_slot shared.symm (by omega) with same | round
    · omega
    · omega
  have newest : ∀ t ∈ times, slot t = slot sec → t ≤ sec := by
    intro t member shared
    by_contra late
    have near := last t member
    rcases eq_or_round_of_slot shared.symm (by omega) with same | round
    · omega
    · omega
  exact Stamped.read_foldl (ite_self 0) ordered newest

/-- The source counts in an `int`. Its increments wrap where those of the integers go on, so both count alike
until a ring has counted 2^63 calls. -/
theorem counts_unwrapped {times : List Int} (few : times.length < 2 ^ 63) (i : Fin ringSeconds) :
    Int.bmod ((times.foldl Ring.incr Ring.fresh).counts i) (2 ^ 64) = (times.foldl Ring.incr Ring.fresh).counts i := by
  obtain ⟨least, most⟩ := Stamped.counts_foldl_le slot Ring.fresh times i rfl
  have least' : 0 ≤ (times.foldl Ring.incr Ring.fresh).counts i := least
  have most' : (times.foldl Ring.incr Ring.fresh).counts i ≤ times.length := most
  exact Int.bmod_eq_of_le_mul_two (by push_cast; omega) (by push_cast; omega)

/-- Every second of the window is read with the calls it had, whatever older seconds its bucket counted. -/
theorem series_exact {times : List Int} (positive : ∀ t ∈ times, 0 < t)
    (recent : times.Pairwise fun s t : Int => s - ringSeconds < t) {now : Int} (int64 : now < 2 ^ 63)
    (latest : ∀ t ∈ times, t ≤ now) {span : Nat} (bound : span ≤ ringSeconds) :
    (times.foldl Ring.incr Ring.fresh).series now span =
      some ((List.range span).map fun k : Nat => (times.count (now - (span - 1 - k)) : Int)) := by
  have clamped : ¬(ringSeconds : Int) < span := by omega
  have size : ¬(span : Int) < 0 := by omega
  simp only [Ring.series, if_neg clamped, if_neg size, Int.toNat_natCast]
  refine congrArg some (List.map_congr_left fun k inside => ?_)
  have within := List.mem_range.mp inside
  have round : span ≤ 120 := bound
  cases times with
  | nil => exact ite_self 0
  | cons t times =>
    -- with a call in the past the subtraction does not wrap
    have first := positive t List.mem_cons_self
    have after := latest t List.mem_cons_self
    have unwrapped : Int.bmod (now - (span - 1 - k)) (2 ^ 64) = now - (span - 1 - k) :=
      Int.bmod_eq_of_le_mul_two (by push_cast; omega) (by push_cast; omega)
    rw [unwrapped]
    refine read_incrs recent fun s member => ?_
    have past := latest s member
    rw [ringSeconds_cast]
    omega

/-- Late calls and a call a round later in the bucket of the first one. -/
theorem series_exact_late : ([100, 250, 131, 220, 131].foldl Ring.incr Ring.fresh).series 250 120 =
    some ((List.range 120).map fun k : Nat => (List.count (250 - (120 - 1 - k)) [100, 250, 131, 220, 131] : Int)) :=
  series_exact (by decide) (by decide) (by decide) (by decide) (by decide)

theorem sum_counts {times : List Int} {now : Int} (latest : ∀ t ∈ times, t ≤ now) (span : Nat) :
    ((List.range span).map fun k : Nat => (times.count (now - (span - 1 - k)) : Int)).sum =
      times.countP fun t => now - span < t := by
  induction span with
  | zero =>
    have none : times.countP (fun t => now - (0 : Nat) < t) = 0 :=
      List.countP_eq_zero.mpr fun t member => by have := latest t member; simp; omega
    rw [none]
    rfl
  | succ n ih =>
    have oldest : times.countP (fun t => now - (n + 1 : Nat) < t) =
        times.count (now - n) + times.countP fun t => now - n < t := by
      clear latest ih
      induction times with
      | nil => rfl
      | cons t times ih =>
        rw [List.countP_cons, List.countP_cons, List.count_cons, ih]
        simp only [decide_eq_true_eq, beq_iff_eq]
        split_ifs <;> omega
    have shifted : ((List.range n).map fun k : Nat => (times.count (now - ((n + 1 : Nat) - 1 - (k + 1 : Nat))) : Int)) =
        (List.range n).map fun k : Nat => (times.count (now - (n - 1 - k)) : Int) := by
      refine List.map_congr_left fun k _ => ?_
      congr 2
      omega
    have first : now - ((n + 1 : Nat) - 1 - (0 : Nat)) = now - n := by omega
    rw [List.range_succ_eq_map, List.map_cons, List.map_map, List.sum_cons, oldest, first]
    refine (congrArg (_ + ·) ?_).trans (Int.natCast_add _ _).symm
    rw [← ih, ← shifted]
    rfl

/-- The rate is the number of calls of the window over its length. -/
theorem rate_exact {times : List Int} (positive : ∀ t ∈ times, 0 < t)
    (recent : times.Pairwise fun s t : Int => s - ringSeconds < t) {now : Int} (int64 : now < 2 ^ 63)
    (latest : ∀ t ∈ times, t ≤ now) {window : Nat} (least : 0 < window) (bound : window ≤ ringSeconds) :
    (times.foldl Ring.incr Ring.fresh).rate now window =
      some (((times.countP fun t => now - window < t : Nat) : ℚ) / window) := by
  have some : ¬(window : Int) ≤ 0 := by omega
  simp only [Ring.rate, if_neg some, series_exact positive recent int64 latest bound, Option.map_some,
    sum_counts latest, Int.cast_natCast]

end Stats
end Discovery
