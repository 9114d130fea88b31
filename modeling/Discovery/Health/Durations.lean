import Discovery.Health.Checker

namespace Discovery
open Kv

/-- `time.Duration(n) * time.Second`, an `int64` product, which wraps. -/
def seconds (n : Int) : Int := Int.bmod (n * 1000000000) (2 ^ 64)

/-- The most whole seconds a `time.Duration` holds. -/
def maxSeconds : Int := 9223372036

/-- The probe interval when none is set, 15 seconds. -/
def defaultCheckInterval : Int := 15 * 1000000000

namespace Store

/-- Whether a probe is due, and the times of the last probes after the question. -/
def dueForProbe (lastProbed : Key → Option Time) (inst : Instance) (now : Time) : Bool × (Key → Option Time) :=
  let interval := if seconds inst.checkIntervalSec ≤ 0 then defaultCheckInterval else seconds inst.checkIntervalSec
  let key := instanceKey inst.serviceName inst.id
  if (lastProbed key).any (fun last => timeSub now last < interval) then (false, lastProbed)
  else (true, fun k => if k = key then some now else lastProbed k)

end Store

theorem seconds_of_le {n : Int} (least : 0 ≤ n) (most : n ≤ maxSeconds) : seconds n = n * 1000000000 := by
  simp only [maxSeconds] at most
  exact Int.bmod_eq_of_le_mul_two (by push_cast; omega) (by push_cast; omega)

/-- No number of seconds is the greatest duration, which is odd. -/
theorem seconds_lt (n : Int) : seconds n < 2 ^ 63 - 1 := by
  simp only [seconds, Int.bmod_def]
  omega

/-- Within the range of a duration the difference of two times is exact. -/
theorem timeSub_of_range {now last : Time} (ordered : last ≤ now) (range : now - last < 2 ^ 63) :
    timeSub now last = now - last := by
  simp only [timeSub]
  lia

theorem Instance.expired_iff {i : Instance} {now : Time} (ordered : i.lastHeartbeat ≤ now)
    (range : now - i.lastHeartbeat < 2 ^ 63) :
    i.expired now = true ↔ 0 < i.ttlSeconds ∧ seconds i.ttlSeconds < now - i.lastHeartbeat := by
  rw [Instance.expired, timeSub_of_range ordered range, Bool.and_eq_true, decide_eq_true_eq, decide_eq_true_eq,
    seconds]

namespace Store

theorem dueForProbe_eq_false {probed : Key → Option Time} {inst : Instance} {now last : Time}
    (probe : probed (instanceKey inst.serviceName inst.id) = some last) :
    (dueForProbe probed inst now).1 = false ↔
      timeSub now last < if seconds inst.checkIntervalSec ≤ 0 then defaultCheckInterval
        else seconds inst.checkIntervalSec := by
  simp only [dueForProbe, probe, Option.any_some, decide_eq_true_eq]
  by_cases soon : timeSub now last < if seconds inst.checkIntervalSec ≤ 0 then defaultCheckInterval
      else seconds inst.checkIntervalSec
  · simp [soon]
  · simp [soon]

end Store

/-- What the TTL and the probe interval of an instance are for. The times are within a duration of each
other. -/
structure Instance.TimedExactly (i : Instance) : Prop where
  expires : ∀ now, i.lastHeartbeat ≤ now → now - i.lastHeartbeat < 2 ^ 63 →
    (i.expired now = true ↔ 0 < i.ttlSeconds ∧ i.ttlSeconds * 1000000000 < now - i.lastHeartbeat)
  keepsYoung : ∀ (st : Store) (now clock : Time), i.lastHeartbeat ≤ now → now - i.lastHeartbeat < 2 ^ 63 →
    now - i.lastHeartbeat < i.ttlSeconds * 1000000000 → st.evalHeartbeat now clock i = (st, [])
  spaces : ∀ (probed : Key → Option Time) (now last : Time),
    probed (instanceKey i.serviceName i.id) = some last → last ≤ now → now - last < 2 ^ 63 →
      now - last < i.checkIntervalSec * 1000000000 → (Store.dueForProbe probed i now).1 = false

theorem Instance.expires_iff (i : Instance) :
    (∀ now, i.lastHeartbeat ≤ now → now - i.lastHeartbeat < 2 ^ 63 →
      (i.expired now = true ↔ 0 < i.ttlSeconds ∧ i.ttlSeconds * 1000000000 < now - i.lastHeartbeat)) ↔
      i.ttlSeconds ≤ maxSeconds := by
  constructor
  · intro exact
    by_contra long
    have most : maxSeconds < i.ttlSeconds := Int.not_le.mp long
    simp only [maxSeconds] at most
    -- at the greatest elapsed time the instance counts as expired, and is not
    have wrapped := seconds_lt i.ttlSeconds
    have ordered : i.lastHeartbeat ≤ i.lastHeartbeat + (2 ^ 63 - 1) := by lia
    have range : i.lastHeartbeat + (2 ^ 63 - 1) - i.lastHeartbeat < 2 ^ 63 := by lia
    have early := (Instance.expired_iff ordered range).mpr ⟨by omega, by lia⟩
    have due := ((exact _ ordered range).mp early).2
    lia
  · intro short now ordered range
    rw [Instance.expired_iff ordered range]
    refine and_congr_right fun positive => ?_
    rw [seconds_of_le (Int.le_of_lt positive) short]

theorem Instance.spaces_iff (i : Instance) :
    (∀ (probed : Key → Option Time) (now last : Time), probed (instanceKey i.serviceName i.id) = some last →
      last ≤ now → now - last < 2 ^ 63 → now - last < i.checkIntervalSec * 1000000000 →
        (Store.dueForProbe probed i now).1 = false) ↔ i.checkIntervalSec ≤ maxSeconds := by
  constructor
  · intro spaced
    by_contra long
    have most : maxSeconds < i.checkIntervalSec := Int.not_le.mp long
    simp only [maxSeconds] at most
    have waits := spaced (fun _ => some 0) (2 ^ 63 - 1) 0 rfl (by decide) (by decide) (by lia)
    rw [Store.dueForProbe_eq_false rfl, timeSub_of_range (by decide) (by decide)] at waits
    have wrapped := seconds_lt i.checkIntervalSec
    simp only [defaultCheckInterval] at waits
    split at waits <;> lia
  · intro short probed now last probe ordered range young
    have positive : 0 < i.checkIntervalSec := by lia
    have interval := seconds_of_le (Int.le_of_lt positive) short
    rw [Store.dueForProbe_eq_false probe, timeSub_of_range ordered range, interval, if_neg (by omega)]
    exact young

/-- The TTL and the probe interval are kept to exactly if neither is more seconds than a duration holds. -/
theorem timedExactly_iff (i : Instance) :
    i.TimedExactly ↔ i.ttlSeconds ≤ maxSeconds ∧ i.checkIntervalSec ≤ maxSeconds := by
  constructor
  · intro timed
    exact ⟨i.expires_iff.mp timed.expires, i.spaces_iff.mp timed.spaces⟩
  · rintro ⟨ttl, interval⟩
    have expires := i.expires_iff.mpr ttl
    refine ⟨expires, fun st now clock ordered range young => ?_, i.spaces_iff.mpr interval⟩
    have alive : i.expired now = false := by
      rw [Bool.eq_false_iff]
      intro expired
      have late := ((expires now ordered range).mp expired).2
      lia
    rw [Store.evalHeartbeat, alive]
    rfl

/-- A registration with a TTL of one second more is accepted and down at the first tick. -/
theorem young_set_down : ¬∀ (i v : Instance), i.validate = .ok v → v.TimedExactly := by
  intro timed
  let i : Instance := { id := "i", serviceName := "s", address := "h", ttlSeconds := 9223372037 }
  have registered : i.validate = .ok { i with weight := 1, status := statusUp } := by decide
  have exact := (timed i _ registered).expires 0 (by decide) (by decide)
  have expired : Instance.expired { i with weight := 1, status := statusUp } 0 = true := by decide
  exact absurd (exact.mp expired).2 (by decide)

end Discovery
