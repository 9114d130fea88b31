import Discovery.Model.Basic
import Discovery.TokenBucket
import Discovery.Url
import Mathlib.Data.List.AList
import Mathlib.Data.Rat.Cast.Order
import Mathlib.Tactic.Linarith

namespace Discovery
open Url

/-- What `clientIP` reads of a request: the first value of each header, empty without one, and the address of the
connection. -/
structure Origin where
  forwardedFor : GoString := []
  realIP : GoString := []
  remoteAddr : GoString
  deriving DecidableEq

structure LoginAttempt where
  time : Time
  origin : Origin
  deriving DecidableEq

namespace Origin

/-- The remote host of the connection. -/
def host (r : Origin) : GoString :=
  match splitHostPort r.remoteAddr with
  | none => r.remoteAddr
  | some (host, _) => host

def clientIP (r : Origin) : GoString :=
  if r.forwardedFor ≠ [] then
    -- a comma in front does not end an address
    match cut 0x2C r.forwardedFor with
    | (b :: first, some _) => trimSpace (b :: first)
    | _ => trimSpace r.forwardedFor
  else if r.realIP ≠ [] then trimSpace r.realIP
  else r.host

end Origin

/-- A limiter of the rate limiting package, in exact arithmetic. -/
abbrev Limiter := TokenBucket Time

namespace Limiter

/-- A tenth of a second refills a token. -/
def token : Time := 100000000

def burst : Int := 5

/-- `NewLimiter`. The time since Go's zero time fills it. -/
def fresh : Limiter := ⟨0, 0, le_rfl⟩

def allow (lim : Limiter) (now : Time) : Bool × Limiter := TokenBucket.allow (burst * token) token lim now

end Limiter

/-- The limiters of `loginLimiter` by key. -/
abbrev LoginLimiter := AList fun _ : GoString => Limiter

namespace LoginLimiter

def limiter (l : LoginLimiter) (key : GoString) : Limiter := (l.lookup key).getD Limiter.fresh

def allow (l : LoginLimiter) (now : Time) (key : GoString) : Bool × LoginLimiter :=
  let r := (l.limiter key).allow now
  (r.1, l.insert key r.2)

/-- The attempts that are let through, out of those that arrive one after the other. -/
def passed (l : LoginLimiter) : List LoginAttempt → List LoginAttempt
  | [] => []
  | a :: attempts =>
    let r := l.allow a.time a.origin.clientIP
    if r.1 then a :: r.2.passed attempts else r.2.passed attempts

end LoginLimiter

/-- In any window of time the host has no more than its burst and the refill of the window. -/
def Throttled (host : GoString) (attempts : List LoginAttempt) : Prop :=
  ∀ s u : Time, s ≤ u →
    (((LoginLimiter.passed ∅ attempts).countP fun a =>
      a.origin.host = host ∧ s ≤ a.time ∧ a.time ≤ u : Nat) : ℚ) ≤ 5 + 10 * (((u - s : Int) : ℚ) / 10 ^ 9)

namespace LoginLimiter

theorem passed_sublist (l : LoginLimiter) (attempts : List LoginAttempt) : (l.passed attempts).Sublist attempts := by
  induction attempts generalizing l with
  | nil => exact List.Sublist.slnil
  | cons a attempts ih =>
    rw [passed]
    split
    next => exact (ih _).cons_cons a
    next => exact (ih _).cons a

theorem limiter_allow (l : LoginLimiter) (now : Time) (key k : GoString) : (l.allow now key).2.limiter k =
    if key = k then ((l.limiter k).allow now).2 else l.limiter k := by
  split
  next same =>
    rw [same, allow, limiter, AList.lookup_insert]
    rfl
  next other =>
    rw [allow, limiter, AList.lookup_insert_ne (Ne.symm other)]
    rfl

/-- The attempts of a key pass as they would pass its limiter alone. -/
theorem passed_key (l : LoginLimiter) (attempts : List LoginAttempt) (k : GoString) :
    ((l.passed attempts).filter (·.origin.clientIP = k)).map LoginAttempt.time =
      (l.limiter k).passes (Limiter.burst * Limiter.token) Limiter.token
        ((attempts.filter (·.origin.clientIP = k)).map LoginAttempt.time) := by
  induction attempts generalizing l with
  | nil => rfl
  | cons a attempts ih =>
    have rest := ih (l.allow a.time a.origin.clientIP).2
    rw [limiter_allow] at rest
    rw [passed]
    by_cases own : a.origin.clientIP = k
    · rw [if_pos own] at rest
      rw [List.filter_cons_of_pos (by simpa using own), List.map_cons, TokenBucket.passes]
      have answer : (l.allow a.time a.origin.clientIP).1 = ((l.limiter k).allow a.time).1 := by rw [own]; rfl
      rw [answer]
      change _ = if ((l.limiter k).allow a.time).1 then _ else _
      split
      next =>
        rw [List.filter_cons_of_pos (by simpa using own), List.map_cons, rest]
        rfl
      next => exact rest
    · rw [if_neg own] at rest
      rw [List.filter_cons_of_neg (by simpa using own), ← rest]
      split
      next => rw [List.filter_cons_of_neg (by simpa using own)]
      next => rfl

end LoginLimiter

/-- The attempts of a host are throttled where they have one key. -/
theorem throttled_of_key {host : GoString} (key : GoString) {attempts : List LoginAttempt}
    (ordered : attempts.Pairwise fun a b => a.time ≤ b.time)
    (keyed : ∀ a ∈ attempts, a.origin.host = host → a.origin.clientIP = key) : Throttled host attempts := by
  intro s u order
  have bucket := TokenBucket.passes_in_window (show 0 ≤ Limiter.burst * Limiter.token by decide)
    (show 0 ≤ Limiter.token by decide)
    (List.pairwise_map.mpr (ordered.sublist (List.filter_sublist (p := (·.origin.clientIP = key)))))
    (LoginLimiter.limiter ∅ key) order
  rw [← LoginLimiter.passed_key, List.countP_map, List.countP_filter] at bucket
  have fewer : (LoginLimiter.passed ∅ attempts).countP (fun a => a.origin.host = host ∧ s ≤ a.time ∧ a.time ≤ u) ≤
      (LoginLimiter.passed ∅ attempts).countP fun a =>
        ((fun t => decide (s ≤ t ∧ t ≤ u)) ∘ LoginAttempt.time) a && decide (a.origin.clientIP = key) := by
    refine List.countP_mono_left fun a member counted => ?_
    obtain ⟨own, inside⟩ := of_decide_eq_true counted
    simp [inside, keyed a ((LoginLimiter.passed_sublist ∅ attempts).subset member) own]
  have free : (0 : Int) ≤ Limiter.token := by decide
  rw [nsmul_eq_mul] at bucket
  have scaled := (mul_le_mul_of_nonneg_right (Int.ofNat_le.mpr fewer) free).trans bucket
  have rational := Int.cast_le (R := ℚ).mpr scaled
  simp only [Limiter.burst, Limiter.token] at rational
  push_cast at rational ⊢
  linarith

/-- Five attempts from each of two origins at one time. -/
def fromTwo (now : Time) (r r' : Origin) : List LoginAttempt :=
  List.replicate 5 ⟨now, r⟩ ++ List.replicate 5 ⟨now, r'⟩

/-- A fresh limiter lets its burst pass. -/
theorem burst_passed {attempts : List LoginAttempt} {key : GoString} {now : Time}
    (filled : Limiter.burst * Limiter.token ≤ now)
    (five : (attempts.filter (·.origin.clientIP = key)).map LoginAttempt.time = List.replicate 5 now) :
    (LoginLimiter.passed ∅ attempts).countP (·.origin.clientIP = key) = 5 := by
  have burst (n : Nat) (b : Limiter) (enough : n * Limiter.token ≤ b.level (Limiter.burst * Limiter.token) now) :
      (b.passes (Limiter.burst * Limiter.token) Limiter.token (List.replicate n now)).length = n := by
    induction n generalizing b with
    | zero => rfl
    | succ n ih =>
      have one : Limiter.token ≤ b.level (Limiter.burst * Limiter.token) now := by
        unfold Limiter.token at enough ⊢
        push_cast at enough
        lia
      have kept := TokenBucket.level_allow one (by decide)
      rw [List.replicate_succ, TokenBucket.passes_cons_of_le one, List.length_cons, ih]
      push_cast at enough
      linarith
  have full : (5 : Nat) * Limiter.token ≤ Limiter.fresh.level (Limiter.burst * Limiter.token) now :=
    le_min le_rfl (by
      change 500000000 ≤ (0 : Int) + max 0 (now - 0)
      have := filled
      unfold Limiter.burst Limiter.token at this
      omega)
  have counted := congrArg List.length (LoginLimiter.passed_key ∅ attempts key)
  rw [five, List.length_map, ← List.countP_eq_length_filter] at counted
  exact counted.trans (burst 5 Limiter.fresh full)

theorem fromTwo_passed {now : Time} (filled : Limiter.burst * Limiter.token ≤ now) {r r' : Origin}
    (distinct : r.clientIP ≠ r'.clientIP) : LoginLimiter.passed ∅ (fromTwo now r r') = fromTwo now r r' := by
  have first : (LoginLimiter.passed ∅ (fromTwo now r r')).countP (·.origin.clientIP = r.clientIP) = 5 :=
    burst_passed filled (by simp [fromTwo, distinct.symm])
  have second : (LoginLimiter.passed ∅ (fromTwo now r r')).countP (·.origin.clientIP = r'.clientIP) = 5 :=
    burst_passed filled (by simp [fromTwo, distinct])
  have apart : (LoginLimiter.passed ∅ (fromTwo now r r')).countP (·.origin.clientIP = r'.clientIP) ≤
      (LoginLimiter.passed ∅ (fromTwo now r r')).countP (fun a => ¬decide (a.origin.clientIP = r.clientIP) = true) :=
    List.countP_mono_left fun a _ other => by
      rw [decide_eq_true_eq] at other
      simpa [other] using distinct.symm
  have total := List.length_eq_countP_add_countP (fun a : LoginAttempt => decide (a.origin.clientIP = r.clientIP))
    (l := LoginLimiter.passed ∅ (fromTwo now r r'))
  have ten : (fromTwo now r r').length = 10 := rfl
  exact (LoginLimiter.passed_sublist ∅ _).eq_of_length_le (by omega)

/-- A host is throttled in every run exactly when all that it can send has one key. -/
theorem throttled_iff (host : GoString) (sent : Set Origin) :
    (∀ attempts : List LoginAttempt, attempts.Pairwise (fun a b => a.time ≤ b.time) →
      (∀ a ∈ attempts, a.origin.host = host → a.origin ∈ sent) → Throttled host attempts) ↔
    ∀ r ∈ sent, ∀ r' ∈ sent, r.host = host → r'.host = host → r.clientIP = r'.clientIP := by
  constructor
  · intro throttled r mem r' mem' own own'
    by_contra distinct
    have ordered : (fromTwo 1000000000 r r').Pairwise fun a b => a.time ≤ b.time := by
      simp [fromTwo]
    have sends : ∀ a ∈ fromTwo 1000000000 r r', a.origin.host = host → a.origin ∈ sent := by
      intro a member _
      rcases List.mem_append.mp member with member | member
      · rw [List.eq_of_mem_replicate member]
        exact mem
      · rw [List.eq_of_mem_replicate member]
        exact mem'
    have bound := throttled _ ordered sends 1000000000 1000000000 le_rfl
    rw [fromTwo_passed (by decide) distinct] at bound
    have all : (fromTwo 1000000000 r r').countP (fun a => a.origin.host = host ∧
        (1000000000 : Time) ≤ a.time ∧ a.time ≤ (1000000000 : Time)) = 10 := by
      simp [fromTwo, own, own']
    rw [all] at bound
    norm_num at bound
  · intro oneKey attempts ordered sends
    by_cases some : ∃ a ∈ attempts, a.origin.host = host
    · obtain ⟨a, member, own⟩ := some
      exact throttled_of_key _ ordered fun b memberB ownB =>
        oneKey _ (sends b memberB ownB) _ (sends a member own) ownB own
    · exact throttled_of_key [] ordered fun b memberB ownB => absurd ⟨b, memberB, ownB⟩ some

/-- Without the two headers the key is the remote host. -/
theorem throttled_direct (host : GoString) {attempts : List LoginAttempt}
    (ordered : attempts.Pairwise fun a b => a.time ≤ b.time)
    (direct : ∀ a ∈ attempts, a.origin.host = host → a.origin.forwardedFor = [] ∧ a.origin.realIP = []) :
    Throttled host attempts :=
  throttled_of_key host ordered fun a member own => by
    obtain ⟨noForwarded, noReal⟩ := direct a member own
    simp [Origin.clientIP, noForwarded, noReal, own]

/-- Ten attempts of one connection that differ in the header. -/
def forged : List LoginAttempt :=
  fromTwo 63902822400000000000 { forwardedFor := "1", remoteAddr := "203.0.113.9:40000" }
    { forwardedFor := "2", remoteAddr := "203.0.113.9:40000" }

theorem not_throttled_forged : forged.Pairwise (fun a b => a.time ≤ b.time) ∧
    (∀ a ∈ forged, a.origin.host = ofString "203.0.113.9") ∧ ¬Throttled "203.0.113.9" forged := by
  refine ⟨by decide, by decide, fun throttled => ?_⟩
  have bound := throttled 63902822400000000000 63902822400000000000 le_rfl
  have all : (LoginLimiter.passed ∅ forged).countP (fun a => a.origin.host = ofString "203.0.113.9" ∧
      (63902822400000000000 : Time) ≤ a.time ∧ a.time ≤ (63902822400000000000 : Time)) = 10 := by decide
  rw [all] at bound
  norm_num at bound

end Discovery
