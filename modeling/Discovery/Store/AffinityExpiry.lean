import Discovery.Machine
import Discovery.Store.Records

namespace Discovery
open Kv Machine

/-- Past its idle window. -/
def Affinity.Expired (a : Affinity) (now : Time) : Prop := a.expiresAt ≠ 0 ∧ a.expiresAt < now

instance (a : Affinity) (now : Time) : Decidable (a.Expired now) := inferInstanceAs (Decidable (_ ∧ _))

/-- An expiry step between its check and its deletion: the time of the check and the keys it found
expired. -/
structure Expiry where
  now : Time
  keys : List Key
  deriving DecidableEq

/-- The bindings, with the expiry steps that have still to delete. -/
structure Expiring where
  store : Store
  pending : List Expiry
  deriving DecidableEq

/-- The transactions of concurrent calls: the checks of the sweep and of `GetAffinity`, their
deletions in any order, and the writes of `PutAffinity` and of `ApplyRemote`, whichever record the
latter has compared its own with. -/
inductive ExpiryStep
  | collect (now : Time)
  | look (now : Time) (service token : GoString)
  | delete (i : Nat)
  | putAffinity (now : Time) (a : Affinity) (emit : Bool)
  | putAffinityRaw (a : Affinity)
  | deleteAffinityRaw (service token : GoString)
  deriving DecidableEq

namespace Store

/-- The write transaction of a merged binding. -/
def putAffinityRaw (st : Store) (a : Affinity) : Except Err Store := do
  let affinity ← write st.affinity (affinityKey a.serviceName a.token) a
  .ok { st with affinity }

/-- The keys a sweep collects. -/
def expiredKeys (st : Store) (now : Time) : List Key :=
  (st.affinity.toList.filter (fun e => e.2.Expired now)).map Prod.fst

/-- The key `GetAffinity` finds expired, if it does. -/
def expiredKey (st : Store) (now : Time) (service token : GoString) : List Key :=
  match st.affinity.get (affinityKey service token) with
  | some a => if a.Expired now then [affinityKey service token] else []
  | none => []

def deleteKeys (st : Store) (keys : List Key) : Store :=
  { st with affinity := st.affinity.deleteAll keys }

def expiryStep (s : Expiring) : ExpiryStep → Expiring × List Event
  | .collect now => ({ s with pending := s.pending ++ [⟨now, s.store.expiredKeys now⟩] }, [])
  | .look now service token =>
    ({ s with pending := s.pending ++ [⟨now, s.store.expiredKey now service token⟩] }, [])
  | .delete i =>
    match s.pending[i]? with
    | none => (s, [])
    | some e => ({ store := s.store.deleteKeys e.keys, pending := s.pending.eraseIdx i }, [])
  | .putAffinity now a emit =>
    let r := s.store.settle (s.store.putAffinity now a emit)
    ({ s with store := r.1 }, r.2)
  | .putAffinityRaw a => ({ s with store := (s.store.putAffinityRaw a).toOption.getD s.store }, [])
  | .deleteAffinityRaw service token => ({ s with store := s.store.deleteAffinity service token }, [])

/-- Undisturbed, the two transactions of a sweep are the sweep. -/
theorem sweep_transactions (st : Store) (now : Time) :
    (exec expiryStep ⟨st, []⟩ [.collect now, .delete 0]).1 = ⟨st.sweepExpiredAffinity now, []⟩ := rfl

/-- Undisturbed, the two transactions of `GetAffinity` leave what the call leaves. -/
theorem get_transactions (st : Store) (now : Time) (service token : GoString) :
    (exec expiryStep ⟨st, []⟩ [.look now service token, .delete 0]).1 =
      ⟨(st.getAffinity now service token).2, []⟩ := by
  have run : (exec expiryStep ⟨st, []⟩ [.look now service token, .delete 0]).1 =
      ⟨st.deleteKeys (st.expiredKey now service token), []⟩ := rfl
  rw [run, expiredKey, getAffinity, getAffinityRaw, read]
  cases st.affinity.get (affinityKey service token) with
  | none => rfl
  | some a =>
    by_cases expired : a.Expired now
    · have window : a.expiresAt ≠ 0 ∧ a.expiresAt < now := expired
      simp only [if_pos expired, if_pos window]
      rfl
    · have window : ¬(a.expiresAt ≠ 0 ∧ a.expiresAt < now) := expired
      simp only [if_neg expired, if_neg window]
      rfl

/-- What is stored at the keys is expired. -/
def ExpiredAt (st : Store) (e : Expiry) : Prop :=
  ∀ key ∈ e.keys, ∀ a ∈ st.affinity.get key, a.Expired e.now

instance (st : Store) (e : Expiry) : Decidable (st.ExpiredAt e) :=
  inferInstanceAs (Decidable (∀ key ∈ e.keys, ∀ a ∈ st.affinity.get key, a.Expired e.now))

/-- The step deletes only bindings that are expired at the time its check used. -/
def DeletesExpired (s : Expiring) : ExpiryStep → Prop
  | .delete i => ∀ e ∈ s.pending[i]?, s.store.ExpiredAt e
  | _ => True

/-- No pending deletion of the key was decided at a time when the binding is live. -/
def Doomed (s : Expiring) (key : Key) (a : Affinity) : Prop :=
  ∀ e ∈ s.pending, key ∈ e.keys → a.Expired e.now

instance (s : Expiring) (key : Key) (a : Affinity) : Decidable (Doomed s key a) :=
  inferInstanceAs (Decidable (∀ e ∈ s.pending, key ∈ e.keys → a.Expired e.now))

/-- A write does not bring a live binding under a key that an expiry step is about to delete. -/
def WritesInTime (s : Expiring) : ExpiryStep → Prop
  | .putAffinity _ a _ | .putAffinityRaw a => Doomed s (affinityKey a.serviceName a.token) a
  | _ => True

instance (s : Expiring) : (step : ExpiryStep) → Decidable (WritesInTime s step)
  | .collect _ | .look _ _ _ | .delete _ | .deleteAffinityRaw _ _ => inferInstanceAs (Decidable True)
  | .putAffinity _ a _ | .putAffinityRaw a =>
    inferInstanceAs (Decidable (Doomed s (affinityKey a.serviceName a.token) a))

/-- Whatever an expiry step is about to delete is expired at the time of its check. -/
def AllExpired (s : Expiring) : Prop := ∀ e ∈ s.pending, s.store.ExpiredAt e

theorem expiredAt_collected (st : Store) (now : Time) : st.ExpiredAt ⟨now, st.expiredKeys now⟩ := by
  intro key member a present
  obtain ⟨entry, kept, rfl⟩ := List.mem_map.mp member
  obtain ⟨listed, expired⟩ := List.mem_filter.mp kept
  have stored : st.affinity.get entry.1 = some entry.2 := Bucket.mem_toList.mp listed
  obtain rfl := Option.some.inj (stored.symm.trans present)
  exact of_decide_eq_true expired

theorem expiredAt_found (st : Store) (now : Time) (service token : GoString) :
    st.ExpiredAt ⟨now, st.expiredKey now service token⟩ := by
  intro key member a present
  have keys : key ∈ st.expiredKey now service token := member
  unfold expiredKey at keys
  split at keys
  next b stored =>
    split at keys
    next expired =>
      obtain rfl := List.mem_singleton.mp keys
      obtain rfl := Option.some.inj (stored.symm.trans present)
      exact expired
    next => cases keys
  next => cases keys

/-- A deletion leaves at each key what was there, or nothing. -/
theorem ExpiredAt.of_subset {st st' : Store} {e : Expiry} (expired : st.ExpiredAt e)
    (sub : ∀ key a, st'.affinity.get key = some a → st.affinity.get key = some a) : st'.ExpiredAt e :=
  fun key member a present => expired key member a (sub key a present)

theorem get_deleteKeys (st : Store) (keys : List Key) (key : Key) :
    (st.deleteKeys keys).affinity.get key = if key ∈ keys then none else st.affinity.get key :=
  Bucket.get_deleteAll _ _ _

/-- A write brings its own binding under its own key. -/
theorem AllExpired.write {s : Expiring} (expired : AllExpired s) {a : Affinity}
    (doomed : Doomed s (affinityKey a.serviceName a.token) a) {st : Store}
    (written : ∀ key b, st.affinity.get key = some b → s.store.affinity.get key = some b ∨
      key = affinityKey a.serviceName a.token ∧ b.expiresAt = a.expiresAt) :
    AllExpired { s with store := st } := by
  intro e member key doomedKey b present
  rcases written key b present with old | ⟨rfl, window⟩
  · exact expired e member key doomedKey b old
  · have past := doomed e member doomedKey
    rw [Affinity.Expired, window]
    exact past

theorem get_putAffinityRaw {st : Store} {a : Affinity} {key : Key} {b : Affinity}
    (present : ((st.putAffinityRaw a).toOption.getD st).affinity.get key = some b) :
    st.affinity.get key = some b ∨
      key = affinityKey a.serviceName a.token ∧ b.expiresAt = a.expiresAt := by
  unfold putAffinityRaw at present
  by_cases fits : KeyFits (affinityKey a.serviceName a.token)
  · rw [write_ok _ a fits] at present
    have stored : (st.affinity.insert (affinityKey a.serviceName a.token) a fits).get key = some b := present
    rw [Bucket.get_insert] at stored
    split at stored
    next here =>
      obtain rfl := Option.some.inj stored
      exact Or.inr ⟨here, rfl⟩
    next => exact Or.inl stored
  · obtain ⟨e, failed⟩ := write_error st.affinity a fits
    rw [failed] at present
    exact Or.inl present

theorem AllExpired.step {s : Expiring} (expired : AllExpired s) {step : ExpiryStep}
    (inTime : WritesInTime s step) : AllExpired (expiryStep s step).1 := by
  cases step with
  | collect now =>
    intro e member
    rcases List.mem_append.mp member with old | new
    · exact expired e old
    · obtain rfl := List.mem_singleton.mp new
      exact expiredAt_collected s.store now
  | look now service token =>
    intro e member
    rcases List.mem_append.mp member with old | new
    · exact expired e old
    · obtain rfl := List.mem_singleton.mp new
      exact expiredAt_found s.store now service token
  | delete i =>
    rw [expiryStep]
    split
    next => exact expired
    next deleting found =>
      intro e member
      refine (expired e (List.mem_of_mem_eraseIdx member)).of_subset fun key a present => ?_
      rw [get_deleteKeys] at present
      split at present
      · cases present
      · exact present
  | putAffinity now a emit =>
    refine expired.write inTime fun key b present => ?_
    rw [get_putAffinity] at present
    split at present
    next here =>
      obtain rfl := Option.some.inj present
      exact Or.inr ⟨here.1, rfl⟩
    next => exact Or.inl present
  | putAffinityRaw a => exact expired.write inTime fun key b present => get_putAffinityRaw present
  | deleteAffinityRaw service token =>
    intro e member
    refine (expired e member).of_subset fun key a present => ?_
    have kept : (s.store.affinity.delete (affinityKey service token)).get key = some a := present
    rw [Bucket.get_delete] at kept
    split at kept
    · cases kept
    · exact kept

theorem AllExpired.deletes {s : Expiring} (expired : AllExpired s) (step : ExpiryStep) :
    DeletesExpired s step := by
  cases step with
  | delete i => exact fun e found => expired e (List.mem_of_getElem? found)
  | _ => trivial

/-- An expiry step deletes only bindings that are expired at the time of its check, in every
interleaving in which no live binding is written under a key between the check and the deletion. -/
theorem deletes_expired {st : Store} {steps : List ExpiryStep}
    (inTime : Meets expiryStep WritesInTime ⟨st, []⟩ steps) :
    Meets expiryStep DeletesExpired ⟨st, []⟩ steps := by
  have start : AllExpired ⟨st, []⟩ := fun e member => absurd member List.not_mem_nil
  exact Meets.of_invariant AllExpired (fun s step expired inTime => expired.step inTime)
    (fun s step expired _ => expired.deletes step) inTime start

/-- A binding that runs out at time 5. -/
def lapsedBinding : Affinity where
  token := "t"
  serviceName := "s"
  instanceID := "i"
  expiresAt := 5

def lapsedStore : Store := (Store.empty.settle (Store.empty.putAffinity 1 lapsedBinding true)).1

/-- A refresh before the check, and a new binding after the deletion. -/
theorem deletes_expired_in_turn : Meets expiryStep DeletesExpired ⟨lapsedStore, []⟩
    [.putAffinity 2 { lapsedBinding with expiresAt := 6 } false, .collect 10, .delete 0,
      .putAffinity 11 { lapsedBinding with expiresAt := 30 } true] :=
  deletes_expired (by decide)

/-- A token that is bound anew between the sweep's check and its deletion loses the new binding. -/
theorem live_binding_deleted :
    ¬∀ (st : Store) (steps : List ExpiryStep), Meets expiryStep DeletesExpired ⟨st, []⟩ steps := by
  intro deletes
  have run := deletes lapsedStore
    [.collect 10, .putAffinity 11 { lapsedBinding with expiresAt := 30 } true, .delete 0]
  obtain ⟨_, _, wrong, _⟩ := run
  have pending : (⟨10, [affinityKey "s" "t"]⟩ : Expiry) ∈ (exec expiryStep ⟨lapsedStore, []⟩
      [.collect 10, .putAffinity 11 { lapsedBinding with expiresAt := 30 } true]).1.pending[0]? := by decide
  have live : ¬(exec expiryStep ⟨lapsedStore, []⟩ [.collect 10,
      .putAffinity 11 { lapsedBinding with expiresAt := 30 } true]).1.store.ExpiredAt
        ⟨10, [affinityKey "s" "t"]⟩ := by decide
  exact live (wrong _ pending)

end Store
end Discovery
