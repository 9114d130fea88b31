import Discovery.Server.Sticky

namespace Discovery
open Kv

/-- A key splits in one way at its first slash. -/
theorem affinityKey_inj {service token service' token' : GoString} (bare : slash ∉ service)
    (bare' : slash ∉ service') (same : affinityKey service token = affinityKey service' token') :
    service = service' ∧ token = token' := by
  obtain ⟨a, rfl, rest⟩ | ⟨a, rfl, rest⟩ := List.append_eq_append_iff.mp same
  · cases a with
    | nil => exact ⟨(List.append_nil service).symm, (List.cons.inj rest).2⟩
    | cons c a =>
      have first : slash = c := (List.cons.inj rest).1
      exact absurd (List.mem_append_right service (first ▸ List.mem_cons_self)) bare'
  · cases a with
    | nil => exact ⟨List.append_nil service', (List.cons.inj rest).2.symm⟩
    | cons c a =>
      have first : slash = c := (List.cons.inj rest).1
      exact absurd (List.mem_append_right service' (first ▸ List.mem_cons_self)) bare

/-- Every key of a binding is the key of a pair whose service name has no slash. -/
theorem affinityKey_bare (service token : GoString) :
    ∃ service' token', slash ∉ service' ∧ affinityKey service' token' = affinityKey service token := by
  have member : slash ∈ affinityKey service token := List.mem_append_right service List.mem_cons_self
  obtain ⟨service', token', split, bare⟩ := List.eq_append_cons_of_mem member
  exact ⟨service', token', bare, split.symm⟩

/-- The record a refresh writes. -/
def Affinity.refreshed (a : Affinity) (ttl : Int) (now put : Time) : Affinity :=
  ({ a with lastSeen := now, expiresAt := now + ttl }.stamped put).json

namespace Store

/-- The binding stored under the key, when it has not expired. -/
def LiveBinding (st : Store) (check : Time) (key : Key) (a : Affinity) : Prop :=
  st.affinity.get key = some a ∧ a.window.Live check

theorem getAffinity_frame (st : Store) (check : Time) {service token : GoString} {key : Key}
    (other : key ≠ affinityKey service token) :
    (st.getAffinity check service token).2.affinity.get key = st.affinity.get key := by
  unfold getAffinity
  split
  next => rfl
  next a _ =>
    split
    next => exact (Bucket.get_delete _ _ _).trans (if_neg other)
    next => rfl

end Store

namespace Server
open Store

/-- What a sticky pick promises about one call. -/
structure PicksWell (st : Store) (configured : Int) (clocks : Clocks) (n : Int) (service token : GoString)
    (candidates : List Instance) : Prop where
  /-- The answer is a candidate. -/
  offered : ∃ chosen ∈ candidates,
    (stickyPick st configured clocks n service token candidates).value.chosen = some chosen
  /-- A live binding to a candidate is honoured. -/
  honoured : ∀ a, st.LiveBinding clocks.check (affinityKey service token) a → ∀ c ∈ candidates,
    c.id = a.instanceID →
      (stickyPick st configured clocks n service token candidates).value = ⟨some c, true, false⟩
  /-- A live binding to anything else is lost, and the answer says so. -/
  rebound : (∀ a, st.LiveBinding clocks.check (affinityKey service token) a → ∀ c ∈ candidates,
    c.id ≠ a.instanceID) →
      ((stickyPick st configured clocks n service token candidates).value.rebound = true ↔
        ∃ a, st.LiveBinding clocks.check (affinityKey service token) a)
  /-- The answer is bound. -/
  bound : ∃ chosen w, (stickyPick st configured clocks n service token candidates).value.chosen = some chosen ∧
    (stickyPick st configured clocks n service token candidates).store.Bound (affinityKey service token) w chosen ∧
      w.Live clocks.now
  /-- Nothing else is. -/
  frame : ∀ service' token', slash ∉ service' → (service', token') ≠ (service, token) →
    (stickyPick st configured clocks n service token candidates).store.affinity.get
      (affinityKey service' token') = st.affinity.get (affinityKey service' token')

/-- The pick refreshes a binding whose own names make another key, and what is stored there is not the
refreshed record already. -/
def Misdirected (st : Store) (configured : Int) (clocks : Clocks) (service token : GoString)
    (candidates : List Instance) : Prop :=
  ∃ a, st.LiveBinding clocks.check (affinityKey service token) a ∧ (∃ c ∈ candidates, c.id = a.instanceID) ∧
    affinityTTL configured / 4 < timeSub clocks.now a.lastSeen ∧
      affinityKey a.serviceName a.token ≠ affinityKey service token ∧
        KeyFits (affinityKey a.serviceName a.token) ∧
          st.affinity.get (affinityKey a.serviceName a.token) ≠
            some (a.refreshed (affinityTTL configured) clocks.now clocks.put)

theorem affinityTTL_pos (configured : Int) : 0 < affinityTTL configured := by
  unfold affinityTTL
  split
  next positive => exact positive
  next => decide

theorem le_add_affinityTTL (configured : Int) (now : Time) : now ≤ now + affinityTTL configured :=
  Int.le_add_of_nonneg_right (Int.le_of_lt (affinityTTL_pos configured))

theorem fresh_live (configured : Int) (now : Time) (key : Key) :
    (Window.fresh (affinityTTL configured) now key).Live now :=
  Or.inr (le_add_affinityTTL configured now)

theorem used_live {w : Window} {now : Time} (live : w.Live now) (configured : Int) (key : Key) :
    (w.used (affinityTTL configured) now key).Live now := by
  unfold Window.used
  split
  · exact Or.inr (le_add_affinityTTL configured now)
  · exact live

theorem pickAndBind_frame (st : Store) (configured : Int) (clocks : Clocks) (n : Int) {service token : GoString}
    (candidates : List Instance) (rebound : Bool) {key : Key} (other : key ≠ affinityKey service token) :
    (pickAndBind st configured clocks n service token candidates rebound).store.affinity.get key =
      st.affinity.get key := by
  unfold pickAndBind
  split
  next => rfl
  next => exact (get_putAffinity _ _ _ _ _).trans (if_neg fun here => other here.1)

/-- A refresh writes where the names in the binding say. -/
theorem stickyPick_refreshed {st : Store} {clocks : Clocks} (configured n : Int) {service token : GoString}
    {candidates : List Instance} {a : Affinity} {found : Instance} (key : Key)
    (binding : st.LiveBinding clocks.check (affinityKey service token) a)
    (search : candidates.find? (·.id = a.instanceID) = some found)
    (late : affinityTTL configured / 4 < timeSub clocks.now a.lastSeen) :
    (stickyPick st configured clocks n service token candidates).store.affinity.get key =
      if key = affinityKey a.serviceName a.token ∧ KeyFits key then
        some (a.refreshed (affinityTTL configured) clocks.now clocks.put)
      else st.affinity.get key := by
  have read := getAffinity_of_live binding.1 binding.2
  simp only [stickyPick, read, search, if_pos late]
  exact get_putAffinity _ _ _ _ _

/-- Soon after a use a pick of the bound instance writes nothing. -/
theorem stickyPick_kept {st : Store} {clocks : Clocks} (configured n : Int) {service token : GoString}
    {candidates : List Instance} {a : Affinity} {found : Instance}
    (binding : st.LiveBinding clocks.check (affinityKey service token) a)
    (search : candidates.find? (·.id = a.instanceID) = some found)
    (soon : ¬affinityTTL configured / 4 < timeSub clocks.now a.lastSeen) :
    (stickyPick st configured clocks n service token candidates).store = st := by
  have read := getAffinity_of_live binding.1 binding.2
  simp only [stickyPick, read, search, if_neg soon]

/-- A pick whose live binding is to no candidate chooses anew. -/
theorem stickyPick_lost {st : Store} {clocks : Clocks} (configured n : Int) {service token : GoString}
    {candidates : List Instance} {a : Affinity}
    (binding : st.LiveBinding clocks.check (affinityKey service token) a)
    (search : candidates.find? (·.id = a.instanceID) = none) :
    stickyPick st configured clocks n service token candidates =
      pickAndBind st configured clocks n service token candidates true := by
  have read := getAffinity_of_live binding.1 binding.2
  simp only [stickyPick, read, search]

/-- A pick without a live binding chooses anew, in a store that has kept the other bindings. -/
theorem stickyPick_unbound_frame {st : Store} {clocks : Clocks} {service token : GoString} (configured n : Int)
    (candidates : List Instance)
    (gone : ∀ a, st.affinity.get (affinityKey service token) = some a → ¬a.window.Live clocks.check) :
    ∃ st', (∀ key, key ≠ affinityKey service token → st'.affinity.get key = st.affinity.get key) ∧
      stickyPick st configured clocks n service token candidates =
        pickAndBind st' configured clocks n service token candidates false := by
  obtain ⟨e, st', read⟩ := getAffinity_of_not_live gone
  refine ⟨st', ?_, by simp only [stickyPick, read]⟩
  intro key other
  have looked := getAffinity_frame st clocks.check other
  rwa [read] at looked

/-- A pick of the bound instance leaves every other pair's binding, unless its refresh is misdirected. -/
theorem stickyPick_found_frame {st : Store} {configured : Int} {clocks : Clocks} {n : Int}
    {service token : GoString} {candidates : List Instance} {a : Affinity} {found : Instance} {key : Key}
    (binding : st.LiveBinding clocks.check (affinityKey service token) a)
    (search : candidates.find? (·.id = a.instanceID) = some found)
    (directed : ¬Misdirected st configured clocks service token candidates)
    (other : key ≠ affinityKey service token) :
    (stickyPick st configured clocks n service token candidates).store.affinity.get key =
      st.affinity.get key := by
  by_cases late : affinityTTL configured / 4 < timeSub clocks.now a.lastSeen
  · rw [stickyPick_refreshed configured n key binding search late]
    split
    next here =>
      obtain ⟨rfl, fits⟩ := here
      have named : found.id = a.instanceID := by simpa using List.find?_some search
      by_contra changed
      exact directed
        ⟨a, binding, ⟨found, List.mem_of_find?_eq_some search, named⟩, late, other, fits, Ne.symm changed⟩
    next => rfl
  · rw [stickyPick_kept configured n binding search late]

/-- The pick of a bound instance. -/
theorem picksWell_found {st : Store} {configured : Int} {clocks : Clocks} {n : Int}
    {service token : GoString} {candidates : List Instance} {a : Affinity} {found : Instance}
    (bare : slash ∉ service) (unique : (candidates.map (·.id)).Nodup) (order : clocks.now ≤ clocks.check)
    (binding : st.LiveBinding clocks.check (affinityKey service token) a)
    (search : candidates.find? (·.id = a.instanceID) = some found)
    (directed : ¬Misdirected st configured clocks service token candidates) :
    PicksWell st configured clocks n service token candidates := by
  obtain ⟨answer, bound⟩ := stickyPick_found configured n binding.1 binding.2 search
  have member := List.mem_of_find?_eq_some search
  have named : found.id = a.instanceID := by simpa using List.find?_some search
  have own : ∀ b, st.LiveBinding clocks.check (affinityKey service token) b → b = a :=
    fun b other => Option.some.inj (other.1.symm.trans binding.1)
  refine ⟨⟨found, member, by rw [answer]⟩, ?_, ?_, ⟨found, _, by rw [answer], bound, ?_⟩, ?_⟩
  · intro b other c candidate same
    obtain rfl := own b other
    rw [answer, eq_of_id_eq unique candidate member (same.trans named.symm)]
  · intro none
    exact absurd named (none a binding found member)
  · exact used_live (binding.2.earlier order) configured _
  · intro service' token' bare' other
    refine stickyPick_found_frame binding search directed fun same => other ?_
    obtain ⟨rfl, rfl⟩ := affinityKey_inj bare' bare same
    rfl

/-- A pick that chooses anew, in the store that the look at the binding leaves. -/
theorem picksWell_anew {st st' : Store} {configured : Int} {clocks : Clocks} {n : Int}
    {service token : GoString} {candidates : List Instance} {rebound : Bool}
    (bare : slash ∉ service) (fits : KeyFits (affinityKey service token)) (nonempty : candidates ≠ [])
    (decoded : ∀ c ∈ candidates, jsonString c.id = c.id)
    (lost : ∀ a, st.LiveBinding clocks.check (affinityKey service token) a → ∀ c ∈ candidates,
      c.id ≠ a.instanceID)
    (had : rebound = true ↔ ∃ a, st.LiveBinding clocks.check (affinityKey service token) a)
    (same : ∀ key, key ≠ affinityKey service token → st'.affinity.get key = st.affinity.get key)
    (anew : stickyPick st configured clocks n service token candidates =
      pickAndBind st' configured clocks n service token candidates rebound) :
    PicksWell st configured clocks n service token candidates := by
  obtain ⟨chosen, drawn⟩ := exists_weightedPick n nonempty
  have member := weightedPick_mem drawn
  obtain ⟨answer, bound⟩ := pickAndBind_bound st' configured clocks rebound fits (decoded chosen member) drawn
  rw [← anew] at answer bound
  refine ⟨⟨chosen, member, by rw [answer]⟩, ?_, ?_, ⟨chosen, _, by rw [answer], bound, ?_⟩, ?_⟩
  · intro a binding c candidate named
    exact absurd named (lost a binding c candidate)
  · intro _
    rw [answer]
    exact had
  · exact fresh_live configured clocks.now _
  · intro service' token' bare' other
    have apart : affinityKey service' token' ≠ affinityKey service token := by
      intro one
      obtain ⟨rfl, rfl⟩ := affinityKey_inj bare' bare one
      exact other rfl
    rw [anew, pickAndBind_frame st' configured clocks n candidates rebound apart]
    exact same _ apart

/-- Two instances of one service, and a token bound to the second of them. -/
def couple : Store :=
  { Store.empty with
    instances := (Bucket.empty.insert (instanceKey "s" "a") (poolInstance "a") (by decide)).insert
      (instanceKey "s" "b") (poolInstance "b") (by decide) }

def coupleBound : Store := (stickyPick couple 100 ⟨1000, 1000, 1000⟩ 1 "s" "t" pool).store

/-- A token of one byte that is no text. -/
def rawToken : GoString := [0xFF]

/-- A pool of one instance. -/
def lone : Store :=
  { Store.empty with
    instances := Bucket.empty.insert (instanceKey "s" "a") (poolInstance "a") (by decide) }

/-- The binding that a first pick with it leaves. -/
def rawBound : Store := (stickyPick lone 100 ⟨1000, 1000, 1000⟩ 0 "s" rawToken [poolInstance "a"]).store

end Server
end Discovery
