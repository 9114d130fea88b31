import Discovery.Server.Instances
import Discovery.Store.AffinityExpiry
import Mathlib.Data.List.Nodup

namespace Discovery
open Kv Machine

/-- The answer of a pick. Without a chosen instance there was no candidate. -/
structure Pick where
  chosen : Option Instance
  sticky : Bool
  rebound : Bool
  deriving DecidableEq

/-- The times a pick reads: its own, that of the expiry check and that of the write. -/
structure Clocks where
  now : Time
  check : Time
  put : Time
  deriving DecidableEq

namespace Server

/-- 20 minutes. -/
def defaultAffinityTTL : Int := 20 * 60 * 1000000000

def affinityTTL (configured : Int) : Int := if 0 < configured then configured else defaultAffinityTTL

def effectiveWeight (w : Int) : Int := if w ≤ 0 then 1 else w

/-- The instance that the drawn number `n` falls on. -/
def weightedPick (n : Int) : List Instance → Option Instance
  | [] => none
  | [i] => some i
  | i :: rest => if n < effectiveWeight i.weight then some i else weightedPick (n - effectiveWeight i.weight) rest

/-- The end of a pick that found no usable binding: chooses an instance and binds the token to it. -/
def pickAndBind (st : Store) (configured : Int) (clocks : Clocks) (n : Int) (service token : GoString)
    (candidates : List Instance) (rebound : Bool) : Outcome Pick :=
  match weightedPick n candidates with
  | none => ⟨⟨none, false, rebound⟩, st, []⟩
  | some chosen =>
    let r := st.settle (st.putAffinity clocks.put
      { token
        serviceName := service
        instanceID := chosen.id
        createdAt := clocks.now
        lastSeen := clocks.now
        expiresAt := clocks.now + affinityTTL configured } true)
    ⟨⟨some chosen, true, rebound⟩, r.1, r.2⟩

/-- `n` is the number the weighted choice draws, if it comes to it. -/
def stickyPick (st : Store) (configured : Int) (clocks : Clocks) (n : Int) (service token : GoString)
    (candidates : List Instance) : Outcome Pick :=
  let ttl := affinityTTL configured
  match st.getAffinity clocks.check service token with
  | (.error _, st) => pickAndBind st configured clocks n service token candidates false
  | (.ok aff, st) =>
    match candidates.find? (·.id = aff.instanceID) with
    | none => pickAndBind st configured clocks n service token candidates true
    | some found =>
      if ttl / 4 < timeSub clocks.now aff.lastSeen then
        let r := st.settle (st.putAffinity clocks.put
          { aff with lastSeen := clocks.now, expiresAt := clocks.now + ttl } false)
        ⟨⟨some found, true, false⟩, r.1, r.2⟩
      else ⟨⟨some found, true, false⟩, st, []⟩

end Server

/-- What happens to one token on a node: picks, and sweeps between them. -/
inductive StickyStep
  | pick (clocks : Clocks) (n : Int) (candidates : List Instance)
  | sweep (now : Time)
  deriving DecidableEq

def StickyStep.time : StickyStep → Time
  | .pick clocks _ _ => clocks.check
  | .sweep now => now

/-- The idle window of a binding. `home` is the key that the names in the binding make, where a refresh
is written. -/
structure Window where
  lastSeen : Time
  expiresAt : Time
  home : Key
  deriving DecidableEq

def Affinity.window (a : Affinity) : Window := ⟨a.lastSeen, a.expiresAt, affinityKey a.serviceName a.token⟩

namespace Window

def Live (w : Window) (check : Time) : Prop := w.expiresAt = 0 ∨ check ≤ w.expiresAt

instance (w : Window) (check : Time) : Decidable (w.Live check) := inferInstanceAs (Decidable (_ ∨ _))

/-- A use slides the window only when the last recorded one is more than a quarter of the TTL ago. -/
def used (w : Window) (ttl : Int) (now : Time) (key : Key) : Window :=
  if ttl / 4 < timeSub now w.lastSeen ∧ w.home = key then { w with lastSeen := now, expiresAt := now + ttl } else w

/-- The window of a new binding. -/
def fresh (ttl : Int) (now : Time) (key : Key) : Window := ⟨now, now + ttl, jsonString key⟩

theorem Live.earlier {w : Window} {check sooner : Time} (live : w.Live check) (le : sooner ≤ check) :
    w.Live sooner := by
  rcases live with never | later
  · exact Or.inl never
  · exact Or.inr (Int.le_trans le later)

end Window

theorem Affinity.window_live {a : Affinity} {check : Time} : a.window.Live check ↔ ¬a.Expired check := by
  simp only [Window.Live, Affinity.window, Affinity.Expired]
  have order := Int.not_lt (a := a.expiresAt) (b := check)
  grind

/-- The instance is a candidate, the only one with its id. -/
def Offers (candidates : List Instance) (chosen : Instance) : Prop :=
  (∃ c ∈ candidates, c.id = chosen.id) ∧
    ∀ c ∈ candidates, c.id = chosen.id → c.serviceName = chosen.serviceName

instance (candidates : List Instance) (chosen : Instance) : Decidable (Offers candidates chosen) :=
  inferInstanceAs (Decidable (_ ∧ _))

/-- Every pick offers the chosen instance and comes before the end of the window as the picks before it
have left it. -/
def KeptInUse (ttl : Int) (key : Key) (chosen : Instance) (w : Window) : List StickyStep → Prop
  | [] => True
  | .sweep _ :: rest => KeptInUse ttl key chosen w rest
  | .pick clocks _ candidates :: rest =>
    w.Live clocks.check ∧ Offers candidates chosen ∧
      KeptInUse ttl key chosen (w.used ttl clocks.now key) rest

instance decidableKeptInUse (ttl : Int) (key : Key) (chosen : Instance) :
    (w : Window) → (steps : List StickyStep) → Decidable (KeptInUse ttl key chosen w steps)
  | _, [] => inferInstanceAs (Decidable True)
  | w, .sweep _ :: rest => decidableKeptInUse ttl key chosen w rest
  | w, .pick clocks _ _ :: rest =>
    have := decidableKeptInUse ttl key chosen (w.used ttl clocks.now key) rest
    inferInstanceAs (Decidable (_ ∧ _ ∧ _))

/-- The same instance as before, and no word of a lost binding. -/
def Pick.Keeps (p : Pick) (chosen : Instance) : Prop :=
  (∃ found, p.chosen = some found ∧ found.id = chosen.id ∧ found.serviceName = chosen.serviceName) ∧
    p.rebound = false

namespace Store

/-- The binding stored under the key is to the chosen instance, with this window. -/
def Bound (st : Store) (key : Key) (w : Window) (chosen : Instance) : Prop :=
  ∃ a, st.affinity.get key = some a ∧ a.window = w ∧ a.instanceID = chosen.id

theorem getAffinity_of_live {st : Store} {check : Time} {service token : GoString} {a : Affinity}
    (stored : st.affinity.get (affinityKey service token) = some a) (live : a.window.Live check) :
    st.getAffinity check service token = (.ok a, st) := by
  have unexpired : ¬(a.expiresAt ≠ 0 ∧ a.expiresAt < check) := Affinity.window_live.mp live
  simp only [getAffinity, getAffinityRaw, read, stored]
  rw [if_neg unexpired]

/-- Without a live binding the answer is an error, whatever is deleted on the way. -/
theorem getAffinity_of_not_live {st : Store} {check : Time} {service token : GoString}
    (gone : ∀ a, st.affinity.get (affinityKey service token) = some a → ¬a.window.Live check) :
    ∃ e st', st.getAffinity check service token = (.error e, st') := by
  cases stored : st.affinity.get (affinityKey service token) with
  | none => exact ⟨.notFound, st, by simp only [getAffinity, getAffinityRaw, read, stored]⟩
  | some a =>
    have expired : a.expiresAt ≠ 0 ∧ a.expiresAt < check :=
      not_not.mp fun unexpired => gone a stored (Affinity.window_live.mpr unexpired)
    refine ⟨.notFound, st.deleteAffinity service token, ?_⟩
    simp only [getAffinity, getAffinityRaw, read, stored]
    rw [if_pos expired]

/-- A sweep leaves a live binding. -/
theorem Bound.sweep {st : Store} {key : Key} {w : Window} {chosen : Instance} {now : Time}
    (bound : st.Bound key w chosen) (live : w.Live now) : (st.sweepExpiredAffinity now).Bound key w chosen := by
  obtain ⟨a, stored, rfl, own⟩ := bound
  refine ⟨a, ?_, rfl, own⟩
  have kept : key ∉ st.expiredKeys now := by
    intro swept
    exact Affinity.window_live.mp live (expiredAt_collected st now key swept a stored)
  have swept : st.sweepExpiredAffinity now = st.deleteKeys (st.expiredKeys now) := rfl
  rw [swept, get_deleteKeys, if_neg kept]
  exact stored

/-- A refresh slides the window where the binding's own names make the key. -/
theorem Bound.refresh {st : Store} {key : Key} {a : Affinity} {chosen : Instance} {ttl : Int}
    {clocks : Clocks} (stored : st.affinity.get key = some a) (own : a.instanceID = chosen.id)
    (late : ttl / 4 < timeSub clocks.now a.lastSeen) :
    (st.settle (st.putAffinity clocks.put { a with lastSeen := clocks.now, expiresAt := clocks.now + ttl }
      false)).1.Bound key (a.window.used ttl clocks.now key) chosen := by
  have clean : a.json = a := Bucket.clean stored
  by_cases home : a.window.home = key
  · have here : key = affinityKey a.serviceName a.token ∧ KeyFits key := ⟨home.symm, Bucket.fits_of_get stored⟩
    have slid : a.window.used ttl clocks.now key =
        { a.window with lastSeen := clocks.now, expiresAt := clocks.now + ttl } := if_pos ⟨late, home⟩
    rw [slid]
    refine ⟨({ a with lastSeen := clocks.now, expiresAt := clocks.now + ttl }.stamped clocks.put).json, ?_, ?_, ?_⟩
    · rw [get_putAffinity, if_pos here]
    · have names : jsonString a.serviceName = a.serviceName ∧ jsonString a.token = a.token :=
        ⟨congrArg Affinity.serviceName clean, congrArg Affinity.token clean⟩
      simp only [Affinity.window, Affinity.json, Affinity.stamped, names]
    · have same : jsonString a.instanceID = a.instanceID := congrArg Affinity.instanceID clean
      exact same.trans own
  · have elsewhere : ¬(key = affinityKey a.serviceName a.token ∧ KeyFits key) := fun here => home here.1.symm
    have kept : a.window.used ttl clocks.now key = a.window := if_neg fun both => home both.2
    rw [kept]
    refine ⟨a, ?_, rfl, own⟩
    rw [get_putAffinity, if_neg elsewhere]
    exact stored

end Store

namespace Server
open Store

theorem weightedPick_cons (n : Int) (i j : Instance) (rest : List Instance) :
    weightedPick n (i :: j :: rest) = if n < effectiveWeight i.weight then some i
      else weightedPick (n - effectiveWeight i.weight) (j :: rest) := rfl

theorem weightedPick_mem {n : Int} {candidates : List Instance} {chosen : Instance}
    (drawn : weightedPick n candidates = some chosen) : chosen ∈ candidates := by
  induction candidates generalizing n with
  | nil => cases drawn
  | cons i rest ih =>
    cases rest with
    | nil =>
      obtain rfl := Option.some.inj drawn
      exact List.mem_cons_self
    | cons j rest =>
      rw [weightedPick_cons] at drawn
      split at drawn
      · obtain rfl := Option.some.inj drawn
        exact List.mem_cons_self
      · exact List.mem_cons_of_mem _ (ih drawn)

theorem exists_weightedPick (n : Int) {candidates : List Instance} (nonempty : candidates ≠ []) :
    ∃ c, weightedPick n candidates = some c := by
  induction candidates generalizing n with
  | nil => exact absurd rfl nonempty
  | cons i rest ih =>
    cases rest with
    | nil => exact ⟨i, rfl⟩
    | cons j rest =>
      rw [weightedPick_cons]
      split
      · exact ⟨i, rfl⟩
      · exact ih _ (List.cons_ne_nil j rest)

theorem eq_of_id_eq {candidates : List Instance} {c d : Instance} (unique : (candidates.map (·.id)).Nodup)
    (one : c ∈ candidates) (other : d ∈ candidates) (same : c.id = d.id) : c = d :=
  List.inj_on_of_nodup_map unique one other same

/-- The choice becomes the binding, where its key can be stored. -/
theorem pickAndBind_bound (st : Store) (configured : Int) (clocks : Clocks) (rebound : Bool) {n : Int}
    {service token : GoString} {candidates : List Instance} {chosen : Instance}
    (fits : KeyFits (affinityKey service token)) (decoded : jsonString chosen.id = chosen.id)
    (drawn : weightedPick n candidates = some chosen) :
    (pickAndBind st configured clocks n service token candidates rebound).value = ⟨some chosen, true, rebound⟩ ∧
      (pickAndBind st configured clocks n service token candidates rebound).store.Bound
        (affinityKey service token)
        (Window.fresh (affinityTTL configured) clocks.now (affinityKey service token)) chosen := by
  simp only [pickAndBind, drawn, true_and]
  refine ⟨_, (get_putAffinity _ _ _ _ _).trans (if_pos ⟨rfl, fits⟩), ?_, decoded⟩
  simp only [Affinity.window, Affinity.json, Affinity.stamped, Window.fresh, Window.mk.injEq, true_and]
  exact (jsonString_append_slash service token).symm

/-- A pick that finds its binding live and its target a candidate takes that one and slides the window as
a use does. -/
theorem stickyPick_found {st : Store} {clocks : Clocks} (configured n : Int)
    {service token : GoString} {candidates : List Instance} {a : Affinity} {found : Instance}
    (stored : st.affinity.get (affinityKey service token) = some a) (live : a.window.Live clocks.check)
    (search : candidates.find? (·.id = a.instanceID) = some found) :
    (stickyPick st configured clocks n service token candidates).value = ⟨some found, true, false⟩ ∧
      (stickyPick st configured clocks n service token candidates).store.Bound (affinityKey service token)
        (a.window.used (affinityTTL configured) clocks.now (affinityKey service token)) found := by
  have read := getAffinity_of_live stored live
  have named : found.id = a.instanceID := by simpa using List.find?_some search
  simp only [stickyPick, read, search]
  by_cases late : affinityTTL configured / 4 < timeSub clocks.now a.lastSeen
  · simp only [if_pos late, true_and]
    exact Bound.refresh stored named.symm late
  · have kept : a.window.used (affinityTTL configured) clocks.now (affinityKey service token) = a.window :=
      if_neg fun both => late both.1
    simp only [if_neg late, kept, true_and]
    exact ⟨a, stored, rfl, named.symm⟩

/-- A pick without a live binding chooses anew. -/
theorem stickyPick_unbound {st : Store} {clocks : Clocks} {service token : GoString} (configured n : Int)
    (candidates : List Instance)
    (gone : ∀ a, st.affinity.get (affinityKey service token) = some a → ¬a.window.Live clocks.check) :
    ∃ st', stickyPick st configured clocks n service token candidates =
      pickAndBind st' configured clocks n service token candidates false := by
  obtain ⟨e, st', read⟩ := getAffinity_of_not_live gone
  exact ⟨st', by simp only [stickyPick, read]⟩

/-- A pick within the window takes the bound instance. -/
theorem stickyPick_bound {st : Store} {clocks : Clocks} (configured n : Int)
    {service token : GoString} {candidates : List Instance} {chosen : Instance} {w : Window}
    (bound : st.Bound (affinityKey service token) w chosen) (live : w.Live clocks.check)
    (offers : Offers candidates chosen) :
    Pick.Keeps (stickyPick st configured clocks n service token candidates).value chosen ∧
      (stickyPick st configured clocks n service token candidates).store.Bound (affinityKey service token)
        (w.used (affinityTTL configured) clocks.now (affinityKey service token)) chosen := by
  obtain ⟨a, stored, rfl, own⟩ := bound
  obtain ⟨⟨c, member, same⟩, unique⟩ := offers
  cases search : candidates.find? (·.id = a.instanceID) with
  | none =>
    have other := List.find?_eq_none.mp search c member
    exact absurd (decide_eq_true (same.trans own.symm)) other
  | some found =>
    obtain ⟨answer, b, written, window, target⟩ := stickyPick_found configured n stored live search
    have hit : found.id = a.instanceID := by simpa using List.find?_some search
    have named : found.id = chosen.id := hit.trans own
    rw [answer]
    exact ⟨⟨⟨found, rfl, named, unique found (List.mem_of_find?_eq_some search) named⟩, rfl⟩,
      b, written, window, target.trans named⟩

/-- The steps on one node, with the answers of the picks. -/
def stickyStep (configured : Int) (service token : GoString) (st : Store) : StickyStep → Store × List Pick
  | .pick clocks n candidates =>
    let r := stickyPick st configured clocks n service token candidates
    (r.store, [r.value])
  | .sweep now => (st.sweepExpiredAffinity now, [])

/-- After the end of its window nothing uses the binding any more. -/
theorem no_pick_of_not_live {configured : Int} (service token : GoString) {key : Key} {chosen : Instance}
    {w : Window} {now : Time} {steps : List StickyStep} (past : ¬w.Live now)
    (later : ∀ step ∈ steps, now ≤ step.time) (inUse : KeptInUse (affinityTTL configured) key chosen w steps)
    (st : Store) : (exec (stickyStep configured service token) st steps).2 = [] := by
  induction steps generalizing st with
  | nil => rfl
  | cons step rest ih =>
    obtain ⟨first, others⟩ := List.forall_mem_cons.mp later
    cases step with
    | sweep time => exact ih others inUse _
    | pick clocks n candidates => exact absurd (inUse.1.earlier first) past

/-- Every pick while the binding is kept in use lands on the chosen instance. -/
theorem keeps_of_bound {configured : Int} {service token : GoString} {chosen : Instance} {w : Window}
    {st : Store} {steps : List StickyStep} (bound : st.Bound (affinityKey service token) w chosen)
    (ordered : (steps.map StickyStep.time).Pairwise (· ≤ ·))
    (inUse : KeptInUse (affinityTTL configured) (affinityKey service token) chosen w steps) :
    ∀ p ∈ (exec (stickyStep configured service token) st steps).2, Pick.Keeps p chosen := by
  induction steps generalizing st w with
  | nil => exact fun p member => absurd member List.not_mem_nil
  | cons step rest ih =>
    obtain ⟨first, others⟩ := List.pairwise_cons.mp ordered
    cases step with
    | sweep now =>
      by_cases live : w.Live now
      · exact ih (bound.sweep live) others inUse
      · have later : ∀ step ∈ rest, now ≤ step.time := fun step member => first _ (List.mem_map_of_mem member)
        have silent := no_pick_of_not_live service token live later inUse
          (st.sweepExpiredAffinity now)
        intro p member
        have answered : p ∈ (exec (stickyStep configured service token) (st.sweepExpiredAffinity now) rest).2 := member
        rw [silent] at answered
        cases answered
    | pick clocks n candidates =>
      obtain ⟨live, offers, onwards⟩ := inUse
      obtain ⟨keeps, next⟩ := stickyPick_bound configured n bound live offers
      intro p member
      rcases List.mem_cons.mp member with rfl | later
      · exact keeps
      · exact ih next others onwards p later

/-- The window of the binding after the first pick. -/
def opening (st : Store) (ttl : Int) (clocks : Clocks) (key : Key) : Window :=
  match st.affinity.get key with
  | none => Window.fresh ttl clocks.now key
  | some a =>
    if a.window.Live clocks.check then a.window.used ttl clocks.now key
    else Window.fresh ttl clocks.now key

/-- A first pick can bind the token: the key can be stored, and no live binding is to an instance that
is not offered. -/
def Begins (st : Store) (check : Time) (key : Key) (candidates : List Instance) : Prop :=
  KeyFits key ∧ ∀ a ∈ st.affinity.get key, a.window.Live check → ∃ c ∈ candidates, c.id = a.instanceID

instance (st : Store) (check : Time) (key : Key) (candidates : List Instance) :
    Decidable (Begins st check key candidates) :=
  inferInstanceAs (Decidable (_ ∧ ∀ a ∈ st.affinity.get key, _ → _))

theorem stickyPick_first {st : Store} {configured : Int} {clocks : Clocks} {n : Int}
    {service token : GoString} {candidates : List Instance} {chosen : Instance}
    (decoded : ∀ c ∈ candidates, jsonString c.id = c.id)
    (begins : Begins st clocks.check (affinityKey service token) candidates)
    (first : (stickyPick st configured clocks n service token candidates).value.chosen = some chosen) :
    (stickyPick st configured clocks n service token candidates).value.rebound = false ∧
      (stickyPick st configured clocks n service token candidates).store.Bound (affinityKey service token)
        (opening st (affinityTTL configured) clocks (affinityKey service token)) chosen := by
  obtain ⟨fits, target⟩ := begins
  by_cases found : ∃ a, st.affinity.get (affinityKey service token) = some a ∧ a.window.Live clocks.check
  · obtain ⟨a, stored, live⟩ := found
    obtain ⟨c, member, same⟩ := target a stored live
    have window : opening st (affinityTTL configured) clocks (affinityKey service token) =
        a.window.used (affinityTTL configured) clocks.now (affinityKey service token) := by
      simp only [opening, stored]
      rw [if_pos live]
    cases search : candidates.find? (·.id = a.instanceID) with
    | none => exact absurd (decide_eq_true same) (List.find?_eq_none.mp search c member)
    | some i =>
      obtain ⟨answer, bound⟩ := stickyPick_found configured n stored live search
      rw [answer] at first ⊢
      obtain rfl : i = chosen := Option.some.inj first
      rw [window]
      exact ⟨rfl, bound⟩
  · have gone : ∀ a, st.affinity.get (affinityKey service token) = some a → ¬a.window.Live clocks.check :=
      fun a stored live => found ⟨a, stored, live⟩
    have window : opening st (affinityTTL configured) clocks (affinityKey service token) =
        Window.fresh (affinityTTL configured) clocks.now (affinityKey service token) := by
      unfold opening
      split
      next => rfl
      next a stored => rw [if_neg (gone a stored)]
    obtain ⟨st', anew⟩ := stickyPick_unbound configured n candidates gone
    rw [anew] at first ⊢
    rw [window]
    cases drawn : weightedPick n candidates with
    | none =>
      simp only [pickAndBind, drawn] at first
      cases first
    | some i =>
      obtain ⟨answer, bound⟩ :=
        pickAndBind_bound st' configured clocks false fits (decoded i (weightedPick_mem drawn)) drawn
      rw [answer] at first ⊢
      obtain rfl : i = chosen := Option.some.inj first
      exact ⟨rfl, bound⟩

/-- The same token keeps landing on the same instance, however sweeps come in between, as long as every
pick comes within the idle window that the picks before it have left in the store. -/
theorem sticky_while_in_use {st : Store} {configured : Int} {clocks : Clocks} {n : Int}
    {service token : GoString} {candidates : List Instance} {chosen : Instance} {rest : List StickyStep}
    (decoded : ∀ c ∈ candidates, jsonString c.id = c.id)
    (begins : Begins st clocks.check (affinityKey service token) candidates)
    (first : (stickyPick st configured clocks n service token candidates).value.chosen = some chosen)
    (ordered : (rest.map StickyStep.time).Pairwise (· ≤ ·))
    (inUse : KeptInUse (affinityTTL configured) (affinityKey service token) chosen
      (opening st (affinityTTL configured) clocks (affinityKey service token)) rest) :
    ∀ p ∈ (exec (stickyStep configured service token) st (.pick clocks n candidates :: rest)).2,
      Pick.Keeps p chosen := by
  obtain ⟨kept, bound⟩ := stickyPick_first decoded begins first
  intro p member
  rcases List.mem_cons.mp member with rfl | later
  · exact ⟨⟨chosen, first, rfl, rfl⟩, kept⟩
  · exact keeps_of_bound bound ordered inUse p later

/-- What the store lists was decoded. -/
theorem listInstances_decoded (st : Store) (name : GoString) (matchVersion : GoString → GoString → Bool)
    (constraint : GoString) :
    ∀ c ∈ upInstances matchVersion (st.listInstances name) constraint, jsonString c.id = c.id := by
  intro c member
  obtain ⟨key, stored, _⟩ := mem_listInstances.mp (List.mem_of_mem_filter member)
  have clean : c.json = c := Bucket.clean stored
  exact congrArg Instance.id clean

def poolInstance (id : GoString) : Instance where
  serviceName := "s"
  id := id
  address := "10.0.0.1"
  weight := 1
  status := statusUp

def pool : List Instance := [poolInstance "a", poolInstance "b"]

/-- The second pick slides the window past the sweep and the third. -/
theorem sticky_in_use_slides :
    (exec (stickyStep 100 "s" "t") Store.empty [.pick ⟨1000, 1000, 1000⟩ 0 pool, .pick ⟨1050, 1050, 1050⟩ 1 pool,
      .sweep 1120, .pick ⟨1140, 1140, 1140⟩ 1 pool]).2.Forall (Pick.Keeps · (poolInstance "a")) :=
  List.forall_iff_forall_mem.mpr
    (sticky_while_in_use (by decide) (by decide) (by decide) (by decide) (by decide))

/-- The times of the picks among the steps. -/
def pickTimes (steps : List StickyStep) : List Time :=
  steps.filterMap fun
    | .pick clocks _ _ => some clocks.now
    | .sweep _ => none

/-- A use 25 after the first leaves the window as it is, so it ends 75 after that use, not 100. -/
theorem binding_lost_in_use :
    ¬∀ (st : Store) (configured : Int) (clocks : Clocks) (n : Int) (service token : GoString)
      (candidates : List Instance) (chosen : Instance) (rest : List StickyStep), 0 < configured →
      (∀ c ∈ candidates, jsonString c.id = c.id) →
      Begins st clocks.check (affinityKey service token) candidates →
      (stickyPick st configured clocks n service token candidates).value.chosen = some chosen →
      (clocks.check :: rest.map StickyStep.time).Pairwise (· < ·) →
      (clocks.now :: pickTimes rest).IsChain (fun a b => b ≤ a + configured) →
      (∀ clocks n candidates, StickyStep.pick clocks n candidates ∈ rest → Offers candidates chosen) →
      ∀ p ∈ (exec (stickyStep configured service token) st (.pick clocks n candidates :: rest)).2,
        Pick.Keeps p chosen := by
  intro sticky
  have offered : ∀ clocks n candidates, StickyStep.pick clocks n candidates ∈
      [.pick ⟨1025, 1025, 1025⟩ 0 pool, .pick ⟨1125, 1125, 1125⟩ 1 pool] →
        Offers candidates (poolInstance "a") := by
    intro clocks n candidates member
    obtain ⟨_, _, rfl⟩ | ⟨_, _, rfl⟩ : (clocks = ⟨1025, 1025, 1025⟩ ∧ n = 0 ∧ candidates = pool) ∨
      clocks = ⟨1125, 1125, 1125⟩ ∧ n = 1 ∧ candidates = pool := by simpa using member
    · decide
    · decide
  have keeps := sticky Store.empty 100 ⟨1000, 1000, 1000⟩ 0 "s" "t" pool (poolInstance "a")
    [.pick ⟨1025, 1025, 1025⟩ 0 pool, .pick ⟨1125, 1125, 1125⟩ 1 pool]
    (by decide) (by decide) (by decide) (by decide) (by decide) (by decide) offered
  have third : (⟨some (poolInstance "b"), true, false⟩ : Pick) ∈ (exec (stickyStep 100 "s" "t") Store.empty
      [.pick ⟨1000, 1000, 1000⟩ 0 pool, .pick ⟨1025, 1025, 1025⟩ 0 pool,
        .pick ⟨1125, 1125, 1125⟩ 1 pool]).2 := by decide
  obtain ⟨⟨found, same, named, _⟩, _⟩ := keeps _ third
  obtain rfl := Option.some.inj same
  exact absurd named (by decide)

end Server
end Discovery
