import Mathlib.Data.List.Nodup
import Discovery.Server.Sticky

namespace Discovery
open Kv Machine

/-- What a call to `stickyPick` has still to do after its read transaction: delete the expired binding and
choose, choose and bind, write the refreshed binding, or nothing. -/
inductive StickyCall
  | expire (now : Time)
  | choose (now : Time) (rebound : Bool)
  | refresh (found : Instance) (a : Affinity)
  | returned (pick : Pick)
  deriving DecidableEq

/-- Has nothing to choose any more. -/
def StickyCall.Settled : StickyCall → Prop
  | .expire _ | .choose _ _ => False
  | .refresh _ _ | .returned _ => True

instance : (call : StickyCall) → Decidable call.Settled
  | .expire _ | .choose _ _ => inferInstanceAs (Decidable False)
  | .refresh _ _ | .returned _ => inferInstanceAs (Decidable True)

/-- Has got the instance, and nothing else to write. -/
def StickyCall.Got (chosen : Instance) : StickyCall → Prop
  | .refresh found a => found = chosen ∧ jsonString a.instanceID = chosen.id
  | .returned pick => pick.chosen = some chosen
  | _ => False

theorem StickyCall.Got.settled {call : StickyCall} {chosen : Instance} (got : call.Got chosen) : call.Settled := by
  cases call with
  | expire now => exact got
  | choose now rebound => exact got
  | refresh found a => trivial
  | returned pick => trivial

/-- The bindings, with the calls made so far. -/
structure Picking where
  store : Store
  calls : List StickyCall
  deriving DecidableEq

/-- The transactions of concurrent calls. `look` is the first of a new one, the others go on with the
`i`-th, if that is what it has still to do. -/
inductive PickStep
  | look (now check : Time)
  | delete (i : Nat)
  | bind (i : Nat) (put : Time) (n : Int)
  | refresh (i : Nat) (put : Time)
  deriving DecidableEq

namespace Server
open Store

section
variable (configured : Int) (service token : GoString) (candidates : List Instance)

/-- Where the read transaction leads. -/
def looked (st : Store) (now check : Time) : StickyCall :=
  match st.affinity.get (affinityKey service token) with
  | none => .choose now false
  | some a =>
    if a.Expired check then .expire now
    else match candidates.find? (·.id = a.instanceID) with
      | none => .choose now true
      | some found =>
        if affinityTTL configured / 4 < timeSub now a.lastSeen then
          .refresh found { a with lastSeen := now, expiresAt := now + affinityTTL configured }
        else .returned ⟨some found, true, false⟩

def pickStep (s : Picking) : PickStep → Picking × List Event
  | .look now check =>
    ({ s with calls := s.calls ++ [looked configured service token candidates s.store now check] }, [])
  | .delete i =>
    match s.calls[i]? with
    | some (.expire now) =>
      ({ store := s.store.deleteAffinity service token, calls := s.calls.set i (.choose now false) }, [])
    | _ => (s, [])
  | .bind i put n =>
    match s.calls[i]? with
    | some (.choose now rebound) =>
      let r := pickAndBind s.store configured ⟨now, now, put⟩ n service token candidates rebound
      ({ store := r.store, calls := s.calls.set i (.returned r.value) }, r.events)
    | _ => (s, [])
  | .refresh i put =>
    match s.calls[i]? with
    | some (.refresh found a) =>
      let r := s.store.settle (s.store.putAffinity put a false)
      ({ store := r.1, calls := s.calls.set i (.returned ⟨some found, true, false⟩) }, r.2)
    | _ => (s, [])

/-- Undisturbed, the transactions of a call are the call. -/
theorem pick_transactions (st : Store) (clocks : Clocks) (n : Int) :
    (exec (pickStep configured service token candidates) ⟨st, []⟩
      [.look clocks.now clocks.check, .delete 0, .bind 0 clocks.put n, .refresh 0 clocks.put]).1 =
      ⟨(stickyPick st configured clocks n service token candidates).store,
        [.returned (stickyPick st configured clocks n service token candidates).value]⟩ := by
  simp only [exec, pickStep, looked, stickyPick, getAffinity, getAffinityRaw, read]
  cases st.affinity.get (affinityKey service token) with
  | none => rfl
  | some a =>
    by_cases expired : a.Expired clocks.check
    · have window : a.expiresAt ≠ 0 ∧ a.expiresAt < clocks.check := expired
      simp only [if_pos expired, if_pos window]
      rfl
    · have window : ¬(a.expiresAt ≠ 0 ∧ a.expiresAt < clocks.check) := expired
      simp only [if_neg expired, if_neg window]
      cases candidates.find? (·.id = a.instanceID) with
      | none => rfl
      | some found =>
        by_cases late : affinityTTL configured / 4 < timeSub clocks.now a.lastSeen
        · simp only [if_pos late]
          rfl
        · simp only [if_neg late]
          rfl

end

variable {configured : Int} {service token : GoString} {candidates : List Instance}

/-- The token has a live binding to a candidate. -/
def Usable (st : Store) (check : Time) (key : Key) (candidates : List Instance) : Prop :=
  ∃ a ∈ st.affinity.get key, ¬a.Expired check ∧ ∃ c ∈ candidates, c.id = a.instanceID

instance (st : Store) (check : Time) (key : Key) (candidates : List Instance) :
    Decidable (Usable st check key candidates) :=
  inferInstanceAs (Decidable (∃ a ∈ st.affinity.get key, _ ∧ _))

/-- Apart from the first, a call reads a usable binding, and while no other has still to choose. -/
def InTurn (key : Key) (candidates : List Instance) (s : Picking) : PickStep → Prop
  | .look _ check => s.calls = [] ∨ (∀ call ∈ s.calls, call.Settled) ∧ Usable s.store check key candidates
  | _ => True

instance (key : Key) (candidates : List Instance) (s : Picking) :
    (step : PickStep) → Decidable (InTurn key candidates s step)
  | .look _ _ => inferInstanceAs (Decidable (_ ∨ _))
  | .delete _ | .bind _ _ _ | .refresh _ _ => inferInstanceAs (Decidable True)

/-- A call that finds a usable binding gets its target. -/
theorem looked_usable (configured : Int) (now : Time) {st : Store} {check : Time}
    (usable : Usable st check (affinityKey service token) candidates) :
    ∃ chosen ∈ candidates, (∃ w, st.Bound (affinityKey service token) w chosen) ∧
      (looked configured service token candidates st now check).Got chosen := by
  obtain ⟨a, stored, live, c, member, same⟩ := usable
  have stored : st.affinity.get (affinityKey service token) = some a := stored
  have clean : a.json = a := Bucket.clean stored
  cases search : candidates.find? (·.id = a.instanceID) with
  | none => exact absurd (decide_eq_true same) (List.find?_eq_none.mp search c member)
  | some found =>
    have named : found.id = a.instanceID := by simpa using List.find?_some search
    refine ⟨found, List.mem_of_find?_eq_some search, ⟨a.window, a, stored, rfl, named.symm⟩, ?_⟩
    simp only [looked, stored, search]
    rw [if_neg live]
    split
    · exact ⟨rfl, (congrArg Affinity.instanceID clean).trans named.symm⟩
    · rfl

theorem looked_settled {st : Store} {now check : Time}
    (settled : (looked configured service token candidates st now check).Settled) :
    Usable st check (affinityKey service token) candidates := by
  unfold looked at settled
  split at settled
  next => exact settled.elim
  next a stored =>
    split at settled
    next => exact settled.elim
    next live =>
      split at settled
      next => exact settled.elim
      next found search =>
        have named : found.id = a.instanceID := by simpa using List.find?_some search
        exact ⟨a, stored, live, found, List.mem_of_find?_eq_some search, named⟩

/-- A binding to the same instance in the place of the binding. -/
theorem bound_putAffinity {st : Store} {key : Key} {chosen : Instance} {put : Time} {a : Affinity} {emit : Bool}
    (bound : ∃ w, st.Bound key w chosen) (own : jsonString a.instanceID = chosen.id) :
    ∃ w, (st.settle (st.putAffinity put a emit)).1.Bound key w chosen := by
  by_cases here : key = affinityKey a.serviceName a.token ∧ KeyFits key
  · exact ⟨_, _, (get_putAffinity _ _ _ _ _).trans (if_pos here), rfl, own⟩
  · obtain ⟨w, b, stored, window, target⟩ := bound
    exact ⟨w, b, (get_putAffinity _ _ _ _ _).trans ((if_neg here).trans stored), window, target⟩

/-- Nobody has started, or one call has still to choose, or what the token is bound to is what all calls
have got. -/
def Deciding (key : Key) (candidates : List Instance) (s : Picking) : Prop :=
  s.calls = [] ∨ (∃ call, s.calls = [call] ∧ ¬call.Settled) ∨
    ∃ chosen ∈ candidates, (∃ w, s.store.Bound key w chosen) ∧ ∀ call ∈ s.calls, call.Got chosen

theorem set_singleton {α : Type} {a b c : α} {i : ℕ} (found : [a][i]? = some b) : [a].set i c = [c] := by
  cases i with
  | zero => rfl
  | succ i => cases found

theorem Bound.target {st : Store} {key : Key} {w v : Window} {c d : Instance} (one : st.Bound key w c)
    (other : st.Bound key v d) : c.id = d.id := by
  obtain ⟨a, stored, _, first⟩ := one
  obtain ⟨b, again, _, second⟩ := other
  obtain rfl := Option.some.inj (stored.symm.trans again)
  exact first.symm.trans second

theorem Deciding.look {s : Picking} {now check : Time} (unique : (candidates.map (·.id)).Nodup)
    (deciding : Deciding (affinityKey service token) candidates s)
    (inTurn : InTurn (affinityKey service token) candidates s (.look now check)) :
    Deciding (affinityKey service token) candidates
      (pickStep configured service token candidates s (.look now check)).1 := by
  obtain none | ⟨settled, usable⟩ := inTurn
  · have alone : s.calls ++ [looked configured service token candidates s.store now check] =
        [looked configured service token candidates s.store now check] := by rw [none, List.nil_append]
    by_cases usable : Usable s.store check (affinityKey service token) candidates
    · obtain ⟨chosen, member, bound, got⟩ := looked_usable configured now usable
      refine Or.inr (Or.inr ⟨chosen, member, bound, fun call called => ?_⟩)
      have calls : call ∈ s.calls ++ [looked configured service token candidates s.store now check] := called
      rw [alone] at calls
      obtain rfl := List.mem_singleton.mp calls
      exact got
    · exact Or.inr (Or.inl ⟨_, alone, fun settled => usable (looked_settled settled)⟩)
  · obtain ⟨chosen, member, bound, got⟩ := looked_usable configured now usable
    refine Or.inr (Or.inr ⟨chosen, member, bound, fun call called => ?_⟩)
    rcases List.mem_append.mp called with before | new
    · rcases deciding with none | ⟨other, only, choosing⟩ | ⟨earlier, listed, ⟨w, was⟩, all⟩
      · rw [none] at before
        cases before
      · rw [only] at settled
        exact absurd (settled other List.mem_cons_self) choosing
      · obtain ⟨v, is⟩ := bound
        have same : earlier = chosen := eq_of_id_eq unique listed member (Bound.target was is)
        exact same ▸ all call before
    · obtain rfl := List.mem_singleton.mp new
      exact got

/-- A call that goes on to its next transaction without getting an instance yet was the only one. -/
theorem Deciding.only {key : Key} {s : Picking} {i : ℕ} {call : StickyCall}
    (next : StickyCall) (deciding : Deciding key candidates s) (found : s.calls[i]? = some call)
    (choosing : ¬call.Settled) :
    s.calls.set i next = [next] := by
  have member := List.mem_of_getElem? found
  rcases deciding with none | ⟨other, only, _⟩ | ⟨chosen, _, _, all⟩
  · rw [none] at member
    cases member
  · rw [only] at found ⊢
    exact set_singleton found
  · exact absurd (all call member).settled choosing

theorem Deciding.step {s : Picking} {step : PickStep} (nonempty : candidates ≠ [])
    (unique : (candidates.map (·.id)).Nodup) (decoded : ∀ c ∈ candidates, jsonString c.id = c.id)
    (fits : KeyFits (affinityKey service token)) (deciding : Deciding (affinityKey service token) candidates s)
    (inTurn : InTurn (affinityKey service token) candidates s step) :
    Deciding (affinityKey service token) candidates (pickStep configured service token candidates s step).1 := by
  cases step with
  | look now check => exact deciding.look unique inTurn
  | delete i =>
    rw [pickStep]
    split
    next now found =>
      have only := deciding.only (.choose now false) found id
      exact Or.inr (Or.inl ⟨_, only, id⟩)
    next => exact deciding
  | bind i put n =>
    rw [pickStep]
    split
    next now rebound found =>
      obtain ⟨c, drawn⟩ := exists_weightedPick n nonempty
      have listed := weightedPick_mem drawn
      obtain ⟨answer, bound⟩ :=
        pickAndBind_bound s.store configured ⟨now, now, put⟩ rebound fits (decoded c listed) drawn
      have only := deciding.only (.returned ⟨some c, true, rebound⟩) found id
      refine Or.inr (Or.inr ⟨c, listed, ⟨_, bound⟩, fun call called => ?_⟩)
      have calls : call ∈ s.calls.set i (.returned (pickAndBind s.store configured ⟨now, now, put⟩ n service token
        candidates rebound).value) := called
      rw [answer, only] at calls
      obtain rfl := List.mem_singleton.mp calls
      rfl
    next => exact deciding
  | refresh i put =>
    rw [pickStep]
    split
    next target a found =>
      have member := List.mem_of_getElem? found
      rcases deciding with none | ⟨other, only, choosing⟩ | ⟨chosen, listed, bound, all⟩
      · rw [none] at member
        cases member
      · rw [only] at member
        obtain rfl := List.mem_singleton.mp member
        exact absurd trivial choosing
      · obtain ⟨rfl, own⟩ := all _ member
        refine Or.inr (Or.inr ⟨target, listed, bound_putAffinity bound own, fun call called => ?_⟩)
        rcases List.mem_or_eq_of_mem_set called with before | rfl
        · exact all call before
        · rfl
    next => exact deciding

/-- With one candidate: what has been got is that one, and once nobody has to choose any more the token is
bound to it. -/
def Sole (key : Key) (c : Instance) (s : Picking) : Prop :=
  (∀ call ∈ s.calls, call.Settled → call.Got c) ∧
    (s.calls = [] ∨ (∃ call ∈ s.calls, ¬call.Settled) ∨ ∃ w, s.store.Bound key w c)

theorem mem_set_of_ne {α : Type} {l : List α} {i : ℕ} {a b c : α} (member : a ∈ l) (found : l[i]? = some b)
    (ne : a ≠ b) : a ∈ l.set i c := by
  obtain ⟨j, here⟩ := List.mem_iff_getElem?.mp member
  have apart : i ≠ j := by
    rintro rfl
    exact ne (Option.some.inj (here.symm.trans found))
  exact List.mem_of_getElem? ((List.getElem?_set_ne apart).trans here)

theorem Sole.set {key : Key} {c : Instance} {s : Picking} {i : ℕ} {next : StickyCall} (sole : Sole key c s)
    (got : next.Settled → next.Got c) : ∀ call ∈ s.calls.set i next, call.Settled → call.Got c := by
  intro call called
  rcases List.mem_or_eq_of_mem_set called with before | rfl
  · exact sole.1 call before
  · exact got

theorem Sole.look {c : Instance} {s : Picking} {now check : Time} (sole : Sole (affinityKey service token) c s) :
    Sole (affinityKey service token) c (pickStep configured service token [c] s (.look now check)).1 := by
  by_cases usable : Usable s.store check (affinityKey service token) [c]
  · obtain ⟨chosen, member, bound, got⟩ := looked_usable configured now usable
    obtain rfl := List.mem_singleton.mp member
    refine ⟨fun call called => ?_, Or.inr (Or.inr bound)⟩
    rcases List.mem_append.mp called with before | new
    · exact sole.1 call before
    · obtain rfl := List.mem_singleton.mp new
      exact fun _ => got
  · have choosing : ¬(looked configured service token [c] s.store now check).Settled :=
      fun settled => usable (looked_settled settled)
    refine ⟨fun call called => ?_, Or.inr (Or.inl ⟨_, List.mem_append_right _ (List.mem_singleton_self _), choosing⟩)⟩
    rcases List.mem_append.mp called with before | new
    · exact sole.1 call before
    · obtain rfl := List.mem_singleton.mp new
      exact fun settled => absurd settled choosing

theorem Sole.step {c : Instance} {s : Picking} (step : PickStep) (decoded : jsonString c.id = c.id)
    (fits : KeyFits (affinityKey service token)) (sole : Sole (affinityKey service token) c s) :
    Sole (affinityKey service token) c (pickStep configured service token [c] s step).1 := by
  cases step with
  | look now check => exact sole.look
  | delete i =>
    rw [pickStep]
    split
    next now found =>
      have here := (List.getElem?_eq_some_iff.mp found).1
      exact ⟨sole.set False.elim, Or.inr (Or.inl ⟨_, List.mem_set here _, id⟩)⟩
    next => exact sole
  | bind i put n =>
    rw [pickStep]
    split
    next now rebound found =>
      have drawn : weightedPick n [c] = some c := rfl
      obtain ⟨answer, bound⟩ := pickAndBind_bound s.store configured ⟨now, now, put⟩ rebound fits decoded drawn
      have calls : ∀ call ∈ s.calls.set i (.returned (pickAndBind s.store configured ⟨now, now, put⟩ n service token
          [c] rebound).value), call.Settled → call.Got c := by
        rw [answer]
        exact sole.set fun _ => rfl
      exact ⟨calls, Or.inr (Or.inr ⟨_, bound⟩)⟩
    next => exact sole
  | refresh i put =>
    rw [pickStep]
    split
    next target a found =>
      have member := List.mem_of_getElem? found
      obtain ⟨rfl, own⟩ := sole.1 _ member trivial
      refine ⟨sole.set fun _ => rfl, ?_⟩
      rcases sole.2 with none | ⟨call, called, choosing⟩ | bound
      · rw [none] at member
        cases member
      · have other : call ≠ .refresh target a := by
          rintro rfl
          exact choosing trivial
        exact Or.inr (Or.inl ⟨call, mem_set_of_ne called found other, choosing⟩)
      · exact Or.inr (Or.inr (bound_putAffinity bound own))
    next => exact sole

/-- Every call has returned. -/
def Finished (s : Picking) : Prop := ∀ call ∈ s.calls, ∃ pick, call = .returned pick

/-- One instance is what every call returns and what the token is bound to. -/
def Agreed (key : Key) (s : Picking) : Prop :=
  ∃ chosen, (∃ w, s.store.Bound key w chosen) ∧ ∀ pick, .returned pick ∈ s.calls → pick.chosen = some chosen

/-- Concurrent picks of one token agree when there is one candidate, and when, whatever is drawn, each but
the first finds a usable binding and reads it while no other has still to choose. -/
theorem concurrent_picks_agree {st : Store} {steps : List PickStep} (nonempty : candidates ≠ [])
    (unique : (candidates.map (·.id)).Nodup) (decoded : ∀ c ∈ candidates, jsonString c.id = c.id)
    (fits : KeyFits (affinityKey service token))
    (inTurn : candidates.length = 1 ∨ Meets (pickStep configured service token candidates)
      (InTurn (affinityKey service token) candidates) ⟨st, []⟩ steps)
    (called : (exec (pickStep configured service token candidates) ⟨st, []⟩ steps).1.calls ≠ [])
    (finished : Finished (exec (pickStep configured service token candidates) ⟨st, []⟩ steps).1) :
    Agreed (affinityKey service token) (exec (pickStep configured service token candidates) ⟨st, []⟩ steps).1 := by
  have done : ∀ call ∈ (exec (pickStep configured service token candidates) ⟨st, []⟩ steps).1.calls,
      call.Settled := by
    intro call member
    obtain ⟨pick, rfl⟩ := finished call member
    trivial
  rcases inTurn with one | run
  · obtain ⟨c, rfl⟩ := List.length_eq_one_iff.mp one
    have start : Sole (affinityKey service token) c ⟨st, []⟩ :=
      ⟨fun call member => absurd member List.not_mem_nil, Or.inl rfl⟩
    obtain ⟨got, outcome⟩ := exec_invariant (Sole (affinityKey service token) c)
      (fun s step sole _ => sole.step step (decoded c List.mem_cons_self) fits) start
      (meets_of_forall (P := fun _ => True) fun _ _ => trivial)
    rcases outcome with none | ⟨call, member, choosing⟩ | bound
    · exact absurd none called
    · exact absurd (done call member) choosing
    · exact ⟨c, bound, fun pick member => got _ member trivial⟩
  · have start : Deciding (affinityKey service token) candidates ⟨st, []⟩ := Or.inl rfl
    have outcome := exec_invariant (Deciding (affinityKey service token) candidates)
      (fun s step deciding inTurn => deciding.step nonempty unique decoded fits inTurn) start run
    rcases outcome with none | ⟨call, only, choosing⟩ | ⟨chosen, _, bound, all⟩
    · exact absurd none called
    · exact absurd (done call (only ▸ List.mem_cons_self)) choosing
    · exact ⟨chosen, bound, fun pick member => all _ member⟩

/-- The first call binds, two more refresh, the later one first. -/
theorem concurrent_picks_in_turn : Agreed (affinityKey "s" "t") (exec (pickStep 100 "s" "t" pool) ⟨Store.empty, []⟩
    [.look 1 1, .bind 0 2 1, .look 30 30, .look 31 31, .refresh 2 32, .refresh 1 33]).1 :=
  concurrent_picks_agree (by decide) (by decide) (by decide) (by decide) (by decide) (by decide) (by
    intro call member
    have calls : (exec (pickStep 100 "s" "t" pool) ⟨Store.empty, []⟩
      [.look 1 1, .bind 0 2 1, .look 30 30, .look 31 31, .refresh 2 32, .refresh 1 33]).1.calls =
        [.returned ⟨some (poolInstance "b"), true, false⟩, .returned ⟨some (poolInstance "b"), true, false⟩,
          .returned ⟨some (poolInstance "b"), true, false⟩] := by decide
    rw [calls] at member
    simp only [List.mem_cons, List.not_mem_nil, or_false, or_self] at member
    exact ⟨_, member⟩)

/-- Two first picks both read before either has bound the token. -/
theorem concurrent_picks_split :
    ¬∀ (st : Store) (configured : Int) (service token : GoString) (candidates : List Instance)
      (steps : List PickStep), 0 < configured → candidates ≠ [] → (candidates.map (·.id)).Nodup →
      (∀ c ∈ candidates, jsonString c.id = c.id) → KeyFits (affinityKey service token) →
      (exec (pickStep configured service token candidates) ⟨st, []⟩ steps).1.calls ≠ [] →
      Finished (exec (pickStep configured service token candidates) ⟨st, []⟩ steps).1 →
      Agreed (affinityKey service token) (exec (pickStep configured service token candidates) ⟨st, []⟩ steps).1 := by
  intro agree
  have calls : (exec (pickStep 100 "s" "t" pool) ⟨Store.empty, []⟩
      [.look 1 1, .look 2 2, .bind 0 3 0, .bind 1 4 1]).1.calls =
      [.returned ⟨some (poolInstance "a"), true, false⟩, .returned ⟨some (poolInstance "b"), true, false⟩] := by
    decide
  have finished : Finished (exec (pickStep 100 "s" "t" pool) ⟨Store.empty, []⟩
      [.look 1 1, .look 2 2, .bind 0 3 0, .bind 1 4 1]).1 := by
    intro call member
    rw [calls] at member
    obtain rfl | rfl : call = .returned ⟨some (poolInstance "a"), true, false⟩ ∨
      call = .returned ⟨some (poolInstance "b"), true, false⟩ := by simpa using member
    · exact ⟨_, rfl⟩
    · exact ⟨_, rfl⟩
  obtain ⟨chosen, _, all⟩ := agree Store.empty 100 "s" "t" pool [.look 1 1, .look 2 2, .bind 0 3 0, .bind 1 4 1]
    (by decide) (by decide) (by decide) (by decide) (by decide) (by decide) finished
  rw [calls] at all
  have first := all _ List.mem_cons_self
  have second := all _ (List.mem_cons_of_mem _ List.mem_cons_self)
  exact absurd (first.trans second.symm) (by decide)

end Server
end Discovery
