import Discovery.Machine
import Discovery.Server.Services

namespace Discovery
open Kv Machine

/-- A request that reads one service record and writes it back, with its caller. -/
inductive GrantChange
  | addGrant (id : Identity) (body : Option GrantRequest)
  | removeGrant (id : Identity) (userID : GoString)
  | putService (id : Identity) (body : Option ServiceInput)
  deriving DecidableEq

namespace GrantChange

/-- Names the user as one to grant. -/
def Adds (user : GoString) : GrantChange → Prop
  | .addGrant _ body => ∃ req ∈ body, req.userID = user
  | _ => False

/-- Names the user as one to revoke. -/
def Removes (user : GoString) : GrantChange → Prop
  | .removeGrant _ userID => userID = user
  | _ => False

instance (user : GoString) : (change : GrantChange) → Decidable (change.Adds user)
  | .addGrant _ body => inferInstanceAs (Decidable (∃ req ∈ body, req.userID = user))
  | .removeGrant _ _ | .putService _ _ => inferInstanceAs (Decidable False)

instance (user : GoString) : (change : GrantChange) → Decidable (change.Removes user)
  | .removeGrant _ userID => inferInstanceAs (Decidable (userID = user))
  | .addGrant _ _ | .putService _ _ => inferInstanceAs (Decidable False)

/-- The user id of a body is decoded from JSON. The body of a put carries no grants. -/
def Plain : GrantChange → Prop
  | .addGrant _ body => ∀ req ∈ body, ValidUTF8 req.userID
  | .removeGrant _ _ => True
  | .putService _ body => ∀ input ∈ body, input.grants = none

instance : (change : GrantChange) → Decidable change.Plain
  | .addGrant _ body => inferInstanceAs (Decidable (∀ req ∈ body, ValidUTF8 req.userID))
  | .removeGrant _ _ => inferInstanceAs (Decidable True)
  | .putService _ body => inferInstanceAs (Decidable (∀ input ∈ body, input.grants = none))

/-- Apart from the user the request names, the record it is about to write grants the users that `own`
does. -/
def UpToDate (change : GrantChange) (svc own : Service) : Prop :=
  ∀ user ∈ svc.grants ++ own.grants, ¬change.Adds user → ¬change.Removes user →
    (user ∈ svc.grants ↔ user ∈ own.grants)

instance (change : GrantChange) (svc own : Service) : Decidable (change.UpToDate svc own) :=
  inferInstanceAs (Decidable (∀ user ∈ svc.grants ++ own.grants, _ → _ → (_ ↔ _)))

def caller : GrantChange → Identity
  | .addGrant id _ | .removeGrant id _ | .putService id _ => id

def request (name : GoString) : GrantChange → ServiceRequest
  | .addGrant _ body => .addGrant name body
  | .removeGrant _ userID => .removeGrant name userID
  | .putService _ body => .putService name body

end GrantChange

/-- A request that goes on to write the record, or that has been answered. -/
inductive GrantCall
  | writing (change : GrantChange) (svc : Service)
  | answered (change : GrantChange) (ok : Bool)
  deriving DecidableEq

def GrantCall.change : GrantCall → GrantChange
  | .writing change _ | .answered change _ => change

/-- What the call is about to write has not been overtaken. -/
def GrantCall.UpToDate (own : Service) : GrantCall → Prop
  | .writing change svc => change.UpToDate svc own
  | .answered _ _ => True

instance (own : Service) : (call : GrantCall) → Decidable (call.UpToDate own)
  | .writing change svc => inferInstanceAs (Decidable (change.UpToDate svc own))
  | .answered _ _ => inferInstanceAs (Decidable True)

/-- The store, with the requests made so far. -/
structure Granting where
  store : Store
  calls : List GrantCall
  deriving DecidableEq

/-- The read transaction of a new request, or the write transaction of the `i`-th one. -/
inductive GrantStep
  | read (change : GrantChange)
  | write (i : Nat) (now : Time)
  deriving DecidableEq

/-- The requests are well-formed, and the puts carry no grants. -/
def GrantStep.Plain : GrantStep → Prop
  | .read change => change.Plain
  | .write _ _ => True

instance : (step : GrantStep) → Decidable step.Plain
  | .read change => inferInstanceAs (Decidable change.Plain)
  | .write _ _ => inferInstanceAs (Decidable True)

namespace Server

/-- What a handler goes on to write after its read transaction and its checks, if anything. -/
def decideChange (st : Store) (name : GoString) : GrantChange → Except HttpError (Option Service)
  | .addGrant id body => do
    let svc ← (st.getService name).mapError safeStoreErr
    if canManageGrants svc id then
      let req ← decode body
      if req.userID = [] then writeErr 400 "userId required"
      else if req.userID ∈ svc.grants then .ok none
      else .ok (some { svc with grants := svc.grants ++ [req.userID] })
    else writeErr 403 "only owner or admin can manage grants"
  | .removeGrant id userID => do
    let svc ← (st.getService name).mapError safeStoreErr
    if canManageGrants svc id then
      let grants := svc.grants.filter (· ≠ userID)
      if grants.length = svc.grants.length then .ok none else .ok (some { svc with grants })
    else writeErr 403 "only owner or admin can manage grants"
  | .putService id body => do
    requireWrite id
    let input ← decode body
    let svc ← requestedService st id name input
    .ok (some svc)

def readCall (st : Store) (name : GoString) (change : GrantChange) : GrantCall :=
  match decideChange st name change with
  | .error _ => .answered change false
  | .ok none => .answered change true
  | .ok (some svc) => .writing change svc

def grantStep (name : GoString) (s : Granting) : GrantStep → Granting × List Event
  | .read change => ({ s with calls := s.calls ++ [readCall s.store name change] }, [])
  | .write i now =>
    match s.calls[i]? with
    | some (.writing change svc) =>
      match s.store.putService now svc with
      | .error _ => ({ s with calls := s.calls.set i (.answered change false) }, [])
      | .ok r => ({ store := r.store, calls := s.calls.set i (.answered change true) }, r.events)
    | _ => (s, [])

/-- The handlers do what they decide. -/
theorem serveService_change (st : Store) (now : Time) (name : GoString) (change : GrantChange) :
    serveService st now change.caller (change.request name) =
      match decideChange st name change with
      | .ok (some svc) => (st.settle (st.putService now svc)).1
      | _ => st := by
  cases change with
  | addGrant id body =>
    simp only [GrantChange.caller, GrantChange.request, serveService, addGrant, decideChange]
    cases st.getService name with
    | error e => rfl
    | ok svc =>
      simp only [Except.mapError, bind, Except.bind]
      by_cases manages : canManageGrants svc id
      · simp only [if_pos manages]
        cases body with
        | none => rfl
        | some req =>
          simp only [decode]
          by_cases empty : req.userID = []
          · simp only [if_pos empty]
            rfl
          · by_cases granted : req.userID ∈ svc.grants
            · simp only [if_neg empty, if_pos granted]
              rfl
            · simp only [if_neg empty, if_neg granted]
              cases st.putService now { svc with grants := svc.grants ++ [req.userID] } <;> rfl
      · simp only [if_neg manages]
        rfl
  | removeGrant id userID =>
    simp only [GrantChange.caller, GrantChange.request, serveService, removeGrant, decideChange]
    cases st.getService name with
    | error e => rfl
    | ok svc =>
      simp only [Except.mapError, bind, Except.bind]
      by_cases manages : canManageGrants svc id
      · simp only [manages, if_true]
        by_cases same : (svc.grants.filter (· ≠ userID)).length = svc.grants.length
        · simp only [if_pos same]
          rfl
        · simp only [if_neg same]
          cases st.putService now { svc with grants := svc.grants.filter (· ≠ userID) } <;> rfl
      · simp only [manages]
        rfl
  | putService id body =>
    simp only [GrantChange.caller, GrantChange.request, serveService, putService, decideChange]
    cases requireWrite id with
    | error e => rfl
    | ok allowed =>
      cases body with
      | none => rfl
      | some input =>
        simp only [decode, bind, Except.bind]
        cases requestedService st id name input with
        | error e => rfl
        | ok svc =>
          simp only
          cases st.putService now svc <;> rfl

/-- Undisturbed, the two transactions of a request are the request. -/
theorem change_transactions (st : Store) (now : Time) (name : GoString) (change : GrantChange) :
    ∃ ok, (exec (grantStep name) ⟨st, []⟩ [.read change, .write 0 now]).1 =
      ⟨serveService st now change.caller (change.request name), [.answered change ok]⟩ := by
  rw [serveService_change]
  simp only [exec, grantStep, readCall]
  cases decideChange st name change with
  | error e => exact ⟨false, rfl⟩
  | ok decision =>
    cases decision with
    | none => exact ⟨true, rfl⟩
    | some svc =>
      simp only [List.nil_append, List.getElem?_cons_zero]
      cases st.putService now svc with
      | error e => exact ⟨false, rfl⟩
      | ok r => exact ⟨true, rfl⟩

/-- No write reverts who is granted. -/
def Current (name : GoString) (s : Granting) : GrantStep → Prop
  | .read _ => True
  | .write i _ => ∀ call ∈ s.calls[i]?, ∀ own ∈ s.store.services.get name, call.UpToDate own

instance (name : GoString) (s : Granting) : (step : GrantStep) → Decidable (Current name s step)
  | .read _ => inferInstanceAs (Decidable True)
  | .write i _ =>
    inferInstanceAs (Decidable (∀ call ∈ s.calls[i]?, ∀ own ∈ s.store.services.get name, call.UpToDate own))

/-- Some request that granted the user has succeeded. -/
def Added (user : GoString) (calls : List GrantCall) : Prop :=
  ∃ change, .answered change true ∈ calls ∧ change.Adds user

/-- Some request that revoked the user has succeeded. -/
def Removed (user : GoString) (calls : List GrantCall) : Prop :=
  ∃ change, .answered change true ∈ calls ∧ change.Removes user

/-- Every user whom a request has granted and none revokes is granted, every user whom a request has
revoked and none grants is not. -/
def NoneLost (own : Service) (calls : List GrantCall) : Prop :=
  ∀ user, (Added user calls → (∀ change ∈ calls.map GrantCall.change, ¬change.Removes user) → user ∈ own.grants) ∧
    (Removed user calls → (∀ change ∈ calls.map GrantCall.change, ¬change.Adds user) → user ∉ own.grants)

/-- What a request is going to write under the name does what the request says. -/
structure Decided (name : GoString) (change : GrantChange) (svc : Service) : Prop where
  named : svc.name = name
  adds : ∀ user, change.Adds user → user ∈ svc.grants
  removes : ∀ user, change.Removes user → user ∉ svc.grants
  clean : jsonStrings svc.grants = svc.grants

theorem jsonStrings_eq_self {l : List GoString} : jsonStrings l = l ↔ ∀ g ∈ l, ValidUTF8 g := by
  have each := List.map_inj_left (f := jsonString) (g := id) (l := l)
  rwa [List.map_id] at each

/-- What a request says is so of the record already. -/
def InEffect (change : GrantChange) (own : Service) : Prop :=
  (∀ user, change.Adds user → user ∈ own.grants) ∧ ∀ user, change.Removes user → user ∉ own.grants

/-- A decision is to write what the request says, or to write nothing as it is so already. -/
def Decides (name : GoString) (change : GrantChange) (own : Service) : Option Service → Prop
  | none => InEffect change own
  | some svc => Decided name change svc

section Decisions

variable {st : Store} {name : GoString} {id : Identity} {own : Service} {decision : Option Service}

theorem decide_addGrant {body : Option GrantRequest} (stored : st.services.get name = some own)
    (named : own.name = name) (plain : (GrantChange.addGrant id body).Plain)
    (run : decideChange st name (.addGrant id body) = .ok decision) :
    Decides name (.addGrant id body) own decision := by
  have found : st.getService name = .ok own := Store.getService_eq_ok.mpr stored
  have clean : jsonStrings own.grants = own.grants := congrArg Service.grants (Bucket.clean stored)
  simp only [decideChange, found, bind_eq_ok, mapError_eq_ok, Except.ok.injEq, exists_eq_left'] at run
  by_cases manages : canManageGrants own id
  · simp only [manages, if_true, bind_eq_ok, decode_eq_ok] at run
    obtain ⟨req, body, run⟩ := run
    by_cases empty : req.userID = []
    · simp [empty, writeErr] at run
    · by_cases granted : req.userID ∈ own.grants
      · simp only [if_neg empty, if_pos granted, Except.ok.injEq] at run
        subst run
        refine ⟨?_, fun user => False.elim⟩
        rintro user ⟨other, same, rfl⟩
        obtain rfl := Option.some.inj (body.symm.trans same)
        exact granted
      · simp only [if_neg empty, if_neg granted, Except.ok.injEq] at run
        subst run
        refine ⟨named, ?_, fun user => False.elim, jsonStrings_eq_self.mpr fun g member => ?_⟩
        · rintro user ⟨other, same, rfl⟩
          obtain rfl := Option.some.inj (body.symm.trans same)
          exact List.mem_append_right _ (List.mem_singleton_self _)
        · rcases List.mem_append.mp member with old | new
          · exact jsonStrings_eq_self.mp clean g old
          · obtain rfl := List.mem_singleton.mp new
            exact plain req body
  · simp [manages, writeErr] at run

theorem decide_removeGrant {userID : GoString} (stored : st.services.get name = some own)
    (named : own.name = name) (run : decideChange st name (.removeGrant id userID) = .ok decision) :
    Decides name (.removeGrant id userID) own decision := by
  have found : st.getService name = .ok own := Store.getService_eq_ok.mpr stored
  have clean : jsonStrings own.grants = own.grants := congrArg Service.grants (Bucket.clean stored)
  simp only [decideChange, found, bind_eq_ok, mapError_eq_ok, Except.ok.injEq, exists_eq_left'] at run
  by_cases manages : canManageGrants own id
  · simp only [manages, if_true] at run
    by_cases same : (own.grants.filter (· ≠ userID)).length = own.grants.length
    · simp only [if_pos same, Except.ok.injEq] at run
      subst run
      refine ⟨fun user => False.elim, ?_⟩
      rintro user rfl member
      have all := List.length_filter_eq_length_iff.mp same
      simpa using all userID member
    · simp only [if_neg same, Except.ok.injEq] at run
      subst run
      refine ⟨named, fun user => False.elim, ?_, jsonStrings_eq_self.mpr fun g member => ?_⟩
      · rintro user rfl member
        simpa using (List.mem_filter.mp member).2
      · exact jsonStrings_eq_self.mp clean g (List.mem_of_mem_filter member)
  · simp [manages, writeErr] at run

/-- A plain update names no grants, so it keeps those of the record it has read. -/
theorem decide_putService {body : Option ServiceInput} (stored : st.services.get name = some own)
    (plain : (GrantChange.putService id body).Plain)
    (run : decideChange st name (.putService id body) = .ok decision) :
    Decides name (.putService id body) own decision := by
  have clean : jsonStrings own.grants = own.grants := congrArg Service.grants (Bucket.clean stored)
  simp only [decideChange, bind_eq_ok, requireWrite_eq_ok, decode_eq_ok, Except.ok.injEq] at run
  obtain ⟨_, _, input, body, svc, wanted, rfl⟩ := run
  obtain ⟨_, record⟩ := requestedService_eq_ok.mp wanted
  rw [stored] at record
  have bare : input.grants = none := plain input body
  have kept : svc.grants = own.grants := by
    simp only [record, ServiceInput.updated, bare]
    split <;> rfl
  refine ⟨requestedService_name wanted, fun user => False.elim, fun user => False.elim, ?_⟩
  rw [kept]
  exact clean

theorem decideChange_ok {change : GrantChange} (stored : st.services.get name = some own)
    (named : own.name = name) (plain : change.Plain) (run : decideChange st name change = .ok decision) :
    Decides name change own decision := by
  cases change with
  | addGrant => exact decide_addGrant stored named plain run
  | removeGrant => exact decide_removeGrant stored named run
  | putService => exact decide_putService stored plain run

end Decisions

/-- The record under the name is its own, nobody's change of grants is lost in it, and what is still to be
written does what its request says. -/
structure Faithful (name : GoString) (s : Granting) : Prop where
  record : ∃ own, s.store.services.get name = some own ∧ own.name = name ∧ NoneLost own s.calls
  writing : ∀ change svc, .writing change svc ∈ s.calls → Decided name change svc

/-- A request goes on to write what it says, or fails, or finds what it says done. -/
theorem readCall_cases {st : Store} {name : GoString} {change : GrantChange} {own : Service}
    (stored : st.services.get name = some own) (named : own.name = name) (plain : change.Plain) :
    (∃ svc, readCall st name change = .writing change svc ∧ Decided name change svc) ∨
      ∃ ok, readCall st name change = .answered change ok ∧ (ok = true → InEffect change own) := by
  unfold readCall
  cases run : decideChange st name change with
  | error e => exact Or.inr ⟨false, rfl, fun done => by cases done⟩
  | ok decision =>
    have decided := decideChange_ok stored named plain run
    cases decision with
    | none => exact Or.inr ⟨true, rfl, fun _ => decided⟩
    | some svc => exact Or.inl ⟨svc, rfl, decided⟩

theorem Faithful.read {name : GoString} {s : Granting} {change : GrantChange} (faithful : Faithful name s)
    (plain : change.Plain) : Faithful name (grantStep name s (.read change)).1 := by
  obtain ⟨⟨own, stored, named, kept⟩, writing⟩ := faithful
  have outcome := readCall_cases stored named plain
  have sooner {P : GrantChange → Prop}
      (all : ∀ c ∈ (s.calls ++ [readCall s.store name change]).map GrantCall.change, P c) :
      ∀ c ∈ s.calls.map GrantCall.change, P c := by
    intro c member
    rw [List.map_append] at all
    exact all c (List.mem_append_left _ member)
  have answered {c : GrantChange}
      (member : GrantCall.answered c true ∈ s.calls ++ [readCall s.store name change]) :
      .answered c true ∈ s.calls ∨ c = change ∧ InEffect change own := by
    rcases List.mem_append.mp member with old | new
    · exact Or.inl old
    · have call := List.mem_singleton.mp new
      obtain ⟨svc, other, _⟩ | ⟨ok, other, done⟩ := outcome
      · rw [other] at call
        cases call
      · rw [other] at call
        obtain ⟨rfl, rfl⟩ := GrantCall.answered.inj call
        exact Or.inr ⟨rfl, done rfl⟩
  refine ⟨⟨own, stored, named, fun user => ⟨?_, ?_⟩⟩, fun c svc member => ?_⟩
  · rintro ⟨c, member, adds⟩ none
    rcases answered member with old | ⟨rfl, granted, _⟩
    · exact (kept user).1 ⟨c, old, adds⟩ (sooner none)
    · exact granted user adds
  · rintro ⟨c, member, removes⟩ none
    rcases answered member with old | ⟨rfl, _, revoked⟩
    · exact (kept user).2 ⟨c, old, removes⟩ (sooner none)
    · exact revoked user removes
  · rcases List.mem_append.mp member with old | new
    · exact writing c svc old
    · have call := List.mem_singleton.mp new
      obtain ⟨other, same, decided⟩ | ⟨ok, other, _⟩ := outcome
      · rw [same] at call
        obtain ⟨rfl, rfl⟩ := GrantCall.writing.inj call
        exact decided
      · rw [other] at call
        cases call

theorem map_change_set {calls : List GrantCall} {i : ℕ} {change : GrantChange} {svc : Service} {ok : Bool}
    (found : calls[i]? = some (.writing change svc)) :
    (calls.set i (.answered change ok)).map GrantCall.change = calls.map GrantCall.change := by
  obtain ⟨bound, here⟩ := List.getElem?_eq_some_iff.mp found
  have within : i < (calls.map GrantCall.change).length := by rwa [List.length_map]
  have same : (GrantCall.answered change ok).change = (calls.map GrantCall.change)[i] := by
    rw [List.getElem_map, here]
    rfl
  rw [List.map_set, same]
  exact List.set_getElem_self within

theorem answered_of_set {calls : List GrantCall} {i : ℕ} {change c : GrantChange} {ok : Bool}
    (member : GrantCall.answered c true ∈ calls.set i (.answered change ok)) :
    .answered c true ∈ calls ∨ c = change ∧ ok = true := by
  rcases List.mem_or_eq_of_mem_set member with old | new
  · exact Or.inl old
  · obtain ⟨rfl, rfl⟩ := GrantCall.answered.inj new
    exact Or.inr ⟨rfl, rfl⟩

/-- A request that fails to write has not changed anything. -/
theorem NoneLost.failed {own : Service} {calls : List GrantCall} {i : ℕ} {change : GrantChange} {svc : Service}
    (kept : NoneLost own calls) (found : calls[i]? = some (.writing change svc)) :
    NoneLost own (calls.set i (.answered change false)) := by
  have before {c : GrantChange} (member : GrantCall.answered c true ∈ calls.set i (.answered change false)) :
      .answered c true ∈ calls := by
    rcases answered_of_set member with old | ⟨_, done⟩
    · exact old
    · cases done
  intro user
  rw [map_change_set found]
  constructor
  · rintro ⟨c, member, adds⟩
    exact (kept user).1 ⟨c, before member, adds⟩
  · rintro ⟨c, member, removes⟩
    exact (kept user).2 ⟨c, before member, removes⟩

/-- A write that is not overtaken loses nobody's change. -/
theorem NoneLost.written {name : GoString} {own svc new : Service} {calls : List GrantCall} {i : ℕ}
    {change : GrantChange} (kept : NoneLost own calls) (found : calls[i]? = some (.writing change svc))
    (decided : Decided name change svc) (current : change.UpToDate svc own) (grants : new.grants = svc.grants) :
    NoneLost new (calls.set i (.answered change true)) := by
  have named : change ∈ calls.map GrantCall.change := List.mem_map_of_mem (List.mem_of_getElem? found)
  intro user
  rw [map_change_set found, grants]
  constructor
  · rintro ⟨c, member, adds⟩ none
    rcases answered_of_set member with old | ⟨rfl, _⟩
    · by_cases again : change.Adds user
      · exact decided.adds user again
      · have granted := (kept user).1 ⟨c, old, adds⟩ none
        exact (current user (List.mem_append_right _ granted) again (none change named)).mpr granted
    · exact decided.adds user adds
  · rintro ⟨c, member, removes⟩ none
    rcases answered_of_set member with old | ⟨rfl, _⟩
    · by_cases again : change.Removes user
      · exact decided.removes user again
      · have revoked := (kept user).2 ⟨c, old, removes⟩ none
        intro granted
        exact revoked ((current user (List.mem_append_left _ granted) (none change named) again).mp granted)
    · exact decided.removes user removes

theorem Faithful.write {name : GoString} {s : Granting} {i : ℕ} {now : Time} (faithful : Faithful name s)
    (trimmed : trimSpace name = name) (current : Current name s (.write i now)) :
    Faithful name (grantStep name s (.write i now)).1 := by
  obtain ⟨⟨own, stored, named, kept⟩, writing⟩ := faithful
  rw [grantStep]
  split
  next change svc found =>
    have decided := writing change svc (List.mem_of_getElem? found)
    have others {ok : Bool} (c : GrantChange) (w : Service)
        (member : GrantCall.writing c w ∈ s.calls.set i (.answered change ok)) : Decided name c w := by
      rcases List.mem_or_eq_of_mem_set member with old | new
      · exact writing c w old
      · cases new
    cases put : s.store.putService now svc with
    | error e => exact ⟨⟨own, stored, named, kept.failed found⟩, others⟩
    | ok r =>
      have home : trimSpace svc.name = name := by rw [decided.named, trimmed]
      have written := Store.get_putService put name
      rw [if_pos home.symm] at written
      have clean : own.json = own := Bucket.clean stored
      have valid : jsonString name = name := by
        have same := congrArg Service.name clean
        rwa [← named]
      refine ⟨⟨_, written, ?_, kept.written found decided (current _ found own stored) decided.clean⟩, others⟩
      exact (congrArg jsonString home).trans valid
  next => exact ⟨⟨own, stored, named, kept⟩, writing⟩

/-- No change of the grants is lost in an interleaving in which no write reverts, for any user but the one
its request names, who is granted. -/
theorem no_grant_lost {st : Store} {name : GoString} {own : Service} {steps : List GrantStep}
    (stored : st.services.get name = some own) (named : own.name = name) (trimmed : trimSpace name = name)
    (plain : ∀ step ∈ steps, step.Plain)
    (current : Meets (grantStep name) (Current name) ⟨st, []⟩ steps) :
    ∃ final, (exec (grantStep name) ⟨st, []⟩ steps).1.store.services.get name = some final ∧
      NoneLost final (exec (grantStep name) ⟨st, []⟩ steps).1.calls := by
  have start : Faithful name ⟨st, []⟩ := by
    refine ⟨⟨own, stored, named, fun user => ⟨?_, ?_⟩⟩, fun c svc member => absurd member List.not_mem_nil⟩
    · rintro ⟨c, member, _⟩
      cases member
    · rintro ⟨c, member, _⟩
      cases member
  have faithful := exec_invariant (Faithful name) (fun s step faithful met => by
    cases step with
    | read change => exact faithful.read met.2
    | write i now => exact faithful.write trimmed met.1) start (current.and plain)
  obtain ⟨⟨final, found, _, kept⟩, _⟩ := faithful
  exact ⟨final, found, kept⟩

def owner : Identity := { userID := "1", role := .write }

/-- The owner grants user 2, an admin describes the service, and the owner revokes user 2 twice at once. -/
def grantsInTurn : List GrantStep :=
  [.read (.addGrant owner (some { userID := "2" })), .write 0 2,
    .read (.putService { userID := "9", role := .write, isAdmin := true } (some { description := "d" })),
    .write 1 3, .read (.removeGrant owner "2"), .read (.removeGrant owner "2"), .write 2 4, .write 3 5]

theorem no_grant_lost_in_turn :
    ∃ final, (exec (grantStep "billing") ⟨billing, []⟩ grantsInTurn).1.store.services.get "billing" = some final ∧
      NoneLost final (exec (grantStep "billing") ⟨billing, []⟩ grantsInTurn).1.calls := by
  have stored : billing.services.get "billing" = some
      { name := "billing", visibility := visibilityPrivate, ownerID := "1", createdAt := 1, updatedAt := 1 } := by
    decide
  exact no_grant_lost stored rfl (by decide) (by decide) (by decide)

/-- The second of two grants that both read the record first takes the other user out again. -/
theorem grant_overwritten :
    ¬∀ (st : Store) (name : GoString) (own : Service) (steps : List GrantStep),
      st.services.get name = some own → own.name = name → trimSpace name = name →
      (∀ step ∈ steps, step.Plain) →
      (∀ change, .read change ∈ steps → canManageGrants own change.caller) →
      ∃ final, (exec (grantStep name) ⟨st, []⟩ steps).1.store.services.get name = some final ∧
        NoneLost final (exec (grantStep name) ⟨st, []⟩ steps).1.calls := by
  intro kept
  have stored : billing.services.get "billing" = some
      { name := "billing", visibility := visibilityPrivate, ownerID := "1", createdAt := 1, updatedAt := 1 } := by
    decide
  have managed : ∀ change, GrantStep.read change ∈ [.read (.addGrant owner (some { userID := "2" })),
      .read (.addGrant owner (some { userID := "3" })), .write 0 2, .write 1 3] → canManageGrants
        { name := "billing", visibility := visibilityPrivate, ownerID := "1", createdAt := 1, updatedAt := 1 }
        change.caller := by
    intro change member
    obtain rfl | rfl : change = .addGrant owner (some { userID := "2" }) ∨
      change = .addGrant owner (some { userID := "3" }) := by simpa using member
    · decide
    · decide
  obtain ⟨final, found, lost⟩ := kept billing "billing" _ [.read (.addGrant owner (some { userID := "2" })),
    .read (.addGrant owner (some { userID := "3" })), .write 0 2, .write 1 3] stored rfl (by decide) (by decide)
    managed
  have record : (exec (grantStep "billing") ⟨billing, []⟩ [.read (.addGrant owner (some { userID := "2" })),
      .read (.addGrant owner (some { userID := "3" })), .write 0 2, .write 1 3]).1.store.services.get "billing" =
        some { name := "billing", visibility := visibilityPrivate, ownerID := "1", grants := ["3"]
               createdAt := 1, updatedAt := 3 } := by decide
  obtain rfl := Option.some.inj (record.symm.trans found)
  have calls : (exec (grantStep "billing") ⟨billing, []⟩ [.read (.addGrant owner (some { userID := "2" })),
      .read (.addGrant owner (some { userID := "3" })), .write 0 2, .write 1 3]).1.calls =
        [.answered (.addGrant owner (some { userID := "2" })) true,
          .answered (.addGrant owner (some { userID := "3" })) true] := by decide
  rw [calls] at lost
  have granted := (lost "2").1 ⟨.addGrant owner (some { userID := "2" }), List.mem_cons_self, by decide⟩ (by decide)
  exact absurd granted (by decide)

end Server
end Discovery
