import Mathlib.Data.Int.Order.Basic
import Discovery.Lease
import Discovery.Machine
import Discovery.Server.Login

namespace Discovery
open Kv Machine

/-- Past its end. -/
def Session.Expired (sess : Session) (now : Time) : Prop := sess.expiresAt ≠ 0 ∧ sess.expiresAt < now

instance Session.decidableExpired (sess : Session) (now : Time) : Decidable (sess.Expired now) :=
  inferInstanceAs (Decidable (_ ∧ _))

theorem Session.expired_stays (sess : Session) ⦃now later : Time⦄ (after : now ≤ later) (past : sess.Expired now) :
    sess.Expired later :=
  ⟨past.1, Int.lt_of_lt_of_le past.2 after⟩

/-- The record that a login at `now` leaves. -/
def VerifiedUser.session (user : VerifiedUser) (now : Time) : Session :=
  { user.snapshot with createdAt := now, expiresAt := now + sessionTTL }.json

/-- The store, with the deletions that running calls have still to make. `issued` and `clock` are history
variables: the tokens handed out, and the latest time a call has read. -/
structure Sessions where
  store : Store
  deletions : List (List Key)
  issued : List GoString
  clock : Time

/-- The transactions of concurrent requests and of the sweeper: a login, the views of `GetSession` and of
`SweepExpiredSessions`, the deletions that follow them, and a logout. -/
inductive SessionStep
  | login (now : Time) (user : VerifiedUser) (token : Except Err GoString)
  | look (now : Time) (token : GoString)
  | collect (now : Time)
  | delete (n : Nat)
  | logout (token : GoString)

namespace Server

/-- The key `GetSession` finds expired, if it does. -/
def expiredSession (st : Store) (now : Time) (token : GoString) : List Key :=
  match st.sessions.get token with
  | some sess => if sess.Expired now then [token] else []
  | none => []

/-- The keys a sweep collects. -/
def expiredSessions (st : Store) (now : Time) : List Key :=
  (st.sessions.toList.filter (fun e => e.2.Expired now)).map Prod.fst

def sessionStep (s : Sessions) : SessionStep → Sessions × List Event
  | .login now user token =>
    match issueSession s.store now user.snapshot token with
    | .ok store => ({ s with store, issued := token.toOption.toList ++ s.issued, clock := now }, [])
    | .error _ => ({ s with clock := now }, [])
  | .look now token =>
    ({ s with deletions := s.deletions ++ [expiredSession s.store now token], clock := now }, [])
  | .collect now => ({ s with deletions := s.deletions ++ [expiredSessions s.store now], clock := now }, [])
  | .delete n =>
    match s.deletions[n]? with
    | none => (s, [])
    | some keys =>
      ({ s with
        store := { s.store with sessions := s.store.sessions.deleteAll keys }
        deletions := s.deletions.eraseIdx n }, [])
  | .logout token => ({ s with store := s.store.deleteSession token }, [])

def sessionStart (st : Store) (clock : Time) : Sessions where
  store := st
  deletions := []
  issued := st.sessions.toList.map Prod.fst
  clock := clock

/-- Undisturbed, the two transactions of a sweep are the sweep. -/
theorem sweepSessions_transactions (st : Store) (clock now : Time) :
    (exec sessionStep (sessionStart st clock) [.collect now, .delete 0]).1.store = st.sweepExpiredSessions now := rfl

/-- Undisturbed, the two transactions of `GetSession` leave what the call leaves. -/
theorem getSession_transactions (st : Store) (clock now : Time) (token : GoString) :
    (exec sessionStep (sessionStart st clock) [.look now token, .delete 0]).1.store =
      (st.getSession now token).2 := by
  have run : (exec sessionStep (sessionStart st clock) [.look now token, .delete 0]).1.store =
      { st with sessions := st.sessions.deleteAll (expiredSession st now token) } := rfl
  rw [run, expiredSession, Store.getSession, read]
  cases st.sessions.get token with
  | none => rfl
  | some sess =>
    by_cases expired : sess.Expired now
    · have past : sess.expiresAt ≠ 0 ∧ sess.expiresAt < now := expired
      simp only [if_pos expired, if_pos past]
      rfl
    · have live : ¬(sess.expiresAt ≠ 0 ∧ sess.expiresAt < now) := expired
      simp only [if_neg expired, if_neg live]
      rfl

/-- The clock does not go back, and the random source makes new tokens. -/
def Timely (s : Sessions) : SessionStep → Prop
  | .login now _ token => s.clock ≤ now ∧ ∀ t ∈ token.toOption, t ∉ s.issued
  | .look now _ | .collect now => s.clock ≤ now
  | .delete _ | .logout _ => True

instance (s : Sessions) : (step : SessionStep) → Decidable (Timely s step)
  | .login now _ token => inferInstanceAs (Decidable (s.clock ≤ now ∧ ∀ t ∈ token.toOption, t ∉ s.issued))
  | .look now _ | .collect now => inferInstanceAs (Decidable (s.clock ≤ now))
  | .delete _ | .logout _ => inferInstanceAs (Decidable True)

/-- The session that a token stands for after a step, had none ever expired. -/
def opens (token : GoString) (held : Option Session) : SessionStep → Option Session
  | .login now user (.ok t) => if t = token ∧ KeyFits token then some (user.session now) else held
  | .logout t => if t = token then none else held
  | _ => held

/-- A login stores the session under the new token. -/
theorem issueSession_ok {st : Store} {now : Time} {user : VerifiedUser} {token : GoString} (fits : KeyFits token) :
    issueSession st now user.snapshot (.ok token) = .ok { st with
      sessions := st.sessions.insert token
        { user.snapshot with token, createdAt := now, expiresAt := now + sessionTTL } fits } := by
  have unfolded : issueSession st now user.snapshot (.ok token) = (do
      let sessions ← write st.sessions token
        { user.snapshot with token, createdAt := now, expiresAt := now + sessionTTL }
      .ok { st with sessions }) := rfl
  rw [unfolded, write_ok _ _ fits]
  rfl

/-- Without a token that can be a key there is no session and no cookie. -/
theorem issueSession_error {st : Store} {now : Time} {user : VerifiedUser} {token : Except Err GoString}
    (unfit : ∀ t ∈ token.toOption, ¬KeyFits t) : ∃ e, issueSession st now user.snapshot token = .error e := by
  cases token with
  | error e => exact ⟨e, rfl⟩
  | ok t =>
    have unfolded : issueSession st now user.snapshot (.ok t) = (do
        let sessions ← write st.sessions t
          { user.snapshot with token := t, createdAt := now, expiresAt := now + sessionTTL }
        .ok { st with sessions }) := rfl
    obtain ⟨e, failed⟩ := write_error st.sessions
      ({ user.snapshot with token := t, createdAt := now, expiresAt := now + sessionTTL } : Session) (unfit t rfl)
    exact ⟨e, by rw [unfolded, failed]; rfl⟩

/-- `opened` is what the tokens would stand for had nothing been deleted for its age. -/
structure Follows (opened : GoString → Option Session) (s : Sessions) : Prop where
  trails : Lease.Trails Session.Expired opened s.store.sessions.get s.clock
  past : ∀ keys ∈ s.deletions, ∀ k ∈ keys, Lease.Past Session.Expired opened s.clock k
  known : ∀ keys ∈ s.deletions, ∀ k ∈ keys, k ∈ s.issued
  stored : ∀ k sess, s.store.sessions.get k = some sess → k ∈ s.issued

section Follows
variable {opened : GoString → Option Session} {s : Sessions} (follows : Follows opened s)
include follows

/-- While time passes no session comes back. -/
theorem Follows.later {now : Time} (later : s.clock ≤ now) : Follows opened { s with clock := now } where
  trails := follows.trails.later Session.expired_stays later
  past keys pending k member := (follows.past keys pending k member).later Session.expired_stays later
  known := follows.known
  stored := follows.stored

/-- What a view has found expired may be deleted later. -/
theorem Follows.schedule {keys : List Key}
    (expired : ∀ k ∈ keys, ∃ sess, s.store.sessions.get k = some sess ∧ sess.Expired s.clock) :
    Follows opened { s with deletions := s.deletions ++ [keys] } where
  trails := follows.trails
  past ks pending k member := by
    rcases List.mem_append.mp pending with old | new
    · exact follows.past ks old k member
    · obtain rfl := List.mem_singleton.mp new
      obtain ⟨sess, present, past⟩ := expired k member
      exact follows.trails.past present past
  known ks pending k member := by
    rcases List.mem_append.mp pending with old | new
    · exact follows.known ks old k member
    · obtain rfl := List.mem_singleton.mp new
      obtain ⟨sess, present, _⟩ := expired k member
      exact follows.stored k sess present
  stored := follows.stored

end Follows

/-- A read deletes a session only after its end. -/
theorem mem_expiredSession {st : Store} {now : Time} {token : GoString} :
    ∀ k ∈ expiredSession st now token, ∃ sess, st.sessions.get k = some sess ∧ sess.Expired now := by
  intro k member
  unfold expiredSession at member
  split at member
  next sess present =>
    split at member
    next expired =>
      obtain rfl := List.mem_singleton.mp member
      exact ⟨sess, present, expired⟩
    next => cases member
  next => cases member

/-- So does the sweep. -/
theorem mem_expiredSessions {st : Store} {now : Time} :
    ∀ k ∈ expiredSessions st now, ∃ sess, st.sessions.get k = some sess ∧ sess.Expired now := by
  intro k member
  obtain ⟨⟨key, sess⟩, kept, rfl⟩ := List.mem_map.mp member
  obtain ⟨listed, expired⟩ := List.mem_filter.mp kept
  exact ⟨sess, Bucket.mem_toList.mp listed, of_decide_eq_true expired⟩

/-- Each step opens and closes in the store what it does in the history, but for sessions past their end, which
the store may have lost already. -/
theorem Follows.step {opened : GoString → Option Session} {s : Sessions} (follows : Follows opened s)
    {step : SessionStep} (timely : Timely s step) :
    Follows (fun token => opens token (opened token) step) (sessionStep s step).1 := by
  cases step with
  | login now user token =>
    obtain ⟨later, new⟩ := timely
    have next := follows.later later
    by_cases unfit : ∀ t ∈ token.toOption, ¬KeyFits t
    · obtain ⟨e, failed⟩ : ∃ e, issueSession s.store now user.snapshot token = .error e := issueSession_error unfit
      have same (k : GoString) : opens k (opened k) (.login now user token) = opened k := by
        cases token with
        | error _ => rfl
        | ok t =>
          refine if_neg ?_
          rintro ⟨rfl, fits⟩
          exact unfit t rfl fits
      simp only [sessionStep, failed, same]
      exact next
    · obtain ⟨t, rfl, fits⟩ : ∃ t, token = .ok t ∧ KeyFits t := by
        cases token with
        | error _ => exact absurd (fun _ made => by cases made) unfit
        | ok t =>
          refine ⟨t, rfl, ?_⟩
          by_contra large
          refine unfit fun t' made => ?_
          rwa [← Option.some.inj made]
      simp only [sessionStep, issueSession_ok fits]
      have fresh := new t rfl
      -- the new token is not one that is about to be deleted
      have apart {keys : List Key} (pending : keys ∈ s.deletions) {k : Key} (member : k ∈ keys) :
          opens k (opened k) (.login now user (.ok t)) = opened k := by
        refine if_neg ?_
        rintro ⟨rfl, _⟩
        exact fresh (follows.known keys pending t member)
      refine ⟨?_, ?_, ?_, ?_⟩
      · refine next.trails.set t (some (user.session now)) (fun j => ?_) (fun j => ?_)
        · by_cases here : t = j
          · subst here
            simp only [opens, true_and, if_pos fits, if_true]
          · rw [if_neg (Ne.symm here)]
            exact if_neg fun both => here both.1
        · exact Bucket.get_insert _ _ _ _ fits
      · intro keys pending k member sess present
        exact next.past keys pending k member sess ((apart pending member).symm.trans present)
      · intro keys pending k member
        exact List.mem_cons_of_mem t (follows.known keys pending k member)
      · intro k sess present
        rw [Bucket.get_insert] at present
        split at present
        next here => exact here ▸ List.mem_cons_self
        next => exact List.mem_cons_of_mem t (follows.stored k sess present)
  | look now token => exact (follows.later timely).schedule mem_expiredSession
  | collect now => exact (follows.later timely).schedule mem_expiredSessions
  | delete n =>
    simp only [sessionStep]
    split
    next => exact follows
    next keys found =>
      have pending := List.mem_of_getElem? found
      refine ⟨follows.trails.drop (follows.past keys pending) (fun k member => ?_) (fun k other => ?_), ?_, ?_, ?_⟩
      · exact (Bucket.get_deleteAll _ _ _).trans (if_pos member)
      · exact (Bucket.get_deleteAll _ _ _).trans (if_neg other)
      · exact fun ks member => follows.past ks (List.mem_of_mem_eraseIdx member)
      · exact fun ks member => follows.known ks (List.mem_of_mem_eraseIdx member)
      · intro k sess present
        rw [Bucket.get_deleteAll] at present
        split at present
        · cases present
        · exact follows.stored k sess present
  | logout token =>
    refine ⟨?_, ?_, follows.known, ?_⟩
    · refine follows.trails.set token none (fun j => ?_) (Bucket.get_delete _ _)
      by_cases here : token = j
      · rw [if_pos here.symm]
        exact if_pos here
      · rw [if_neg (Ne.symm here)]
        exact if_neg here
    · intro keys pending k member sess present
      simp only [opens] at present
      split at present
      · cases present
      · exact follows.past keys pending k member sess present
    · intro k sess present
      have kept : (s.store.sessions.delete token).get k = some sess := present
      rw [Bucket.get_delete] at kept
      split at kept
      · cases kept
      · exact follows.stored k sess kept

theorem follows_start (st : Store) (clock : Time) : Follows st.sessions.get (sessionStart st clock) where
  trails _ := Or.inl rfl
  past _ pending := by cases pending
  known _ pending := by cases pending
  stored _ sess present := List.mem_map.mpr ⟨(_, sess), Bucket.mem_toList.mpr present, rfl⟩

/-- So after any interleaving every stored session is the one that the history has opened last under its token,
and every other one of the history is past its end. -/
theorem Follows.run {opened : GoString → Option Session} {s : Sessions} (follows : Follows opened s)
    {steps : List SessionStep} (timely : Meets sessionStep Timely s steps) :
    Follows (fun token => steps.foldl (opens token) (opened token)) (exec sessionStep s steps).1 := by
  induction steps generalizing s opened with
  | nil => exact follows
  | cons step steps ih =>
    obtain ⟨now, later⟩ := timely
    exact ih (follows.step now) later

/-- A call of `GetSession` sees what is opened and has not expired. -/
theorem Follows.getSession_iff {opened : GoString → Option Session} {s : Sessions} (follows : Follows opened s)
    {now : Time} (later : s.clock ≤ now) (token : GoString) (sess : Session) :
    (s.store.getSession now token).1 = .ok sess ↔
      ∃ held, opened token = some held ∧ ¬held.Expired now ∧ sess = { held with token } := by
  have live (held : Session) := follows.trails.live_iff Session.expired_stays later (k := token) (v := held)
  rw [Store.getSession, read]
  cases present : s.store.sessions.get token with
  | none =>
    refine iff_of_false (by simp) ?_
    rintro ⟨held, stored, current, _⟩
    cases present.symm.trans ((live held).mpr ⟨stored, current⟩).1
  | some held =>
    by_cases expired : held.Expired now
    · have past : held.expiresAt ≠ 0 ∧ held.expiresAt < now := expired
      simp only [if_pos past]
      refine iff_of_false (by simp) ?_
      rintro ⟨other, stored, current, _⟩
      obtain rfl := Option.some.inj (present.symm.trans ((live other).mpr ⟨stored, current⟩).1)
      exact current expired
    · have current : ¬(held.expiresAt ≠ 0 ∧ held.expiresAt < now) := expired
      simp only [if_neg current, Except.ok.injEq]
      have stored := (live held).mp ⟨present, expired⟩
      constructor
      · intro same
        exact ⟨held, stored.1, expired, same.symm⟩
      · rintro ⟨other, stored', _, rfl⟩
        rw [Option.some.inj (stored.1.symm.trans stored')]

/-- A step that neither opens nor closes the session of a token. -/
def Quiet (token : GoString) : SessionStep → Prop
  | .login _ _ made => ∀ t ∈ made.toOption, ¬(t = token ∧ KeyFits token)
  | .logout t => t ≠ token
  | _ => True

/-- Steps about other tokens do not matter for a token. -/
theorem opens_quiet {token : GoString} {held : Option Session} {step : SessionStep} (quiet : Quiet token step) :
    opens token held step = held := by
  cases step with
  | login now user made =>
    cases made with
    | error _ => rfl
    | ok t => exact if_neg (quiet t rfl)
  | logout t => exact if_neg quiet
  | _ => rfl

theorem foldl_opens_quiet {token : GoString} {held : Option Session} {steps : List SessionStep}
    (quiet : ∀ step ∈ steps, Quiet token step) : steps.foldl (opens token) held = held := by
  induction steps with
  | nil => rfl
  | cons step steps ih =>
    obtain ⟨first, rest⟩ := List.forall_mem_cons.mp quiet
    rw [List.foldl_cons, opens_quiet first, ih rest]

/-- What opened the session that a token stands for. -/
theorem login_of_opened {token : GoString} {held : Session} {steps : List SessionStep}
    (opened : steps.foldl (opens token) none = some held) :
    ∃ before since user after, steps = before ++ .login since user (.ok token) :: after ∧ KeyFits token ∧
      (∀ step ∈ after, Quiet token step) ∧ held = user.session since := by
  induction steps using List.reverseRecOn with
  | nil => cases opened
  | append_singleton steps step ih =>
    rw [List.foldl_append, List.foldl_cons, List.foldl_nil] at opened
    by_cases quiet : Quiet token step
    · rw [opens_quiet quiet] at opened
      obtain ⟨before, since, user, after, rfl, fits, rest, same⟩ := ih opened
      refine ⟨before, since, user, after ++ [step], by simp, fits, fun later member => ?_, same⟩
      rcases List.mem_append.mp member with old | new
      · exact rest later old
      · exact List.mem_singleton.mp new ▸ quiet
    · cases step with
      | login since user made =>
        cases made with
        | error _ => exact absurd (fun _ made => by cases made) quiet
        | ok t =>
          by_cases both : t = token ∧ KeyFits token
          · rw [opens, if_pos both] at opened
            obtain ⟨rfl, fits⟩ := both
            exact ⟨steps, since, user, [], rfl, fits, by simp, (Option.some.inj opened).symm⟩
          · refine absurd (fun t' made => ?_) quiet
            rwa [← Option.some.inj made]
      | logout t =>
        have here : t = token := not_not.mp quiet
        rw [opens, if_pos here] at opened
        cases opened
      | look now t | collect now | delete n => exact absurd trivial quiet

section Timely
variable {s : Sessions}

/-- The clock does not go back. -/
theorem clock_le {step : SessionStep} (timely : Timely s step) : s.clock ≤ (sessionStep s step).1.clock := by
  cases step with
  | login now user token =>
    simp only [sessionStep]
    split <;> exact timely.1
  | look now token => exact timely
  | collect now => exact timely
  | delete n =>
    simp only [sessionStep]
    split <;> exact le_refl _
  | logout token => exact le_refl _

/-- A login of the run is not before its start. -/
theorem login_later {steps : List SessionStep} (timely : Meets sessionStep Timely s steps) {since : Time}
    {user : VerifiedUser} {made : Except Err GoString} (member : .login since user made ∈ steps) : s.clock ≤ since := by
  induction steps generalizing s with
  | nil => cases member
  | cons step steps ih =>
    obtain ⟨now, later⟩ := timely
    rcases List.mem_cons.mp member with rfl | rest
    · exact now.1
    · exact (clock_le now).trans (ih later rest)

/-- A token that was handed out once is never new again. -/
theorem issued_step {step : SessionStep} {token : GoString} (issued : token ∈ s.issued) :
    token ∈ (sessionStep s step).1.issued := by
  cases step with
  | login now user made =>
    simp only [sessionStep]
    split
    next => exact List.mem_append_right _ issued
    next => exact issued
  | delete n =>
    simp only [sessionStep]
    split <;> exact issued
  | look now token | collect now | logout token => exact issued

/-- A token that was handed out is not made again. -/
theorem quiet_of_issued {steps : List SessionStep} (timely : Meets sessionStep Timely s steps) {token : GoString}
    (issued : token ∈ s.issued) (stays : .logout token ∉ steps) : ∀ step ∈ steps, Quiet token step := by
  induction steps generalizing s with
  | nil => simp
  | cons step steps ih =>
    obtain ⟨now, later⟩ := timely
    refine List.forall_mem_cons.mpr
      ⟨?_, ih later (issued_step issued) fun member => stays (List.mem_cons_of_mem _ member)⟩
    cases step with
    | login since user made =>
      rintro t new ⟨rfl, _⟩
      exact now.2 t new issued
    | logout t =>
      rintro rfl
      exact stays List.mem_cons_self
    | look _ _ | collect _ | delete _ => trivial

end Timely

/-- The run has a login that made the token and that ends no earlier than `now`, and no logout since. -/
def LoggedIn (steps : List SessionStep) (token : GoString) (now : Time) (user : VerifiedUser) (since : Time) : Prop :=
  ∃ before after, steps = before ++ .login since user (.ok token) :: after ∧ .logout token ∉ after ∧
    KeyFits token ∧ now ≤ since + sessionTTL

/-- The token of a session can be a key. -/
theorem LoggedIn.fits {steps : List SessionStep} {token : GoString} {now since : Time} {user : VerifiedUser}
    (loggedIn : LoggedIn steps token now user since) : KeyFits token := by
  obtain ⟨_, _, _, _, fits, _⟩ := loggedIn
  exact fits

theorem getSession_clientTokens (st : Store) (now : Time) (token : GoString) :
    (st.getSession now token).2.clientTokens = st.clientTokens := by
  rw [Store.getSession]
  split
  · rfl
  · split <;> rfl

/-- Who sends a request without a session. -/
def bearer (r : Resolver) (st : Store) (c : Credentials) : Identity :=
  let anonymous : Identity := { anonymous := true, role := r.authenticator.resolve [] }
  let token := extractToken c
  if token = [] then anonymous
  else if secretRole r.authenticator st token ≠ .none then
    { system := true, role := secretRole r.authenticator st token }
  else match r.introspect.bind (· token) with
    | some user => identityFromCorp user r.serviceSlug r.permKey
    | none => anonymous

section Resolve
variable {r : Resolver} {st : Store} {now : Time} {c : Credentials}

/-- Without a cookie the bearer token decides. -/
theorem resolve_no_cookie (absent : ∀ value ∈ c.cookie, value = []) : (r.resolve st now c).1 = bearer r st c := by
  have session : (r.resolve st now c).1 = (r.resolve st now { c with cookie := none }).1 := by
    cases given : c.cookie with
    | none => simp only [Resolver.resolve, given, extractToken]
    | some value =>
      have empty := absent value given
      simp only [Resolver.resolve, given, empty, ne_eq, not_true_eq_false, if_false, extractToken]
  rw [session]
  simp only [Resolver.resolve, bearer]
  have same : extractToken { c with cookie := none } = extractToken c := rfl
  rw [same]
  split
  · rfl
  · split
    · rfl
    · cases r.introspect.bind (· (extractToken c)) <;> rfl

/-- A live session decides before the bearer token is looked at. -/
theorem resolve_session {token : GoString} (cookie : c.cookie = some token) (named : token ≠ []) :
    (r.resolve st now c).1 =
      match (st.getSession now token).1 with
      | .ok sess => identityFromSession sess r.permKey
      | .error _ => bearer r st c := by
  have same (secret : GoString) :
      secretRole r.authenticator (st.getSession now token).2 secret = secretRole r.authenticator st secret := by
    rw [secretRole, secretRole, Store.getClientToken, Store.getClientToken, getSession_clientTokens]
  rw [Resolver.resolve, cookie]
  simp only [if_pos named, same]
  cases (st.getSession now token).1 with
  | ok sess => rfl
  | error e =>
    simp only [bearer]
    split
    · rfl
    · split
      · rfl
      · cases r.introspect.bind (· (extractToken c)) <;> rfl

end Resolve

section LoggedIn
variable {st : Store} {clock : Time} (zero : 0 ≤ clock) {steps : List SessionStep}
  (timely : Meets sessionStep Timely (sessionStart st clock) steps) {token : GoString}
  (absent : st.sessions.get token = none) {now : Time}
  (later : (exec sessionStep (sessionStart st clock) steps).1.clock ≤ now)
include zero timely absent later

/-- Whatever the interleaving with expiring reads and sweeps, a token stands for a session exactly if it
was made by a login at most 15 minutes ago and not logged out since. -/
theorem getSession_iff (sess : Session) :
    ((exec sessionStep (sessionStart st clock) steps).1.store.getSession now token).1 = .ok sess ↔
      ∃ user since, LoggedIn steps token now user since ∧ sess = { user.session since with token } := by
  have follows := (follows_start st clock).run timely
  rw [follows.getSession_iff later, absent]
  have ends {since : Time} {user : VerifiedUser} {made : Except Err GoString} (member : .login since user made ∈ steps) :
      ¬(user.session since).Expired now ↔ now ≤ since + sessionTTL := by
    have first : clock ≤ since := login_later timely member
    have unfolded : (user.session since).Expired now ↔ since + sessionTTL ≠ 0 ∧ since + sessionTTL < now := Iff.rfl
    have positive : (0 : Int) < sessionTTL := by decide
    have after : since + sessionTTL ≠ 0 := ne_of_gt (Int.add_pos_of_nonneg_of_pos (zero.trans first) positive)
    rw [unfolded, not_and, not_lt]
    exact ⟨fun window => window after, fun window _ => window⟩
  constructor
  · rintro ⟨held, opened, live, rfl⟩
    obtain ⟨before, since, user, after, rfl, fits, quiet, rfl⟩ := login_of_opened opened
    refine ⟨user, since, ⟨before, after, rfl, fun closed => quiet _ closed rfl, fits, ?_⟩, rfl⟩
    exact (ends (List.mem_append_right _ List.mem_cons_self)).mp live
  · rintro ⟨user, since, ⟨before, after, rfl, stays, fits, window⟩, rfl⟩
    refine ⟨user.session since, ?_, (ends (List.mem_append_right _ List.mem_cons_self)).mpr window, rfl⟩
    obtain ⟨_, _, rest⟩ := meets_append.mp timely
    have issued : token ∈ (sessionStep (exec sessionStep (sessionStart st clock) before).1
        (.login since user (.ok token))).1.issued := by
      simp only [sessionStep, issueSession_ok fits]
      exact List.mem_cons_self
    rw [List.foldl_append, List.foldl_cons, foldl_opens_quiet (quiet_of_issued rest issued stays)]
    exact if_pos ⟨rfl, fits⟩

/-- A cookie identifies the user of its login for 15 minutes or until the logout, with the rights of the
login. Before, after and otherwise the request counts as one without a cookie. -/
theorem resolve_cookie (r : Resolver) (c : Credentials) (cookie : c.cookie = some token) :
    let st' := (exec sessionStep (sessionStart st clock) steps).1.store
    (∀ user since, LoggedIn steps token now user since →
      (r.resolve st' now c).1 = identityFromSession (user.session since) r.permKey) ∧
    ((∀ user since, ¬LoggedIn steps token now user since) →
      (r.resolve st' now c).1 = (r.resolve st' now { c with cookie := none }).1) := by
  intro st'
  have valid := getSession_iff zero timely absent later
  constructor
  · intro user since loggedIn
    have named : token ≠ [] := loggedIn.fits.1
    rw [resolve_session cookie named, (valid _).mpr ⟨user, since, loggedIn, rfl⟩]
    rfl
  · intro never
    rw [resolve_no_cookie (c := { c with cookie := none }) fun _ given => by cases given]
    by_cases named : token = []
    · refine resolve_no_cookie fun value given => ?_
      rw [← named]
      exact Option.some.inj (given.symm.trans cookie)
    · rw [resolve_session cookie named]
      cases found : (st'.getSession now token).1 with
      | ok sess =>
        obtain ⟨user, since, loggedIn, _⟩ := (valid sess).mp found
        exact absurd loggedIn (never user since)
      | error e => rfl

end LoggedIn

/-- The sweep takes the session of the first user, 15 minutes after its login, and leaves that of the second. -/
theorem resolve_cookie_beside_sweep :
    let user : VerifiedUser := { userID := "2" }
    let steps : List SessionStep :=
      [.login 5 { userID := "1" } (.ok "a"), .login 100 user (.ok "b"), .collect 900000000050, .look 900000000060 "a",
        .delete 1, .delete 0]
    let st' := (exec sessionStep (sessionStart Store.empty 0) steps).1.store
    ∀ r : Resolver, (r.resolve st' 900000000100 { cookie := some "b" }).1 =
      identityFromSession (user.session 100) r.permKey := by
  intro user steps st' r
  have timely : Meets sessionStep Timely (sessionStart Store.empty 0) steps := by decide +kernel
  refine (resolve_cookie (le_refl 0) timely (Bucket.get_empty _) (by decide +kernel) r { cookie := some "b" } rfl).1
    user 100 ⟨[.login 5 { userID := "1" } (.ok "a")], _, rfl, by simp, by decide, by decide⟩

end Server
end Discovery
