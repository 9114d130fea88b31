import Discovery.Store.Instances

namespace Discovery
open Kv

def ClientToken.stamped (t : ClientToken) (now : Time) : ClientToken :=
  { t with createdAt := if t.createdAt = 0 then now else t.createdAt, updatedAt := now }

@[simp] theorem ClientToken.stamped_updatedAt (t : ClientToken) (now : Time) :
    (t.stamped now).updatedAt = now := rfl

@[simp] theorem ClientToken.stamped_token (t : ClientToken) (now : Time) :
    (t.stamped now).token = t.token := rfl

/-- The time stamps of a write: `CreatedAt` only when it is not set yet. -/
def Affinity.stamped (a : Affinity) (now : Time) : Affinity :=
  { a with createdAt := if a.createdAt = 0 then now else a.createdAt, updatedAt := now }

namespace Store

/-- Last write wins: a stored token that is newer than `t` stays. -/
def putClientTokenRaw (st : Store) (t : ClientToken) : Except Err Store :=
  if (st.clientTokens.get t.token).any (t.updatedAt < ·.updatedAt) then .ok st
  else do
    let clientTokens ← write st.clientTokens t.token t
    .ok { st with clientTokens }

/-- Stores a token under its secret. -/
def putClientToken (st : Store) (now : Time) (t : ClientToken) : Except Err (Outcome ClientToken) := do
  let t := t.stamped now
  let st ← st.putClientTokenRaw t
  .ok ⟨t, st, [.tokenUpserted t]⟩

def getClientToken (st : Store) (token : GoString) : Except Err ClientToken :=
  read st.clientTokens token

def listClientTokens (st : Store) : List ClientToken := st.clientTokens.values.reverse

/-- Of the records with the id, the last one in key order. -/
def findTokenByID (st : Store) (id : GoString) : Option (Key × ClientToken) :=
  (st.clientTokens.toList.filter (·.2.id = id)).getLast?

/-- Revokes a token by its id. -/
def deleteClientTokenByID (st : Store) (id : GoString) : Except Err (Outcome ClientToken) :=
  match st.findTokenByID id with
  | none => .error .notFound
  | some (key, found) =>
    .ok ⟨found, { st with clientTokens := st.clientTokens.delete key }, [.tokenDeleted found]⟩

def deleteClientTokenRaw (st : Store) (token : GoString) : Store :=
  { st with clientTokens := st.clientTokens.delete token }

/-- `emit` is set when the binding is new or moved, not on a refresh. -/
def putAffinity (st : Store) (now : Time) (a : Affinity) (emit : Bool) :
    Except Err (Outcome Affinity) := do
  let a := { a with createdAt := if a.createdAt = 0 then now else a.createdAt, updatedAt := now }
  let affinity ← write st.affinity (affinityKey a.serviceName a.token) a
  .ok ⟨a, { st with affinity }, if emit then [.affinityUpserted a] else []⟩

def getAffinityRaw (st : Store) (service token : GoString) : Except Err Affinity :=
  read st.affinity (affinityKey service token)

def deleteAffinity (st : Store) (service token : GoString) : Store :=
  { st with affinity := st.affinity.delete (affinityKey service token) }

/-- A live binding. One past its idle window is deleted on the way and reported missing. -/
def getAffinity (st : Store) (now : Time) (service token : GoString) : Except Err Affinity × Store :=
  match st.getAffinityRaw service token with
  | .error e => (.error e, st)
  | .ok a =>
    if a.expiresAt ≠ 0 ∧ a.expiresAt < now then
      (.error .notFound, st.deleteAffinity service token)
    else (.ok a, st)

def listAffinity (st : Store) : List Affinity := st.affinity.values

/-- Deletes every binding past its idle window. -/
def sweepExpiredAffinity (st : Store) (now : Time) : Store :=
  let expired := st.affinity.toList.filter (fun e => e.2.expiresAt ≠ 0 ∧ e.2.expiresAt < now)
  { st with affinity := st.affinity.deleteAll (expired.map Prod.fst) }

/-- Stores a browser session under its token. -/
def putSession (st : Store) (now : Time) (sess : Session) : Except Err Store := do
  let sess := { sess with createdAt := if sess.createdAt = 0 then now else sess.createdAt }
  let sessions ← write st.sessions sess.token sess
  .ok { st with sessions }

def deleteSession (st : Store) (token : GoString) : Store :=
  { st with sessions := st.sessions.delete token }

def getSession (st : Store) (now : Time) (token : GoString) : Except Err Session × Store :=
  match read st.sessions token with
  | .error e => (.error e, st)
  | .ok sess =>
    if sess.expiresAt ≠ 0 ∧ sess.expiresAt < now then (.error .notFound, st.deleteSession token)
    else (.ok { sess with token }, st)

def sweepExpiredSessions (st : Store) (now : Time) : Store :=
  let expired := st.sessions.toList.filter (fun e => e.2.expiresAt ≠ 0 ∧ e.2.expiresAt < now)
  { st with sessions := st.sessions.deleteAll (expired.map Prod.fst) }

/-- A put writes one binding, where its key can be stored. -/
theorem settle_putAffinity (st : Store) (now : Time) (a : Affinity) (emit : Bool) :
    (st.settle (st.putAffinity now a emit)).1 =
      if fits : KeyFits (affinityKey a.serviceName a.token) then
        { st with affinity := st.affinity.insert (affinityKey a.serviceName a.token) (a.stamped now) fits }
      else st :=
  settle_write _ _ _ _ _

theorem get_putAffinity (st : Store) (now : Time) (a : Affinity) (emit : Bool) (key : Key) :
    (st.settle (st.putAffinity now a emit)).1.affinity.get key =
      if key = affinityKey a.serviceName a.token ∧ KeyFits key then some (a.stamped now).json
      else st.affinity.get key := by
  rw [settle_putAffinity]
  by_cases fits : KeyFits (affinityKey a.serviceName a.token)
  · rw [dif_pos fits, Bucket.get_insert, Affinity.roundTrip_eq]
    by_cases here : key = affinityKey a.serviceName a.token
    · rw [if_pos here, if_pos ⟨here, here ▸ fits⟩]
    · rw [if_neg here, if_neg fun both => here both.1]
  · rw [dif_neg fits, if_neg]
    rintro ⟨rfl, large⟩
    exact fits large

theorem putClientTokenRaw_eq_ok {st st' : Store} {t : ClientToken} :
    st.putClientTokenRaw t = .ok st' ↔
      if (st.clientTokens.get t.token).any (t.updatedAt < ·.updatedAt) then st' = st
      else ∃ fits : KeyFits t.token,
        st' = { st with clientTokens := st.clientTokens.insert t.token t fits } := by
  unfold putClientTokenRaw
  split
  · rw [Except.ok.injEq, eq_comm]
  · simp only [bind_eq_ok, write_eq_ok]
    constructor
    · rintro ⟨_, ⟨fits, same⟩, done⟩
      subst same
      exact ⟨fits, (Except.ok.inj done).symm⟩
    · rintro ⟨fits, done⟩
      exact ⟨_, ⟨fits, rfl⟩, congrArg Except.ok done.symm⟩

theorem putClientToken_eq_ok {st : Store} {now : Time} {t : ClientToken} {r : Outcome ClientToken} :
    st.putClientToken now t = .ok r ↔
      ∃ st', st.putClientTokenRaw (t.stamped now) = .ok st' ∧
        r = ⟨t.stamped now, st', [.tokenUpserted (t.stamped now)]⟩ := by
  simp only [putClientToken, bind_eq_ok, Except.ok.injEq, eq_comm (b := r)]

/-- A put that meets no newer record under the secret writes the record. -/
theorem get_putClientToken {st : Store} {now : Time} {t : ClientToken} {r : Outcome ClientToken}
    (run : st.putClientToken now t = .ok r)
    (latest : ∀ old, st.clientTokens.get t.token = some old → old.updatedAt ≤ now) :
    t.token ≠ [] ∧ r.value = t.stamped now ∧
      r.store.clientTokens.get t.token = some (t.stamped now).json := by
  obtain ⟨st', raw, rfl⟩ := putClientToken_eq_ok.mp run
  have oldest : ¬(st.clientTokens.get (t.stamped now).token).any
      ((t.stamped now).updatedAt < ·.updatedAt) := by
    rw [ClientToken.stamped_token]
    cases present : st.clientTokens.get t.token with
    | none => exact Bool.false_ne_true
    | some old =>
      intro newer
      exact Int.not_lt.mpr (latest old present) (of_decide_eq_true newer)
  have written := putClientTokenRaw_eq_ok.mp raw
  rw [if_neg oldest] at written
  obtain ⟨fits, rfl⟩ := written
  refine ⟨fits.1, rfl, ?_⟩
  exact (Bucket.get_insert _ _ _ _ fits).trans (if_pos rfl)

theorem deleteClientTokenByID_eq_ok {st : Store} {id : GoString} {r : Outcome ClientToken} :
    st.deleteClientTokenByID id = .ok r ↔
      ∃ key found, st.findTokenByID id = some (key, found) ∧
        r = ⟨found, { st with clientTokens := st.clientTokens.delete key },
          [.tokenDeleted found]⟩ := by
  unfold deleteClientTokenByID
  cases st.findTokenByID id with
  | none => simp
  | some entry =>
    obtain ⟨key, found⟩ := entry
    simp [eq_comm]

end Store
end Discovery
