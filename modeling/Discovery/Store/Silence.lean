import Discovery.Store.Pull

namespace Discovery
open Kv Machine

/-- Events that are passed on whether or not they bring anything new: deletions, and whatever concerns the
config or the client tokens. -/
def Event.reemitted : Event → Bool
  | .serviceUpserted _ | .instanceUpserted _ | .instanceStatus _ | .affinityUpserted _ => false
  | _ => true

namespace Store

/-- A read-compare-write that keeps what is not older speaks exactly when it changes the store. -/
theorem merge_events {α : Type} [JsonCodec α] {st : Store} {b : Bucket α} {stamp : α → Time} {key : Key} {v : α}
    {ev : Event} {f : Bucket α → Store} {r : Outcome Unit} (view : Store → Bucket α) (sees : ∀ c, view (f c) = c)
    (here : view st = b) (stamped : stamp (JsonCodec.roundTrip v) = stamp v)
    (run : (if keepsExisting ((b.get key).map stamp) (stamp v) then
        (.ok ⟨(), st, []⟩ : Except Err (Outcome Unit))
      else do
        let c ← write b key v
        .ok ⟨(), f c, [ev]⟩) = .ok r) : r.events = if r.store ≠ st then [ev] else [] := by
  split at run
  next kept =>
    obtain rfl := Except.ok.inj run
    exact (if_neg (not_not.mpr rfl)).symm
  next older =>
    obtain ⟨c, written, done⟩ := bind_eq_ok.mp run
    obtain rfl := Except.ok.inj done
    obtain ⟨fits, rfl⟩ := write_eq_ok.mp written
    have changed : f (b.insert key v fits) ≠ st := by
      intro same
      have present : b.get key = some (JsonCodec.roundTrip v) := by
        conv_lhs => rw [← here, ← same, sees]
        exact (b.get_insert key key v fits).trans (if_pos rfl)
      -- the stored record is the incoming one already, and not older than it
      apply older
      rw [present, Option.map_some, stamped]
      exact decide_eq_true (Int.lt_irrefl _)
    exact (if_pos changed).symm

/-- An accepted event is passed on if it changed the store or is of a kind that always is. -/
theorem applyRemote_events {st : Store} {ev : Event} {r : Outcome Unit} (run : st.applyRemote ev = .ok r) :
    r.events = if r.store ≠ st ∨ ev.reemitted = true then [ev] else [] := by
  cases ev with
  | serviceUpserted p =>
    simp only [Event.reemitted, Bool.false_eq_true, or_false]
    exact merge_events (·.services) (fun _ => rfl) rfl (p.json.json_updatedAt) run
  | instanceUpserted p =>
    simp only [Event.reemitted, Bool.false_eq_true, or_false]
    exact merge_events (·.instances) (fun _ => rfl) rfl (p.json.json_updatedAt) run
  | instanceStatus p =>
    simp only [Event.reemitted, Bool.false_eq_true, or_false]
    exact merge_events (·.instances) (fun _ => rfl) rfl (p.json.json_updatedAt) run
  | affinityUpserted p =>
    simp only [Event.reemitted, Bool.false_eq_true, or_false]
    exact merge_events (·.affinity) (fun _ => rfl) rfl (p.json.json_updatedAt) run
  | configApplied p =>
    obtain ⟨_, _, done⟩ := bind_eq_ok.mp run
    obtain rfl := Except.ok.inj done
    exact (if_pos (Or.inr rfl)).symm
  | configDraftSaved d =>
    obtain ⟨_, _, done⟩ := bind_eq_ok.mp run
    obtain rfl := Except.ok.inj done
    exact (if_pos (Or.inr rfl)).symm
  | tokenUpserted t =>
    obtain ⟨_, _, done⟩ := bind_eq_ok.mp run
    obtain rfl := Except.ok.inj done
    exact (if_pos (Or.inr rfl)).symm
  | serviceDeleted _ | instanceDeleted _ _ | affinityDeleted _ | configDraftDeleted _ | configDeleted _
  | tokenDeleted _ =>
    obtain rfl := Except.ok.inj run
    exact (if_pos (Or.inr rfl)).symm

/-- `cur` has the records of `st`. -/
def Mirrors (st cur : Store) : Prop := ∀ k, cur.lookup k = st.lookup k

/-- Merging a record that is there already leaves the records. -/
theorem lookup_apply_known {cur : Store} {r : Record} (known : cur.lookup r.key = some r)
    (carried : r.event.carried = some (r.key, r)) (k : RecordKey) : (cur.apply r.event).lookup k = cur.lookup k := by
  rw [lookup_apply carried]
  split
  next here =>
    obtain ⟨rfl, _⟩ := here
    rw [known, Lww.merge]
    split <;> rfl
  next => rfl

/-- A record that is there already is silent, unless it is a token. -/
theorem applyStep_known {cur : Store} {r : Record} (known : cur.lookup r.key = some r)
    (carried : r.event.carried = some (r.key, r)) (quiet : r.event.reemitted = false) :
    cur.applyStep r.event = (cur, []) := by
  have kept (t : Time) : keepsExisting (some t) t = true := decide_eq_true (Int.lt_irrefl t)
  cases r with
  | service v =>
    have clean : v.json = v := Record.service.inj (Prod.mk.inj (Option.some.inj carried)).2
    have present : cur.services.get v.name = some v := by
      obtain ⟨_, present, same⟩ := Option.map_eq_some_iff.mp known
      exact Record.service.inj same ▸ present
    simp only [applyStep, Record.event, applyRemote, clean, present, Option.map_some, kept, if_true, settle]
  | inst v =>
    have clean : v.json = v := Record.inst.inj (Prod.mk.inj (Option.some.inj carried)).2
    have present : cur.instances.get (instanceKey v.serviceName v.id) = some v := by
      obtain ⟨_, present, same⟩ := Option.map_eq_some_iff.mp known
      exact Record.inst.inj same ▸ present
    simp only [applyStep, Record.event, applyRemote, clean, present, Option.map_some, kept, if_true, settle]
  | affinity v =>
    have clean : v.json = v := Record.affinity.inj (Prod.mk.inj (Option.some.inj carried)).2
    have present : cur.affinity.get (affinityKey v.serviceName v.token) = some v := by
      obtain ⟨_, present, same⟩ := Option.map_eq_some_iff.mp known
      exact Record.affinity.inj same ▸ present
    simp only [applyStep, Record.event, applyRemote, clean, present, Option.map_some, kept, if_true, settle]
  | token v => cases quiet

/-- A re-emitted event whose keys the store can hold is accepted, and passed on. -/
theorem applyStep_reemitted {cur : Store} {ev : Event} (always : ev.reemitted = true) {r : Outcome Unit}
    (run : cur.applyRemote ev = .ok r) : (cur.applyStep ev).2 = [ev] := by
  rw [applyStep, run]
  exact (applyRemote_events run).trans (if_pos (Or.inr always))

/-- What the snapshot of a node does to a store with the same records. -/
theorem applyStep_own {st cur : Store} (own : st.OwnKeys) (same : Mirrors st cur) {ev : Event}
    (member : ev ∈ st.snapshot.events) :
    Mirrors st (cur.apply ev) ∧ (cur.applyStep ev).2 = if ev.reemitted then [ev] else [] := by
  have known {k : RecordKey} {r : Record} (stored : st.lookup k = some r) :
      cur.lookup r.key = some r ∧ r.event.carried = some (r.key, r) := by
    refine ⟨?_, (event_mem_snapshot stored).2.1⟩
    rw [same, ← own.records k r stored, stored]
  have quiet {k : RecordKey} {r : Record} (stored : st.lookup k = some r) (quiet : r.event.reemitted = false) :
      Mirrors st (cur.apply r.event) ∧ (cur.applyStep r.event).2 = if r.event.reemitted then [r.event] else [] := by
    obtain ⟨present, carried⟩ := known stored
    have silent := applyStep_known present carried quiet
    refine ⟨fun j => (lookup_apply_known present carried j).trans (same j), ?_⟩
    rw [silent, quiet]
    rfl
  rcases mem_events.mp member with ⟨v, listed, rfl⟩ | ⟨v, listed, rfl⟩ | ⟨v, listed, rfl⟩ | ⟨v, listed, rfl⟩ |
    ⟨v, listed, rfl⟩ | ⟨v, listed, rfl⟩
  · obtain ⟨key, present⟩ := Bucket.mem_values.mp listed
    exact quiet (k := ⟨.service, key⟩) (r := .service v) (by rw [lookup_service, present, Option.map_some]) rfl
  · obtain ⟨key, present⟩ := Bucket.mem_values.mp listed
    exact quiet (k := ⟨.inst, key⟩) (r := .inst v) (by rw [lookup_inst, present, Option.map_some]) rfl
  · obtain ⟨key, present⟩ := Bucket.mem_values.mp listed
    exact quiet (k := ⟨.affinity, key⟩) (r := .affinity v) (by rw [lookup_affinity, present, Option.map_some]) rfl
  · obtain ⟨key, present⟩ := Bucket.mem_values.mp listed
    have clean : v.json = v := Bucket.clean present
    have fits : KeyFits v.revKey := own.revisions key v present ▸ Bucket.fits_of_get present
    refine ⟨fun j => (lookup_configApplied cur v j).trans (same j), ?_⟩
    obtain ⟨next, raw⟩ : ∃ next, cur.putConfigRevisionRaw v.json = .ok next := by
      rw [clean]
      by_cases newer : cur.Superseded v
      · exact ⟨_, putConfigRevisionRaw_superseded newer⟩
      · exact ⟨_, putConfigRevisionRaw_ok newer fits⟩
    exact applyStep_reemitted rfl (bind_eq_ok.mpr ⟨next, raw, rfl⟩)
  · obtain ⟨key, present⟩ := Bucket.mem_values.mp listed
    have clean : v.json = v := Bucket.clean present
    have fits : KeyFits (cfgDraftKey v.scope.ID) := own.drafts key v present ▸ Bucket.fits_of_get present
    refine ⟨fun j => (lookup_configDraftSaved cur v j).trans (same j), ?_⟩
    have raw : cur.putDraftRaw v.json =
        .ok { cur with configDrafts := cur.configDrafts.insert (cfgDraftKey v.scope.ID) v fits } := by
      rw [clean]
      exact bind_eq_ok.mpr ⟨_, write_ok _ _ fits, rfl⟩
    exact applyStep_reemitted rfl (bind_eq_ok.mpr ⟨_, raw, rfl⟩)
  · obtain ⟨key, present⟩ := Bucket.mem_values.mp listed
    have clean : v.json = v := Bucket.clean present
    have stored : st.lookup ⟨.token, key⟩ = some (.token v) := by rw [lookup_token, present, Option.map_some]
    have place : (⟨.token, key⟩ : RecordKey) = ⟨.token, v.token⟩ := own.records _ _ stored
    have fits : KeyFits v.token := (RecordKey.mk.inj place).2 ▸ Bucket.fits_of_get present
    obtain ⟨here, carried⟩ := known stored
    refine ⟨fun j => (lookup_apply_known here carried j).trans (same j), ?_⟩
    obtain ⟨next, raw⟩ : ∃ next, cur.putClientTokenRaw v.json = .ok next := by
      rw [clean, putClientTokenRaw]
      split
      · exact ⟨cur, rfl⟩
      · exact ⟨_, bind_eq_ok.mpr ⟨_, write_ok _ _ fits, rfl⟩⟩
    exact applyStep_reemitted rfl (bind_eq_ok.mpr ⟨next, raw, rfl⟩)

theorem exec_own {st cur : Store} (own : st.OwnKeys) (same : Mirrors st cur) {evs : List Event}
    (listed : ∀ ev ∈ evs, ev ∈ st.snapshot.events) :
    (exec applyStep cur evs).2 = evs.filter Event.reemitted := by
  induction evs generalizing cur with
  | nil => rfl
  | cons ev evs ih =>
    obtain ⟨first, rest⟩ := List.forall_mem_cons.mp listed
    obtain ⟨kept, passed⟩ := applyStep_own own same first
    have later : (exec applyStep (cur.applyStep ev).1 evs).2 = evs.filter Event.reemitted := ih kept rest
    simp only [exec, passed, later]
    cases always : ev.reemitted with
    | true => rw [List.filter_cons_of_pos always, if_pos rfl, List.singleton_append]
    | false => rw [List.filter_cons_of_neg (by rw [always]; decide), if_neg (by decide), List.nil_append]

/-- An accepted event is passed on exactly if it changed the store, or is a deletion or concerns the config or
the tokens. A node's own snapshot makes it pass on its revisions, drafts and tokens, and nothing else. -/
theorem reemits_iff (st : Store) :
    (∀ ev r, st.applyRemote ev = .ok r → r.events = if r.store ≠ st ∨ ev.reemitted = true then [ev] else []) ∧
      (st.OwnKeys → (st.pullSnapshot st.snapshot).2 = st.snapshot.events.filter Event.reemitted) :=
  ⟨fun _ _ => applyRemote_events, fun own => exec_own own (fun _ => rfl) fun _ => id⟩

def minted : ClientToken := { id := "i", token := "t", name := "n", role := "read" }

theorem fits_minted : KeyFits minted.token := by decide

/-- A node with one service and one token. -/
def mintedStore : Store :=
  { empty with
    services := Bucket.empty.insert "s" { name := "s", createdAt := 5, updatedAt := 5 } fits_s
    clientTokens := Bucket.empty.insert minted.token minted fits_minted }

theorem ownKeys_mintedStore : mintedStore.OwnKeys where
  records k r stored := by
    obtain ⟨kind, key⟩ := k
    cases kind with
    | service =>
      obtain ⟨s, present, rfl⟩ := Option.map_eq_some_iff.mp stored
      have all : ∀ e ∈ mintedStore.services.toList, e.1 = e.2.name := by decide
      exact congrArg (RecordKey.mk .service) (all _ (Bucket.mem_toList.mpr present))
    | inst =>
      rw [lookup_inst, mintedStore, empty, Bucket.get_empty] at stored
      cases stored
    | affinity =>
      rw [lookup_affinity, mintedStore, empty, Bucket.get_empty] at stored
      cases stored
    | token =>
      obtain ⟨t, present, rfl⟩ := Option.map_eq_some_iff.mp stored
      have all : ∀ e ∈ mintedStore.clientTokens.toList, e.1 = e.2.token := by decide
      exact congrArg (RecordKey.mk .token) (all _ (Bucket.mem_toList.mpr present))
  revisions := ownKeys_empty.revisions
  active := ownKeys_empty.active
  drafts := ownKeys_empty.drafts

/-- Of its own snapshot it passes on the token. -/
theorem reemits_iff_minted : (mintedStore.pullSnapshot mintedStore.snapshot).2 = [.tokenUpserted minted] :=
  ((reemits_iff mintedStore).2 ownKeys_mintedStore).trans (by decide)

/-- The deletion of a service that is not there is passed on, and so is a node's own token. -/
theorem known_data_emitted :
    (¬∀ (st : Store) (ev : Event) (r : Outcome Unit), st.applyRemote ev = .ok r → (r.events ≠ [] ↔ r.store ≠ st)) ∧
      ¬∀ st : Store, (st.pullSnapshot st.snapshot).2 = [] := by
  constructor
  · intro silent
    have unchanged : { empty with services := empty.services.delete "s" } = empty := by decide
    exact (silent empty (.serviceDeleted "s") _ rfl).mp (List.cons_ne_nil _ _) unchanged
  · intro silent
    exact absurd (silent mintedStore) (by decide)

end Store
end Discovery
