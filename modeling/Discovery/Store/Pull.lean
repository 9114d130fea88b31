import Discovery.Store.Config
import Discovery.Store.Convergence
import Discovery.Store.Revival

namespace Discovery
open Kv

/-- The key made of a record's own fields. -/
def Record.key : Record → RecordKey
  | .service svc => ⟨.service, svc.name⟩
  | .inst i => ⟨.inst, instanceKey i.serviceName i.id⟩
  | .affinity a => ⟨.affinity, affinityKey a.serviceName a.token⟩
  | .token t => ⟨.token, t.token⟩

/-- The event a snapshot feeds a record through. -/
def Record.event : Record → Event
  | .service svc => .serviceUpserted svc
  | .inst i => .instanceUpserted i
  | .affinity a => .affinityUpserted a
  | .token t => .tokenUpserted t

namespace Store

/-- Every record, revision and draft lies under the key made of its own fields. -/
structure OwnKeys (st : Store) : Prop where
  records : ∀ k r, st.lookup k = some r → k = r.key
  revisions : ∀ key r, st.configRevs.get key = some r → key = r.revKey
  active : ∀ key r, st.configActive.get key = some r → key = r.activeKey
  drafts : ∀ key d, st.configDrafts.get key = some d → key = cfgDraftKey d.scope.ID

theorem lookup_empty (k : RecordKey) : empty.lookup k = none := by
  obtain ⟨kind, key⟩ := k
  cases kind with
  | service => rw [lookup_service, empty, Bucket.get_empty, Option.map_none]
  | inst => rw [lookup_inst, empty, Bucket.get_empty, Option.map_none]
  | affinity => rw [lookup_affinity, empty, Bucket.get_empty, Option.map_none]
  | token => rw [lookup_token, empty, Bucket.get_empty, Option.map_none]

theorem ownKeys_empty : empty.OwnKeys where
  records k r stored := by rw [lookup_empty] at stored; cases stored
  revisions key r stored := by cases stored.symm.trans (Bucket.get_empty key)
  active key r stored := by cases stored.symm.trans (Bucket.get_empty key)
  drafts key d stored := by cases stored.symm.trans (Bucket.get_empty key)

theorem mem_events {st : Store} {ev : Event} :
    ev ∈ st.snapshot.events ↔
      (∃ v ∈ st.services.values, ev = .serviceUpserted v) ∨ (∃ v ∈ st.instances.values, ev = .instanceUpserted v) ∨
      (∃ v ∈ st.affinity.values, ev = .affinityUpserted v) ∨ (∃ v ∈ st.configRevs.values, ev = .configApplied v) ∨
      (∃ v ∈ st.configDrafts.values, ev = .configDraftSaved v) ∨
      ∃ v ∈ st.clientTokens.values, ev = .tokenUpserted v := by
  simp only [Snapshot.events, snapshot, List.mem_append, List.mem_map, listServices, listAllInstances, listAffinity,
    listClientTokens, List.mem_reverse, eq_comm (b := ev), or_assoc]

theorem event_mem_snapshot {st : Store} {k : RecordKey} {r : Record} (stored : st.lookup k = some r) :
    r.event ∈ st.snapshot.events ∧ r.event.carried = some (r.key, r) ∧ KeyFits k.key := by
  obtain ⟨kind, key⟩ := k
  rw [mem_events]
  cases kind with
  | service =>
    obtain ⟨v, present, rfl⟩ := Option.map_eq_some_iff.mp stored
    have clean : v.json = v := Bucket.clean present
    refine ⟨Or.inl ⟨v, Bucket.mem_values.mpr ⟨key, present⟩, rfl⟩, ?_, Bucket.fits_of_get present⟩
    simp only [Record.event, Event.carried, Record.key, clean]
  | inst =>
    obtain ⟨v, present, rfl⟩ := Option.map_eq_some_iff.mp stored
    have clean : v.json = v := Bucket.clean present
    refine ⟨Or.inr (Or.inl ⟨v, Bucket.mem_values.mpr ⟨key, present⟩, rfl⟩), ?_, Bucket.fits_of_get present⟩
    simp only [Record.event, Event.carried, Record.key, clean]
  | affinity =>
    obtain ⟨v, present, rfl⟩ := Option.map_eq_some_iff.mp stored
    have clean : v.json = v := Bucket.clean present
    refine ⟨Or.inr (Or.inr (Or.inl ⟨v, Bucket.mem_values.mpr ⟨key, present⟩, rfl⟩)), ?_, Bucket.fits_of_get present⟩
    simp only [Record.event, Event.carried, Record.key, clean]
  | token =>
    obtain ⟨v, present, rfl⟩ := Option.map_eq_some_iff.mp stored
    have clean : v.json = v := Bucket.clean present
    refine ⟨Or.inr (Or.inr (Or.inr (Or.inr (Or.inr ⟨v, Bucket.mem_values.mpr ⟨key, present⟩, rfl⟩)))), ?_,
      Bucket.fits_of_get present⟩
    simp only [Record.event, Event.carried, Record.key, clean]

theorem lookup_of_event {st : Store} {ev : Event} (member : ev ∈ st.snapshot.events) {k : RecordKey} {r : Record}
    (carried : ev.carried = some (k, r)) : ∃ k', st.lookup k' = some r ∧ ev = r.event := by
  rcases mem_events.mp member with ⟨v, listed, rfl⟩ | ⟨v, listed, rfl⟩ | ⟨v, listed, rfl⟩ | ⟨v, listed, rfl⟩ |
    ⟨v, listed, rfl⟩ | ⟨v, listed, rfl⟩
  · obtain ⟨key, present⟩ := Bucket.mem_values.mp listed
    have clean : v.json = v := Bucket.clean present
    obtain ⟨_, rfl⟩ := Prod.mk.inj (Option.some.inj carried)
    refine ⟨⟨.service, key⟩, ?_, ?_⟩
    · rw [lookup_service, present, clean, Option.map_some]
    · rw [clean, Record.event]
  · obtain ⟨key, present⟩ := Bucket.mem_values.mp listed
    have clean : v.json = v := Bucket.clean present
    obtain ⟨_, rfl⟩ := Prod.mk.inj (Option.some.inj carried)
    refine ⟨⟨.inst, key⟩, ?_, ?_⟩
    · rw [lookup_inst, present, clean, Option.map_some]
    · rw [clean, Record.event]
  · obtain ⟨key, present⟩ := Bucket.mem_values.mp listed
    have clean : v.json = v := Bucket.clean present
    obtain ⟨_, rfl⟩ := Prod.mk.inj (Option.some.inj carried)
    refine ⟨⟨.affinity, key⟩, ?_, ?_⟩
    · rw [lookup_affinity, present, clean, Option.map_some]
    · rw [clean, Record.event]
  · cases carried
  · cases carried
  · obtain ⟨key, present⟩ := Bucket.mem_values.mp listed
    have clean : v.json = v := Bucket.clean present
    obtain ⟨_, rfl⟩ := Prod.mk.inj (Option.some.inj carried)
    refine ⟨⟨.token, key⟩, ?_, ?_⟩
    · rw [lookup_token, present, clean, Option.map_some]
    · rw [clean, Record.event]

/-- A snapshot brings exactly the records of the node, each under the key it has there. -/
theorem record_snapshot_iff {st : Store} (own : st.OwnKeys) {k : RecordKey} {r : Record} :
    (∃ ev ∈ st.snapshot.events, ev.record = some (k, r)) ↔ st.lookup k = some r := by
  constructor
  · rintro ⟨ev, member, record⟩
    have carried := carried_of_record record
    obtain ⟨k', stored, rfl⟩ := lookup_of_event member carried
    obtain ⟨key, _⟩ := Prod.mk.inj (Option.some.inj (carried.symm.trans (event_mem_snapshot stored).2.1))
    rw [key, ← own.records k' r stored, stored]
  · intro stored
    obtain ⟨member, carried, fits⟩ := event_mem_snapshot stored
    rw [← own.records k r stored] at carried
    exact ⟨r.event, member, record_of_carried carried fits⟩

theorem revision_snapshot_iff {st : Store} (own : st.OwnKeys) {r : ConfigRevision} :
    (∃ ev ∈ st.snapshot.events, revision ev = some r) ↔ st.configRevs.get r.revKey = some r := by
  constructor
  · rintro ⟨ev, member, brings⟩
    obtain ⟨p, rfl, rfl, _⟩ := revision_eq_some.mp brings
    rcases mem_events.mp member with ⟨v, _, same⟩ | ⟨v, _, same⟩ | ⟨v, _, same⟩ | ⟨v, listed, same⟩ |
      ⟨v, _, same⟩ | ⟨v, _, same⟩
    · cases same
    · cases same
    · cases same
    · obtain rfl := Event.configApplied.inj same
      obtain ⟨key, present⟩ := Bucket.mem_values.mp listed
      have clean : p.json = p := Bucket.clean present
      rw [clean, ← own.revisions key p present, present]
    · cases same
    · cases same
  · intro stored
    have clean : r.json = r := Bucket.clean stored
    refine ⟨.configApplied r, ?_, revision_eq_some.mpr ⟨r, rfl, clean, Bucket.fits_of_get stored⟩⟩
    exact mem_events.mpr (Or.inr (Or.inr (Or.inr (Or.inl ⟨r, Bucket.mem_values.mpr ⟨_, stored⟩, rfl⟩))))

theorem isDeletion_of_snapshot (st : Store) : ∀ ev ∈ st.snapshot.events, ev.isDeletion = false :=
  fun _ member => Snapshot.isDeletion_eq_false member

/-- An event that is no deletion merges its record, if it carries one. -/
theorem merges_of_keeps {ev : Event} (keeps : ev.isDeletion = false) (st : Store) :
    Lww.Merges Record.updatedAt (fun k : RecordKey => k.kind.replaces) lookup apply Event.record st ev := by
  by_cases upsert : ev.carried.isSome
  · exact apply_merges upsert st
  · intro k
    cases ev with
    | configApplied p => exact lookup_configApplied st p k
    | configDraftSaved d => exact lookup_configDraftSaved st d k
    | serviceDeleted _ | instanceDeleted _ _ | affinityDeleted _ | tokenDeleted _ | configDraftDeleted _
    | configDeleted _ => cases keeps
    | _ => exact absurd rfl upsert

/-- The draft an event brings, if bbolt can hold its key. -/
def draft : Event → Option ConfigDraft
  | .configDraftSaved d => if KeyFits (cfgDraftKey d.json.scope.ID) then some d.json else none
  | _ => none

theorem apply_configDraftSaved (st : Store) (p : ConfigDraft) :
    st.apply (.configDraftSaved p) =
      if fits : KeyFits (cfgDraftKey p.json.scope.ID) then
        { st with configDrafts := st.configDrafts.insert (cfgDraftKey p.json.scope.ID) p.json fits }
      else st := by
  have unfolded : st.applyRemote (.configDraftSaved p) =
      st.putDraftRaw p.json >>= fun st => .ok ⟨(), st, [.configDraftSaved p]⟩ := rfl
  rw [apply, applyStep, unfolded, putDraftRaw]
  split
  next fits =>
    rw [write_ok _ _ fits]
    rfl
  next large =>
    obtain ⟨e, run⟩ := write_error st.configDrafts p.json large
    rw [run]
    rfl

theorem draft_eq_some {ev : Event} {d : ConfigDraft} :
    draft ev = some d ↔ ∃ p, ev = .configDraftSaved p ∧ p.json = d ∧ KeyFits (cfgDraftKey d.scope.ID) := by
  cases ev with
  | configDraftSaved p =>
    simp only [draft, Option.ite_none_right_eq_some, Option.some.injEq, Event.configDraftSaved.injEq, exists_eq_left']
    constructor
    · rintro ⟨fits, rfl⟩
      exact ⟨rfl, fits⟩
    · rintro ⟨rfl, fits⟩
      exact ⟨fits, rfl⟩
  | _ => simp [draft]

theorem draft_snapshot_iff {st : Store} (own : st.OwnKeys) {d : ConfigDraft} :
    (∃ ev ∈ st.snapshot.events, draft ev = some d) ↔ st.configDrafts.get (cfgDraftKey d.scope.ID) = some d := by
  constructor
  · rintro ⟨ev, member, brings⟩
    obtain ⟨p, rfl, rfl, _⟩ := draft_eq_some.mp brings
    rcases mem_events.mp member with ⟨v, _, same⟩ | ⟨v, _, same⟩ | ⟨v, _, same⟩ | ⟨v, _, same⟩ |
      ⟨v, listed, same⟩ | ⟨v, _, same⟩
    · cases same
    · cases same
    · cases same
    · cases same
    · obtain rfl := Event.configDraftSaved.inj same
      obtain ⟨key, present⟩ := Bucket.mem_values.mp listed
      have clean : p.json = p := Bucket.clean present
      rw [clean, ← own.drafts key p present, present]
    · cases same
  · intro stored
    have clean : d.json = d := Bucket.clean stored
    refine ⟨.configDraftSaved d, ?_, draft_eq_some.mpr ⟨d, rfl, clean, Bucket.fits_of_get stored⟩⟩
    exact mem_events.mpr (Or.inr (Or.inr (Or.inr (Or.inr (Or.inl ⟨d, Bucket.mem_values.mpr ⟨_, stored⟩, rfl⟩)))))

/-- Drafts are overwritten, whatever their times. -/
theorem drafts_merge {ev : Event} (keeps : ev.isDeletion = false) (st : Store) :
    Lww.Merges ConfigDraft.updatedAt (fun _ _ _ => true) (fun st key => st.configDrafts.get key) apply
      (fun ev => (draft ev).map (fun d => (cfgDraftKey d.scope.ID, d))) st ev := by
  intro key
  cases ev with
  | configDraftSaved p =>
    have clean : JsonCodec.roundTrip p.json = p.json := p.json_idem
    simp only [apply_configDraftSaved, draft]
    by_cases fits : KeyFits (cfgDraftKey p.json.scope.ID)
    · rw [dif_pos fits, if_pos fits, Option.map_some, Bucket.get_insert, clean]
      by_cases here : key = cfgDraftKey p.json.scope.ID
      · simp only [here, if_true]
        cases st.configDrafts.get (cfgDraftKey p.json.scope.ID) <;> rfl
      · simp only [here, if_false]
    · rw [dif_neg fits, if_neg fits, Option.map_none]
  | configApplied p =>
    simp only [apply_configApplied, draft, Option.map_none]
    split <;> rfl
  | serviceUpserted p => simp only [apply_serviceUpserted, draft, Option.map_none]
  | instanceUpserted p => simp only [apply_instanceUpserted, draft, Option.map_none]
  | instanceStatus p => simp only [apply_instanceStatus, apply_instanceUpserted, draft, Option.map_none]
  | affinityUpserted p => simp only [apply_affinityUpserted, draft, Option.map_none]
  | tokenUpserted p => simp only [apply_tokenUpserted, draft, Option.map_none]
  | serviceDeleted _ | instanceDeleted _ _ | affinityDeleted _ | tokenDeleted _ | configDraftDeleted _
  | configDeleted _ => cases keeps

/-- The history of a scope as a set. -/
def entries (st : Store) (id : GoString) : Set ConfigRevision := {r | ∃ n, st.historyOf id n = some r}

/-- What `a'` holds once `a` has merged a snapshot of `b`. -/
structure Pulled (a b a' : Store) : Prop where
  records : ∀ k, Lww.IsNewest Record.updatedAt ({r | a.lookup k = some r} ∪ {r | b.lookup k = some r}) (a'.lookup k)
  revisions : ∀ key, Lww.IsNewest ConfigRevision.updatedAt
    ({r | a.configRevs.get key = some r} ∪ {r | b.configRevs.get key = some r}) (a'.configRevs.get key)
  active : ∀ id, a.Covered id →
    Lww.IsNewest ConfigRevision.stamp ({r | a.activeOf id = some r} ∪ b.entries id) (a'.activeOf id)
  stays : ∀ id r, a.activeOf id = some r → (∀ s ∈ b.entries id, s.stamp ≤ r.stamp) → a'.activeOf id = some r
  drafts : ∀ key, a'.configDrafts.get key = (b.configDrafts.get key).or (a.configDrafts.get key)
  ownActive : a.OwnActive → a'.OwnActive

theorem brought_snapshot {st : Store} (own : st.OwnKeys) (id : GoString) :
    brought st.snapshot.events id = st.entries id := by
  ext r
  simp only [brought, entries, Set.mem_ofPred_eq, revision_snapshot_iff own]
  constructor
  · rintro ⟨rfl, stored⟩
    exact ⟨r.revision, stored⟩
  · rintro ⟨n, stored⟩
    have key := own.revisions _ r stored
    obtain ⟨scope, rfl⟩ := cfgRevKey_inj.mp key
    exact ⟨scope.symm, key ▸ stored⟩

theorem pulled (a : Store) {b : Store} (own : b.OwnKeys) : Pulled a b (a.pullSnapshot b.snapshot).1 := by
  have keeps := isDeletion_of_snapshot b
  rw [pullSnapshot_store]
  constructor
  · intro k
    have newest := Lww.newest_of_merges (fun k : RecordKey => k.kind.settles) a
      (fun s ev member => merges_of_keeps (keeps ev member) s) k
    have sets : Lww.candidates lookup Event.record a b.snapshot.events k =
        {r | a.lookup k = some r} ∪ {r | b.lookup k = some r} := by
      ext r
      simp only [Lww.candidates, record_snapshot_iff own, Set.mem_union, Set.mem_ofPred_eq]
    rwa [sets] at newest
  · intro key
    have newest := Lww.newest_of_merges (fun _ => settles_unless_after) a
      (fun s ev member => history_merges s (keeps ev member)) key
    have sets : Lww.candidates (fun st key => st.configRevs.get key)
        (fun ev => (revision ev).map (fun r => (r.revKey, r))) a b.snapshot.events key =
          {r | a.configRevs.get key = some r} ∪ {r | b.configRevs.get key = some r} := by
      ext r
      simp only [Lww.candidates, Set.mem_union, Set.mem_ofPred_eq, Option.map_eq_some_iff, Prod.mk.injEq]
      refine or_congr_right ⟨?_, fun stored => ?_⟩
      · rintro ⟨ev, member, _, brings, rfl, rfl⟩
        exact (revision_snapshot_iff own).mp ⟨ev, member, brings⟩
      · obtain rfl := own.revisions key r stored
        obtain ⟨ev, member, brings⟩ := (revision_snapshot_iff own).mpr stored
        exact ⟨ev, member, r, brings, rfl, rfl⟩
    rwa [sets] at newest
  · intro id covered
    have newest := (covered.applyAll keeps).2
    rwa [brought_snapshot own] at newest
  · intro id r active bounded
    refine active_stays active keeps fun s member => bounded s ?_
    rwa [← brought_snapshot own]
  · intro key
    have merges := fun (s : Store) ev (member : ev ∈ b.snapshot.events) => drafts_merge (keeps ev member) s
    have carries {ev : Event} (member : ev ∈ b.snapshot.events) {d : ConfigDraft}
        (brings : (draft ev).map (fun d => (cfgDraftKey d.scope.ID, d)) = some (key, d)) :
        b.configDrafts.get key = some d := by
      simp only [Option.map_eq_some_iff, Prod.mk.injEq] at brings
      obtain ⟨_, same, rfl, rfl⟩ := brings
      exact (draft_snapshot_iff own).mp ⟨ev, member, same⟩
    cases stored : b.configDrafts.get key with
    | none =>
      refine Lww.lookup_of_quiet a merges fun ev member d brings => ?_
      cases stored.symm.trans (carries member brings)
    | some d =>
      obtain rfl := own.drafts key d stored
      obtain ⟨ev, member, brings⟩ := (draft_snapshot_iff own).mpr stored
      refine Lww.lookup_of_overwrites a merges (fun _ _ => rfl) (fun f member' w brings' => ?_) ⟨ev, member, ?_⟩
      · exact Option.some.inj ((carries member' brings').symm.trans stored)
      · rw [brings, Option.map_some]
  · exact fun own => own.applyAll keeps

/-- A pull keeps everything under its own key. -/
theorem Pulled.ownKeys {a b a' : Store} (pulled : Pulled a b a') (left : a.OwnKeys) (right : b.OwnKeys) :
    a'.OwnKeys where
  records k r stored := by
    have newest := pulled.records k
    rw [stored] at newest
    exact newest.1.elim (left.records k r) (right.records k r)
  revisions key r stored := by
    have newest := pulled.revisions key
    rw [stored] at newest
    exact newest.1.elim (left.revisions key r) (right.revisions key r)
  active := pulled.ownActive left.active
  drafts key d stored := by
    rw [pulled.drafts, Option.or_eq_some_iff] at stored
    exact stored.elim (right.drafts key d) (fun both => left.drafts key d both.2)

end Store
end Discovery
