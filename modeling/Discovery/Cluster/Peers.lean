import Discovery.Epidemic
import Discovery.Store.AntiEntropy
import Discovery.Store.MergeRace

namespace Discovery
open Kv
/-- What `Snapshot` reads in one transaction each, in the order in which it does. -/
inductive SnapshotPart
  | services
  | instances
  | affinity
  | config
  | clientTokens
  deriving DecidableEq

def SnapshotPart.all : List SnapshotPart := [.services, .instances, .affinity, .config, .clientTokens]

/-- The part of a snapshot that holds the records of a kind. -/
def Kind.part : Kind → SnapshotPart
  | .service => .services
  | .inst => .instances
  | .affinity => .affinity
  | .token => .clientTokens

namespace Store

/-- The events that a part of a snapshot is fed through. -/
def dump (st : Store) : SnapshotPart → List Event
  | .services => st.listServices.map .serviceUpserted
  | .instances => st.listAllInstances.map .instanceUpserted
  | .affinity => st.listAffinity.map .affinityUpserted
  | .config => st.configRevs.values.map .configApplied ++ st.configDrafts.values.map .configDraftSaved
  | .clientTokens => st.listClientTokens.map .tokenUpserted

/-- A snapshot taken while nothing is written is that of one moment. -/
theorem snapshot_events (st : Store) : st.snapshot.events = SnapshotPart.all.flatMap st.dump := by
  simp [Snapshot.events, snapshot, SnapshotPart.all, dump]

/-- Every transaction of a snapshot reads a part of it. -/
theorem mem_snapshot_of_dump {st : Store} {part : SnapshotPart} {ev : Event} (member : ev ∈ st.dump part) :
    ev ∈ st.snapshot.events := by
  rw [snapshot_events]
  exact List.mem_flatMap.mpr ⟨part, by cases part <;> decide, member⟩

/-- A record is read by the transaction of its kind. -/
theorem event_mem_dump {st : Store} {k : RecordKey} {r : Record} (stored : st.lookup k = some r) :
    r.event ∈ st.dump k.kind.part := by
  obtain ⟨kind, key⟩ := k
  cases kind with
  | service =>
    obtain ⟨v, present, rfl⟩ := Option.map_eq_some_iff.mp stored
    exact List.mem_map_of_mem (Bucket.mem_values.mpr ⟨key, present⟩)
  | inst =>
    obtain ⟨v, present, rfl⟩ := Option.map_eq_some_iff.mp stored
    exact List.mem_map_of_mem (Bucket.mem_values.mpr ⟨key, present⟩)
  | affinity =>
    obtain ⟨v, present, rfl⟩ := Option.map_eq_some_iff.mp stored
    exact List.mem_map_of_mem (Bucket.mem_values.mpr ⟨key, present⟩)
  | token =>
    obtain ⟨v, present, rfl⟩ := Option.map_eq_some_iff.mp stored
    exact List.mem_map_of_mem (List.mem_reverse.mpr (Bucket.mem_values.mpr ⟨key, present⟩))

/-- A node as its peers see it: a snapshot is read part by part, a record is merged by the transactions of
`ApplyRemote`. -/
def exchange : Epidemic.Exchange Store SnapshotPart Event where
  parts := SnapshotPart.all
  dump part st := st.dump part
  keeps := keeps
  put st ev := (st.settle (st.putRaw ev)).1

theorem exchange_apply : exchange.apply = apply := by
  funext st ev
  by_cases found : st.keeps ev = true
  · rw [show exchange.apply st ev = st from if_pos found, apply, applyStep, applyRemote_eq, if_pos found, settle]
  · rw [show exchange.apply st ev = (st.settle (st.putRaw ev)).1 from if_neg found, apply, applyStep, applyRemote_eq,
      if_neg found]

/-- Services, instances, bindings and tokens are registers that a merge of their own upsert may replace. The
transaction that reads them lists each of them as the event that carries it. -/
theorem records_replicate :
    Epidemic.Replicates exchange Record.updatedAt (fun k : RecordKey => k.kind.replaces) lookup Event.record
      (fun k => k.kind.part) OwnKeys (fun ev => ev.isDeletion = false) where
  settles k := k.kind.settles
  merges st _ keeps := exchange_apply ▸ merges_of_keeps keeps st
  listed k := by cases k.kind <;> decide
  dumps st own k r stored := by
    obtain ⟨_, carried, fits⟩ := event_mem_snapshot stored
    rw [← own.records k r stored] at carried
    exact ⟨r.event, event_mem_dump stored, record_of_carried carried fits⟩
  dumped _ own _ ev member _ _ carries := (record_snapshot_iff own).mp ⟨ev, mem_snapshot_of_dump member, carries⟩

/-- Revisions in the history are such registers as well, under the keys made of their scope and number. -/
theorem revisions_replicate :
    Epidemic.Replicates exchange ConfigRevision.updatedAt (fun _ s t => !(decide (t < s)))
      (fun st key => st.configRevs.get key) (fun ev => (revision ev).map fun r => (r.revKey, r))
      (fun _ => .config) OwnKeys (fun ev => ev.isDeletion = false) where
  settles _ := settles_unless_after
  merges st _ keeps := exchange_apply ▸ history_merges st keeps
  listed _ := by decide
  dumps st own key r stored := by
    obtain rfl := own.revisions key r stored
    have clean : r.json = r := Bucket.clean stored
    refine ⟨.configApplied r, ?_, Option.map_eq_some_iff.mpr
      ⟨r, revision_eq_some.mpr ⟨r, rfl, clean, Bucket.fits_of_get stored⟩, rfl⟩⟩
    exact List.mem_append_left _ (List.mem_map_of_mem (Bucket.mem_values.mpr ⟨_, stored⟩))
  dumped st own _ ev member key r carries := by
    obtain ⟨_, brings, same⟩ := Option.map_eq_some_iff.mp carries
    obtain ⟨rfl, rfl⟩ := Prod.mk.inj same
    exact (revision_snapshot_iff own).mp ⟨ev, mem_snapshot_of_dump member, brings⟩

theorem key_of_carried {ev : Event} {k : RecordKey} {r : Record} (carried : ev.carried = some (k, r)) : k = r.key := by
  cases ev with
  | serviceUpserted p | instanceUpserted p | instanceStatus p | affinityUpserted p | tokenUpserted p =>
    obtain ⟨rfl, rfl⟩ := Prod.mk.inj (Option.some.inj carried)
    rfl
  | _ => cases carried

/-- A merge stores what it brings under the key made of its own fields. -/
theorem OwnKeys.apply {st : Store} (own : st.OwnKeys) {ev : Event} (keeps : ev.isDeletion = false) :
    (st.apply ev).OwnKeys where
  records k r stored := by
    rcases Lww.mem_of_merges (merges_of_keeps keeps st) stored with old | brings
    · exact own.records k r old
    · exact key_of_carried (carried_of_record brings)
  revisions key r stored := by
    rcases Lww.mem_of_merges (history_merges st keeps) stored with old | brings
    · exact own.revisions key r old
    · obtain ⟨_, _, same⟩ := Option.map_eq_some_iff.mp brings
      obtain ⟨rfl, rfl⟩ := Prod.mk.inj same
      rfl
  active := by
    have alone : ∀ e ∈ [ev], e.isDeletion = false := List.forall_mem_singleton.mpr keeps
    exact OwnActive.applyAll own.active alone
  drafts key d stored := by
    rcases Lww.mem_of_merges (drafts_merge keeps st) stored with old | brings
    · exact own.drafts key d old
    · obtain ⟨_, _, same⟩ := Option.map_eq_some_iff.mp brings
      obtain ⟨rfl, rfl⟩ := Prod.mk.inj same
      rfl

/-- The active revision of each scope is the greatest entry of its history. -/
def ActiveNewest (st : Store) : Prop :=
  ∀ id, Lww.IsNewest ConfigRevision.stamp (st.entries id) (st.activeOf id)

theorem ActiveNewest.covered {st : Store} (newest : st.ActiveNewest) (own : st.OwnKeys) (id : GoString) :
    st.Covered id where
  numbered _ _ entry := own.numbered entry
  bounded n r entry := by
    have active := newest id
    obtain ⟨act, present⟩ := Option.isSome_iff_exists.mp (active.isSome ⟨n, entry⟩)
    rw [present] at active
    exact ⟨act, present, active.2 r ⟨n, entry⟩⟩

/-- A store whose revisions are among `known`. -/
structure Sound (known : GoString → Set ConfigRevision) (st : Store) : Prop where
  own : st.OwnKeys
  within : ∀ id, st.entries id ⊆ known id
  active : st.ActiveNewest

/-- An event that deletes nothing and brings no unknown revision. -/
structure Brings (known : GoString → Set ConfigRevision) (ev : Event) : Prop where
  keeps : ev.isDeletion = false
  within : ∀ r, revision ev = some r → r ∈ known r.scope.ID

section Sound
variable {known : GoString → Set ConfigRevision} {st : Store} {ev : Event}

/-- A merge brings no revision that was not known before. -/
theorem Sound.entries_apply (sound : Sound known st) (brings : Brings known ev) (id : GoString) :
    (st.apply ev).entries id ⊆ known id := by
  rintro r ⟨n, stored⟩
  rcases Lww.mem_of_merges (history_merges st brings.keeps) stored with old | new
  · exact sound.within id ⟨n, old⟩
  · obtain ⟨_, carries, same⟩ := Option.map_eq_some_iff.mp new
    obtain ⟨key, rfl⟩ := Prod.mk.inj same
    obtain ⟨rfl, _⟩ := cfgRevKey_inj.mp key
    exact brings.within _ carries

/-- Where times tell the known revisions apart, what is active stays an entry of the history. -/
theorem Sound.active_apply (separate : ∀ id, Lww.Separate ConfigRevision.stamp (known id)) (sound : Sound known st)
    (brings : Brings known ev) : (st.apply ev).ActiveNewest := by
  intro id
  have own := sound.own.apply brings.keeps
  obtain ⟨covered, newest⟩ := (sound.active.covered sound.own id).apply brings.keeps
  have bounded : ∀ r ∈ (st.apply ev).entries id, ∃ act, (st.apply ev).activeOf id = some act ∧ r.stamp ≤ act.stamp :=
    fun r ⟨n, entry⟩ => covered.bounded n r entry
  cases present : (st.apply ev).activeOf id with
  | none =>
    refine Set.eq_empty_iff_forall_notMem.mpr fun r entry => ?_
    obtain ⟨act, active, _⟩ := bounded r entry
    cases present.symm.trans active
  | some act =>
    rw [present] at newest
    have greatest : ∀ r ∈ (st.apply ev).entries id, r.stamp ≤ act.stamp := by
      intro r entry
      obtain ⟨act', active, le⟩ := bounded r entry
      obtain rfl := Option.some.inj (present.symm.trans active)
      exact le
    refine ⟨?_, greatest⟩
    rcases apply_cases st brings.keeps with ⟨active, revs, _⟩ | ⟨r, fits, carries, clean, latest, taken⟩
    · have same : (st.apply ev).entries id = st.entries id := by simp only [entries, historyOf, revs]
      have before := sound.active id
      rw [show st.activeOf id = some act by rw [activeOf, ← active]; exact present] at before
      rw [same]
      exact before.1
    · have history : (st.apply ev).historyOf id =
          if id = r.scope.ID then recorded (st.historyOf id) r else st.historyOf id := by
        rw [taken, historyOf_withRevision st clean]
      rcases newest.1 with old | ⟨here, new⟩
      · have before := sound.active id
        rw [show st.activeOf id = some act from old] at before
        obtain ⟨n, entry⟩ := before.1
        have number := sound.own.numbered entry
        by_cases replaced : id = r.scope.ID ∧ n = r.revision
        · -- the entry that takes the number of the active one is it
          obtain ⟨here, same⟩ := replaced
          have member : r ∈ (st.apply ev).entries id := ⟨n, by rw [history, if_pos here, recorded, if_pos same]⟩
          have stored : st.configRevs.get r.revKey = some act := by
            rw [ConfigRevision.revKey, ← here, ← same]
            exact entry
          have later : act.updatedAt ≤ r.updatedAt := by
            by_contra less
            exact latest (superseded_iff.mpr ⟨act, stored, not_le.mp less⟩)
          have stamps : act.stamp = r.stamp :=
            le_antisymm (ConfigRevision.stamp_le_iff.mpr (Or.inr ⟨number.trans same, later⟩)) (greatest r member)
          rw [separate id act (sound.within id ⟨n, entry⟩) r (here ▸ brings.within r carries) stamps]
          exact member
        · refine ⟨n, ?_⟩
          rw [history]
          split
          next here => rw [recorded, if_neg fun same => replaced ⟨here, same⟩, entry]
          next => exact entry
      · obtain rfl := Option.some.inj (new.symm.trans carries)
        exact ⟨act.revision, by rw [history, if_pos here.symm, recorded, if_pos rfl]⟩

/-- What is sound stays so: a merge brings only what some node had at the start, and advances the active revision
with the history. -/
theorem keeps_sound (separate : ∀ id, Lww.Separate ConfigRevision.stamp (known id)) :
    Epidemic.Keeps exchange (Sound known) (Brings known) where
  merged _ _ sound brings := by
    rw [exchange_apply]
    exact ⟨sound.own.apply brings.keeps, sound.entries_apply brings, sound.active_apply separate brings⟩
  dumped st part sound ev member := by
    have inside := mem_snapshot_of_dump member
    refine ⟨isDeletion_of_snapshot st ev inside, fun r brings => ?_⟩
    exact sound.within _ ⟨r.revision, (revision_snapshot_iff sound.own).mp ⟨ev, inside, brings⟩⟩

end Sound

theorem activeNewest_single {rev : ConfigRevision} (clean : rev.json = rev) (fits : KeyFits rev.revKey) :
    (empty.withRevision rev fits).ActiveNewest := by
  intro id
  have fresh : empty.activeOf id = none := Bucket.get_empty _
  rw [activeOf_withRevision empty clean, fresh]
  split
  next here =>
    refine ⟨(mem_entries_single clean fits).mpr ⟨here, rfl⟩, fun r entry => ?_⟩
    rw [((mem_entries_single clean fits).mp entry).2]
  next other =>
    refine Set.eq_empty_iff_forall_notMem.mpr fun r entry => ?_
    exact other ((mem_entries_single clean fits).mp entry).1

end Store

namespace Cluster
open Store

variable {ι : Type} [DecidableEq ι]

/-- The nodes after reading and merging each other's snapshots. A snapshot is made of five read transactions,
with what the peer merges in the meantime between them; its records are merged one by one, each by the two
transactions of `ApplyRemote`, with those of other pulls between them. -/
def pullSnapshots (stores : ι → Store) (steps : List (Epidemic.Step ι)) :
    Epidemic.State ι Store SnapshotPart Event :=
  Epidemic.run Store.exchange stores steps

/-- No write transaction of `ApplyRemote` comes after one that has stored a record as new as its own since
its call has read. -/
def Undisturbed (stores : ι → Store) (steps : List (Epidemic.Step ι)) : Prop :=
  Machine.Meets (Machine.quiet (Epidemic.step Store.exchange)) (Epidemic.Standing Store.exchange)
    (Epidemic.start stores) steps

/-- No two calls of `ApplyRemote` overlap on one node. -/
def OneByOne (stores : ι → Store) (steps : List (Epidemic.Step ι)) : Prop :=
  Machine.Meets (Machine.quiet (Epidemic.step Store.exchange)) Epidemic.Alone (Epidemic.start stores) steps

/-- Calls that do not overlap on a node are never disturbed. -/
theorem OneByOne.undisturbed {stores : ι → Store} {steps : List (Epidemic.Step ι)}
    (alone : OneByOne stores steps) : Undisturbed stores steps :=
  Epidemic.standing_of_alone alone

/-- `st` holds the newest of what the stores hold under each key. -/
structure Newest (stores : ι → Store) (st : Store) : Prop where
  records : ∀ k, Lww.IsNewest Record.updatedAt {r | ∃ i, (stores i).lookup k = some r} (st.lookup k)
  revisions : ∀ key, Lww.IsNewest ConfigRevision.updatedAt {r | ∃ i, (stores i).configRevs.get key = some r}
    (st.configRevs.get key)
  active : ∀ id, Lww.IsNewest ConfigRevision.stamp {r | ∃ i, r ∈ (stores i).entries id} (st.activeOf id)

/-- The stores in which the nodes start. -/
structure Comparable (stores : ι → Store) : Prop where
  own : ∀ i, (stores i).OwnKeys
  active : ∀ i, (stores i).ActiveNewest
  distinct : ∀ i j, Distinct (stores i) (stores j)

section Comparable
variable {stores : ι → Store} (comparable : Comparable stores)
include comparable

omit [DecidableEq ι] in
theorem separate_records (k : RecordKey) :
    Lww.Separate Record.updatedAt {r | ∃ i, (stores i).lookup k = some r} := by
  rintro r ⟨i, left⟩ s ⟨j, right⟩ same
  by_contra differs
  exact (comparable.distinct i j).records k r s left right differs same

omit [DecidableEq ι] in
theorem separate_revisions (key : Key) :
    Lww.Separate ConfigRevision.updatedAt {r | ∃ i, (stores i).configRevs.get key = some r} := by
  rintro r ⟨i, left⟩ s ⟨j, right⟩ same
  by_contra differs
  obtain rfl := (comparable.own i).revisions key r left
  exact (comparable.distinct i j).revisions r.scope.ID r.revision r s left right differs same

omit [DecidableEq ι] in
/-- Two nodes whose revisions of a scope share a stamp have the same revision. -/
theorem separate_entries (id : GoString) :
    Lww.Separate ConfigRevision.stamp {r | ∃ i, r ∈ (stores i).entries id} := by
  rintro r ⟨i, m, left⟩ s ⟨j, n, right⟩ same
  obtain ⟨numbers, times⟩ := ConfigRevision.stamp_inj same
  rw [(comparable.own i).numbered left, (comparable.own j).numbered right] at numbers
  subst numbers
  exact separate_revisions comparable (cfgRevKey id m) r ⟨i, left⟩ s ⟨j, right⟩ times

/-- A node that has heard of every other, directly or through others, holds the newest of everything. -/
theorem newest_of_heard {steps : List (Epidemic.Step ι)} (undisturbed : Undisturbed stores steps) {i : ι}
    (heard : ∀ n, n ∈ (pullSnapshots stores steps).heard i) :
    Newest stores ((pullSnapshots stores steps).nodes i) := by
  have separate := separate_entries comparable
  have keeps := keeps_sound separate
  have sound : ∀ i, Sound (fun id => {r | ∃ i, r ∈ (stores i).entries id}) (stores i) := fun i =>
    ⟨comparable.own i, fun id r entry => ⟨i, entry⟩, comparable.active i⟩
  obtain ⟨healthy, records⟩ := Epidemic.spread_run
    (records_replicate.mono (fun _ => Sound.own) fun _ => Brings.keeps) keeps sound undisturbed
  obtain ⟨_, revisions⟩ := Epidemic.spread_run
    (revisions_replicate.mono (fun _ => Sound.own) fun _ => Brings.keeps) keeps sound undisturbed
  have final := healthy.nodes i
  have newest := revisions.newest heard
  refine ⟨records.newest heard, newest, fun id => ?_⟩
  refine (final.active id).widen (final.within id) fun r ⟨n, m, entry⟩ => ?_
  -- the node holds a revision of this number that is no older
  obtain ⟨s, stored⟩ := Option.isSome_iff_exists.mp ((newest (cfgRevKey id m)).isSome ⟨n, entry⟩)
  have later := newest (cfgRevKey id m)
  rw [stored] at later
  have number : r.revision = s.revision :=
    ((comparable.own n).numbered entry).trans (final.own.numbered stored).symm
  exact ⟨s, ⟨m, stored⟩, ConfigRevision.stamp_le_iff.mpr (Or.inr ⟨number, later.2 r ⟨n, entry⟩⟩)⟩

/-- Whatever the order of reads and merges, whatever is lost, as long as no record is written over one as new
that came between its call's transactions: two nodes that have heard of every node hold the same records, the
same histories and the same active revisions, each the newest there was. -/
theorem peers_converge {steps : List (Epidemic.Step ι)} (undisturbed : Undisturbed stores steps) {i j : ι}
    (left : ∀ n, n ∈ (pullSnapshots stores steps).heard i)
    (right : ∀ n, n ∈ (pullSnapshots stores steps).heard j) :
    Newest stores ((pullSnapshots stores steps).nodes i) ∧
      SameRecords ((pullSnapshots stores steps).nodes i) ((pullSnapshots stores steps).nodes j) ∧
      ((pullSnapshots stores steps).nodes i).configRevs = ((pullSnapshots stores steps).nodes j).configRevs ∧
      ∀ id, ((pullSnapshots stores steps).nodes i).activeOf id = ((pullSnapshots stores steps).nodes j).activeOf id := by
  have newest := newest_of_heard comparable undisturbed left
  have newest' := newest_of_heard comparable undisturbed right
  refine ⟨newest, sameRecords_of_lookup fun k => ?_, Bucket.ext fun key => ?_, fun id => ?_⟩
  · exact (newest.records k).unique (separate_records comparable k) (newest'.records k)
  · exact (newest.revisions key).unique (separate_revisions comparable key) (newest'.revisions key)
  · exact (newest.active id).unique (separate_entries comparable id) (newest'.active id)

end Comparable

/-- The revision the operator of node `i` published first. -/
def firstRevision (i : Fin 3) : ConfigRevision :=
  { scope := { kind := "global" }, revision := 1, vars := ∅, updatedAt := i }

theorem fits_firstRevision (i : Fin 3) : KeyFits (firstRevision i).revKey :=
  (by decide : KeyFits (cfgRevKey (ConfigScope.ID { kind := "global" }) 1))

/-- The service as it was put at node `i`. -/
def firstService (i : Fin 3) : Service := { name := "s", updatedAt := i }

def firstStores (i : Fin 3) : Store :=
  { Store.empty.withRevision (firstRevision i) (fits_firstRevision i) with
    services := Bucket.empty.insert "s" (firstService i) (by decide) }

theorem lookup_firstStores {i : Fin 3} {k : RecordKey} {r : Record}
    (stored : (firstStores i).lookup k = some r) : k = ⟨.service, "s"⟩ ∧ r = .service (firstService i) := by
  obtain ⟨kind, key⟩ := k
  cases kind with
  | service =>
    have clean : ∀ i, (firstService i).json = firstService i := by decide
    simp only [lookup_service, firstStores, Bucket.get_insert, Service.roundTrip_eq, clean, Bucket.get_empty] at stored
    split at stored
    next here => exact ⟨by rw [here], (Option.some.inj stored).symm⟩
    next => cases stored
  | inst => cases (lookup_empty ⟨.inst, key⟩).symm.trans stored
  | affinity => cases (lookup_empty ⟨.affinity, key⟩).symm.trans stored
  | token => cases (lookup_empty ⟨.token, key⟩).symm.trans stored

/-- Three nodes, each with its own version of one service and its own revision of one scope. -/
theorem comparable_firstStores : Comparable firstStores where
  own i := by
    have single := ownKeys_single (by revert i; decide) (fits_firstRevision i)
    refine ⟨fun k r stored => ?_, single.revisions, single.active, single.drafts⟩
    obtain ⟨rfl, rfl⟩ := lookup_firstStores stored
    rfl
  active i := activeNewest_single (by revert i; decide) (fits_firstRevision i)
  distinct i j := by
    have clean : ∀ i, (firstRevision i).json = firstRevision i := by decide
    refine ⟨fun k r s left right differs same => ?_, fun id n r s left right differs same => ?_⟩
    · obtain ⟨_, rfl⟩ := lookup_firstStores left
      obtain ⟨_, rfl⟩ := lookup_firstStores right
      exact differs (congrArg (Record.service ∘ firstService) (Fin.ext (Int.ofNat.inj same)))
    · obtain ⟨_, rfl⟩ := (mem_entries_single (clean i) (fits_firstRevision i)).mp ⟨n, left⟩
      obtain ⟨_, rfl⟩ := (mem_entries_single (clean j) (fits_firstRevision j)).mp ⟨n, right⟩
      exact differs (congrArg firstRevision (Fin.ext (Int.ofNat.inj same)))

/-- Node 1 takes over what node 2 holds, while node 0 reads its snapshot; node 0 asks again, and node 2 asks
node 0. A pull of node 2 is lost. -/
def threePulls : List (Epidemic.Step (Fin 3)) :=
  [.fetch 1 2, .view 0, .view 0, .view 0, .view 0, .view 0, .fetch 0 1, .read 0, .view 1, .write 0, .view 1, .view 1,
    .read 0, .view 1, .view 1, .read 1, .write 0, .write 1, .read 0, .read 1, .fetch 2 1, .view 2, .write 1, .read 1,
    .fetch 0 1, .view 3, .view 3, .view 3, .view 3, .view 3, .read 3, .write 3, .read 3, .write 3, .read 3,
    .fetch 2 0, .view 4, .view 4, .view 4, .view 4, .view 4, .read 4, .read 4, .write 4, .read 4]

theorem peers_converge_three :
    ((pullSnapshots firstStores threePulls).nodes 0).services.get "s" = some (firstService 2) ∧
      Newest firstStores ((pullSnapshots firstStores threePulls).nodes 0) ∧
      SameRecords ((pullSnapshots firstStores threePulls).nodes 0) ((pullSnapshots firstStores threePulls).nodes 2) ∧
      ((pullSnapshots firstStores threePulls).nodes 0).configRevs =
        ((pullSnapshots firstStores threePulls).nodes 2).configRevs ∧
      ∀ id, ((pullSnapshots firstStores threePulls).nodes 0).activeOf id =
        ((pullSnapshots firstStores threePulls).nodes 2).activeOf id := by
  have alone : OneByOne firstStores threePulls := by
    unfold OneByOne
    decide +kernel
  have left : ∀ n, n ∈ (pullSnapshots firstStores threePulls).heard 0 := by decide +kernel
  have right : ∀ n, n ∈ (pullSnapshots firstStores threePulls).heard 2 := by decide +kernel
  exact ⟨by decide +kernel, peers_converge comparable_firstStores alone.undisturbed left right⟩

end Cluster
end Discovery
