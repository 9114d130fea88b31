import Discovery.Model.ConfigKeys
import Discovery.Store.Replica
import Mathlib.Data.Prod.Lex

namespace Discovery
open Kv

/-- Revisions of one scope are ordered by number, and by time where two have the same one. -/
def ConfigRevision.stamp (r : ConfigRevision) : Int ×ₗ Time := toLex (r.revision, r.updatedAt)

def ConfigRevision.revKey (r : ConfigRevision) : Key := cfgRevKey r.scope.ID r.revision

def ConfigRevision.activeKey (r : ConfigRevision) : Key := cfgActiveKey r.scope.ID

/-- Revisions are ordered by their number, and by their time where the numbers agree. -/
theorem ConfigRevision.stamp_lt_iff {r s : ConfigRevision} :
    r.stamp < s.stamp ↔ r.revision < s.revision ∨ r.revision = s.revision ∧ r.updatedAt < s.updatedAt :=
  Prod.Lex.toLex_lt_toLex

theorem ConfigRevision.stamp_le_iff {r s : ConfigRevision} :
    r.stamp ≤ s.stamp ↔ r.revision < s.revision ∨ r.revision = s.revision ∧ r.updatedAt ≤ s.updatedAt :=
  Prod.Lex.toLex_le_toLex

theorem ConfigRevision.stamp_inj {r s : ConfigRevision} (same : r.stamp = s.stamp) :
    r.revision = s.revision ∧ r.updatedAt = s.updatedAt :=
  Prod.mk.inj (toLex.injective same)

theorem settles_stamp : Lww.Settles (fun s t : Int ×ₗ Time => decide (s < t)) where
  newer less := by simpa using less
  older less := by simpa using less.le

/-- A history with `rev` put under its number. -/
def recorded (history : Int → Option ConfigRevision) (rev : ConfigRevision) (n : Int) : Option ConfigRevision :=
  if n = rev.revision then some rev else history n

namespace Store

def activeOf (st : Store) (id : GoString) : Option ConfigRevision := st.configActive.get (cfgActiveKey id)

def historyOf (st : Store) (id : GoString) (n : Int) : Option ConfigRevision := st.configRevs.get (cfgRevKey id n)

def draftOf (st : Store) (id : GoString) : Option ConfigDraft := st.configDrafts.get (cfgDraftKey id)

/-- A newer revision with the same number is in the history. -/
def Superseded (st : Store) (rev : ConfigRevision) : Prop :=
  (st.configRevs.get rev.revKey).any (rev.updatedAt < ·.updatedAt) = true

instance (st : Store) (rev : ConfigRevision) : Decidable (st.Superseded rev) :=
  inferInstanceAs (Decidable (_ = true))

/-- A revision is superseded where the history has a later one of its number. -/
theorem superseded_iff {st : Store} {rev : ConfigRevision} :
    st.Superseded rev ↔ ∃ old, st.configRevs.get rev.revKey = some old ∧ rev.updatedAt < old.updatedAt := by
  unfold Superseded
  cases st.configRevs.get rev.revKey <;> simp

/-- The store with a revision in its history, and active if none of a greater stamp is. -/
def withRevision (st : Store) (rev : ConfigRevision) (fits : KeyFits rev.revKey) : Store :=
  { st with
    configRevs := st.configRevs.insert rev.revKey rev fits
    configActive := st.configActive.mergePut ConfigRevision.stamp (fun s t => decide (s < t)) rev.activeKey rev }

/-- The test of the source, spelled out with its two comparisons, is the order of the stamps. -/
theorem advances_iff (act : Option ConfigRevision) (rev : ConfigRevision) :
    (act.all fun act => act.revision < rev.revision ||
        (rev.revision = act.revision && act.updatedAt < rev.updatedAt)) = true ↔
      act.all (fun act => decide (act.stamp < rev.stamp)) = true := by
  cases act with
  | none => simp
  | some act =>
    rw [Option.all_some, Option.all_some, decide_eq_true_iff, ConfigRevision.stamp_lt_iff]
    simp [eq_comm (a := act.revision)]

/-- A superseded revision is refused without an error. -/
theorem putConfigRevisionRaw_superseded {st : Store} {rev : ConfigRevision} (newer : st.Superseded rev) :
    st.putConfigRevisionRaw rev = .ok st :=
  if_pos newer

theorem putConfigRevisionRaw_ok {st : Store} {rev : ConfigRevision} (latest : ¬st.Superseded rev)
    (fits : KeyFits rev.revKey) : st.putConfigRevisionRaw rev = .ok (st.withRevision rev fits) := by
  refine (if_neg latest).trans ?_
  have fitsActive : KeyFits rev.activeKey := fits_cfgActiveKey fits
  have history : write st.configRevs (cfgRevKey rev.scope.ID rev.revision) rev =
      .ok (st.configRevs.insert rev.revKey rev fits) := write_ok _ _ fits
  have active : write st.configActive (cfgActiveKey rev.scope.ID) rev =
      .ok (st.configActive.insert rev.activeKey rev fitsActive) := write_ok _ _ fitsActive
  rw [history]
  by_cases advances : (st.configActive.get rev.activeKey).all (fun act => decide (act.stamp < rev.stamp)) = true
  · have merged : st.configActive.mergePut ConfigRevision.stamp (fun s t => decide (s < t)) rev.activeKey rev =
        st.configActive.insert rev.activeKey rev fitsActive := dif_pos ⟨fitsActive, advances⟩
    rw [withRevision, merged]
    refine (if_pos ((advances_iff _ rev).mpr advances)).trans ?_
    rw [active]
    rfl
  · have kept : st.configActive.mergePut ConfigRevision.stamp (fun s t => decide (s < t)) rev.activeKey rev =
        st.configActive := dif_neg fun both => advances both.2
    rw [withRevision, kept]
    exact if_neg (mt (advances_iff _ rev).mp advances)

/-- One whose key is too large is refused with an error. -/
theorem putConfigRevisionRaw_rejected {st : Store} {rev : ConfigRevision} (latest : ¬st.Superseded rev)
    (large : ¬KeyFits rev.revKey) : ∃ e, st.putConfigRevisionRaw rev = .error e := by
  obtain ⟨e, run⟩ : ∃ e, write st.configRevs (cfgRevKey rev.scope.ID rev.revision) rev = .error e :=
    write_error _ _ large
  refine ⟨e, (if_neg latest).trans ?_⟩
  rw [run]
  rfl

/-- An event whose key bbolt cannot hold, or that a newer revision supersedes, changes nothing. -/
theorem apply_configApplied (st : Store) (p : ConfigRevision) :
    st.apply (.configApplied p) =
      if fits : KeyFits p.json.revKey ∧ ¬st.Superseded p.json then st.withRevision p.json fits.1 else st := by
  have unfolded : st.applyRemote (.configApplied p) =
      st.putConfigRevisionRaw p.json >>= fun st => .ok ⟨(), st, [.configApplied p]⟩ := rfl
  rw [apply, applyStep, unfolded]
  by_cases newer : st.Superseded p.json
  · rw [putConfigRevisionRaw_superseded newer, dif_neg fun both => both.2 newer]
    rfl
  · by_cases fits : KeyFits p.json.revKey
    · rw [putConfigRevisionRaw_ok newer fits, dif_pos ⟨fits, newer⟩]
      rfl
    · obtain ⟨e, run⟩ := putConfigRevisionRaw_rejected newer fits
      rw [run, dif_neg fun both => fits both.1]
      rfl

section WithRevision
variable (st : Store) {rev : ConfigRevision} (clean : rev.json = rev) (fits : KeyFits rev.revKey)
include clean

/-- The active revision is a register of its own, which the stamp decides. -/
theorem activeOf_withRevision (id : GoString) :
    (st.withRevision rev fits).activeOf id =
      if id = rev.scope.ID then
        Lww.merge ConfigRevision.stamp (fun s t => decide (s < t)) (st.activeOf id) rev
      else st.activeOf id := by
  have fitsActive : KeyFits (cfgActiveKey rev.scope.ID) := fits_cfgActiveKey fits
  rw [activeOf, withRevision, Bucket.get_mergePut _ clean]
  simp only [ConfigRevision.activeKey, cfgActiveKey_inj, fitsActive, and_true, activeOf]

/-- The history takes the revision under its number, whatever the active one is. -/
theorem historyOf_withRevision (id : GoString) :
    (st.withRevision rev fits).historyOf id =
      if id = rev.scope.ID then recorded (st.historyOf id) rev else st.historyOf id := by
  funext n
  rw [historyOf, withRevision, Bucket.get_insert, ConfigRevision.roundTrip_eq, clean]
  by_cases here : id = rev.scope.ID
  · simp only [ConfigRevision.revKey, cfgRevKey_inj, here, true_and, if_true, recorded, historyOf]
  · simp only [ConfigRevision.revKey, cfgRevKey_inj, here, false_and, if_false, historyOf]

end WithRevision

/-- The remote events that touch neither active revisions nor histories. -/
def keepsRevisions : Event → Bool
  | .configApplied _ | .configDeleted _ => false
  | _ => true

/-- Events that carry no revision and delete no scope leave all of them. -/
theorem apply_keepsRevisions (st : Store) {ev : Event} (keeps : keepsRevisions ev = true) :
    (st.apply ev).configActive = st.configActive ∧ (st.apply ev).configRevs = st.configRevs := by
  cases ev with
  | configApplied p => cases keeps
  | configDeleted scope => cases keeps
  | configDraftSaved d =>
    refine settle_store (fun s => s.configActive = st.configActive ∧ s.configRevs = st.configRevs) ⟨rfl, rfl⟩
      fun r run => ?_
    simp only [applyRemote, putDraftRaw, bind_eq_ok] at run
    obtain ⟨st', ⟨drafts, _, raw⟩, done⟩ := run
    obtain rfl := Except.ok.inj done
    obtain rfl := Except.ok.inj raw
    exact ⟨rfl, rfl⟩
  | serviceUpserted p => rw [apply_serviceUpserted]; exact ⟨rfl, rfl⟩
  | instanceUpserted p => rw [apply_instanceUpserted]; exact ⟨rfl, rfl⟩
  | instanceStatus p => rw [apply_instanceStatus, apply_instanceUpserted]; exact ⟨rfl, rfl⟩
  | affinityUpserted p => rw [apply_affinityUpserted]; exact ⟨rfl, rfl⟩
  | tokenUpserted p => rw [apply_tokenUpserted]; exact ⟨rfl, rfl⟩
  | serviceDeleted _ | instanceDeleted _ _ | affinityDeleted _ | tokenDeleted _ | configDraftDeleted _ =>
    exact ⟨rfl, rfl⟩

/-- The revision an event brings, if bbolt can hold its history key. -/
def revision : Event → Option ConfigRevision
  | .configApplied p => if KeyFits p.json.revKey then some p.json else none
  | _ => none

theorem revision_eq_some {ev : Event} {r : ConfigRevision} :
    revision ev = some r ↔ ∃ p, ev = .configApplied p ∧ p.json = r ∧ KeyFits r.revKey := by
  cases ev with
  | configApplied p =>
    simp only [revision, Option.ite_none_right_eq_some, Option.some.injEq, Event.configApplied.injEq, exists_eq_left']
    constructor
    · rintro ⟨fits, rfl⟩
      exact ⟨rfl, fits⟩
    · rintro ⟨rfl, fits⟩
      exact ⟨fits, rfl⟩
  | _ => simp [revision]

/-- What an event that is no deletion does to active revisions and histories: nothing, the one it
brings being superseded, or it adds the one it brings. -/
theorem apply_cases (st : Store) {ev : Event} (keeps : ev.isDeletion = false) :
    ((st.apply ev).configActive = st.configActive ∧ (st.apply ev).configRevs = st.configRevs ∧
      ∀ r, revision ev = some r → st.Superseded r) ∨
    ∃ r fits, revision ev = some r ∧ r.json = r ∧ ¬st.Superseded r ∧ st.apply ev = st.withRevision r fits := by
  by_cases other : keepsRevisions ev = true
  · obtain ⟨active, revs⟩ := apply_keepsRevisions st other
    refine Or.inl ⟨active, revs, fun r brings => ?_⟩
    obtain ⟨p, rfl, _⟩ := revision_eq_some.mp brings
    cases other
  · cases ev with
    | configApplied p =>
      rw [apply_configApplied]
      split
      next taken =>
        exact Or.inr ⟨p.json, taken.1, revision_eq_some.mpr ⟨p, rfl, rfl, taken.1⟩, p.json_idem, taken.2, rfl⟩
      next kept =>
        refine Or.inl ⟨rfl, rfl, fun r brings => ?_⟩
        obtain ⟨_, same, rfl, fits⟩ := revision_eq_some.mp brings
        obtain rfl := Event.configApplied.inj same
        exact not_not.mp fun latest => kept ⟨fits, latest⟩
    | configDeleted scope => cases keeps
    | _ => exact absurd rfl other

/-- The history is a last-write-wins replica, on a tie of times the event that comes last wins. -/
theorem history_merges (st : Store) {ev : Event} (keeps : ev.isDeletion = false) :
    Lww.Merges ConfigRevision.updatedAt (fun _ s t => !(decide (t < s))) (fun st key => st.configRevs.get key)
      apply (fun ev => (revision ev).map (fun r => (r.revKey, r))) st ev := by
  intro key
  rcases apply_cases st keeps with ⟨_, revs, superseded⟩ | ⟨r, fits, brings, clean, latest, taken⟩
  · simp only [revs]
    cases brings : revision ev with
    | none => rfl
    | some r =>
      simp only [Option.map_some]
      split
      next here =>
        obtain ⟨old, stored, later⟩ := superseded_iff.mp (superseded r brings)
        have stays : (!(decide (r.updatedAt < old.updatedAt))) = false := by
          rw [decide_eq_true later]
          rfl
        simp only [here, stored, Lww.merge, stays, Bool.false_eq_true, if_false]
      next => rfl
  · simp only [taken, brings, Option.map_some, withRevision, Bucket.get_insert, ConfigRevision.roundTrip_eq, clean]
    split
    next here =>
      subst here
      cases stored : st.configRevs.get r.revKey with
      | none => rfl
      | some old =>
        have yields : (!(decide (r.updatedAt < old.updatedAt))) = true := by
          rw [decide_eq_false fun later => latest (superseded_iff.mpr ⟨old, stored, later⟩)]
          rfl
        exact (if_pos yields).symm
    next => rfl

/-- The revisions of a scope that the events bring. -/
def brought (es : List Event) (id : GoString) : Set ConfigRevision :=
  {r | r.scope.ID = id ∧ ∃ e ∈ es, revision e = some r}

/-- For each number the history holds the newest revision of that number. -/
theorem history_newest (st : Store) (id : GoString) {es : List Event} (keeps : ∀ e ∈ es, e.isDeletion = false)
    (n : Int) :
    Lww.IsNewest ConfigRevision.updatedAt ({r | st.historyOf id n = some r} ∪ {r ∈ brought es id | r.revision = n})
      ((st.applyAll es).historyOf id n) := by
  have newest := Lww.newest_of_merges (fun _ => settles_unless_after) st
    (fun s e member => history_merges s (keeps e member)) (cfgRevKey id n)
  have same : Lww.candidates (fun st key => st.configRevs.get key)
      (fun ev => (revision ev).map (fun r => (r.revKey, r))) st es (cfgRevKey id n) =
        {r | st.historyOf id n = some r} ∪ {r ∈ brought es id | r.revision = n} := by
    ext r
    simp only [Lww.candidates, brought, historyOf, Set.mem_union, Set.mem_ofPred_eq, Option.map_eq_some_iff,
      Prod.mk.injEq]
    refine or_congr_right ⟨?_, ?_⟩
    · rintro ⟨e, member, _, brings, key, rfl⟩
      obtain ⟨scope, number⟩ := cfgRevKey_inj.mp key
      exact ⟨⟨scope, e, member, brings⟩, number⟩
    · rintro ⟨⟨scope, e, member, brings⟩, number⟩
      exact ⟨e, member, r, brings, cfgRevKey_inj.mpr ⟨scope, number⟩, rfl⟩
  rwa [same] at newest

/-- The active revision bounds the history, whose entries lie under their own numbers. -/
structure Covered (st : Store) (id : GoString) : Prop where
  numbered : ∀ n r, st.historyOf id n = some r → r.revision = n
  bounded : ∀ n r, st.historyOf id n = some r → ∃ act, st.activeOf id = some act ∧ r.stamp ≤ act.stamp

theorem Covered.congr {st st' : Store} {id : GoString} (covered : st.Covered id)
    (active : st'.activeOf id = st.activeOf id) (history : st'.historyOf id = st.historyOf id) : st'.Covered id := by
  obtain ⟨numbered, bounded⟩ := covered
  exact ⟨history ▸ numbered, active ▸ history ▸ bounded⟩

/-- A revision that the history takes leaves the newest of the active one and itself active. -/
theorem active_withRevision (st : Store) (id : GoString) {rev : ConfigRevision} (clean : rev.json = rev)
    (fits : KeyFits rev.revKey) :
    Lww.IsNewest ConfigRevision.stamp ({r | st.activeOf id = some r} ∪ {r | r.scope.ID = id ∧ r = rev})
      ((st.withRevision rev fits).activeOf id) := by
  rw [activeOf_withRevision _ clean]
  split
  next here =>
    have sets : {r | st.activeOf id = some r} ∪ {r | r.scope.ID = id ∧ r = rev} =
        insert rev {r | st.activeOf id = some r} := by
      ext r
      simp only [Set.mem_union, Set.mem_ofPred_eq, Set.mem_insert_iff]
      constructor
      · exact fun either => either.elim Or.inr (fun new => Or.inl new.2)
      · rintro (rfl | old)
        · exact Or.inr ⟨here.symm, rfl⟩
        · exact Or.inl old
    rw [sets]
    exact (Lww.IsNewest.self _).merge settles_stamp rev
  next other =>
    refine Lww.IsNewest.self_union fun r member => ?_
    obtain ⟨scope, rfl⟩ := member
    exact absurd scope.symm other

/-- Where the active revision is the newest of the history it stays so with every revision that comes. -/
theorem Covered.withRevision {st : Store} {id : GoString} (covered : st.Covered id) {rev : ConfigRevision}
    (clean : rev.json = rev) (fits : KeyFits rev.revKey) : (st.withRevision rev fits).Covered id := by
  have newest := active_withRevision st id clean fits
  have greatest (r : ConfigRevision) (member : r ∈ {r | st.activeOf id = some r} ∪ {r | r.scope.ID = id ∧ r = rev}) :
      ∃ act, (st.withRevision rev fits).activeOf id = some act ∧ r.stamp ≤ act.stamp := by
    cases active : (st.withRevision rev fits).activeOf id with
    | none =>
      rw [active] at newest
      exact absurd member (Set.eq_empty_iff_forall_notMem.mp newest r)
    | some act =>
      rw [active] at newest
      exact ⟨act, rfl, newest.2 r member⟩
  have entry {n : Int} {r : ConfigRevision} (stored : (st.withRevision rev fits).historyOf id n = some r) :
      st.historyOf id n = some r ∨ id = rev.scope.ID ∧ n = rev.revision ∧ r = rev := by
    rw [historyOf_withRevision _ clean] at stored
    split at stored
    next here =>
      unfold recorded at stored
      split at stored
      next number => exact Or.inr ⟨here, number, (Option.some.inj stored).symm⟩
      next => exact Or.inl stored
    next => exact Or.inl stored
  constructor
  · intro n r stored
    rcases entry stored with old | ⟨_, number, rfl⟩
    · exact covered.numbered n r old
    · exact number.symm
  · intro n r stored
    rcases entry stored with old | ⟨scope, _, rfl⟩
    · obtain ⟨act, active, le⟩ := covered.bounded n r old
      obtain ⟨next, active', le'⟩ := greatest act (Or.inl active)
      exact ⟨next, active', le.trans le'⟩
    · exact greatest r (Or.inr ⟨scope.symm, rfl⟩)

/-- An event that is no deletion keeps the bound and leaves the newest of the active revision and the
one it brings active. -/
theorem Covered.apply {st : Store} {id : GoString} (covered : st.Covered id) {ev : Event}
    (keeps : ev.isDeletion = false) :
    (st.apply ev).Covered id ∧
      Lww.IsNewest ConfigRevision.stamp ({r | st.activeOf id = some r} ∪ {r | r.scope.ID = id ∧ revision ev = some r})
        ((st.apply ev).activeOf id) := by
  rcases apply_cases st keeps with ⟨active, revs, superseded⟩ | ⟨r, fits, brings, clean, _, taken⟩
  · have sameActive : (st.apply ev).activeOf id = st.activeOf id := by rw [activeOf, active, activeOf]
    have sameHistory : (st.apply ev).historyOf id = st.historyOf id := by
      funext n
      rw [historyOf, revs, historyOf]
    refine ⟨covered.congr sameActive sameHistory, ?_⟩
    rw [sameActive]
    refine Lww.IsNewest.self_union fun r member => ?_
    -- the newer revision of the same number is bounded by the active one
    obtain ⟨old, stored, later⟩ := superseded_iff.mp (superseded r member.2)
    have entry : st.historyOf id r.revision = some old := by rw [← member.1]; exact stored
    have number := covered.numbered _ _ entry
    obtain ⟨act, present, le⟩ := covered.bounded _ _ entry
    have less : r.stamp < old.stamp := ConfigRevision.stamp_lt_iff.mpr (Or.inr ⟨number.symm, later⟩)
    exact ⟨act, present, less.le.trans le⟩
  · rw [taken]
    refine ⟨covered.withRevision clean fits, ?_⟩
    simpa only [brings, Option.some.injEq, eq_comm] using active_withRevision st id clean fits

/-- The active revision is the one of the greatest number, and of the latest time among these: an
event that the history supersedes cannot be it. -/
theorem Covered.applyAll {st : Store} {id : GoString} (covered : st.Covered id) {es : List Event}
    (keeps : ∀ e ∈ es, e.isDeletion = false) :
    (st.applyAll es).Covered id ∧
      Lww.IsNewest ConfigRevision.stamp ({r | st.activeOf id = some r} ∪ brought es id)
        ((st.applyAll es).activeOf id) := by
  induction es generalizing st with
  | nil =>
    refine ⟨covered, Lww.IsNewest.self_union fun r member => ?_⟩
    obtain ⟨_, e, listed, _⟩ := member
    exact absurd listed List.not_mem_nil
  | cons e es ih =>
    obtain ⟨first, rest⟩ := List.forall_mem_cons.mp keeps
    obtain ⟨next, newest⟩ := covered.apply first
    obtain ⟨final, newest'⟩ := ih next rest
    refine ⟨final, ?_⟩
    have sets : brought (e :: es) id = {r | r.scope.ID = id ∧ revision e = some r} ∪ brought es id := by
      ext r
      simp only [brought, Set.mem_union, Set.mem_ofPred_eq, List.mem_cons, or_and_right, exists_or, exists_eq_left,
        and_or_left]
    rw [sets, ← Set.union_assoc]
    exact newest.trans newest'

/-- An active revision that no event exceeds stays. -/
theorem active_stays {st : Store} {id : GoString} {act : ConfigRevision} (active : st.activeOf id = some act)
    {es : List Event} (keeps : ∀ e ∈ es, e.isDeletion = false)
    (bounded : ∀ r ∈ brought es id, r.stamp ≤ act.stamp) : (st.applyAll es).activeOf id = some act := by
  induction es generalizing st with
  | nil => exact active
  | cons e es ih =>
    obtain ⟨first, rest⟩ := List.forall_mem_cons.mp keeps
    have later : ∀ r ∈ brought es id, r.stamp ≤ act.stamp := by
      rintro r ⟨scope, f, member, brings⟩
      exact bounded r ⟨scope, f, List.mem_cons_of_mem _ member, brings⟩
    refine ih ?_ rest later
    rcases apply_cases st first with ⟨same, _, _⟩ | ⟨r, fits, brings, clean, _, taken⟩
    · rw [activeOf, same]
      exact active
    · rw [taken, activeOf_withRevision _ clean]
      split
      next here =>
        have older := bounded r ⟨here.symm, e, List.mem_cons_self, brings⟩
        rw [active]
        exact if_neg (by simpa using older)
      next => exact active

/-- An active revision lies under the key of its own scope. -/
def OwnActive (st : Store) : Prop := ∀ key r, st.configActive.get key = some r → key = r.activeKey

theorem OwnActive.applyAll {st : Store} (own : st.OwnActive) {es : List Event}
    (keeps : ∀ e ∈ es, e.isDeletion = false) : (st.applyAll es).OwnActive := by
  induction es generalizing st with
  | nil => exact own
  | cons e es ih =>
    obtain ⟨first, rest⟩ := List.forall_mem_cons.mp keeps
    refine ih (fun key r stored => ?_) rest
    rcases apply_cases st first with ⟨same, _, _⟩ | ⟨rev, fits, _, clean, _, taken⟩
    · rw [same] at stored
      exact own key r stored
    · rw [taken, withRevision, Bucket.get_mergePut _ clean] at stored
      split at stored
      next here =>
        rcases Lww.mem_merge stored with rfl | same
        · exact here.1
        · exact own key r same
      next => exact own key r stored

/-- A node that has neither an active revision nor a history of the scope. -/
structure NoRevisions (st : Store) (id : GoString) : Prop where
  active : st.activeOf id = none
  history : ∀ n, st.historyOf id n = none

theorem NoRevisions.covered {st : Store} {id : GoString} (fresh : st.NoRevisions id) : st.Covered id where
  numbered n r stored := by cases (fresh.history n).symm.trans stored
  bounded n r stored := by cases (fresh.history n).symm.trans stored

/-- From a scope without revisions any sequence of events leaves the newest one of each number in the history, and
the newest one of all active. -/
theorem NoRevisions.newest {st : Store} {id : GoString} (fresh : st.NoRevisions id) {es : List Event}
    (keeps : ∀ e ∈ es, e.isDeletion = false) :
    (∀ n, Lww.IsNewest ConfigRevision.updatedAt {r ∈ brought es id | r.revision = n} ((st.applyAll es).historyOf id n)) ∧
      Lww.IsNewest ConfigRevision.stamp (brought es id) ((st.applyAll es).activeOf id) := by
  constructor
  · intro n
    simpa only [fresh.history, reduceCtorEq, Set.ofPred_false, Set.empty_union] using history_newest st id keeps n
  · simpa only [fresh.active, reduceCtorEq, Set.ofPred_false, Set.empty_union] using (fresh.covered.applyAll keeps).2

/-- Two nodes without data of a scope that receive the same revisions of it, in any order and with
repetitions, end up with the same history and the same active revision. -/
theorem revisions_converge {st st' : Store} {id : GoString} (fresh : st.NoRevisions id)
    (fresh' : st'.NoRevisions id) {es fs : List Event} (sameEvents : ∀ e, e ∈ es ↔ e ∈ fs)
    (oneScope : ∀ e ∈ es, ∃ p, e = .configApplied p ∧ p.json.scope.ID = id)
    (times : ∀ p q, .configApplied p ∈ es → .configApplied q ∈ es → p ≠ q → p.revision = q.revision →
      p.updatedAt ≠ q.updatedAt) :
    (∀ n, (st.applyAll es).historyOf id n = (st'.applyAll fs).historyOf id n) ∧
      (st.applyAll es).activeOf id = (st'.applyAll fs).activeOf id ∧
      (∀ n, Lww.IsNewest ConfigRevision.updatedAt {r ∈ brought es id | r.revision = n}
        ((st.applyAll es).historyOf id n)) ∧
      Lww.IsNewest ConfigRevision.stamp (brought es id) ((st.applyAll es).activeOf id) := by
  have keeps : ∀ e ∈ es, e.isDeletion = false := by
    intro e member
    obtain ⟨p, rfl, _⟩ := oneScope e member
    rfl
  have sameBrought : brought fs id = brought es id := by simp only [brought, sameEvents]
  have one {r s : ConfigRevision} (left : r ∈ brought es id) (right : s ∈ brought es id)
      (number : r.revision = s.revision) (time : r.updatedAt = s.updatedAt) : r = s := by
    obtain ⟨_, e, member, brings⟩ := left
    obtain ⟨_, f, member', brings'⟩ := right
    obtain ⟨p, rfl, rfl, _⟩ := revision_eq_some.mp brings
    obtain ⟨q, rfl, rfl, _⟩ := revision_eq_some.mp brings'
    by_contra differs
    have apart : p ≠ q := fun same => differs (congrArg ConfigRevision.json same)
    exact times p q member member' apart number time
  obtain ⟨history, active⟩ := fresh.newest keeps
  obtain ⟨history', active'⟩ := fresh'.newest fun e member => keeps e ((sameEvents e).mpr member)
  rw [sameBrought] at active'
  refine ⟨fun n => ?_, ?_, history, active⟩
  · have other := history' n
    rw [sameBrought] at other
    refine (history n).unique ?_ other
    rintro r ⟨left, number⟩ s ⟨right, number'⟩ time
    exact one left right (number.trans number'.symm) time
  · refine active.unique ?_ active'
    intro r left s right same
    obtain ⟨number, time⟩ := ConfigRevision.stamp_inj same
    exact one left right number time

theorem noRevisions_empty (id : GoString) : empty.NoRevisions id :=
  ⟨Bucket.get_empty _, fun _ => Bucket.get_empty _⟩

/-- Two operators publish the first global revision on two nodes at once. -/
theorem revisions_converge_two :
    (empty.applyAll [
        .configApplied { scope := { kind := "global" }, revision := 1, vars := ∅, author := "a", updatedAt := 1 },
        .configApplied { scope := { kind := "global" }, revision := 1, vars := ∅, author := "b", updatedAt := 2 }
      ]).activeOf "global" =
      (empty.applyAll [
        .configApplied { scope := { kind := "global" }, revision := 1, vars := ∅, author := "b", updatedAt := 2 },
        .configApplied { scope := { kind := "global" }, revision := 1, vars := ∅, author := "a", updatedAt := 1 },
        .configApplied { scope := { kind := "global" }, revision := 1, vars := ∅, author := "b", updatedAt := 2 }
      ]).activeOf "global" := by
  refine (revisions_converge (noRevisions_empty _) (noRevisions_empty _) ?_ ?_ ?_).2.1
  · intro e
    simp only [List.mem_cons, List.not_mem_nil, or_false]
    tauto
  · intro e member
    simp only [List.mem_cons, List.not_mem_nil, or_false] at member
    rcases member with rfl | rfl
    · exact ⟨_, rfl, by decide⟩
    · exact ⟨_, rfl, by decide⟩
  · intro p q left right differs _
    simp only [List.mem_cons, List.not_mem_nil, or_false, Event.configApplied.injEq] at left right
    rcases left with rfl | rfl <;> rcases right with rfl | rfl
    · exact absurd rfl differs
    · decide
    · decide
    · exact absurd rfl differs

end Store
end Discovery
