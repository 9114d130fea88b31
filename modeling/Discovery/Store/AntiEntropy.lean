import Discovery.Store.Pull

namespace Discovery
open Kv

namespace Store

/-- Every scope with a history has an active revision, which is the greatest entry of the history. -/
def Topped (st : Store) : Prop :=
  ∀ id, (st.entries id).Nonempty → ∃ act ∈ st.entries id, st.activeOf id = some act ∧
    ∀ r ∈ st.entries id, r.stamp ≤ act.stamp

/-- Different records of two nodes under one key carry different times. -/
structure Distinct (a b : Store) : Prop where
  records : ∀ k r s, a.lookup k = some r → b.lookup k = some s → r ≠ s → r.updatedAt ≠ s.updatedAt
  revisions : ∀ id n r s, a.historyOf id n = some r → b.historyOf id n = some s → r ≠ s →
    r.updatedAt ≠ s.updatedAt

theorem OwnKeys.numbered {st : Store} (own : st.OwnKeys) {id : GoString} {n : Int} {r : ConfigRevision}
    (entry : st.historyOf id n = some r) : r.revision = n :=
  (cfgRevKey_inj.mp (own.revisions _ r entry)).2.symm

/-- Where every entry lies under its own key and the active revision is the top of the history, the two registers
of a scope tell the same. -/
theorem OwnKeys.covered {st : Store} (own : st.OwnKeys) (topped : st.Topped) (id : GoString) : st.Covered id where
  numbered _ _ := own.numbered
  bounded n r entry := by
    obtain ⟨act, _, active, greatest⟩ := topped id ⟨r, n, entry⟩
    exact ⟨act, active, greatest r ⟨n, entry⟩⟩

/-- Two entries of a store's history never share number and time. -/
theorem OwnKeys.separate {st : Store} (own : st.OwnKeys) (id : GoString) :
    Lww.Separate ConfigRevision.stamp (st.entries id) := by
  rintro r ⟨m, left⟩ s ⟨n, right⟩ same
  have numbers := (ConfigRevision.stamp_inj same).1
  rw [own.numbered left, own.numbered right] at numbers
  subst numbers
  exact Option.some.inj (left.symm.trans right)

section TwoWay
variable {a b a' b' : Store} (ownA : a.OwnKeys) (ownB : b.OwnKeys) (distinct : Distinct a b)
  (pull : Pulled a b a') (push : Pulled b a' b')

include distinct pull push in
/-- After a pull each way the records agree: both nodes have merged the same two, and last write wins does not ask
in which order. -/
theorem lookup_twoWay (k : RecordKey) : b'.lookup k = a'.lookup k := by
  refine Lww.IsNewest.exchange (fun r s left right same => ?_) (pull.records k) (push.records k)
  by_contra differs
  exact distinct.records k r s left right differs same

include ownA distinct pull push in
/-- So do the histories, number by number. -/
theorem revisions_twoWay (key : Key) : b'.configRevs.get key = a'.configRevs.get key := by
  refine Lww.IsNewest.exchange (fun r s left right same => ?_) (pull.revisions key) (push.revisions key)
  by_contra differs
  obtain rfl := ownA.revisions key r left
  exact distinct.revisions r.scope.ID r.revision r s left right differs same

include pull push in
/-- So do the drafts: the second pull brings back what the first one took over. -/
theorem drafts_twoWay (key : Key) : b'.configDrafts.get key = a'.configDrafts.get key := by
  rw [push.drafts, pull.drafts]
  cases b.configDrafts.get key <;> cases a.configDrafts.get key <;> rfl

include pull in
/-- A pull brings no revision that neither of the nodes had. -/
theorem entries_pulled {id : GoString} {r : ConfigRevision} (entry : r ∈ a'.entries id) :
    r ∈ a.entries id ∪ b.entries id := by
  obtain ⟨n, stored⟩ := entry
  have newest := pull.revisions (cfgRevKey id n)
  rw [show a'.configRevs.get (cfgRevKey id n) = some r from stored] at newest
  exact newest.1.imp (fun old => ⟨n, old⟩) (fun new => ⟨n, new⟩)

include ownA ownB pull in
/-- After the pull every entry of either history is reached by one of its number. -/
theorem entries_reached {id : GoString} {r : ConfigRevision} (entry : r ∈ a.entries id ∪ b.entries id) :
    ∃ s ∈ a'.entries id, r.stamp ≤ s.stamp := by
  obtain ⟨n, number, member⟩ : ∃ n, r.revision = n ∧
      r ∈ {r | a.configRevs.get (cfgRevKey id n) = some r} ∪ {r | b.configRevs.get (cfgRevKey id n) = some r} := by
    rcases entry with ⟨n, stored⟩ | ⟨n, stored⟩
    · exact ⟨n, ownA.numbered stored, Or.inl stored⟩
    · exact ⟨n, ownB.numbered stored, Or.inr stored⟩
  have newest := pull.revisions (cfgRevKey id n)
  obtain ⟨s, stored⟩ := Option.isSome_iff_exists.mp (newest.isSome member)
  have entry : a'.historyOf id n = some s := stored
  have own := (pull.ownKeys ownA ownB).numbered entry
  rw [stored] at newest
  exact ⟨s, ⟨n, stored⟩, ConfigRevision.stamp_le_iff.mpr (Or.inr ⟨number.trans own.symm, newest.2 r member⟩)⟩

theorem historyOf_eq_none {st : Store} {id : GoString} (bare : st.entries id = ∅) (n : Int) :
    st.historyOf id n = none := by
  cases stored : st.historyOf id n with
  | none => rfl
  | some r => exact absurd ⟨n, stored⟩ (Set.eq_empty_iff_forall_notMem.mp bare r)

include pull in
/-- A node without a history of the scope has that of the other one afterwards. -/
theorem entries_of_bare_left {id : GoString} (bare : a.entries id = ∅) : a'.entries id = b.entries id := by
  have same (n : Int) : a'.historyOf id n = b.historyOf id n := by
    have newest := pull.revisions (cfgRevKey id n)
    have absent : a.configRevs.get (cfgRevKey id n) = none := historyOf_eq_none bare n
    simp only [absent, reduceCtorEq, Set.ofPred_false, Set.empty_union] at newest
    exact newest.eq_of_self
  simp only [entries, same]

include pull in
theorem entries_of_bare_right {id : GoString} (bare : b.entries id = ∅) : a'.entries id = a.entries id := by
  have same (n : Int) : a'.historyOf id n = a.historyOf id n := by
    have newest := pull.revisions (cfgRevKey id n)
    have absent : b.configRevs.get (cfgRevKey id n) = none := historyOf_eq_none bare n
    simp only [absent, reduceCtorEq, Set.ofPred_false, Set.union_empty] at newest
    exact newest.eq_of_self
  simp only [entries, same]

include ownA ownB distinct in
/-- Revisions of either node that share a stamp are the same revision. -/
theorem separate_both (id : GoString) :
    Lww.Separate ConfigRevision.stamp (a.entries id ∪ b.entries id) := by
  have across {r s : ConfigRevision} (left : r ∈ a.entries id) (right : s ∈ b.entries id)
      (same : r.stamp = s.stamp) : r = s := by
    obtain ⟨m, stored⟩ := left
    obtain ⟨n, stored'⟩ := right
    obtain ⟨numbers, times⟩ := ConfigRevision.stamp_inj same
    rw [ownA.numbered stored, ownB.numbered stored'] at numbers
    subst numbers
    by_contra differs
    exact distinct.revisions id m r s stored stored' differs times
  rintro r (left | left) s (right | right) same
  · exact ownA.separate id r left s right same
  · exact across left right same
  · exact (across right left same.symm).symm
  · exact ownB.separate id r left s right same

/-- The active revision after a merge of a history with the top `top`. -/
theorem active_eq_top_iff {E : Set ConfigRevision} {top : ConfigRevision} {before after : Option ConfigRevision}
    (member : top ∈ E) (greatest : ∀ r ∈ E, r.stamp ≤ top.stamp) (separate : Lww.Separate ConfigRevision.stamp E)
    (newest : Lww.IsNewest ConfigRevision.stamp ({r | before = some r} ∪ E) after)
    (stays : ∀ r, before = some r → (∀ s ∈ E, s.stamp ≤ r.stamp) → after = some r) :
    after = some top ↔ ∀ r, before = some r → r = top ∨ r.stamp < top.stamp := by
  constructor
  · intro same r present
    by_cases less : r.stamp < top.stamp
    · exact Or.inr less
    · have kept := stays r present fun s inside => (greatest s inside).trans (not_lt.mp less)
      exact Or.inl (Option.some.inj (kept.symm.trans same))
  · intro smaller
    obtain ⟨act, present⟩ := Option.isSome_iff_exists.mp (newest.isSome (Or.inr member))
    rw [present] at newest ⊢
    have reaches := newest.2 top (Or.inr member)
    rcases newest.1 with old | entry
    · rcases smaller act old with same | less
      · rw [same]
      · exact absurd reaches (not_le.mpr less)
    · exact congrArg some (separate act entry top member (le_antisymm (greatest act entry) reaches))

/-- An active revision without a history is also active on the other node, or a later one with a
history is. -/
def BackedAt (a b : Store) (id : GoString) : Prop :=
  ∀ act, a.activeOf id = some act → a.entries id = ∅ →
    ∃ other, b.activeOf id = some other ∧
      (act = other ∨ act.stamp < other.stamp ∧ (b.entries id).Nonempty)

/-- Where neither node has a history, nothing moves an active revision, so both must have had the same one. -/
theorem backedAt_iff_of_empty {a b : Store} {id : GoString} (bare : a.entries id = ∅) (bare' : b.entries id = ∅) :
    a.BackedAt b id ↔ ∀ act, a.activeOf id = some act → b.activeOf id = some act := by
  constructor
  · intro backed act active
    obtain ⟨other, present, same | ⟨_, nonempty⟩⟩ := backed act active bare
    · rw [same, present]
    · exact absurd bare' nonempty.ne_empty
  · intro same act active _
    exact ⟨act, same act active, Or.inl rfl⟩

/-- Where only the other node has a history, its top replaces an active revision exactly when it is later. -/
theorem backedAt_iff_of_top {a b : Store} {id : GoString} {top : ConfigRevision} (bare : a.entries id = ∅)
    (nonempty : (b.entries id).Nonempty) (active : b.activeOf id = some top) :
    a.BackedAt b id ↔ ∀ act, a.activeOf id = some act → act = top ∨ act.stamp < top.stamp := by
  constructor
  · intro backed act present
    obtain ⟨other, active', either⟩ := backed act present bare
    obtain rfl := Option.some.inj (active.symm.trans active')
    exact either.imp_right And.left
  · intro smaller act present _
    exact ⟨top, active, (smaller act present).imp_right fun less => ⟨less, nonempty⟩⟩

theorem backedAt_of_nonempty {a b : Store} {id : GoString} (nonempty : (a.entries id).Nonempty) : a.BackedAt b id :=
  fun _ _ bare => absurd bare nonempty.ne_empty

include ownA ownB distinct pull push in
/-- The active revisions agree exactly when each of them is backed by a history that the pulls compare it with. -/
theorem active_twoWay_iff (toppedA : a.Topped) (toppedB : b.Topped) (id : GoString) :
    b'.activeOf id = a'.activeOf id ↔ a.BackedAt b id ∧ b.BackedAt a id := by
  have newestA := pull.active id (ownA.covered toppedA id)
  have newestB := push.active id (ownB.covered toppedB id)
  rcases Set.eq_empty_or_nonempty (a.entries id) with bareA | fullA <;>
    rcases Set.eq_empty_or_nonempty (b.entries id) with bareB | fullB
  · -- nothing is merged into either node
    rw [bareB, Set.union_empty] at newestA
    rw [entries_of_bare_left pull bareA, bareB, Set.union_empty] at newestB
    rw [newestA.eq_of_self, newestB.eq_of_self, backedAt_iff_of_empty bareA bareB, backedAt_iff_of_empty bareB bareA]
    constructor
    · intro same
      exact ⟨fun act present => same.trans present, fun act present => same.symm.trans present⟩
    · intro ⟨left, right⟩
      cases active : a.activeOf id with
      | some act => exact left act active
      | none =>
        cases active' : b.activeOf id with
        | none => rfl
        | some act => cases active.symm.trans (right act active')
  · -- A takes over the history of B, which keeps its top
    obtain ⟨top, member, active, greatest⟩ := toppedB id fullB
    have sameEntries := entries_of_bare_left pull bareA
    have staysB := push.stays id
    rw [sameEntries] at newestB staysB
    have keeps := (active_eq_top_iff member greatest (ownB.separate id) newestB staysB).mpr
      fun r present => Or.inl (Option.some.inj (present.symm.trans active))
    have takes := active_eq_top_iff member greatest (ownB.separate id) newestA (pull.stays id)
    rw [keeps, eq_comm, takes, ← backedAt_iff_of_top bareA fullB active]
    exact ⟨fun backed => ⟨backed, backedAt_of_nonempty fullB⟩, And.left⟩
  · -- B takes over the history of A, which keeps its top
    obtain ⟨top, member, active, greatest⟩ := toppedA id fullA
    have staysB := push.stays id
    rw [entries_of_bare_right pull bareB] at newestB staysB
    rw [bareB, Set.union_empty] at newestA
    have takes := active_eq_top_iff member greatest (ownA.separate id) newestB staysB
    rw [newestA.eq_of_self, active, takes, ← backedAt_iff_of_top bareB fullA active]
    exact ⟨fun backed => ⟨backedAt_of_nonempty fullA, backed⟩, And.right⟩
  · -- the greatest entry of the two histories becomes active on both
    obtain ⟨topA, memberA, activeA, greatestA⟩ := toppedA id fullA
    obtain ⟨topB, memberB, activeB, _⟩ := toppedB id fullB
    have left : Lww.IsNewest ConfigRevision.stamp (a.entries id ∪ b.entries id) (a'.activeOf id) := by
      refine newestA.widen ?_ fun r entry => ?_
      · rintro r (old | entry)
        · exact Or.inl (Option.some.inj (activeA.symm.trans old) ▸ memberA)
        · exact Or.inr entry
      · rcases entry with entry | entry
        · exact ⟨topA, Or.inl activeA, greatestA r entry⟩
        · exact ⟨r, Or.inr entry, le_refl _⟩
    have right : Lww.IsNewest ConfigRevision.stamp (a.entries id ∪ b.entries id) (b'.activeOf id) := by
      refine newestB.widen ?_ fun r entry => ?_
      · rintro r (old | entry)
        · exact Or.inr (Option.some.inj (activeB.symm.trans old) ▸ memberB)
        · exact entries_pulled pull entry
      · obtain ⟨s, reached, le⟩ := entries_reached ownA ownB pull entry
        exact ⟨s, Or.inr reached, le⟩
    have same := right.unique (separate_both ownA ownB distinct id) left
    exact ⟨fun _ => ⟨backedAt_of_nonempty fullA, backedAt_of_nonempty fullB⟩, fun _ => same⟩

end TwoWay

/-- Every key of `st` is present in `st'`. -/
structure Kept (st st' : Store) : Prop where
  records : ∀ k, (st.lookup k).isSome → (st'.lookup k).isSome
  revisions : ∀ key, (st.configRevs.get key).isSome → (st'.configRevs.get key).isSome
  active : ∀ key, (st.configActive.get key).isSome → (st'.configActive.get key).isSome
  drafts : ∀ key, (st.configDrafts.get key).isSome → (st'.configDrafts.get key).isSome

theorem Kept.congr {st a b : Store} (kept : Kept st a) (records : ∀ k, b.lookup k = a.lookup k)
    (revisions : b.configRevs = a.configRevs) (active : b.configActive = a.configActive)
    (drafts : b.configDrafts = a.configDrafts) : Kept st b where
  records k present := by rw [records]; exact kept.records k present
  revisions key present := by rw [revisions]; exact kept.revisions key present
  active key present := by rw [active]; exact kept.active key present
  drafts key present := by rw [drafts]; exact kept.drafts key present

/-- What a pull finds on either side it leaves. -/
theorem Pulled.kept {a b a' : Store} (pull : Pulled a b a') (ownA : a.OwnKeys) (toppedA : a.Topped) : Kept a a' where
  records k present := by
    obtain ⟨r, stored⟩ := Option.isSome_iff_exists.mp present
    exact (pull.records k).isSome (Or.inl stored)
  revisions key present := by
    obtain ⟨r, stored⟩ := Option.isSome_iff_exists.mp present
    exact (pull.revisions key).isSome (Or.inl stored)
  active key present := by
    obtain ⟨r, stored⟩ := Option.isSome_iff_exists.mp present
    obtain rfl := ownA.active key r stored
    exact (pull.active r.scope.ID (ownA.covered toppedA _)).isSome (Or.inl stored)
  drafts key present := by
    rw [pull.drafts, Option.isSome_or, present, Bool.or_true]

/-- The two nodes `a'` and `b'` hold the same replicated data, and every key of `a` and `b`. -/
structure Agree (a b a' b' : Store) : Prop where
  records : SameRecords a' b'
  revisions : a'.configRevs = b'.configRevs
  active : a'.configActive = b'.configActive
  drafts : a'.configDrafts = b'.configDrafts
  kept : ∀ st ∈ [a, b], Kept st a' ∧ Kept st b'

section TwoWay
variable {a b a' b' : Store} (ownA : a.OwnKeys) (ownB : b.OwnKeys) (distinct : Distinct a b)
  (pull : Pulled a b a') (push : Pulled b a' b')

/-- Under their own keys the active revisions are the same once they are scope by scope. -/
theorem configActive_eq_iff (ownA' : a'.OwnKeys) (ownB' : b'.OwnKeys) :
    a'.configActive = b'.configActive ↔ ∀ id, b'.activeOf id = a'.activeOf id := by
  constructor
  · intro same id
    rw [activeOf, activeOf, same]
  · intro same
    apply Bucket.ext
    intro key
    cases left : b'.configActive.get key with
    | some r =>
      obtain rfl := ownB'.active key r left
      exact (same r.scope.ID).symm.trans left
    | none =>
      cases right : a'.configActive.get key with
      | none => rfl
      | some r =>
        obtain rfl := ownA'.active key r right
        cases left.symm.trans ((same r.scope.ID).trans right)

include ownA ownB distinct pull push in
/-- Everything but the active revisions agrees anyway. -/
theorem agree_iff (toppedA : a.Topped) (toppedB : b.Topped) :
    Agree a b a' b' ↔ ∀ id, a.BackedAt b id ∧ b.BackedAt a id := by
  have ownA' := pull.ownKeys ownA ownB
  have ownB' := push.ownKeys ownB ownA'
  have active_iff := active_twoWay_iff ownA ownB distinct pull push toppedA toppedB
  constructor
  · intro agree id
    exact (active_iff id).mp ((configActive_eq_iff ownA' ownB').mp agree.active id)
  · intro backed
    have records := lookup_twoWay distinct pull push
    have revisions : b'.configRevs = a'.configRevs := Bucket.ext (revisions_twoWay ownA distinct pull push)
    have drafts : b'.configDrafts = a'.configDrafts := Bucket.ext (drafts_twoWay pull push)
    have active := (configActive_eq_iff ownA' ownB').mpr fun id => (active_iff id).mpr (backed id)
    have keptA := pull.kept ownA toppedA
    have keptB := push.kept ownB toppedB
    refine ⟨sameRecords_of_lookup fun k => (records k).symm, revisions.symm, active, drafts.symm, fun st member => ?_⟩
    rcases List.mem_pair.mp member with rfl | rfl
    · exact ⟨keptA, keptA.congr records revisions active.symm drafts⟩
    · exact ⟨keptB.congr (fun k => (records k).symm) revisions.symm active drafts.symm, keptB⟩

end TwoWay

/-- A pulls a snapshot of B, then B one of A. -/
def twoWay (a b : Store) : Store × Store :=
  let a' := (a.pullSnapshot b.snapshot).1
  (a', (b.pullSnapshot a'.snapshot).1)

/-- After a pull each way both nodes hold the same replicated data, and nothing is lost. -/
def Equalised (a b : Store) : Prop :=
  Agree a b (twoWay a b).1 (twoWay a b).2

/-- The second pull reads the node that the first one has changed. -/
theorem twoWay_pulled {a b : Store} (ownA : a.OwnKeys) (ownB : b.OwnKeys) :
    Pulled a b (twoWay a b).1 ∧ Pulled b (twoWay a b).1 (twoWay a b).2 := by
  have pull := pulled a ownB
  have push := pulled b (pull.ownKeys ownA ownB)
  unfold twoWay
  dsimp only
  exact ⟨pull, push⟩

/-- Two nodes that pull from each other end up equal exactly if every active revision without a
history is active on the other node too, or outdone by a later one with a history. -/
theorem equalised_iff {a b : Store} (ownA : a.OwnKeys) (ownB : b.OwnKeys) (toppedA : a.Topped)
    (toppedB : b.Topped) (distinct : Distinct a b) :
    Equalised a b ↔ ∀ id, a.BackedAt b id ∧ b.BackedAt a id := by
  obtain ⟨pull, push⟩ := twoWay_pulled ownA ownB
  exact agree_iff ownA ownB distinct pull push toppedA toppedB

/-- A publication stores the revision under the keys made of its own scope and number. -/
theorem OwnKeys.withPublished {st : Store} (own : st.OwnKeys) {id : GoString} {rev : ConfigRevision}
    (fitsActive : KeyFits (cfgActiveKey id)) (fits : KeyFits (cfgRevKey id rev.revision))
    (named : rev.json.scope.ID = id) : (st.withPublished id rev fitsActive fits).OwnKeys where
  records := own.records
  revisions key r stored := by
    rw [Store.withPublished, Bucket.get_insert, ConfigRevision.roundTrip_eq] at stored
    split at stored
    next here =>
      obtain rfl := Option.some.inj stored
      rw [here, ConfigRevision.revKey, named]
      rfl
    next => exact own.revisions key r stored
  active key r stored := by
    rw [Store.withPublished, Bucket.get_insert, ConfigRevision.roundTrip_eq] at stored
    split at stored
    next here =>
      obtain rfl := Option.some.inj stored
      rw [here, ConfigRevision.activeKey, named]
    next => exact own.active key r stored
  drafts key d stored := by
    rw [Store.withPublished, Bucket.get_delete] at stored
    split at stored
    next => cases stored
    next => exact own.drafts key d stored

/-- Deleting a scope leaves what is stored under the keys of its own fields. -/
theorem OwnKeys.deleteConfigScopeRaw {st : Store} (own : st.OwnKeys) (scope : ConfigScope) :
    (st.deleteConfigScopeRaw scope).OwnKeys where
  records := own.records
  revisions key r stored := by
    rw [Store.deleteConfigScopeRaw, Bucket.get_deletePrefix] at stored
    split at stored
    next => cases stored
    next => exact own.revisions key r stored
  active key r stored := by
    rw [Store.deleteConfigScopeRaw, Bucket.get_delete] at stored
    split at stored
    next => cases stored
    next => exact own.active key r stored
  drafts key d stored := by
    rw [Store.deleteConfigScopeRaw, Bucket.get_delete] at stored
    split at stored
    next => cases stored
    next => exact own.drafts key d stored

theorem entries_eq_empty {st : Store} {id : GoString} (none : ∀ n, st.historyOf id n = none) : st.entries id = ∅ := by
  refine Set.eq_empty_iff_forall_notMem.mpr fun r entry => ?_
  obtain ⟨n, stored⟩ := entry
  cases stored.symm.trans (none n)

section Single
variable {rev : ConfigRevision} (clean : rev.json = rev) (fits : KeyFits rev.revKey)
include clean

theorem ownKeys_single : (empty.withRevision rev fits).OwnKeys where
  records := ownKeys_empty.records
  revisions key r stored := by
    rw [withRevision, Bucket.get_insert, ConfigRevision.roundTrip_eq, clean] at stored
    split at stored
    next here => rwa [← Option.some.inj stored]
    next => exact ownKeys_empty.revisions key r stored
  active key r stored := by
    rw [withRevision, Bucket.get_mergePut _ clean] at stored
    split at stored
    next here =>
      rw [show empty.configActive.get key = none from Bucket.get_empty key] at stored
      obtain rfl := Option.some.inj stored
      exact here.1
    next => exact ownKeys_empty.active key r stored
  drafts := ownKeys_empty.drafts

/-- A node with one revision has a history in its scope, of that revision. -/
theorem mem_entries_single {id : GoString} {r : ConfigRevision} :
    r ∈ (empty.withRevision rev fits).entries id ↔ id = rev.scope.ID ∧ r = rev := by
  simp only [entries, historyOf_withRevision empty clean fits, Set.mem_ofPred_eq]
  have absent (j : GoString) (n : Int) : empty.historyOf j n = none := Bucket.get_empty _
  by_cases here : id = rev.scope.ID
  · simp [here, recorded, absent, eq_comm (a := r)]
  · simp [here, absent]

theorem topped_single : (empty.withRevision rev fits).Topped := by
  rintro id ⟨r, entry⟩
  obtain ⟨here, _⟩ := (mem_entries_single clean fits).mp entry
  have fresh : empty.activeOf id = none := Bucket.get_empty _
  refine ⟨rev, (mem_entries_single clean fits).mpr ⟨here, rfl⟩, ?_, fun s entry' => ?_⟩
  · rw [activeOf_withRevision empty clean, if_pos here, fresh, Lww.merge]
  · rw [((mem_entries_single clean fits).mp entry').2]

/-- Such a node is backed by any other: its active revision is in its history. -/
theorem backedAt_single (b : Store) (id : GoString) : (empty.withRevision rev fits).BackedAt b id := by
  by_cases here : id = rev.scope.ID
  · exact backedAt_of_nonempty ⟨rev, (mem_entries_single clean fits).mpr ⟨here, rfl⟩⟩
  · intro act active _
    have absent : empty.activeOf id = none := Bucket.get_empty _
    rw [activeOf_withRevision empty clean, if_neg here, absent] at active
    cases active

end Single

/-- Two operators published the first global revision, one on each node. -/
theorem equalised_two :
    Equalised
      (empty.withRevision { scope := { kind := "global" }, revision := 1, vars := ∅, author := "a", updatedAt := 1 }
        (by decide))
      (empty.withRevision { scope := { kind := "global" }, revision := 1, vars := ∅, author := "b", updatedAt := 2 }
        (by decide)) := by
  refine (equalised_iff (ownKeys_single (by decide) _) (ownKeys_single (by decide) _) (topped_single (by decide) _)
    (topped_single (by decide) _) ⟨?_, ?_⟩).mpr fun id => ?_
  · intro k r s stored
    cases (lookup_empty k).symm.trans stored
  · intro id n r s left right _
    rw [((mem_entries_single (by decide) _).mp ⟨n, left⟩).2, ((mem_entries_single (by decide) _).mp ⟨n, right⟩).2]
    decide
  · exact ⟨backedAt_single (by decide) _ _ id, backedAt_single (by decide) _ _ id⟩

/-- A node that deleted the scope of service `a` has lost the history of service `a/b`, and does not
send what is active there to a fresh node. -/
theorem not_equalised :
    ¬∃ sha256, ∀ steps steps' : List ConfigStep,
      let a := (Machine.exec (configStep sha256) empty steps).1
      let b := (Machine.exec (configStep sha256) empty steps').1
      a.Topped → b.Topped → Distinct a b → Equalised a b := by
  rintro ⟨sha256, equalises⟩
  let inner : ConfigScope := { kind := "service", service := "a/b" }
  let outer : ConfigScope := { kind := "service", service := "a" }
  have accepted : inner.Accepted := by decide
  have fits : KeyFits (cfgRevKey inner.ID 1) := by decide
  have fresh : empty.activeOf inner.ID = none := Bucket.get_empty _
  obtain ⟨rev, fitsActive, fits, _, scope, _, published⟩ :=
    step_first_published sha256 1 [] "u" accepted (by decide : Marshals ∅) fits fresh
  let a : Store := (empty.withPublished inner.ID rev fitsActive fits).deleteConfigScopeRaw outer
  have reached : (Machine.exec (configStep sha256) empty
      [.applyConfig 1 inner ∅ [] "u", .deleteConfigScope outer]).1 = a := by
    rw [Machine.exec, published]
    rfl
  have bareEmpty (id : GoString) : empty.entries id = ∅ := entries_eq_empty fun n => Bucket.get_empty _
  have bare (id : GoString) : a.entries id = ∅ := by
    refine entries_eq_empty fun n => ?_
    rw [historyOf_deleteConfigScopeRaw, historyOf_withPublished]
    split
    next => rfl
    next outside =>
      have other : id ≠ inner.ID := by
        rintro rfl
        exact outside (Or.inr (by decide))
      rw [if_neg other]
      exact Bucket.get_empty _
  have toppedA : a.Topped := fun id nonempty => absurd (bare id) nonempty.ne_empty
  have toppedEmpty : empty.Topped := fun id nonempty => absurd (bareEmpty id) nonempty.ne_empty
  have distinct : Distinct a empty := {
    records := fun k r s _ stored => by cases (lookup_empty k).symm.trans stored
    revisions := fun id n r s _ stored => by cases (Bucket.get_empty _).symm.trans stored }
  have equalised : Equalised a empty := by
    have run := equalises [.applyConfig 1 inner ∅ [] "u", .deleteConfigScope outer] []
    rw [reached] at run
    exact run toppedA toppedEmpty distinct
  have named : rev.json.scope.ID = inner.ID := by
    show rev.scope.json.ID = inner.ID
    rw [scope]
    decide
  have ownA : a.OwnKeys := (ownKeys_empty.withPublished fitsActive fits named).deleteConfigScopeRaw outer
  obtain ⟨pull, push⟩ := twoWay_pulled ownA ownKeys_empty
  have backed := (agree_iff ownA ownKeys_empty distinct pull push toppedA toppedEmpty).mp equalised inner.ID
  have active : a.activeOf inner.ID = some rev.json := by
    have differs : inner.ID ≠ outer.ID := by decide
    rw [activeOf_deleteConfigScopeRaw, if_neg differs, activeOf_withPublished, if_pos rfl]
  obtain ⟨other, present, _⟩ := backed.1 _ active (bare inner.ID)
  cases fresh.symm.trans present

end Store
end Discovery
