import Discovery.Store.Node
import Discovery.Store.Ownership

namespace Discovery
open Kv Machine

/-- The record as a rename of `src` is to leave it. -/
def Instance.rehomed (i : Instance) (now : Time) (src dst : GoString) : Instance :=
  if i.serviceName = src then i.moved now dst else i

/-- Where a rename of `src` is to leave the record found at `key`. -/
def Instance.home (i : Instance) (src dst : GoString) (key : Key) : Key :=
  if i.serviceName = src then instanceKey dst i.id else key

theorem Instance.home_moved {i : Instance} {src : GoString} (mine : i.serviceName = src)
    (dst : GoString) (key : Key) : i.home src dst key = instanceKey dst i.id := if_pos mine

theorem Instance.home_kept {i : Instance} {src : GoString} (other : i.serviceName ≠ src)
    (dst : GoString) (key : Key) : i.home src dst key = key := if_neg other

theorem instanceKey_inj_id {service id id' : GoString}
    (same : instanceKey service id = instanceKey service id') : id = id' :=
  (List.cons.inj (List.append_cancel_left same)).2

namespace Store

/-- Exactly one service has moved: the record of `src` went to `dst`, each of its instances to one
place of its own under `dst`, and everything else is as it was. -/
structure MovesOnly (st st' : Store) (now : Time) (src dst : GoString) : Prop where
  gone : st'.services.get src = none
  record : ∃ old, st.services.get src = some old ∧
    st'.services.get dst = some (old.renamed now dst)
  services : ∀ name, name ≠ src → name ≠ dst → st'.services.get name = st.services.get name
  kept : ∀ key i, st.instances.get key = some i →
    st'.instances.get (i.home src dst key) = some (i.rehomed now src dst)
  origin : ∀ key, (st'.instances.get key).isSome →
    ∃! old, ∃ i, st.instances.get old = some i ∧ i.home src dst old = key
  images : ∀ key j, st'.instances.get key = some j → j.serviceName = dst →
    ∃ old i, st.instances.get old = some i ∧ i.serviceName = src ∧ i.home src dst old = key
  unlisted : st'.listInstances src = []

/-- The records under `src/` are the ones of `src`, none is left under the name `dst`, and the new
key of each is free, outside `src/` and its own. -/
structure Separable (st : Store) (src dst : GoString) : Prop where
  valid : ValidUTF8 dst
  under_iff : ∀ key i, st.instances.get key = some i →
    (servicePrefix src <+: key ↔ i.serviceName = src)
  unused : ∀ key i, st.instances.get key = some i → i.serviceName ≠ dst
  free : ∀ key i, st.instances.get key = some i → i.serviceName = src →
    st.instances.get (instanceKey dst i.id) = none
  outside : ∀ key i, st.instances.get key = some i → i.serviceName = src →
    ¬servicePrefix src <+: instanceKey dst i.id
  distinct : ∀ key i key' i', st.instances.get key = some i → st.instances.get key' = some i' →
    i.serviceName = src → i'.serviceName = src → i.id = i'.id → key = key'

variable {st : Store} {now : Time} {src dst : GoString} {r : Outcome Service}

theorem moved_json {key : Key} {i : Instance} (present : st.instances.get key = some i)
    (valid : ValidUTF8 dst) : (i.moved now dst).json = i.moved now dst := by
  have clean : i.json = i := Bucket.clean present
  have moved : (i.moved now dst).json = { i.json with serviceName := jsonString dst, updatedAt := now } := rfl
  rw [moved, clean, show jsonString dst = dst from valid]
  rfl

theorem renamed_json {old : Service} (present : st.services.get src = some old)
    (valid : ValidUTF8 dst) : (old.renamed now dst).json = old.renamed now dst := by
  have clean : old.json = old := Bucket.clean present
  have renamed : (old.renamed now dst).json = { old.json with name := jsonString dst, updatedAt := now } := rfl
  rw [renamed, clean, show jsonString dst = dst from valid]
  rfl

/-- The new key of one of the service's records holds the record. -/
theorem Separable.get_moved (apart : Separable st src dst) (moves : st.Moves now src dst r) {key : Key}
    {i : Instance} (present : st.instances.get key = some i) (mine : i.serviceName = src) :
    r.store.instances.get (instanceKey dst i.id) = some (i.moved now dst) := by
  have listed : i ∈ st.listInstances src :=
    mem_listInstances.mpr ⟨key, present, (apart.under_iff key i present).mpr mine⟩
  rcases moves.get_instances (instanceKey dst i.id) with ⟨_, none⟩ | ⟨j, listed', same, value⟩
  · exact absurd rfl (none i listed)
  · obtain ⟨key', present', under⟩ := mem_listInstances.mp listed'
    have mine' : j.serviceName = src := (apart.under_iff key' j present').mp under
    have sameId : j.id = i.id := instanceKey_inj_id same
    obtain rfl := apart.distinct key' j key i present' present mine' mine sameId
    obtain rfl := Option.some.inj (present.symm.trans present')
    have free := apart.free key' i present mine
    rw [value, if_neg fun both => by simp [free] at both, moved_json present apart.valid]

/-- A record found after the move was there before, or is one of the service's under its new key. -/
theorem Separable.found (apart : Separable st src dst) (moves : st.Moves now src dst r) {key : Key}
    {j : Instance} (present : r.store.instances.get key = some j) :
    (st.instances.get key = some j ∧ j.serviceName ≠ src) ∨
      ∃ old i, st.instances.get old = some i ∧ i.serviceName = src ∧ instanceKey dst i.id = key := by
  rcases moves.get_instances key with ⟨same, _⟩ | ⟨i, listed, here, _⟩
  · rw [same] at present
    split at present
    · cases present
    next outside =>
      left
      refine ⟨present, fun mine => outside ⟨?_, Option.isSome_of_eq_some present⟩⟩
      exact (apart.under_iff key j present).mpr mine
  · obtain ⟨old, stored, under⟩ := mem_listInstances.mp listed
    exact Or.inr ⟨old, i, stored, (apart.under_iff old i stored).mp under, here⟩

/-- A record of another service is where it was. -/
theorem Separable.get_other (apart : Separable st src dst) (moves : st.Moves now src dst r) {key : Key}
    {i : Instance} (present : st.instances.get key = some i) (other : i.serviceName ≠ src) :
    r.store.instances.get key = some i := by
  rcases moves.get_instances key with ⟨same, _⟩ | ⟨j, listed, rfl, _⟩
  · rw [same, if_neg fun both => other ((apart.under_iff key i present).mp both.1), present]
  · obtain ⟨old, stored, under⟩ := mem_listInstances.mp listed
    have free := apart.free old j stored ((apart.under_iff old j stored).mp under)
    rw [free] at present
    cases present

theorem Separable.movesOnly (apart : Separable st src dst) (moves : st.Moves now src dst r) :
    MovesOnly st r.store now src dst where
  gone := by rw [moves.get_services, if_pos rfl]
  record := by
    have ⟨_, old, present, _, _, _, value⟩ := moves
    refine ⟨old, present, ?_⟩
    rw [moves.get_services, if_neg moves.ne, if_pos rfl, value, renamed_json present apart.valid]
  services name notSrc notDst := by rw [moves.get_services, if_neg notSrc, if_neg notDst]
  kept key i present := by
    by_cases mine : i.serviceName = src
    · rw [Instance.home_moved mine, Instance.rehomed, if_pos mine]
      exact apart.get_moved moves present mine
    · rw [Instance.home_kept mine, Instance.rehomed, if_neg mine]
      exact apart.get_other moves present mine
  origin key stored := by
    obtain ⟨j, present⟩ := Option.isSome_iff_exists.mp stored
    rcases apart.found moves present with ⟨before, other⟩ | ⟨old, i, before, mine, rfl⟩
    · refine ⟨key, ⟨j, before, Instance.home_kept other dst key⟩, ?_⟩
      rintro key' ⟨i', before', here⟩
      by_cases mine' : i'.serviceName = src
      · rw [Instance.home_moved mine'] at here
        have free := apart.free key' i' before' mine'
        rw [here, before] at free
        cases free
      · rwa [Instance.home_kept mine'] at here
    · refine ⟨old, ⟨i, before, Instance.home_moved mine dst old⟩, ?_⟩
      rintro key' ⟨i', before', here⟩
      by_cases mine' : i'.serviceName = src
      · rw [Instance.home_moved mine'] at here
        exact apart.distinct key' i' old i before' before mine' mine (instanceKey_inj_id here)
      · rw [Instance.home_kept mine'] at here
        have free := apart.free old i before mine
        rw [← here, before'] at free
        cases free
  images key j present named := by
    rcases apart.found moves present with ⟨before, _⟩ | ⟨old, i, before, mine, here⟩
    · exact absurd named (apart.unused key j before)
    · exact ⟨old, i, before, mine, (Instance.home_moved mine dst old).trans here⟩
  unlisted := by
    refine List.eq_nil_iff_forall_not_mem.mpr fun j listed => ?_
    obtain ⟨key, present, under⟩ := mem_listInstances.mp listed
    rcases apart.found moves present with ⟨before, other⟩ | ⟨old, i, before, mine, rfl⟩
    · exact other ((apart.under_iff key j before).mp under)
    · exact apart.outside old i before mine under

/-- Two records that end at one key are one. -/
theorem MovesOnly.unique {st' : Store} (only : MovesOnly st st' now src dst) {key key' : Key}
    {i i' : Instance} (present : st.instances.get key = some i)
    (present' : st.instances.get key' = some i') (same : i.home src dst key = i'.home src dst key') :
    key = key' := by
  have stored := Option.isSome_of_eq_some (only.kept key i present)
  obtain ⟨old, _, unique⟩ := only.origin _ stored
  exact (unique key ⟨i, present, rfl⟩).trans (unique key' ⟨i', present', same.symm⟩).symm

theorem MovesOnly.not_under {st' : Store} (only : MovesOnly st st' now src dst) {key : Key}
    (stored : (st'.instances.get key).isSome) : ¬servicePrefix src <+: key := by
  obtain ⟨j, present⟩ := Option.isSome_iff_exists.mp stored
  intro under
  have listed : j ∈ st'.listInstances src := mem_listInstances.mpr ⟨key, present, under⟩
  rw [only.unlisted] at listed
  cases listed

theorem MovesOnly.mine_of_under {st' : Store} (only : MovesOnly st st' now src dst) {key : Key}
    {i : Instance} (present : st.instances.get key = some i) (under : servicePrefix src <+: key) :
    i.serviceName = src := by
  by_contra other
  have stored := only.kept key i present
  rw [Instance.home_kept other] at stored
  exact only.not_under (Option.isSome_of_eq_some stored) under

/-- The scan visits every record of the service: one it misses would have to turn up as the copy of
another. -/
theorem MovesOnly.under_of_mine (only : MovesOnly st r.store now src dst)
    (moves : st.Moves now src dst r) {key : Key} {i : Instance}
    (present : st.instances.get key = some i) (mine : i.serviceName = src) :
    servicePrefix src <+: key := by
  by_contra outside
  have stored := only.kept key i present
  rw [Instance.home_moved mine] at stored
  rcases moves.get_instances (instanceKey dst i.id) with ⟨same, _⟩ | ⟨j, listed, here, _⟩
  · rw [same] at stored
    split at stored
    · cases stored
    · have renamed : (i.rehomed now src dst).serviceName ≠ src := by
        rw [Instance.rehomed, if_pos mine]
        exact moves.ne
      have ends : i.home src dst key = (i.rehomed now src dst).home src dst (instanceKey dst i.id) := by
        rw [Instance.home_kept renamed, Instance.home_moved mine]
      obtain rfl := only.unique present stored ends
      have same := Option.some.inj (present.symm.trans stored)
      exact renamed (same ▸ mine)
  · obtain ⟨key', present', under⟩ := mem_listInstances.mp listed
    have mine' := only.mine_of_under present' under
    have ends : i.home src dst key = j.home src dst key' := by
      rw [Instance.home_moved mine, Instance.home_moved mine', here]
    exact outside (only.unique present present' ends ▸ under)

theorem MovesOnly.separable (only : MovesOnly st r.store now src dst)
    (moves : st.Moves now src dst r) : Separable st src dst where
  valid := by
    obtain ⟨old, _, stored⟩ := only.record
    have ⟨_, old', _, _, _, _, value⟩ := moves
    rw [moves.get_services, if_neg moves.ne, if_pos rfl, value] at stored
    exact congrArg Service.name (Option.some.inj stored)
  under_iff key i present :=
    ⟨only.mine_of_under present, only.under_of_mine moves present⟩
  unused key i present := by
    intro named
    have other : i.serviceName ≠ src := fun mine => moves.ne (named.symm.trans mine)
    have stored := only.kept key i present
    rw [Instance.home_kept other, Instance.rehomed, if_neg other] at stored
    obtain ⟨old, j, before, mine, here⟩ := only.images key i stored named
    have ends : j.home src dst old = i.home src dst key := by rw [here, Instance.home_kept other]
    obtain rfl := only.unique before present ends
    obtain rfl := Option.some.inj (before.symm.trans present)
    exact other mine
  free key i present mine := by
    by_contra taken
    obtain ⟨j, before⟩ := Option.ne_none_iff_exists'.mp taken
    by_cases mine' : j.serviceName = src
    · -- the new key is itself one of the visited keys
      have under := only.under_of_mine moves before mine'
      have stored := only.kept key i present
      rw [Instance.home_moved mine] at stored
      exact only.not_under (Option.isSome_of_eq_some stored) under
    · have ends : i.home src dst key = j.home src dst (instanceKey dst i.id) := by
        rw [Instance.home_moved mine, Instance.home_kept mine']
      obtain rfl := only.unique present before ends
      obtain rfl := Option.some.inj (present.symm.trans before)
      exact mine' mine
  outside key i present mine := by
    have stored := only.kept key i present
    rw [Instance.home_moved mine] at stored
    exact only.not_under (Option.isSome_of_eq_some stored)
  distinct key i key' i' present present' mine mine' sameId := by
    have ends : i.home src dst key = i'.home src dst key' := by
      rw [Instance.home_moved mine, Instance.home_moved mine', sameId]
    exact only.unique present present' ends

/-- A rename to another name moves exactly one service where the service's records can be told from
all others by their keys, and one that fails does nothing. -/
theorem rename_moves_only_iff (st : Store) (now : Time) (oldName newName : GoString) :
    (∀ r, st.renameService now oldName newName = .ok r → trimSpace oldName ≠ trimSpace newName →
      (MovesOnly st r.store now (trimSpace oldName) (trimSpace newName) ↔
        Separable st (trimSpace oldName) (trimSpace newName))) ∧
    ∀ e, st.renameService now oldName newName = .error e →
      st.settle (st.renameService now oldName newName) = (st, []) := by
  constructor
  · intro r run differs
    obtain ⟨_, _, ⟨same, _⟩ | ⟨_, moves⟩⟩ := renameService_eq_ok.mp run
    · exact absurd same differs
    · exact ⟨fun only => only.separable moves, fun apart => apart.movesOnly moves⟩
  · intro e failed
    rw [failed]
    rfl

/-- A node on which an instance of "a" is registered, and one of another service. -/
def registeredWith (other : GoString) : List NodeStep :=
  [.catalog (.putInstance 1 { id := "i", serviceName := "a", address := "10.0.0.1" }),
    .catalog (.putInstance 2 { id := "j", serviceName := other, address := "10.0.0.1" })]

theorem separable_other : Separable (exec nodeStep empty (registeredWith "b")).1 "a" "c" := by
  have only {key : Key} {i : Instance} (present : (exec nodeStep empty (registeredWith "b")).1.instances.get key = some i) :
      key = "a/i" ∧ i.serviceName = "a" ∧ i.id = "i" ∨ key = "b/j" ∧ i.serviceName = "b" := by
    have member := Bucket.mem_toList.mpr present
    have all : ∀ e ∈ (exec nodeStep empty (registeredWith "b")).1.instances.toList,
        e.1 = "a/i" ∧ e.2.serviceName = "a" ∧ e.2.id = "i" ∨ e.1 = "b/j" ∧ e.2.serviceName = "b" := by decide
    exact all (key, i) member
  have mine {key : Key} {i : Instance} (present : (exec nodeStep empty (registeredWith "b")).1.instances.get key = some i)
      (named : i.serviceName = "a") : key = "a/i" ∧ i.id = "i" := by
    obtain ⟨here, _, id⟩ | ⟨_, name⟩ := only present
    · exact ⟨here, id⟩
    · exact absurd (named.symm.trans name) (by decide)
  constructor
  · decide
  · intro key i present
    obtain ⟨rfl, name, _⟩ | ⟨rfl, name⟩ := only present
    · exact iff_of_true (by decide) name
    · exact iff_of_false (by decide) (by rw [name]; decide)
  · intro key i present
    obtain ⟨_, name, _⟩ | ⟨_, name⟩ := only present
    · rw [name]
      decide
    · rw [name]
      decide
  · intro key i present named
    rw [(mine present named).2]
    decide
  · intro key i present named
    rw [(mine present named).2]
    decide
  · intro key i key' i' present present' named named' _
    exact (mine present named).1.trans (mine present' named').1.symm

/-- The rename of "a" leaves "b" where it was. -/
theorem rename_moves_only_other :
    ∃ r, (exec nodeStep empty (registeredWith "b")).1.renameService 3 "a" "c" = .ok r ∧
      MovesOnly (exec nodeStep empty (registeredWith "b")).1 r.store 3 "a" "c" := by
  have succeeds : ((exec nodeStep empty (registeredWith "b")).1.renameService 3 "a" "c").isOk = true := by
    decide
  cases run : (exec nodeStep empty (registeredWith "b")).1.renameService 3 "a" "c" with
  | error e => rw [run] at succeeds; cases succeeds
  | ok r =>
    have separates := (rename_moves_only_iff _ 3 "a" "c").1 r run (by decide)
    exact ⟨r, rfl, separates.mpr separable_other⟩

/-- The instance of "a/b" is moved along with those of "a". -/
theorem rename_moves_another :
    ¬∀ (steps : List NodeStep) (now : Time) (oldName newName : GoString) (r : Outcome Service),
      (exec nodeStep empty steps).1.renameService now oldName newName = .ok r →
        trimSpace oldName ≠ trimSpace newName →
          MovesOnly (exec nodeStep empty steps).1 r.store now (trimSpace oldName) (trimSpace newName) := by
  intro moves
  have succeeds : ((exec nodeStep empty (registeredWith "a/b")).1.renameService 3 "a" "c").isOk = true := by
    decide
  cases run : (exec nodeStep empty (registeredWith "a/b")).1.renameService 3 "a" "c" with
  | error e => rw [run] at succeeds; cases succeeds
  | ok r =>
    have only := moves (registeredWith "a/b") 3 "a" "c" r run (by decide)
    have stored : ((exec nodeStep empty (registeredWith "a/b")).1.instances.get "a/b/j").map
        (·.serviceName) = some "a/b" := by decide
    obtain ⟨i, present, name⟩ := Option.map_eq_some_iff.mp stored
    have mine : i.serviceName = trimSpace "a" := only.mine_of_under present (by decide)
    exact absurd (name.symm.trans mine) (by decide)

end Store
end Discovery
