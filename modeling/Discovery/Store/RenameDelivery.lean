import Discovery.Store.Revival

namespace Discovery
open Kv

/-- The events a rename may emit. -/
def Event.OfRename : Event → Prop
  | .serviceDeleted _ | .serviceUpserted _ | .instanceUpserted _ => True
  | _ => False

namespace Store

/-- Whatever the order in which a peer receives the events, it lists no id under both names on the
way, and nothing under the old name at the end. -/
def OneName (peer : Store) (old new : GoString) (events : List Event) : Prop :=
  ∀ order, order.Perm events →
    (∀ seen, seen <+: order → ∀ i ∈ (peer.applyAll seen).listInstances old,
      ∀ j ∈ (peer.applyAll seen).listInstances new, i.id ≠ j.id) ∧
    (peer.applyAll order).listInstances old = []

theorem ofRename {st : Store} {now : Time} {oldName newName : GoString} {r : Outcome Service}
    (run : st.renameService now oldName newName = .ok r) : ∀ ev ∈ r.events, Event.OfRename ev := by
  obtain ⟨_, _, ⟨_, _, _, rfl⟩ | ⟨_, _, _, _, _, _, _, rfl⟩⟩ := renameService_eq_ok.mp run
  · exact fun ev member => absurd member List.not_mem_nil
  · intro ev member
    rcases List.mem_cons.mp member with rfl | rest
    · trivial
    · rcases List.mem_cons.mp rest with rfl | moved
      · trivial
      · obtain ⟨i, _, rfl⟩ := List.mem_map.mp moved
        trivial

/-- A rename that moves no instance emits events about services only. -/
theorem no_instance_event {st : Store} {now : Time} {oldName newName : GoString} {r : Outcome Service}
    (run : st.renameService now oldName newName = .ok r)
    (none : st.listInstances (trimSpace oldName) = []) (p : Instance) :
    .instanceUpserted p ∉ r.events := by
  obtain ⟨_, _, ⟨_, _, _, rfl⟩ | ⟨_, _, _, _, _, _, _, rfl⟩⟩ := renameService_eq_ok.mp run
  · exact List.not_mem_nil
  · simp [movedInstances, none]

/-- None of the events removes an instance: a peer's `service.deleted` leaves the instances of the
service where they are. -/
theorem present_ofRename {st : Store} {key : Key} (present : st.lookup ⟨.inst, key⟩ ≠ none)
    {evs : List Event} (renames : ∀ ev ∈ evs, Event.OfRename ev) :
    (st.applyAll evs).lookup ⟨.inst, key⟩ ≠ none := by
  induction evs generalizing st with
  | nil => exact present
  | cons ev evs ih =>
    obtain ⟨first, rest⟩ := List.forall_mem_cons.mp renames
    refine ih ?_ rest
    cases ev with
    | serviceDeleted name => exact present
    | serviceUpserted p => exact present_apply present rfl
    | instanceUpserted p => exact present_apply present rfl
    | _ => exact first.elim

theorem instances_of_services {st : Store} {evs : List Event}
    (services : ∀ ev ∈ evs, Event.OfRename ev ∧ ∀ p, ev ≠ .instanceUpserted p) :
    (st.applyAll evs).instances = st.instances := by
  induction evs generalizing st with
  | nil => rfl
  | cons ev evs ih =>
    obtain ⟨⟨first, other⟩, rest⟩ := List.forall_mem_cons.mp services
    rw [applyAll_cons, ih rest]
    cases ev with
    | serviceDeleted name => rfl
    | serviceUpserted p => rw [apply_serviceUpserted]
    | instanceUpserted p => exact absurd rfl (other p)
    | _ => exact first.elim

/-- Peers serve the instances of a renamed service under one name exactly if it has none. -/
theorem rename_one_name_iff {st : Store} {now : Time} {oldName newName : GoString}
    {r : Outcome Service} (run : st.renameService now oldName newName = .ok r) :
    st.OneName (trimSpace oldName) (trimSpace newName) r.events ↔
      st.listInstances (trimSpace oldName) = [] := by
  constructor
  · intro oneName
    have gone := (oneName r.events (List.Perm.refl _)).2
    rw [List.eq_nil_iff_forall_not_mem] at gone ⊢
    intro inst listed
    obtain ⟨key, present, under⟩ := mem_listInstances.mp listed
    have before : st.lookup ⟨.inst, key⟩ ≠ none := by simp [present]
    have after := present_ofRename before (ofRename run)
    rw [lookup_inst, ne_eq, Option.map_eq_none_iff] at after
    obtain ⟨kept, stored⟩ := Option.ne_none_iff_exists'.mp after
    exact gone kept (mem_listInstances.mpr ⟨key, stored, under⟩)
  · intro none order perm
    have still {seen : List Event} (part : seen <+: order) :
        (st.applyAll seen).listInstances (trimSpace oldName) = [] := by
      have same : (st.applyAll seen).instances = st.instances := by
        apply instances_of_services
        intro ev member
        have emitted := perm.mem_iff.mp (part.subset member)
        refine ⟨ofRename run ev emitted, ?_⟩
        rintro p rfl
        exact no_instance_event run none p emitted
      rw [listInstances, same]
      exact none
    refine ⟨fun seen part i listed => ?_, still (List.prefix_refl order)⟩
    rw [still part] at listed
    exact absurd listed List.not_mem_nil

/-- A service without instances. -/
def bareStore : Store :=
  { empty with services := Bucket.empty.insert "a" { name := "a" } (by decide) }

theorem rename_one_name_iff_bare :
    ∃ r, bareStore.renameService 5 "a" "b" = .ok r ∧ bareStore.OneName "a" "b" r.events := by
  obtain ⟨r, run⟩ : ∃ r, bareStore.renameService 5 "a" "b" = .ok r := ⟨_, rfl⟩
  exact ⟨r, run, (rename_one_name_iff run).mpr (by decide)⟩

/-- One instance suffices: the peer keeps it under the old name. -/
theorem rename_both_names :
    ¬∀ (st : Store) (now : Time) (oldName newName : GoString) (r : Outcome Service),
      st.renameService now oldName newName = .ok r →
        st.OneName (trimSpace oldName) (trimSpace newName) r.events := by
  intro oneName
  let st := { bareStore with
    instances := Bucket.empty.insert "a/i" { id := "i", serviceName := "a", address := "10.0.0.1" }
      (by decide) }
  obtain ⟨r, run⟩ : ∃ r, st.renameService 5 "a" "b" = .ok r := ⟨_, rfl⟩
  have gone := (oneName _ _ _ _ r run r.events (List.Perm.refl _)).2
  cases run
  exact absurd gone (by decide)

end Store
end Discovery
