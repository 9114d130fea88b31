import Discovery.Server.Interference

namespace Discovery
open Kv

/-- The requests that register, edit or delete one instance. -/
def InstanceRequest.Edits : InstanceRequest → Prop
  | .registerInstance _ _ _ | .upsertInstance _ _ _ | .deleteInstance _ _ => True
  | _ => False

/-- A registration goes through to the key of a self-registered instance. Its id comes from the body,
and no check is made of the record it replaces. -/
def InstanceRequest.Overwrites (st : Store) (id : Identity) (key : Key) : InstanceRequest → Prop
  | .registerInstance name body uuid => (InstanceRequest.registerInstance name body uuid).Touches st id key
  | _ => False

namespace Server

/-- Self-registered instances are as they were. -/
def ManagedKept (st : Store) (now : Time) (id : Identity) (req : InstanceRequest) : Prop :=
  ∀ key inst, st.instances.get key = some inst → inst.managed = true →
    (serveInstance st now id req).instances.get key = some inst

theorem overwrites_of_touches {st : Store} {id : Identity} {req : InstanceRequest} {key : Key}
    {inst : Instance} (user : id.system = false) (edit : req.Edits)
    (present : st.instances.get key = some inst) (managed : inst.managed = true)
    (touches : req.Touches st id key) : req.Overwrites st id key := by
  have guarded (unmanaged : MayEditManaged st id key) : False := by
    have system := unmanaged inst present managed
    rw [user] at system
    cases system
  cases req with
  | registerInstance name body uuid => exact touches
  | upsertInstance name instID body =>
    obtain ⟨_, unmanaged, _, _, _, rfl⟩ := touches
    exact (guarded unmanaged).elim
  | deleteInstance name instID =>
    obtain ⟨_, unmanaged, rfl, _⟩ := touches
    exact (guarded unmanaged).elim
  | _ => exact edit.elim

/-- A request of a caller that is no static token leaves the self-registered instances alone, whenever it
comes, exactly if it is no registration that goes through to the key of one. -/
theorem managed_kept_iff {st : Store} {id : Identity} {req : InstanceRequest} (user : id.system = false)
    (edit : req.Edits) : (∀ now, ManagedKept st now id req) ↔
      ∀ key inst, st.instances.get key = some inst → inst.managed = true → ¬req.Overwrites st id key := by
  constructor
  · intro kept key inst present managed overwrites
    have touches : req.Touches st id key := by
      cases req with
      | registerInstance name body uuid => exact overwrites
      | _ => exact overwrites.elim
    obtain ⟨now, unstamped⟩ := exists_unstamped [inst]
    have same := kept now key inst present managed
    have outcome : Touched st _ now key := touched_of_touches touches
    rcases outcome with ⟨gone, _⟩ | ⟨i, stored, stamped⟩
    · rw [same] at gone
      cases gone
    · obtain rfl := Option.some.inj (same.symm.trans stored)
      exact unstamped inst List.mem_cons_self stamped
  · intro spared now key inst present managed
    have untouched : ¬req.Touches st id key := fun touches =>
      spared key inst present managed (overwrites_of_touches user edit present managed touches)
    rw [kept_of_not_touches untouched, present]

/-- A store with one self-registered instance. -/
def selfRegistered : Store :=
  (Store.empty.settle (Store.empty.putInstance 1
    { id := "i", serviceName := "s", address := "10.0.0.1", managed := true })).1

theorem managed_kept_upsert : ManagedKept selfRegistered 2 { userID := "1", role := .write }
    (.upsertInstance "s" "i" (some { address := "10.0.0.9" })) := by
  have edit : (InstanceRequest.upsertInstance "s" "i" (some { address := "10.0.0.9" })).Edits := trivial
  refine (managed_kept_iff rfl edit).mpr (fun key inst present managed overwrites => ?_) 2
  exact overwrites

/-- A registration whose body carries the id of the stored instance replaces it. -/
theorem managed_overwritten :
    ¬∀ (st : Store) (now : Time) (id : Identity) (req : InstanceRequest), id.system = false → req.Edits →
      ManagedKept st now id req := by
  intro kept
  have same := kept selfRegistered 2 { userID := "1", role := .write }
    (.registerInstance "s" (some { id := "i", address := "10.0.0.9" }) "u") rfl trivial "s/i"
    { id := "i", serviceName := "s", address := "10.0.0.1", weight := 1, status := statusUp, managed := true
      lastHeartbeat := 1, registeredAt := 1, updatedAt := 1 }
    (by decide) rfl
  exact absurd same (by decide)

end Server
end Discovery
