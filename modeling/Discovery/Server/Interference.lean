import Discovery.Server.InstanceWrites

namespace Discovery
open Kv

/-- The request writes under the keys of `S` although its path names something else, so that the
check was made on another service or on none. -/
def InstanceRequest.Reaches (st : Store) (id : Identity) (S : GoString) (req : InstanceRequest) :
    Prop :=
  req.path ≠ S ∧ ∃ key, servicePrefix S <+: key ∧ req.Touches st id key

/-- The times that `Instance.Stamped` looks at. -/
def Instance.stamps (i : Instance) : List Int :=
  i.updatedAt :: (i.lastCheck.map (·.timestamp)).toList

theorem Instance.Stamped.mem {i : Instance} {now : Time} (stamped : i.Stamped now) :
    now ∈ i.stamps := by
  rcases stamped with same | same
  · exact List.mem_cons.mpr (Or.inl same.symm)
  · exact List.mem_cons_of_mem _ (Option.mem_toList.mpr same)

theorem exists_gt_all (l : List Int) : ∃ b : Int, ∀ t ∈ l, t < b := by
  induction l with
  | nil => exact ⟨0, fun t member => absurd member List.not_mem_nil⟩
  | cons t l ih =>
    obtain ⟨b, below⟩ := ih
    refine ⟨max b (t + 1), fun s member => ?_⟩
    rcases List.mem_cons.mp member with rfl | later
    · omega
    · have := below s later
      omega

/-- Some time is the stamp of no record of a list. -/
theorem exists_unstamped (l : List Instance) : ∃ now : Time, ∀ i ∈ l, ¬i.Stamped now := by
  obtain ⟨b, below⟩ := exists_gt_all (l.flatMap Instance.stamps)
  refine ⟨b, fun i member stamped => ?_⟩
  exact absurd (below b (List.mem_flatMap.mpr ⟨i, member, stamped.mem⟩)) (Int.lt_irrefl b)

namespace Server

/-- A service whose path the request carries is open to the caller if the request writes at all. -/
theorem open_of_touches {st : Store} {id : Identity} {req : InstanceRequest} {key : Key}
    (touches : req.Touches st id key) {svc : Service} (stored : st.services.get req.path = some svc) :
    canEditService svc id = true := by
  have edit {name : GoString} (may : MayEdit st id name) (here : st.services.get name = some svc) :
      canEditService svc id = true := by
    obtain ⟨_, own, present, allowed⟩ := may
    obtain rfl : own = svc := Option.some.inj (present.symm.trans here)
    exact allowed
  cases req with
  | registerInstance name body uuid => exact touches.1.2 svc stored
  | upsertInstance name instID body => exact touches.1.2 svc stored
  | deleteInstance name instID => exact touches.1.2 svc stored
  | heartbeat name instID body => exact touches.1.2 svc stored
  | checkInstance name instID probe => exact touches.1.2 svc stored
  | blockInstance name instID body => exact touches.1.2 svc stored
  | deleteService name => exact edit touches.1 stored
  | renameService name body => exact edit touches.1 stored

/-- What discovery returns for a service closed to the caller is the same after the request. -/
def NonInterfering (st : Store) (now : Time) (id : Identity) (req : InstanceRequest) : Prop :=
  ∀ S svc, st.services.get S = some svc → canEditService svc id = false →
    (serveInstance st now id req).listInstances S = st.listInstances S ∧
      ∀ matchVersion constraint,
        upInstances matchVersion ((serveInstance st now id req).listInstances S) constraint =
          upInstances matchVersion (st.listInstances S) constraint

/-- A touched key under `S/` shows in the list: it holds a record of the present time, or one record
is missing. -/
theorem listInstances_ne_of_touches {st : Store} {now : Time} {id : Identity} {req : InstanceRequest}
    {S : GoString} (fresh : ∀ i ∈ st.listInstances S, ¬i.Stamped now) {key : Key}
    (under : servicePrefix S <+: key) (touches : req.Touches st id key) :
    (serveInstance st now id req).listInstances S ≠ st.listInstances S := by
  intro same
  have unstamped : ∀ k i, servicePrefix S <+: k →
      (serveInstance st now id req).instances.get k = some i → ¬i.Stamped now := by
    intro k i pre stored
    refine fresh i ?_
    rw [← same]
    exact Store.mem_listInstances.mpr ⟨k, stored, pre⟩
  have removed : ∀ k, servicePrefix S <+: k → req.Touches st id k →
      (serveInstance st now id req).instances.get k = none ∧ (st.instances.get k).isSome := by
    intro k pre touched
    have outcome : Touched st _ now k := touched_of_touches touched
    rcases outcome with gone | ⟨i, stored, stamped⟩
    · exact gone
    · exact absurd stamped (unstamped k i pre stored)
  have shorter := Bucket.scan_length_lt
    (b := st.instances) (c := (serveInstance st now id req).instances) (p := servicePrefix S)
    (fun k pre => by
      by_cases touched : req.Touches st id k
      · exact Or.inr (removed k pre touched).1
      · exact Or.inl (kept_of_not_touches touched))
    under (removed key under touches).2 (removed key under touches).1
  have length := congrArg List.length same
  simp only [Store.listInstances, List.length_map] at length
  omega

/-- A caller that may not edit a service cannot change what discovery returns for it, whenever its
request comes, exactly if the request does not reach the service's keys from another path. -/
theorem nonInterfering_iff {st : Store} {id : Identity} {req : InstanceRequest} :
    (∀ now, NonInterfering st now id req) ↔
      ∀ S svc, st.services.get S = some svc → canEditService svc id = false →
        ¬req.Reaches st id S := by
  constructor
  · intro kept S svc stored closed ⟨_, key, under, touches⟩
    obtain ⟨now, fresh⟩ := exists_unstamped (st.listInstances S)
    exact listInstances_ne_of_touches fresh under touches (kept now S svc stored closed).1
  · intro apart now S svc stored closed
    have same : (serveInstance st now id req).listInstances S = st.listInstances S := by
      refine Store.listInstances_congr fun key under => kept_of_not_touches fun touches => ?_
      refine apart S svc stored closed ⟨?_, key, under, touches⟩
      intro here
      have allowed := open_of_touches touches (here ▸ stored)
      rw [closed] at allowed
      cases allowed
    exact ⟨same, fun matchVersion constraint => by rw [same]⟩

/-- An instance registered under a path that extends the private name is listed for it. -/
theorem endpoint_injected :
    ¬∀ (st : Store) (now : Time) (id : Identity) (req : InstanceRequest), id.isAdmin = false →
      id.system = false → NonInterfering st now id req := by
  intro kept
  have same := kept billing 2 { userID := "2", role := .write }
    (.registerInstance "billing/x" (some { id := "1", address := "10.0.0.9" }) [])
    rfl rfl "billing"
    { name := "billing", visibility := visibilityPrivate, ownerID := "1", createdAt := 1, updatedAt := 1 }
    (by decide) (by decide)
  exact absurd same.1 (by decide)

end Server
end Discovery
