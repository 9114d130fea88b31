import Discovery.Store.State

namespace Discovery
open Kv

/-- The time stamps of a local write: `CreatedAt` only when it is not set yet. -/
def Service.stamped (s : Service) (now : Time) : Service :=
  { s with createdAt := if s.createdAt = 0 then now else s.createdAt, updatedAt := now }

@[simp] theorem Service.stamped_name (s : Service) (now : Time) : (s.stamped now).name = s.name := rfl

@[simp] theorem Service.stamped_updatedAt (s : Service) (now : Time) :
    (s.stamped now).updatedAt = now := rfl

/-- A name the store accepts for a service record. -/
def Storable (name : GoString) : Prop :=
  name ≠ [] ∧ containsAny name " /\\\t\n" = false ∧ KeyFits name

namespace Store

def putService (st : Store) (now : Time) (svc : Service) : Except Err (Outcome Service) := do
  let svc ← svc.validate
  let svc := svc.stamped now
  let services ← write st.services svc.name svc
  .ok ⟨svc, { st with services }, [.serviceUpserted svc]⟩

def getService (st : Store) (name : GoString) : Except Err Service := read st.services name

def listServices (st : Store) : List Service := st.services.values

/-- Deletes the record and every instance key under `name/`. -/
def deleteService (st : Store) (name : GoString) : Except Err (Outcome Unit) := do
  let _ ← read st.services name
  let services := st.services.delete name
  let instances := st.instances.deletePrefix (servicePrefix name)
  .ok ⟨(), { st with services, instances }, [.serviceDeleted name]⟩

theorem getService_eq_ok {st : Store} {name : GoString} {svc : Service} :
    st.getService name = .ok svc ↔ st.services.get name = some svc :=
  read_eq_ok

theorem putService_eq_ok {st : Store} {now : Time} {svc : Service} {r : Outcome Service} :
    st.putService now svc = .ok r ↔
      ∃ v, svc.validate = .ok v ∧ ∃ fits : KeyFits v.name,
        r = ⟨v.stamped now,
          { st with services := st.services.insert v.name (v.stamped now) fits },
          [.serviceUpserted (v.stamped now)]⟩ := by
  simp only [putService, bind_eq_ok, write_eq_ok, Service.stamped_name]
  constructor
  · rintro ⟨v, valid, _, ⟨fits, same⟩, done⟩
    subst same
    exact ⟨v, valid, fits, (Except.ok.inj done).symm⟩
  · rintro ⟨v, valid, fits, done⟩
    exact ⟨v, valid, _, ⟨fits, rfl⟩, congrArg Except.ok done.symm⟩

theorem putService_ok_iff {st : Store} {now : Time} {svc : Service} :
    (∃ r, st.putService now svc = .ok r) ↔ Storable (trimSpace svc.name) := by
  simp only [putService_eq_ok, Service.validate_eq_ok]
  constructor
  · rintro ⟨_, v, ⟨named, clean, same⟩, fits, _⟩
    subst same
    exact ⟨named, clean, fits⟩
  · rintro ⟨named, clean, fits⟩
    exact ⟨_, _, ⟨named, clean, rfl⟩, fits, rfl⟩

/-- A put writes one record, under the trimmed name. -/
theorem get_putService {st : Store} {now : Time} {svc : Service} {r : Outcome Service}
    (run : st.putService now svc = .ok r) (name : GoString) :
    r.store.services.get name =
      if name = trimSpace svc.name then
        some ({ svc with name := trimSpace svc.name }.stamped now).json
      else st.services.get name := by
  obtain ⟨v, checked, fits, rfl⟩ := putService_eq_ok.mp run
  obtain ⟨_, _, rfl⟩ := Service.validate_eq_ok.mp checked
  exact Bucket.get_insert _ _ _ _ fits

theorem deleteService_eq_ok {st : Store} {name : GoString} {r : Outcome Unit} :
    st.deleteService name = .ok r ↔
      (st.services.get name).isSome ∧
        r = ⟨(), { st with
          services := st.services.delete name
          instances := st.instances.deletePrefix (servicePrefix name) }, [.serviceDeleted name]⟩ := by
  simp only [deleteService, bind_eq_ok, read_eq_ok, Option.isSome_iff_exists]
  constructor
  · intro ⟨svc, present, done⟩
    exact ⟨⟨svc, present⟩, (Except.ok.inj done).symm⟩
  · intro ⟨⟨svc, present⟩, done⟩
    exact ⟨svc, present, congrArg Except.ok done.symm⟩

end Store
end Discovery
