import Discovery.Auth.Identity

namespace Discovery

structure HttpError where
  code : Nat
  err : Err
  deriving DecidableEq

/-- The answer of a handler that ran to its end. One that fails leaves the store as it was. -/
structure Reply (α : Type) where
  code : Nat
  value : α
  store : Store
  events : List Event := []

namespace Server

def writeErr {α : Type} (code : Nat) (message : GoString) : Except HttpError α :=
  .error ⟨code, .text message⟩

/-- Maps a store error to an HTTP code. -/
def safeStoreErr (e : Err) : HttpError :=
  match e with
  | .notFound => ⟨404, e⟩
  | .conflict => ⟨409, e⟩
  | _ => ⟨500, e⟩

def requireRead (id : Identity) : Except HttpError Unit :=
  if .read ≤ id.role then .ok () else writeErr 401 "authentication required"

def requireWrite (id : Identity) : Except HttpError Unit :=
  if .write ≤ id.role then .ok () else writeErr 403 "write access required"

def requireAdmin (id : Identity) : Except HttpError Unit :=
  if id.isAdmin || (id.system && .admin ≤ id.role) then .ok () else writeErr 403 "admin required"

/-- Decodes a request body. -/
def decode {α : Type} (body : Option α) : Except HttpError α :=
  match body with
  | some input => .ok input
  | none => .error ⟨400, .body⟩

/-- Stricter than `canEdit`: only the owner or an admin. -/
def canManageGrants (svc : Service) (id : Identity) : Bool :=
  if id.isAdmin || (id.system && .admin ≤ id.role) then true
  else svc.ownerID ≠ [] && svc.ownerID = id.userID

@[simp] theorem requireWrite_eq_ok {id : Identity} {u : Unit} :
    requireWrite id = .ok u ↔ .write ≤ id.role := by
  simp [requireWrite, writeErr]

@[simp] theorem requireAdmin_eq_ok {id : Identity} {u : Unit} :
    requireAdmin id = .ok u ↔ id.isAdmin = true ∨ id.system = true ∧ .admin ≤ id.role := by
  cases admin : id.isAdmin <;> simp [requireAdmin, writeErr, admin]

@[simp] theorem decode_eq_ok {α : Type} {body : Option α} {input : α} :
    decode body = .ok input ↔ body = some input := by
  cases body <;> simp [decode]

/-- A caller without special rights may manage the grants of the services it owns. -/
theorem canManageGrants_plain {svc : Service} {id : Identity} (plain : id.isAdmin = false)
    (user : id.system = false) :
    canManageGrants svc id = true ↔ svc.ownerID ≠ [] ∧ svc.ownerID = id.userID := by
  simp [canManageGrants, plain, user]

theorem canEditService_plain {svc : Service} {id : Identity} (plain : id.isAdmin = false)
    (user : id.system = false) :
    canEditService svc id = svc.canEdit id.userID false false := by
  rw [canEditService, plain, user]

/-- Who may manage the grants of a service may edit it. -/
theorem canEditService_of_canManageGrants {svc : Service} {id : Identity}
    (manages : canManageGrants svc id = true) : canEditService svc id = true := by
  unfold canManageGrants at manages
  unfold canEditService Service.canEdit
  by_cases special : id.system || id.isAdmin
  · rw [if_pos special]
  · have plain : id.isAdmin = false ∧ id.system = false := by simpa [and_comm] using special
    simp only [plain.1, plain.2, Bool.false_and, Bool.or_self, Bool.false_eq_true, if_false] at manages ⊢
    obtain ⟨owned, owner⟩ : svc.ownerID ≠ [] ∧ svc.ownerID = id.userID := by simpa using manages
    rw [owner] at owned ⊢
    simp [owned]

end Server
end Discovery
