import Discovery.Model.Basic

namespace Discovery

def visibilityPublic : GoString := "public"
def visibilityPrivate : GoString := "private"

structure Service where
  name : GoString
  description : GoString := []
  tags : List GoString := []
  metadata : StringMap := []
  visibility : GoString := []
  ownerID : GoString := []
  grants : List GoString := []
  createdAt : Time := 0
  updatedAt : Time := 0
  deriving DecidableEq

def Service.json (s : Service) : Service :=
  { s with
    name := jsonString s.name
    description := jsonString s.description
    tags := jsonStrings s.tags
    metadata := jsonMap s.metadata
    visibility := jsonString s.visibility
    ownerID := jsonString s.ownerID
    grants := jsonStrings s.grants }

instance : Kv.JsonCodec Service := ⟨Service.json⟩

@[simp] theorem Service.roundTrip_eq (s : Service) : Kv.JsonCodec.roundTrip s = s.json := rfl

@[simp] theorem Service.json_idem (s : Service) : s.json.json = s.json := by
  simp [Service.json]

instance : Kv.LawfulJsonCodec Service := ⟨Service.json_idem⟩

@[simp] theorem Service.json_updatedAt (s : Service) : s.json.updatedAt = s.updatedAt := rfl

/-- `system` marks a static-token request, which always passes. -/
def Service.canEdit (s : Service) (userID : GoString) (isAdmin system : Bool) : Bool :=
  if system || isAdmin then true
  else if s.visibility = [] || s.visibility = visibilityPublic then userID ≠ []
  else if s.ownerID ≠ [] && s.ownerID = userID then true
  else s.grants.any (· = userID)

/-- Not open to every authenticated user. -/
def Service.Closed (s : Service) : Prop := s.visibility ≠ [] ∧ s.visibility ≠ visibilityPublic

theorem Service.closed_of_private {s : Service} (hidden : s.visibility = visibilityPrivate) :
    s.Closed := by
  rw [Service.Closed, hidden]
  decide

theorem Service.Closed.json {s : Service} (closed : s.Closed) : s.json.Closed := by
  constructor
  · intro empty
    exact closed.1 (eq_of_jsonString_eq (by decide) empty)
  · intro opened
    exact closed.2 (eq_of_jsonString_eq (by decide) opened)

/-- A closed service is edited by its owner and the users it names, the plain ones. -/
theorem Service.Closed.canEdit_iff {s : Service} (closed : s.Closed) {userID : GoString} :
    s.canEdit userID false false = true ↔
      s.ownerID ≠ [] ∧ s.ownerID = userID ∨ userID ∈ s.grants := by
  have shut : (s.visibility = [] || s.visibility = visibilityPublic) = false := by
    simpa [Service.Closed] using closed
  unfold Service.canEdit
  rw [shut]
  by_cases owner : s.ownerID ≠ [] ∧ s.ownerID = userID
  · simp [owner]
  · have stranger : (s.ownerID ≠ [] && s.ownerID = userID) = false := by simpa using owner
    rw [stranger]
    simp [owner]

/-- The normalised service, with its name trimmed. -/
def Service.validate (s : Service) : Except Err Service :=
  let name := trimSpace s.name
  if name = [] then .error (.text "service name required")
  else if containsAny name " /\\\t\n" then
    .error (.text "service name must not contain whitespace or slashes")
  else .ok { s with name }

theorem Service.validate_eq_ok {s v : Service} :
    s.validate = .ok v ↔ trimSpace s.name ≠ [] ∧ containsAny (trimSpace s.name) " /\\\t\n" = false ∧
      v = { s with name := trimSpace s.name } := by
  unfold Service.validate
  by_cases empty : trimSpace s.name = []
  · simp [empty]
  · by_cases bad : containsAny (trimSpace s.name) " /\\\t\n"
    · simp [empty, bad]
    · simp [empty, bad, eq_comm]

end Discovery
