import Discovery.Model.Config
import Discovery.Store.State

namespace Discovery

/-- No blank key, and every value well-formed for its type. -/
def validateConfigVars (vars : Vars) : Except Err Unit :=
  forM vars.toList fun e =>
    if trimSpace e.1 = [] then .error (.text "config key must not be empty")
    else e.2.validate.mapError (.under e.1)

theorem forM_eq_ok {ε α : Type} {l : List α} {check : α → Except ε Unit} :
    forM l check = .ok () ↔ ∀ x ∈ l, check x = .ok () := by
  induction l with
  | nil => simp [pure, Except.pure]
  | cons x l ih =>
    rw [List.forM_cons, bind_eq_ok, List.forall_mem_cons, ← ih]
    exact ⟨fun ⟨_, first, rest⟩ => ⟨first, rest⟩, fun ⟨first, rest⟩ => ⟨(), first, rest⟩⟩

theorem validate_of_validateConfigVars {vars : Vars} (valid : validateConfigVars vars = .ok ()) {k : GoString}
    {v : TypedValue} (present : vars[k]? = some v) : v.validate = .ok () := by
  have checked := forM_eq_ok.mp valid (k, v) (Std.ExtTreeMap.mem_toList_iff_getElem?_eq_some.mpr present)
  split at checked
  · cases checked
  · cases value : v.validate with
    | ok => rfl
    | error e =>
      rw [value] at checked
      cases checked

theorem jsonValid_of_unmarshalString {data s : GoString} (read : unmarshalString data = some s) :
    jsonValid data = true := by
  unfold unmarshalString at read
  split at read
  next valid => exact valid
  next => cases read

theorem jsonValid_of_unmarshalInt64 {data : GoString} {n : Int} (read : unmarshalInt64 data = some n) :
    jsonValid data = true := by
  unfold unmarshalInt64 at read
  split at read
  next => cases read
  next valid => simpa using valid

theorem jsonValid_of_unmarshalBool {data : GoString} {b : Bool} (read : unmarshalBool data = some b) :
    jsonValid data = true := by
  unfold unmarshalBool at read
  split at read
  next => cases read
  next valid => simpa using valid

theorem jsonValid_of_validate {v : TypedValue} (valid : v.validate = .ok ()) : jsonValid v.value = true := by
  have passed {ok : Bool} {message : GoString}
      (check : (if ok = true then .ok () else .error (.text message) : Except Err Unit) = .ok ()) : ok = true := by
    split at check
    next yes => exact yes
    next => cases check
  unfold TypedValue.validate at valid
  split at valid
  · cases valid
  · split at valid
    · obtain ⟨s, read⟩ := Option.isSome_iff_exists.mp (passed valid)
      exact jsonValid_of_unmarshalString read
    · split at valid
      · obtain ⟨n, read⟩ := Option.isSome_iff_exists.mp (passed valid)
        exact jsonValid_of_unmarshalInt64 read
      · split at valid
        · have number := passed valid
          rw [isFloat, Bool.and_eq_true] at number
          exact number.1
        · split at valid
          · obtain ⟨b, read⟩ := Option.isSome_iff_exists.mp (passed valid)
            exact jsonValid_of_unmarshalBool read
          · split at valid
            · exact passed valid
            · split at valid
              · split at valid
                next => cases valid
                next s read => exact jsonValid_of_unmarshalString read
              · cases valid

end Discovery
