import Discovery.GoString
import Discovery.Kv.Scan
import Mathlib.Algebra.Ring.Int.Defs
import Mathlib.Algebra.Ring.Nat

namespace Discovery

/-- Nanoseconds since Go's zero time, so that `t.IsZero()` is `t = 0`. -/
abbrev Time := Int

/-- A `map[string]string`, in the key order `encoding/json` writes. -/
abbrev StringMap := List (GoString × GoString)

/-- `body` is the decoder's error for a body that is not the expected JSON, `marshal` the encoder's
for a raw message that is not JSON. `quoted` ends in a Go-quoted string, `under` puts a key before
another error. -/
inductive Err
  | notFound
  | conflict
  | put (e : Kv.PutError)
  | body
  | marshal
  | text (message : GoString)
  | quoted (message given : GoString)
  | under (key : GoString) (e : Err)
  deriving DecidableEq

def jsonStrings (l : List GoString) : List GoString := l.map jsonString

def jsonMap (m : StringMap) : StringMap := m.map (fun e => (jsonString e.1, jsonString e.2))

@[simp] theorem jsonStrings_idem (l : List GoString) : jsonStrings (jsonStrings l) = jsonStrings l := by
  simp [jsonStrings]

@[simp] theorem jsonMap_idem (m : StringMap) : jsonMap (jsonMap m) = jsonMap m := by
  simp [jsonMap]

end Discovery
