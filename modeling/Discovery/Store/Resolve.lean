import Discovery.Overlay
import Discovery.Semver
import Discovery.Store.Config

namespace Discovery
open Kv

/-- Effective variables, with the ID of the scope each one comes from. -/
structure ResolvedConfig where
  service : GoString
  version : GoString
  vars : Vars
  provenance : Std.ExtTreeMap GoString GoString
  etag : GoString

/-- The variables as the layers are laid over each other, with where each comes from and its hash. -/
@[ext] structure Resolution where
  out : Vars := ∅
  prov : Std.ExtTreeMap GoString GoString := ∅
  winHash : Std.ExtTreeMap GoString GoString := ∅

section Hash
variable (sha256 : GoString → GoString)

/-- The hash of a variable, stored beside it or computed. -/
def ConfigRevision.hashOf (rev : ConfigRevision) (k : GoString) (v : TypedValue) : GoString :=
  match rev.hashes with
  | some hashes => hashes.getD k []
  | none => hashValue sha256 v

/-- What the tag is the hash of: in key order each key and its hash, each followed by a NUL. -/
def etagStream (vars : Vars) (winHash : Std.ExtTreeMap GoString GoString) : GoString :=
  vars.toList.flatMap fun e =>
    let stored := winHash.getD e.1 []
    let hash := if stored = [] then hashValue sha256 e.2 else stored
    e.1 ++ 0 :: (hash ++ [0])

def configETag (vars : Vars) (winHash : Std.ExtTreeMap GoString GoString) : GoString :=
  hexEncode (sha256 (etagStream sha256 vars winHash))

/-- The filter lets a key through: it is listed, or begins with a listed prefix. -/
def keep (prefixes keys : List GoString) (k : GoString) : Bool :=
  keys.any (· == k) || prefixes.any (·.isPrefixOf k)

def filterConfig (vars : Vars) (prov : Std.ExtTreeMap GoString GoString) (prefixes keys : List GoString) :
    Vars × Std.ExtTreeMap GoString GoString :=
  let kept := vars.filter fun k _ => keep prefixes keys k
  (kept, kept.map fun k _ => prov.getD k [])

namespace Store
variable (mm : Masterminds) (st : Store)

/-- Lays the active variables of a scope over the ones so far. -/
def overlay (acc : Resolution) (scope : ConfigScope) : Resolution :=
  match st.getActiveConfig scope with
  | .error _ => acc
  | .ok rev => {
      out := acc.out ∪ rev.vars
      prov := acc.prov ∪ rev.vars.map (fun _ _ => scope.ID)
      winHash := acc.winHash ∪ rev.vars.map (rev.hashOf sha256) }

/-- The version scopes of a service under `active/`. -/
def versionScopes (service : GoString) : List ConfigScope :=
  ((st.configActive.scan "active/").map (·.2.scope)).filter fun scope =>
    scope.kind == scopeVersion && scope.service == service

/-- The block with the lower floor comes first, then the one with the lower text. -/
def blockLess (a b : ConfigScope) : Bool :=
  let c := Semver.compare mm (Semver.floor mm a.constraint) (Semver.floor mm b.constraint)
  if c ≠ .eq then c == .lt else compare a.constraint b.constraint == .lt

/-- The version blocks that match, the lowest first. -/
def matchingBlocks (service version : GoString) : List ConfigScope :=
  let matching := (st.versionScopes service).filter fun scope =>
    (Semver.satisfies mm version scope.constraint).getD false
  matching.mergeSort fun a b => !blockLess mm b a

/-- The scopes in the order they are laid over each other. -/
def layers (service version : GoString) : List ConfigScope :=
  { kind := scopeGlobal } ::
    ((if service ≠ [] then [{ kind := scopeService, service }] else []) ++
      if service ≠ [] ∧ version ≠ [] then st.matchingBlocks mm service version else [])

/-- The layers of an instance, laid over each other. -/
def resolution (service version : GoString) : Resolution :=
  (st.layers mm service version).foldl (st.overlay sha256) {}

def resolveConfig (service version : GoString) (prefixes keys : List GoString) : ResolvedConfig :=
  let res := st.resolution sha256 mm service version
  let filtered :=
    if prefixes ≠ [] ∨ keys ≠ [] then filterConfig res.out res.prov prefixes keys else (res.out, res.prov)
  { service, version, vars := filtered.1, provenance := filtered.2
    etag := configETag sha256 filtered.1 res.winHash }

variable {sha256}

/-- What a scope says about a key, with the revision it says it in. -/
def said (k : GoString) (scope : ConfigScope) : Option (ConfigScope × ConfigRevision × TypedValue) :=
  (st.activeOf scope.ID).bind fun rev => rev.vars[k]?.map fun v => (scope, rev, v)

/-- The active variables of a scope. -/
def activeVars (scope : ConfigScope) : Vars := ((st.activeOf scope.ID).map (·.vars)).getD ∅

variable {st}

/-- A scope without an active revision is an error that the resolution passes over. -/
theorem getActiveConfig_eq (scope : ConfigScope) :
    st.getActiveConfig scope = match st.activeOf scope.ID with | some rev => .ok rev | none => .error .notFound := by
  unfold getActiveConfig read activeOf
  cases st.configActive.get (cfgActiveKey scope.ID) <;> rfl

/-- A scope speaks about a key with the value of its active revision. -/
theorem said_eq_some {k : GoString} {scope s : ConfigScope} {rev : ConfigRevision} {v : TypedValue} :
    st.said k scope = some (s, rev, v) ↔ s = scope ∧ st.activeOf scope.ID = some rev ∧ rev.vars[k]? = some v := by
  simp only [said, Option.bind_eq_some_iff, Option.map_eq_some_iff, Prod.mk.injEq]
  constructor
  · rintro ⟨_, active, _, present, rfl, rfl, rfl⟩
    exact ⟨rfl, active, present⟩
  · rintro ⟨rfl, active, present⟩
    exact ⟨rev, active, v, present, rfl, rfl, rfl⟩

theorem said_isSome_iff {k : GoString} {scope : ConfigScope} :
    (st.said k scope).isSome ↔ k ∈ st.activeVars scope := by
  unfold said activeVars
  cases st.activeOf scope.ID with
  | none => simp
  | some rev => simp

theorem activeVars_of_said {k : GoString} {scope : ConfigScope} {e : ConfigScope × ConfigRevision × TypedValue}
    (speech : st.said k scope = some e) : (st.activeVars scope)[k]? = some e.2.2 := by
  obtain ⟨_, active, present⟩ := said_eq_some.mp speech
  rw [activeVars, active]
  exact present

/-- A layer that speaks about a key replaces its value, and leaves the other keys. The same holds of the
provenance and of the hashes. -/
theorem out_overlay (sha256 : GoString → GoString) (st : Store) (acc : Resolution) (scope : ConfigScope) (k : GoString) :
    (st.overlay sha256 acc scope).out[k]? = ((st.said k scope).map fun e => e.2.2).or acc.out[k]? := by
  rw [overlay, getActiveConfig_eq, said]
  cases st.activeOf scope.ID with
  | none => rfl
  | some rev => simp [Std.ExtTreeMap.getElem?_union, Function.comp_def]

theorem prov_overlay (sha256 : GoString → GoString) (st : Store) (acc : Resolution) (scope : ConfigScope) (k : GoString) :
    (st.overlay sha256 acc scope).prov[k]? = ((st.said k scope).map fun e => e.1.ID).or acc.prov[k]? := by
  rw [overlay, getActiveConfig_eq, said]
  cases st.activeOf scope.ID with
  | none => rfl
  | some rev => simp [Std.ExtTreeMap.getElem?_union, Function.comp_def]

theorem winHash_overlay (sha256 : GoString → GoString) (st : Store) (acc : Resolution) (scope : ConfigScope) (k : GoString) :
    (st.overlay sha256 acc scope).winHash[k]? =
      ((st.said k scope).map fun e => e.2.1.hashOf sha256 k e.2.2).or acc.winHash[k]? := by
  rw [overlay, getActiveConfig_eq, said]
  cases st.activeOf scope.ID with
  | none => rfl
  | some rev => simp [Std.ExtTreeMap.getElem?_union, Function.comp_def]

/-- The active revisions of scopes, each as a store of its own holds it, laid over each other. -/
def lay (sha256 : GoString → GoString) (reads : List (Store × ConfigScope)) : Resolution :=
  reads.foldl (fun acc e => e.1.overlay sha256 acc e.2) {}

/-- What the last of the reads that find a key says about it. -/
def decidedBy (k : GoString) (reads : List (Store × ConfigScope)) :
    Option (ConfigScope × ConfigRevision × TypedValue) :=
  Overlay.last (fun e => e.1.said k e.2) reads

section Lay
variable (sha256 : GoString → GoString) (reads : List (Store × ConfigScope)) (k : GoString)

/-- Layers that are read one after the other leave each key with the last one that speaks about it. -/
theorem lay_out : (lay sha256 reads).out[k]? = (decidedBy k reads).map fun e => e.2.2 := by
  have lays := fun acc (e : Store × ConfigScope) (_ : e ∈ reads) => out_overlay sha256 e.1 acc e.2 k
  have read := Overlay.read_foldl (fun acc : Resolution => acc.out[k]?) lays {}
  simpa [lay, decidedBy] using read

theorem lay_prov : (lay sha256 reads).prov[k]? = (decidedBy k reads).map fun e => e.1.ID := by
  have lays := fun acc (e : Store × ConfigScope) (_ : e ∈ reads) => prov_overlay sha256 e.1 acc e.2 k
  have read := Overlay.read_foldl (fun acc : Resolution => acc.prov[k]?) lays {}
  simpa [lay, decidedBy] using read

theorem lay_winHash :
    (lay sha256 reads).winHash[k]? = (decidedBy k reads).map fun e => e.2.1.hashOf sha256 k e.2.2 := by
  have lays := fun acc (e : Store × ConfigScope) (_ : e ∈ reads) => winHash_overlay sha256 e.1 acc e.2 k
  have read := Overlay.read_foldl (fun acc : Resolution => acc.winHash[k]?) lays {}
  simpa [lay, decidedBy] using read

/-- Reads that find the same lay the same. -/
theorem lay_congr {reads reads' : List (Store × ConfigScope)} (same : ∀ k, decidedBy k reads = decidedBy k reads') :
    lay sha256 reads = lay sha256 reads' := by
  apply Resolution.ext
  · apply Std.ExtTreeMap.ext_getElem?
    intro k
    rw [lay_out, lay_out, same]
  · apply Std.ExtTreeMap.ext_getElem?
    intro k
    rw [lay_prov, lay_prov, same]
  · apply Std.ExtTreeMap.ext_getElem?
    intro k
    rw [lay_winHash, lay_winHash, same]

end Lay

/-- The scope that decides a key: the last of the layers that say something about it. -/
def decided (mm : Masterminds) (st : Store) (service version k : GoString) :
    Option (ConfigScope × ConfigRevision × TypedValue) :=
  Overlay.last (st.said k) (st.layers mm service version)

/-- Reads that all see one store decide as that store does. -/
theorem decidedBy_layers (service version k : GoString) :
    decidedBy k ((st.layers mm service version).map (st, ·)) = st.decided mm service version k := by
  rw [decidedBy, decided]
  refine (Overlay.last_map ?_).symm
  intro scope _
  rfl

/-- A resolution lays the reads of its scopes over each other, in their order. -/
theorem resolution_eq_lay (service version : GoString) :
    st.resolution sha256 mm service version = lay sha256 ((st.layers mm service version).map (st, ·)) := by
  rw [lay, List.foldl_map, resolution]

/-- No filter, or one that lets the key through. -/
def Passes (prefixes keys : List GoString) (k : GoString) : Prop :=
  prefixes = [] ∧ keys = [] ∨ k ∈ keys ∨ ∃ p ∈ prefixes, p <+: k

instance (prefixes keys : List GoString) (k : GoString) : Decidable (Passes prefixes keys k) :=
  inferInstanceAs (Decidable (_ ∨ _ ∨ _))

/-- A filter keeps the listed keys and those under a listed prefix. -/
theorem keep_iff {prefixes keys : List GoString} {k : GoString} :
    keep prefixes keys k = true ↔ k ∈ keys ∨ ∃ p ∈ prefixes, p <+: k := by
  simp [keep, List.any_eq_true]

/-- The filter takes whole variables away and changes none. -/
theorem filterConfig_vars (vars : Vars) (prov : Std.ExtTreeMap GoString GoString) (prefixes keys : List GoString)
    (k : GoString) :
    (filterConfig vars prov prefixes keys).1[k]? = if keep prefixes keys k then vars[k]? else none := by
  rw [filterConfig, Std.ExtTreeMap.getElem?_filter']
  cases vars[k]? with
  | none => simp
  | some v => simp [Option.filter]

theorem filterConfig_prov (vars : Vars) (prov : Std.ExtTreeMap GoString GoString) (prefixes keys : List GoString)
    (k : GoString) :
    (filterConfig vars prov prefixes keys).2[k]? =
      if keep prefixes keys k then vars[k]?.map fun _ => prov.getD k [] else none := by
  have kept := filterConfig_vars vars prov prefixes keys k
  rw [filterConfig] at kept ⊢
  rw [Std.ExtTreeMap.getElem?_map, kept]
  split <;> rfl

section Resolved
variable (sha256) (mm : Masterminds) (st) (service version : GoString) (prefixes keys : List GoString)
  (k : GoString)

theorem resolution_out :
    (resolution sha256 mm st service version).out[k]? = (st.decided mm service version k).map fun e => e.2.2 := by
  rw [resolution_eq_lay, lay_out, decidedBy_layers]

theorem resolution_prov :
    (resolution sha256 mm st service version).prov[k]? = (st.decided mm service version k).map fun e => e.1.ID := by
  rw [resolution_eq_lay, lay_prov, decidedBy_layers]

theorem resolution_winHash :
    (resolution sha256 mm st service version).winHash[k]? =
      (st.decided mm service version k).map fun e => e.2.1.hashOf sha256 k e.2.2 := by
  rw [resolution_eq_lay, lay_winHash, decidedBy_layers]

/-- What is resolved for a key that passes the filter is the value in the last layer that defines it. -/
theorem resolveConfig_vars :
    (st.resolveConfig sha256 mm service version prefixes keys).vars[k]? =
      if Passes prefixes keys k then (st.decided mm service version k).map fun e => e.2.2 else none := by
  rw [← resolution_out sha256 st mm service version k, resolveConfig]
  by_cases free : prefixes = [] ∧ keys = []
  · have unfiltered : ¬(prefixes ≠ [] ∨ keys ≠ []) := by simpa using free
    have passes : Passes prefixes keys k := Or.inl free
    rw [if_neg unfiltered, if_pos passes]
  · have filtered : prefixes ≠ [] ∨ keys ≠ [] := by simpa [← not_and_or] using free
    rw [if_pos filtered, filterConfig_vars]
    exact if_congr (keep_iff.trans (or_iff_right free).symm) rfl rfl

/-- Its provenance is the ID of that layer. -/
theorem resolveConfig_provenance :
    (st.resolveConfig sha256 mm service version prefixes keys).provenance[k]? =
      if Passes prefixes keys k then (st.decided mm service version k).map fun e => e.1.ID else none := by
  have out := resolution_out sha256 st mm service version k
  have prov := resolution_prov sha256 st mm service version k
  rw [resolveConfig]
  by_cases free : prefixes = [] ∧ keys = []
  · have unfiltered : ¬(prefixes ≠ [] ∨ keys ≠ []) := by simpa using free
    have passes : Passes prefixes keys k := Or.inl free
    rw [if_neg unfiltered, if_pos passes, ← prov]
  · have filtered : prefixes ≠ [] ∨ keys ≠ [] := by simpa [← not_and_or] using free
    have same : (((resolution sha256 mm st service version).out[k]?).map fun _ =>
        (resolution sha256 mm st service version).prov.getD k []) =
          (st.decided mm service version k).map fun e => e.1.ID := by
      rw [Std.ExtTreeMap.getD_eq_getD_getElem?, out, prov]
      cases st.decided mm service version k <;> rfl
    rw [if_pos filtered, filterConfig_prov, same]
    exact if_congr (keep_iff.trans (or_iff_right free).symm) rfl rfl

end Resolved

end Store
end Hash
end Discovery
