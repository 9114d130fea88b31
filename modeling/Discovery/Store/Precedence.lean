import Discovery.Store.Resolve

namespace Discovery
open Kv

namespace Store
variable {sha256 : GoString → GoString} (mm : Masterminds) (st : Store)

/-- Some active revision was published for the scope. -/
def Published (scope : ConfigScope) : Prop := ∃ id rev, st.activeOf id = some rev ∧ rev.scope = scope

/-- The scopes that apply to an instance of a service. -/
inductive Applicable (service version : GoString) : ConfigScope → Prop
  | global : Applicable service version { kind := scopeGlobal }
  | service (named : service ≠ []) : Applicable service version { kind := scopeService, service }
  | block (named : service ≠ []) (versioned : version ≠ []) (constraint : GoString)
      (published : st.Published { kind := scopeVersion, service, constraint })
      (satisfied : Semver.satisfies mm version constraint = some true) :
      Applicable service version { kind := scopeVersion, service, constraint }

def rank (scope : ConfigScope) : Nat :=
  if scope.kind = scopeGlobal then 0 else if scope.kind = scopeService then 1 else 2

theorem rank_global : rank { kind := scopeGlobal } = 0 := by decide

theorem rank_service (service : GoString) : rank { kind := scopeService, service } = 1 := by
  have differ : scopeService ≠ scopeGlobal := by decide
  rw [rank, if_neg differ, if_pos rfl]

theorem rank_block {scope : ConfigScope} (kind : scope.kind = scopeVersion) : rank scope = 2 := by
  have differ : scopeVersion ≠ scopeGlobal ∧ scopeVersion ≠ scopeService := by decide
  rw [rank, kind, if_neg differ.1, if_neg differ.2]

/-- Version blocks by floor, then by text. -/
def blockOrder (s t : ConfigScope) : Ordering :=
  (Semver.compare mm (Semver.floor mm s.constraint) (Semver.floor mm t.constraint)).then
    (compare s.constraint t.constraint)

/-- Global below service below version blocks. -/
def precedence (s t : ConfigScope) : Ordering := (compare (rank s) (rank t)).then (blockOrder mm s t)

variable {mm st}

instance [Std.TransCmp mm.compare] : Std.TransCmp (blockOrder mm) :=
  let byFloor (s t : ConfigScope) : Ordering :=
    Semver.compare mm (Semver.floor mm s.constraint) (Semver.floor mm t.constraint)
  have : Std.TransCmp byFloor := {
    eq_swap := Semver.compare_swap _ _
    isLE_trans := Semver.compare_trans }
  inferInstanceAs (Std.TransCmp (compareLex byFloor (compareOn ConfigScope.constraint)))

instance [Std.TransCmp mm.compare] : Std.TransCmp (precedence mm) :=
  inferInstanceAs (Std.TransCmp (compareLex (compareOn rank) (blockOrder mm)))

/-- The comparison of two blocks in the source, written as an order: by the floor of the constraint, and then by
its text. -/
theorem blockLess_eq (s t : ConfigScope) : blockLess mm s t = (blockOrder mm s t == .lt) := by
  unfold blockLess blockOrder
  cases Semver.compare mm (Semver.floor mm s.constraint) (Semver.floor mm t.constraint) <;> rfl

/-- The blocks of a service are found by their published records. -/
theorem mem_versionScopes {service : GoString} {scope : ConfigScope} :
    scope ∈ st.versionScopes service ↔ st.Published scope ∧ scope.kind = scopeVersion ∧ scope.service = service := by
  simp only [versionScopes, List.mem_filter, List.mem_map, Prod.exists, Bucket.mem_scan, Bool.and_eq_true, beq_iff_eq]
  refine and_congr_left fun _ => ?_
  constructor
  · rintro ⟨key, rev, ⟨present, id, rfl⟩, same⟩
    exact ⟨id, rev, present, same⟩
  · rintro ⟨id, rev, present, same⟩
    exact ⟨cfgActiveKey id, rev, ⟨present, id, rfl⟩, same⟩

theorem mem_matchingBlocks {service version : GoString} {scope : ConfigScope} :
    scope ∈ st.matchingBlocks mm service version ↔
      (st.Published scope ∧ scope.kind = scopeVersion ∧ scope.service = service) ∧
        Semver.satisfies mm version scope.constraint = some true := by
  rw [matchingBlocks, List.mem_mergeSort, List.mem_filter, mem_versionScopes]
  refine and_congr_right fun _ => ?_
  cases Semver.satisfies mm version scope.constraint <;> simp

/-- The layers of a resolution are exactly the scopes that apply. -/
theorem mem_layers {service version : GoString} {scope : ConfigScope} :
    scope ∈ st.layers mm service version ↔ st.Applicable mm service version scope := by
  rw [layers, List.mem_cons, List.mem_append]
  constructor
  · rintro (rfl | listed | listed)
    · exact .global
    · split at listed
      next named =>
        obtain rfl := List.mem_singleton.mp listed
        exact .service named
      next => cases listed
    · split at listed
      next given =>
        obtain ⟨⟨published, kind, rfl⟩, satisfied⟩ := mem_matchingBlocks.mp listed
        obtain ⟨_, _, constraint⟩ := scope
        obtain rfl := kind
        exact .block given.1 given.2 constraint published satisfied
      next => cases listed
  · intro applicable
    cases applicable with
    | global => exact Or.inl rfl
    | service named =>
      refine Or.inr (Or.inl ?_)
      rw [if_pos named]
      exact List.mem_singleton.mpr rfl
    | block named versioned constraint published satisfied =>
      refine Or.inr (Or.inr ?_)
      rw [if_pos ⟨named, versioned⟩]
      exact mem_matchingBlocks.mpr ⟨⟨published, rfl, rfl⟩, satisfied⟩

theorem constraint_of_blockOrder {s t : ConfigScope} (same : blockOrder mm s t = .eq) :
    s.constraint = t.constraint := by
  rw [blockOrder, Ordering.then_eq_eq] at same
  exact Std.LawfulEqCmp.eq_of_compare same.2

/-- Two different scopes that apply are never on a par. -/
theorem Applicable.eq_of_precedence {service version : GoString} {s t : ConfigScope}
    (left : st.Applicable mm service version s) (right : st.Applicable mm service version t)
    (same : precedence mm s t = .eq) : s = t := by
  rw [precedence, Ordering.then_eq_eq, Nat.compare_eq_eq] at same
  obtain ⟨ranks, blocks⟩ := same
  cases left with
  | global =>
    rw [rank_global] at ranks
    cases right with
    | global => rfl
    | service _ => cases ranks.trans (rank_service service)
    | block _ _ _ _ _ => cases ranks.trans (rank_block rfl)
  | service _ =>
    rw [rank_service] at ranks
    cases right with
    | global => cases ranks.trans rank_global
    | service _ => rfl
    | block _ _ _ _ _ => cases ranks.trans (rank_block rfl)
  | block _ _ _ _ _ =>
    rw [rank_block rfl] at ranks
    cases right with
    | global => cases ranks.trans rank_global
    | service _ => cases ranks.trans (rank_service service)
    | block _ _ _ _ _ =>
      have constraints := constraint_of_blockOrder blocks
      dsimp only at constraints
      rw [constraints]

/-- The blocks are laid in ascending order, so the last one that speaks is the greatest. -/
theorem matchingBlocks_sorted [Std.TransCmp mm.compare] (service version : GoString) :
    (st.matchingBlocks mm service version).Pairwise fun s t => (precedence mm s t).isLE := by
  have le_iff (s t : ConfigScope) : (!blockLess mm t s) = (blockOrder mm s t).isLE := by
    have swap : blockOrder mm s t = (blockOrder mm t s).swap := Std.OrientedCmp.eq_swap
    rw [blockLess_eq, swap]
    cases blockOrder mm t s <;> rfl
  have sorted : (st.matchingBlocks mm service version).Pairwise fun s t => (!blockLess mm t s) = true := by
    refine List.pairwise_mergeSort (fun s t u first second => ?_) (fun s t => ?_) _
    · rw [le_iff] at first second ⊢
      exact Std.TransCmp.isLE_trans first second
    · have swap : blockOrder mm s t = (blockOrder mm t s).swap := Std.OrientedCmp.eq_swap
      rw [le_iff, le_iff, swap]
      cases blockOrder mm t s <;> rfl
  refine sorted.imp_of_mem fun {s t} left right le => ?_
  rw [le_iff] at le
  rw [precedence, rank_block (mem_matchingBlocks.mp left).1.2.1, rank_block (mem_matchingBlocks.mp right).1.2.1]
  exact le

/-- The layers are laid from the lowest scope to the highest. -/
theorem layers_sorted [Std.TransCmp mm.compare] (service version : GoString) :
    (st.layers mm service version).Pairwise fun s t => (precedence mm s t).isLE := by
  have below {s t : ConfigScope} (less : rank s < rank t) : (precedence mm s t).isLE := by
    rw [precedence, Nat.compare_eq_lt.mpr less]
    rfl
  have blockRank {t : ConfigScope} (listed : t ∈ st.matchingBlocks mm service version) : rank t = 2 :=
    rank_block (mem_matchingBlocks.mp listed).1.2.1
  rw [layers, List.pairwise_cons, List.pairwise_append]
  refine ⟨fun t listed => below ?_, ?_, ?_, fun s left t right => below ?_⟩
  · rw [rank_global]
    rcases List.mem_append.mp listed with listed | listed
    · split at listed
      next =>
        rw [List.mem_singleton.mp listed, rank_service]
        omega
      next => cases listed
    · split at listed
      next =>
        rw [blockRank listed]
        omega
      next => cases listed
  · split
    next => exact List.pairwise_singleton _ _
    next => exact List.Pairwise.nil
  · split
    next => exact matchingBlocks_sorted service version
    next => exact List.Pairwise.nil
  · split at left
    next =>
      split at right
      next =>
        rw [List.mem_singleton.mp left, rank_service, blockRank right]
        omega
      next => cases right
    next => cases left

/-- The scopes that apply and define a key. -/
def contenders (mm : Masterminds) (st : Store) (service version k : GoString) : Set ConfigScope :=
  {scope | st.Applicable mm service version scope ∧ k ∈ st.activeVars scope}

/-- The scope that decides a key is the greatest contender. -/
theorem decided_eq_some_iff [Std.TransCmp mm.compare] {service version k : GoString}
    {e : ConfigScope × ConfigRevision × TypedValue} :
    st.decided mm service version k = some e ↔
      Overlay.Greatest (precedence mm) (st.contenders mm service version k) e.1 ∧ st.said k e.1 = some e := by
  have strict : ∀ s ∈ st.layers mm service version, ∀ t ∈ st.layers mm service version,
      precedence mm s t = .eq → s = t :=
    fun s left t right same => (mem_layers.mp left).eq_of_precedence (mem_layers.mp right) same
  have speakers : {scope | scope ∈ st.layers mm service version ∧ (st.said k scope).isSome} =
      st.contenders mm service version k := by
    ext scope
    simp only [contenders, Set.mem_ofPred_eq, mem_layers, said_isSome_iff]
  rw [decided, Overlay.last_eq_some_iff (layers_sorted service version) strict, speakers]
  constructor
  · rintro ⟨scope, greatest, speech⟩
    obtain ⟨rfl, _⟩ := said_eq_some.mp speech
    exact ⟨greatest, speech⟩
  · rintro ⟨greatest, speech⟩
    exact ⟨e.1, greatest, speech⟩

/-- A key is decided exactly when some layer defines it. -/
theorem decided_isSome_iff {service version k : GoString} :
    (st.decided mm service version k).isSome ↔ (st.contenders mm service version k).Nonempty := by
  rw [decided, Overlay.last_isSome_iff]
  simp only [mem_layers, said_isSome_iff]
  rfl

/-- The effective config is what the documented precedence makes of the active revisions. -/
structure FollowsPrecedence (mm : Masterminds) (st : Store) (service version : GoString)
    (prefixes keys : List GoString) (r : ResolvedConfig) : Prop where
  contains : ∀ k, k ∈ r.vars ↔ Passes prefixes keys k ∧ (st.contenders mm service version k).Nonempty
  greatest : ∀ k ∈ r.vars, ∃ scope,
    Overlay.Greatest (precedence mm) (st.contenders mm service version k) scope ∧
      r.vars[k]? = (st.activeVars scope)[k]? ∧ r.provenance[k]? = some scope.ID

/-- The answer contains exactly the keys that pass the filter and that some applicable scope defines. The value
and the provenance of each are those of the greatest such scope: global below service below the blocks, and these
by the floor of their constraint and its text. -/
theorem resolveConfig_followsPrecedence [Std.TransCmp mm.compare] (st : Store) (service version : GoString)
    (prefixes keys : List GoString) :
    FollowsPrecedence mm st service version prefixes keys
      (st.resolveConfig sha256 mm service version prefixes keys) where
  contains k := by
    rw [Std.ExtTreeMap.mem_iff_isSome_getElem?, resolveConfig_vars, ← decided_isSome_iff]
    split
    next passes => simp [passes]
    next blocked => simp [blocked]
  greatest k present := by
    rw [Std.ExtTreeMap.mem_iff_isSome_getElem?, resolveConfig_vars] at present
    split at present
    next passes =>
      rw [Option.isSome_map] at present
      obtain ⟨e, decides⟩ := Option.isSome_iff_exists.mp present
      obtain ⟨greatest, speech⟩ := decided_eq_some_iff.mp decides
      refine ⟨e.1, greatest, ?_, ?_⟩
      · rw [resolveConfig_vars, if_pos passes, decides, activeVars_of_said speech, Option.map_some]
      · rw [resolveConfig_provenance, if_pos passes, decides, Option.map_some]
    next => cases present

/-- Versions of up to three numbers and constraints `>=`, as the library reads them. -/
def dotted : Masterminds where
  Version := List Nat
  Constraints := List Nat
  newVersion := version
  newConstraint c := if ofString ">=" <+: c then version (c.drop 2) else none
  check floor v := (compare floor v).isLE
  compare := compare
where
  number (s : GoString) : Option Nat :=
    if s.all (fun b => 0x30 ≤ b && b ≤ 0x39) && !s.isEmpty then
      some (s.foldl (fun n b => 10 * n + (b.toNat - 0x30)) 0)
    else none
  version (s : GoString) : Option (List Nat) :=
    ((s.splitOnP (· == 0x2E)).mapM number).bind fun ns =>
      if ns.length ≤ 3 then some (ns ++ List.replicate (3 - ns.length) 0) else none

instance : Std.TransCmp dotted.compare := inferInstanceAs (Std.TransCmp (compare : List Nat → List Nat → Ordering))

/-- Two blocks of one service, one of which an instance of version 2.0.5 matches. -/
theorem resolveConfig_followsPrecedence_blocks :
    let steps : List ConfigStep := [
      .applyConfig 1 { kind := "global" } ((∅ : Vars).insert "LOG" ⟨"string", "\"info\""⟩) [] "a",
      .applyConfig 2 { kind := "version", service := "s", constraint := ">=2.0.0" }
        ((∅ : Vars).insert "LOG" ⟨"string", "\"warn\""⟩) [] "a",
      .applyConfig 3 { kind := "version", service := "s", constraint := ">=2.1.0" }
        ((∅ : Vars).insert "LOG" ⟨"string", "\"debug\""⟩) [] "a"]
    let st := (Machine.exec (configStep id) empty steps).1
    FollowsPrecedence dotted st "s" "2.0.5" ["L"] [] (st.resolveConfig id dotted "s" "2.0.5" ["L"] []) :=
  resolveConfig_followsPrecedence _ _ _ _ _

end Store
end Discovery
