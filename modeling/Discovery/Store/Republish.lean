import Discovery.Store.Precedence
import Discovery.Store.Publications

namespace Discovery
open Kv Machine
namespace Store
variable {sha256 : GoString → GoString} {st : Store}

/-- `rev` is active and what `ResolveConfig` lays in the scope's place, so a key the scope decides has
its value. -/
structure InForce (sha256 : GoString → GoString) (st : Store) (scope : ConfigScope) (rev : ConfigRevision) : Prop where
  active : st.activeOf scope.ID = some rev
  laid : ∀ (acc : Resolution) (k : GoString),
    (st.overlay sha256 acc scope).out[k]? = (rev.vars[k]?).or acc.out[k]?
  resolved : ∀ (mm : Masterminds) [Std.TransCmp mm.compare] service version prefixes keys k,
    Passes prefixes keys k → Overlay.Greatest (precedence mm) (st.contenders mm service version k) scope →
      (st.resolveConfig sha256 mm service version prefixes keys).vars[k]? = rev.vars[k]? ∧
        (st.resolveConfig sha256 mm service version prefixes keys).provenance[k]? = some scope.ID

theorem inForce_iff {scope : ConfigScope} {rev : ConfigRevision} :
    InForce sha256 st scope rev ↔ st.activeOf scope.ID = some rev := by
  refine ⟨InForce.active, fun active => ⟨active, fun acc k => ?_, ?_⟩⟩
  · rw [out_overlay, said, active]
    cases present : rev.vars[k]? <;> simp [present]
  · intro mm _ service version prefixes keys k passes greatest
    obtain ⟨v, present⟩ : ∃ v, rev.vars[k]? = some v := by
      have member := greatest.mem.2
      rw [activeVars, active] at member
      exact Option.isSome_iff_exists.mp (Std.ExtTreeMap.mem_iff_isSome_getElem?.mp member)
    have decides : st.decided mm service version k = some (scope, rev, v) :=
      decided_eq_some_iff.mpr ⟨greatest, said_eq_some.mpr ⟨rfl, active, present⟩⟩
    rw [resolveConfig_vars, resolveConfig_provenance, if_pos passes, if_pos passes, decides, present]
    exact ⟨rfl, rfl⟩

/-- A revision of a number of which the history has a later one never enters it again. -/
theorem Superseded.apply {rev : ConfigRevision} (newer : st.Superseded rev) {ev : Event}
    (keeps : ev.isDeletion = false) : (st.apply ev).Superseded rev := by
  obtain ⟨old, stored, later⟩ := superseded_iff.mp newer
  rcases apply_cases st keeps with ⟨_, revs, _⟩ | ⟨r, fits, _, clean, latest, taken⟩
  · exact superseded_iff.mpr ⟨old, revs ▸ stored, later⟩
  · rw [taken]
    by_cases here : rev.revKey = r.revKey
    · have order : old.updatedAt ≤ r.updatedAt := Int.not_lt.mp fun earlier =>
        latest (superseded_iff.mpr ⟨old, here ▸ stored, earlier⟩)
      refine superseded_iff.mpr ⟨r, ?_, Int.lt_of_lt_of_le later order⟩
      rw [withRevision, Bucket.get_insert, if_pos here, ConfigRevision.roundTrip_eq, clean]
    · refine superseded_iff.mpr ⟨old, ?_, later⟩
      rw [withRevision, Bucket.get_insert, if_neg here, stored]

/-- The event of `p` cannot replace `act` under the ID: the key is another's or too large, the stamp is no greater,
or the history has a later revision of the number. -/
def Harmless (st : Store) (id : GoString) (act p : ConfigRevision) : Prop :=
  p.json.scope.ID = id → KeyFits p.json.revKey → p.json.stamp ≤ act.stamp ∨ st.Superseded p.json

theorem active_of_harmless {id : GoString} {act p : ConfigRevision} (active : st.activeOf id = some act)
    (harmless : st.Harmless id act p) :
    (st.apply (.configApplied p)).activeOf id = some act := by
  rw [apply_configApplied]
  split
  next taken =>
    rw [activeOf_withRevision _ p.json_idem]
    by_cases here : id = p.json.scope.ID
    · have order := (harmless here.symm taken.1).resolve_right taken.2
      rw [if_pos here, active]
      exact if_neg (by simpa using order)
    · rw [if_neg here, active]
  next => exact active

/-- Stale events leave a revision active exactly if each of them is harmless. -/
theorem active_stays_iff {id : GoString} {act : ConfigRevision} (active : st.activeOf id = some act) (stale : Set ConfigRevision) :
    (∀ ps : List ConfigRevision, (∀ p ∈ ps, p ∈ stale) →
        (st.applyAll (ps.map .configApplied)).activeOf id = some act) ↔
      ∀ p ∈ stale, st.Harmless id act p := by
  constructor
  · intro stays p member here fits
    by_contra harmful
    obtain ⟨greater, latest⟩ := not_or.mp harmful
    have kept := stays [p] (fun q inside => List.mem_singleton.mp inside ▸ member)
    rw [List.map_singleton, applyAll_cons, applyAll_nil, apply_configApplied, dif_pos ⟨fits, latest⟩,
      activeOf_withRevision _ p.json_idem, if_pos here.symm, active,
      Lww.merge_of_replaces (decide_eq_true (not_le.mp greater))] at kept
    exact greater (le_of_eq (congrArg ConfigRevision.stamp (Option.some.inj kept)))
  · intro harmless ps member
    induction ps generalizing st with
    | nil => exact active
    | cons p ps ih =>
      obtain ⟨first, rest⟩ := List.forall_mem_cons.mp member
      have next := active_of_harmless active (harmless p first)
      refine ih next (fun q inside here fits => ?_) rest
      exact (harmless q inside here fits).imp_right fun newer => newer.apply rfl

/-- After a scope was deleted and published again, the new revision withstands the revisions of a set
exactly if each of them is harmless: its number, or its time where the numbers are the same, is not
above the new one's. -/
theorem republished_iff (before between : List ConfigStep) {scope scope' : ConfigScope} {now : Time} {vars : Vars}
    {note author : GoString} {r : Outcome ConfigRevision}
    (run : (exec (configStep sha256) empty (before ++ .deleteConfigScope scope :: between)).1.applyConfig sha256 now
      scope' vars note author = .ok r) (stale : Set ConfigRevision) :
    (∀ ps : List ConfigRevision, (∀ p ∈ ps, p ∈ stale) →
        InForce sha256 (r.store.applyAll (ps.map .configApplied)) r.value.scope r.value.json) ↔
      ∀ p ∈ stale, r.store.Harmless r.value.scope.ID r.value.json p := by
  obtain ⟨fitsActive, fits, store, _, _⟩ := publication_applyConfig run
  have active : r.store.activeOf r.value.scope.ID = some r.value.json := by
    rw [store, activeOf_withPublished, if_pos rfl]
  simp only [inForce_iff]
  exact active_stays_iff active stale

/-- The first publication of the global scope. -/
theorem run_fresh (sha256 : GoString → GoString) (st : Store) (now : Time) (absent : st.activeOf "global" = none) :
    ∃ r fitsActive fits, st.applyConfig sha256 now { kind := scopeGlobal } ∅ [] "a" = .ok r ∧
      r.value.scope = { kind := scopeGlobal } ∧ r.value.revision = 1 ∧ r.value.updatedAt = now ∧
      r.store = st.withPublished "global" r.value fitsActive fits := by
  have number : st.allocate "global" = 1 := by rw [allocate, absent]
  have run := run_publishGlobal sha256 st now (by rw [number]; decide)
  rwa [number] at run

theorem activeOf_deleted (sha256 : GoString → GoString) (st : Store) :
    (st.configStep sha256 (.deleteConfigScope { kind := scopeGlobal })).1.activeOf "global" = none := by
  have deleted := activeOf_deleteConfigScopeRaw st { kind := scopeGlobal } "global"
  rwa [if_pos (by decide)] at deleted

/-- One publication before the deletion and one after it, of a later time. -/
theorem republished_iff_once :
    ∃ r, (exec (configStep id) empty [publishGlobal 1, .deleteConfigScope { kind := scopeGlobal }]).1.applyConfig id 2
        { kind := scopeGlobal } ∅ [] "a" = .ok r ∧
      ∀ ps : List ConfigRevision, (∀ p ∈ ps, p ∈ {p | p.revision = 1 ∧ p.updatedAt = 1}) →
        InForce id (r.store.applyAll (ps.map .configApplied)) r.value.scope r.value.json := by
  have absent : (exec (configStep id) empty [publishGlobal 1, .deleteConfigScope { kind := scopeGlobal }]).1.activeOf
      "global" = none := by
    simp only [exec]
    exact activeOf_deleted id _
  obtain ⟨r, _, _, run, _, number, time, _⟩ := run_fresh id _ 2 absent
  refine ⟨r, run, (republished_iff [publishGlobal 1] [] run _).mpr ?_⟩
  rintro p ⟨one, early⟩ _ _
  refine Or.inl (ConfigRevision.stamp_le_iff.mpr (Or.inr ⟨?_, ?_⟩))
  · rw [ConfigRevision.json_revision, ConfigRevision.json_revision, one, number]
  · rw [ConfigRevision.json_updatedAt, ConfigRevision.json_updatedAt, early, time]
    decide

/-- The second revision from before the deletion comes back over the first one after it. -/
theorem republished_reverts :
    ¬∃ sha256, ∀ (before between : List ConfigStep) (scope : ConfigScope) (now : Time) (vars : Vars)
        (note author : GoString) (r : Outcome ConfigRevision) (ps : List ConfigRevision),
      (exec (configStep sha256) empty (before ++ .deleteConfigScope scope :: between)).1.applyConfig sha256 now
        scope vars note author = .ok r →
      (∀ p ∈ ps, p ∈ publications sha256 empty before) →
        (r.store.applyAll (ps.map .configApplied)).activeOf r.value.scope.ID = some r.value.json := by
  rintro ⟨sha256, stays⟩
  obtain ⟨r₁, fitsActive₁, fits₁, run₁, _, number₁, _, store₁⟩ := run_fresh sha256 empty 1 (Bucket.get_empty _)
  have second : r₁.store.allocate "global" = 2 := by
    rw [store₁, allocate, activeOf_withPublished, if_pos rfl]
    show nextRevision r₁.value.revision = 2
    rw [number₁]
    decide
  obtain ⟨r₂, _, fits₂, run₂, scope₂, number₂, _, _⟩ :=
    run_publishGlobal sha256 r₁.store 2 (by rw [second]; decide)
  let deleted := r₂.store.deleteConfigScopeRaw { kind := scopeGlobal }
  have unfolded : (exec (configStep sha256) empty ([publishGlobal 1, publishGlobal 2] ++
      .deleteConfigScope { kind := scopeGlobal } :: [])).1 = deleted := by
    simp only [List.cons_append, List.nil_append, exec, (step_publishGlobal sha256 run₁).2,
      (step_publishGlobal sha256 run₂).2]
    rfl
  obtain ⟨r₃, fitsActive₃, fits₃, run₃, scope₃, number₃, _, store₃⟩ :=
    run_fresh sha256 deleted 3 (activeOf_deleted sha256 r₂.store)
  have stale : ∀ ps : List ConfigRevision, (∀ p ∈ ps, p ∈ ({r₂.value} : Set ConfigRevision)) →
      (r₃.store.applyAll (ps.map .configApplied)).activeOf "global" = some r₃.value.json := by
    intro ps member
    rw [← ID_global, ← scope₃]
    refine stays [publishGlobal 1, publishGlobal 2] [] _ 3 ∅ [] "a" r₃ ps (by rw [unfolded]; exact run₃) fun p inside => ?_
    have log : publications sha256 empty [publishGlobal 1, publishGlobal 2] = [r₁.value, r₂.value] := by
      simp only [publications, (step_publishGlobal sha256 run₁).1, (step_publishGlobal sha256 run₁).2,
        (step_publishGlobal sha256 run₂).1]
      rfl
    rw [log, Set.mem_singleton_iff.mp (member p inside)]
    simp
  have active : r₃.store.activeOf "global" = some r₃.value.json := by
    rw [store₃, activeOf_withPublished, if_pos rfl]
  have harmless := (active_stays_iff active _).mp stale r₂.value rfl
  have here : r₂.value.json.scope.ID = "global" := by
    show (r₂.value.scope.json).ID = "global"
    rw [scope₂]
    decide
  have fits : KeyFits r₂.value.json.revKey := by
    rw [ConfigRevision.revKey, here]
    exact fits₂
  rw [second] at number₂
  rcases harmless here fits with order | newer
  · rcases ConfigRevision.stamp_le_iff.mp order with less | ⟨same, _⟩
    · rw [ConfigRevision.json_revision, ConfigRevision.json_revision, number₂, number₃] at less
      exact absurd less (by decide)
    · rw [ConfigRevision.json_revision, ConfigRevision.json_revision, number₂, number₃] at same
      exact absurd same (by decide)
  · -- the deletion has cleared the history, and the new entry is number 1
    obtain ⟨old, stored, _⟩ := superseded_iff.mp newer
    have entry : r₃.store.historyOf "global" 2 = some old := by
      rw [← stored, ConfigRevision.revKey, here, ConfigRevision.json_revision, number₂, historyOf]
    rw [store₃, historyOf_withPublished, if_pos rfl, recorded, ConfigRevision.json_revision, number₃,
      if_neg (by decide), historyOf_deleteConfigScopeRaw, if_pos (Or.inl ID_global)] at entry
    cases entry

end Store
end Discovery
