import Discovery.Store.Config

namespace Discovery
open Kv Machine

/-- `u` is the scope itself, or one of another kind or whose text is another and does not begin with
the scope's text and a slash. -/
def ConfigScope.Apart (s u : ConfigScope) : Prop := u = s ∨ ¬s.Clashes u ∧ ¬s.Encloses u

/-- The scope a step publishes lies apart from `s`. -/
def ConfigStep.ApartFrom (s : ConfigScope) : ConfigStep → Prop
  | .applyConfig _ scope _ _ _ | .rollbackConfig _ scope _ _ => ∀ u, scope.validate = .ok u → s.Apart u
  | .applyRemote (.configApplied p) => p.json.scope.Accepted ∧ s.Apart p.json.scope
  | _ => True

/-- The five operations on one scope. -/
def ConfigStep.On (s : ConfigScope) : ConfigStep → Prop
  | .applyConfig _ scope _ _ _ | .rollbackConfig _ scope _ _ | .putDraft _ scope _ _ | .deleteDraft scope
  | .deleteConfigScope scope => scope = s
  | .applyRemote _ => False

namespace Store

/-- A history key belongs to `s`, with a revision of it, or to an ID that the prefix of `s` does not
reach. -/
def Confined (s : ConfigScope) (st : Store) : Prop :=
  ∀ key r, st.configRevs.get key = some r →
    ∃ id n, key = cfgRevKey id n ∧ (id = s.ID ∧ r.scope = s ∨ id ≠ s.ID ∧ ¬s.ID ++ [slash] <+: id)

/-- The registers of an ID are the same in both stores. -/
structure SameScope (st st' : Store) (id : GoString) : Prop where
  active : st'.activeOf id = st.activeOf id
  draft : st'.draftOf id = st.draftOf id
  history : ∀ n, st'.historyOf id n = st.historyOf id n

variable {sha256 : GoString → GoString} {s : ConfigScope} {st : Store}

theorem confined_empty (s : ConfigScope) : empty.Confined s := by
  intro key r stored
  cases stored.symm.trans (Bucket.get_empty key)

theorem Confined.insert (confined : st.Confined s) (accepted : s.Accepted) {u : ConfigScope} (scope : u.Accepted)
    (apart : s.Apart u) {rev : ConfigRevision} (own : u = s → rev.json.scope = s) {n : Int}
    (fits : KeyFits (cfgRevKey u.ID n)) {st' : Store}
    (revs : st'.configRevs = st.configRevs.insert (cfgRevKey u.ID n) rev fits) : st'.Confined s := by
  intro key r stored
  rw [revs, Bucket.get_insert] at stored
  by_cases here : key = cfgRevKey u.ID n
  · rw [if_pos here] at stored
    obtain rfl := Option.some.inj stored
    refine ⟨u.ID, n, here, ?_⟩
    rcases apart with same | ⟨distinct, outside⟩
    · exact Or.inl ⟨by rw [same], own same⟩
    · refine Or.inr ⟨fun clash => distinct ?_, mt (ConfigScope.ID_prefix_iff accepted scope).mp outside⟩
      exact (ConfigScope.ID_eq_iff accepted scope).mp clash.symm
  · rw [if_neg here] at stored
    exact confined key r stored

theorem Confined.deleteConfigScopeRaw (confined : st.Confined s) (scope : ConfigScope) :
    (st.deleteConfigScopeRaw scope).Confined s := by
  intro key r stored
  rw [Store.deleteConfigScopeRaw, Bucket.get_deletePrefix] at stored
  split at stored
  · cases stored
  · exact confined key r stored

theorem Confined.congr (confined : st.Confined s) {st' : Store} (revs : st'.configRevs = st.configRevs) :
    st'.Confined s := by
  intro key r stored
  exact confined key r (revs ▸ stored)

theorem Confined.applyConfig (confined : st.Confined s) (accepted : s.Accepted) (clean : s.json = s) {now : Time}
    {scope : ConfigScope} {vars : Vars} {note author : GoString} {r : Outcome ConfigRevision}
    (run : st.applyConfig sha256 now scope vars note author = .ok r)
    (apart : ∀ u, scope.validate = .ok u → s.Apart u) : r.store.Confined s := by
  obtain ⟨u, valid, _, fitsActive, fits, rfl⟩ := applyConfig_eq_ok.mp run
  refine confined.insert accepted (ConfigScope.validate_accepted valid) (apart u valid) ?_ fits rfl
  intro same
  show u.json = s
  rw [same, clean]

theorem Confined.configStep (confined : st.Confined s) (accepted : s.Accepted) (clean : s.json = s)
    {step : ConfigStep} (apart : step.ApartFrom s) : (st.configStep sha256 step).1.Confined s := by
  cases step with
  | applyConfig now scope vars note author =>
    exact settle_store (Confined s) confined fun r run => confined.applyConfig accepted clean run apart
  | rollbackConfig now scope revision author =>
    refine settle_store (Confined s) confined fun r run => ?_
    obtain ⟨target, _, again⟩ := rollbackConfig_eq_ok.mp run
    exact confined.applyConfig accepted clean again apart
  | putDraft now scope vars author =>
    refine settle_store (Confined s) confined fun r run => ?_
    obtain ⟨_, _, _, _, rfl⟩ := putDraft_eq_ok.mp run
    exact confined.congr rfl
  | deleteDraft scope => exact confined.congr rfl
  | deleteConfigScope scope => exact confined.deleteConfigScopeRaw scope
  | applyRemote ev =>
    show (st.apply ev).Confined s
    by_cases other : keepsRevisions ev = true
    · exact confined.congr (apply_keepsRevisions _ other).2
    · cases ev with
      | configApplied p =>
        rw [apply_configApplied]
        split
        next taken =>
          have own : p.json.scope = s → p.json.json.scope = s := fun same => by rw [p.json_idem, same]
          exact confined.insert accepted apart.1 apart.2 own taken.1 rfl
        next => exact confined
      | configDeleted scope => exact confined.deleteConfigScopeRaw scope.json
      | _ => exact absurd rfl other

theorem Confined.configHistory (confined : st.Confined s) {r : ConfigRevision} (member : r ∈ st.configHistory s) :
    r.scope = s := by
  have listed := List.mem_mergeSort.mp member
  obtain ⟨⟨key, r'⟩, visited, rfl⟩ := List.mem_map.mp listed
  obtain ⟨stored, under⟩ := Bucket.mem_scan.mp visited
  obtain ⟨id, n, rfl, ⟨_, own⟩ | ⟨other, outside⟩⟩ := confined key r' stored
  · exact own
  · rcases cfgRevPrefix_prefix_iff.mp under with same | inside
    · exact absurd same.symm other
    · exact absurd inside outside

/-- An ID that the prefix of `s` reaches has no history, so deleting `s` takes nothing of it. -/
theorem Confined.sameScope_delete (confined : st.Confined s) {id : GoString} (other : id ≠ s.ID) :
    SameScope st (st.deleteConfigScopeRaw s) id where
  active := by rw [activeOf_deleteConfigScopeRaw, if_neg other]
  draft := by rw [draftOf_deleteConfigScopeRaw, if_neg other]
  history n := by
    rw [historyOf_deleteConfigScopeRaw]
    split
    next taken =>
      have inside := taken.resolve_left other.symm
      cases stored : st.historyOf id n with
      | none => rfl
      | some r =>
        obtain ⟨j, m, same, ⟨own, _⟩ | ⟨_, outside⟩⟩ := confined _ r stored
        · exact absurd ((cfgRevKey_inj.mp same).1.trans own) other
        · rw [(cfgRevKey_inj.mp same).1] at inside
          exact absurd inside outside
    next => rfl

theorem sameScope_applyConfig (accepted : s.Accepted) {id : GoString} (other : id ≠ s.ID) {now : Time} {vars : Vars}
    {note author : GoString} {r : Outcome ConfigRevision}
    (run : st.applyConfig sha256 now s vars note author = .ok r) : SameScope st r.store id := by
  obtain ⟨u, valid, _, fitsActive, fits, rfl⟩ := applyConfig_eq_ok.mp run
  obtain rfl := Except.ok.inj (accepted.symm.trans valid)
  exact {
    active := by rw [activeOf_withPublished, if_neg other]
    draft := by rw [draftOf_withPublished, if_neg other]
    history := fun n => by rw [historyOf_withPublished, if_neg other] }

theorem Confined.sameScope (confined : st.Confined s) (accepted : s.Accepted) {id : GoString} (other : id ≠ s.ID)
    {step : ConfigStep} (on : step.On s) : SameScope st (st.configStep sha256 step).1 id := by
  have same : SameScope st st id := ⟨rfl, rfl, fun _ => rfl⟩
  cases step with
  | applyConfig now scope vars note author =>
    obtain rfl : scope = s := on
    exact settle_store (SameScope st · id) same fun r run => sameScope_applyConfig accepted other run
  | rollbackConfig now scope revision author =>
    obtain rfl : scope = s := on
    refine settle_store (SameScope st · id) same fun r run => ?_
    obtain ⟨target, _, again⟩ := rollbackConfig_eq_ok.mp run
    exact sameScope_applyConfig accepted other again
  | putDraft now scope vars author =>
    obtain rfl : scope = s := on
    refine settle_store (SameScope st · id) same fun r run => ?_
    obtain ⟨u, valid, _, fits, rfl⟩ := putDraft_eq_ok.mp run
    obtain rfl := Except.ok.inj (accepted.symm.trans valid)
    have differs : cfgDraftKey id ≠ cfgDraftKey scope.ID := mt cfgDraftKey_inj.mp other
    exact ⟨rfl, (Bucket.get_insert _ _ _ _ fits).trans (if_neg differs), fun _ => rfl⟩
  | deleteDraft scope =>
    obtain rfl : scope = s := on
    have differs : cfgDraftKey id ≠ cfgDraftKey scope.ID := mt cfgDraftKey_inj.mp other
    exact ⟨rfl, (Bucket.get_delete _ _ _).trans (if_neg differs), fun _ => rfl⟩
  | deleteConfigScope scope =>
    obtain rfl : scope = s := on
    exact confined.sameScope_delete other
  | applyRemote ev => exact on.elim

/-- The operations on `s` keep off `t`, and the history of `s` lists only its own revisions. -/
structure KeepsOff (sha256 : GoString → GoString) (s t : ConfigScope) (st : Store) : Prop where
  IDs : s.ID ≠ t.ID
  frame : ∀ step : ConfigStep, step.On s → SameScope st (st.configStep sha256 step).1 t.ID
  history : ∀ r ∈ st.configHistory s, r.scope = s

/-- Two scopes whose texts do not clash are isolated in every run that publishes only scopes apart
from `s`. -/
theorem scopes_isolated {s t : ConfigScope} (accepted : s.Accepted) (other : t.Accepted)
    (distinct : ¬s.Clashes t) (clean : s.json = s) {steps : List ConfigStep}
    (apart : Meets (configStep sha256) (fun _ step => step.ApartFrom s) empty steps) :
    Always (configStep sha256) (KeepsOff sha256 s t) empty steps := by
  have IDs : s.ID ≠ t.ID := mt (ConfigScope.ID_eq_iff accepted other).mp distinct
  refine always_of_invariant (Confined s) (fun _ _ confined ok => confined.configStep accepted clean ok) ?_
    (confined_empty s) apart
  intro st confined
  exact {
    IDs
    frame := fun step on => confined.sameScope accepted IDs.symm on
    history := fun r member => confined.configHistory member }

/-- Two services, published and deleted in turn. -/
theorem scopes_isolated_two :
    Always (configStep id) (KeepsOff id { kind := "service", service := "a" } { kind := "service", service := "b" })
      empty [.applyConfig 1 { kind := "service", service := "a" } ∅ [] [],
        .applyConfig 2 { kind := "service", service := "b" } ∅ [] [],
        .deleteConfigScope { kind := "service", service := "a" }] := by
  have first : ConfigScope.Accepted { kind := "service", service := "a" } := by decide
  have second : ConfigScope.Accepted { kind := "service", service := "b" } := by decide
  have distinct : ¬ConfigScope.Clashes { kind := "service", service := "a" } { kind := "service", service := "b" } :=
    fun clash => absurd clash.2 (by decide)
  refine scopes_isolated first second distinct (by decide) ⟨fun u valid => ?_, fun u valid => ?_, trivial, trivial⟩
  · obtain rfl := Except.ok.inj (first.symm.trans valid)
    exact Or.inl rfl
  · obtain rfl := Except.ok.inj (second.symm.trans valid)
    exact Or.inr ⟨distinct, fun encloses => absurd encloses.2 (by decide)⟩

/-- Deleting the scope of service `a` takes the history of service `a/b`. -/
theorem scopes_not_isolated :
    ¬∃ sha256, ∀ s t : ConfigScope, s.Accepted → t.Accepted → s ≠ t → ∀ steps,
      Always (configStep sha256) (KeepsOff sha256 s t) empty steps := by
  rintro ⟨sha256, isolated⟩
  let inner : ConfigScope := { kind := "service", service := "a/b" }
  let outer : ConfigScope := { kind := "service", service := "a" }
  have accepted : inner.Accepted := by decide
  have fits : KeyFits (cfgRevKey inner.ID 1) := by decide
  have fresh : empty.activeOf inner.ID = none := Bucket.get_empty _
  obtain ⟨rev, fitsActive, fits, first, _, _, published⟩ :=
    step_first_published sha256 1 [] "u" accepted (by decide : Marshals ∅) fits fresh
  obtain ⟨_, after⟩ := isolated outer inner (by decide) accepted (by decide) [.applyConfig 1 inner ∅ [] "u"]
  rw [published] at after
  have kept : ((empty.withPublished inner.ID rev fitsActive fits).deleteConfigScopeRaw outer).historyOf inner.ID 1 =
      (empty.withPublished inner.ID rev fitsActive fits).historyOf inner.ID 1 :=
    (KeepsOff.frame after (.deleteConfigScope outer) rfl).history 1
  have inside : outer.ID = inner.ID ∨ outer.ID ++ [slash] <+: inner.ID := Or.inr (by decide)
  rw [historyOf_deleteConfigScopeRaw, if_pos inside, historyOf_withPublished, if_pos rfl, recorded,
    if_pos (show 1 = rev.json.revision from first.symm)] at kept
  cases kept

end Store
end Discovery
