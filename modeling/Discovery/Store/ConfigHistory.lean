import Discovery.Store.Config

namespace Discovery
open Kv Machine

theorem lt_nextRevision {n : Int} (below : n < 2 ^ 63 - 1) : n < nextRevision n := by
  simp only [nextRevision, Int.bmod_def]
  omega

/-- The active revision is the entry of its own number in the history, and no entry has a greater
number. Without an active revision there is no history. -/
def IsTop (history : Int → Option ConfigRevision) : Option ConfigRevision → Prop
  | none => ∀ n, history n = none
  | some act => history act.revision = some act ∧ ∀ n r, history n = some r → r.revision = n ∧ n ≤ act.revision

section Registers
variable {history : Int → Option ConfigRevision} {active : Option ConfigRevision} {act rev : ConfigRevision}

theorem IsTop.numbered (top : IsTop history active) {n : Int} {r : ConfigRevision} (entry : history n = some r) :
    ∃ act, active = some act ∧ r.revision = n ∧ n ≤ act.revision := by
  cases active with
  | none =>
    rw [top n] at entry
    cases entry
  | some act => exact ⟨act, rfl, top.2 n r entry⟩

/-- A revision that is not below the active one becomes active. -/
theorem IsTop.advance (top : IsTop history active) (greater : ∀ act, active = some act → act.revision ≤ rev.revision) :
    IsTop (recorded history rev) (some rev) := by
  refine ⟨if_pos rfl, fun n r entry => ?_⟩
  by_cases number : n = rev.revision
  · obtain rfl := Option.some.inj ((if_pos number).symm.trans entry)
    exact ⟨number.symm, Int.le_of_eq number⟩
  · obtain ⟨act, present, own, bound⟩ := top.numbered ((if_neg number).symm.trans entry)
    exact ⟨own, Int.le_trans bound (greater act present)⟩

/-- One that is not above it only enters the history. -/
theorem IsTop.keep (top : IsTop history (some act)) (smaller : rev.revision ≤ act.revision)
    (same : rev.revision = act.revision → rev = act) : IsTop (recorded history rev) (some act) := by
  obtain ⟨backed, bound⟩ := top
  constructor
  · by_cases number : act.revision = rev.revision
    · rw [recorded, if_pos number, same number.symm]
    · rw [recorded, if_neg number, backed]
  · intro n r entry
    by_cases number : n = rev.revision
    · obtain rfl := Option.some.inj ((if_pos number).symm.trans entry)
      exact ⟨number.symm, number ▸ smaller⟩
    · exact bound n r ((if_neg number).symm.trans entry)

end Registers

namespace Store

/-- For every scope ID the active revision is the top of the history. -/
def TopOfHistory (st : Store) : Prop := ∀ id, IsTop (st.historyOf id) (st.activeOf id)

/-- No scope whose ID begins with `id/` has a history. -/
def NoneInside (st : Store) (id : GoString) : Prop :=
  ∀ id', id ++ [slash] <+: id' → ∀ n, st.historyOf id' n = none

/-- An active revision of the same number and time is the same revision. -/
def NoTie (st : Store) (rev : ConfigRevision) : Prop :=
  ∀ act, st.activeOf rev.scope.ID = some act → act.revision = rev.revision → act.updatedAt = rev.updatedAt →
    act = rev

theorem topOfHistory_empty : empty.TopOfHistory := by
  intro id
  have absent : empty.activeOf id = none := Bucket.get_empty _
  rw [absent]
  exact fun n => Bucket.get_empty _

/-- A publication takes a number that is not below the active one. -/
theorem TopOfHistory.withPublished {st : Store} (top : st.TopOfHistory) {id : GoString} {rev : ConfigRevision}
    (fitsActive : KeyFits (cfgActiveKey id)) (fits : KeyFits (cfgRevKey id rev.revision))
    (greater : ∀ prev, st.activeOf id = some prev → prev.revision ≤ rev.revision) :
    (st.withPublished id rev fitsActive fits).TopOfHistory := by
  intro j
  rw [activeOf_withPublished, historyOf_withPublished]
  by_cases here : j = id
  · rw [if_pos here, if_pos here]
    exact (top j).advance (here ▸ greater)
  · rw [if_neg here, if_neg here]
    exact top j

/-- A revision that the history takes also becomes active, unless the active one is greater or the
same. -/
theorem TopOfHistory.withRevision {st : Store} (top : st.TopOfHistory) {rev : ConfigRevision}
    (clean : rev.json = rev) (fits : KeyFits rev.revKey) (latest : ¬st.Superseded rev) (distinct : st.NoTie rev) :
    (st.withRevision rev fits).TopOfHistory := by
  intro j
  rw [activeOf_withRevision _ clean, historyOf_withRevision _ clean]
  by_cases here : j = rev.scope.ID
  · rw [if_pos here, if_pos here]
    have before := top j
    cases stored : st.activeOf j with
    | none =>
      rw [stored] at before
      exact before.advance fun act present => by cases present
    | some old =>
      rw [stored] at before
      by_cases newer : old.stamp < rev.stamp
      · rw [Lww.merge_of_replaces (decide_eq_true newer)]
        refine before.advance fun act present => ?_
        obtain rfl := Option.some.inj present
        exact (ConfigRevision.stamp_lt_iff.mp newer).elim Int.le_of_lt (fun both => Int.le_of_eq both.1)
      · have stays : Lww.merge ConfigRevision.stamp (fun s t => decide (s < t)) (some old) rev = some old :=
          if_neg (by simpa using newer)
        rw [stays]
        have order := mt ConfigRevision.stamp_lt_iff.mpr newer
        refine before.keep (Int.not_lt.mp fun less => order (Or.inl less)) fun number => ?_
        -- the entry of this number is the active revision, and not newer than `rev`
        have known : st.configRevs.get rev.revKey = some old := by
          rw [ConfigRevision.revKey, ← here, number]
          exact before.1
        have least : ¬rev.updatedAt < old.updatedAt := fun later => latest (superseded_iff.mpr ⟨old, known, later⟩)
        have most : ¬old.updatedAt < rev.updatedAt := fun later => order (Or.inr ⟨number.symm, later⟩)
        have times := Int.le_antisymm (Int.not_lt.mp least) (Int.not_lt.mp most)
        exact (distinct old (here ▸ stored) number.symm times).symm
  · rw [if_neg here, if_neg here]
    exact top j

/-- A deletion that meets no history but that of its own scope. -/
theorem TopOfHistory.deleteConfigScopeRaw {st : Store} (top : st.TopOfHistory) {scope : ConfigScope}
    (alone : st.NoneInside scope.ID) : (st.deleteConfigScopeRaw scope).TopOfHistory := by
  intro j
  rw [activeOf_deleteConfigScopeRaw]
  by_cases here : j = scope.ID
  · rw [if_pos here]
    intro n
    rw [historyOf_deleteConfigScopeRaw, if_pos (Or.inl here.symm)]
  · have history : (st.deleteConfigScopeRaw scope).historyOf j = st.historyOf j := by
      funext n
      rw [historyOf_deleteConfigScopeRaw]
      split
      next taken =>
        rcases taken with same | inside
        · exact absurd same.symm here
        · exact (alone j inside n).symm
      next => rfl
    rw [if_neg here, history]
    exact top j

theorem TopOfHistory.congr {st st' : Store} (top : st.TopOfHistory) (active : st'.configActive = st.configActive)
    (revs : st'.configRevs = st.configRevs) : st'.TopOfHistory := by
  intro id
  have sameActive : st'.activeOf id = st.activeOf id := by rw [activeOf, active, activeOf]
  have sameHistory : st'.historyOf id = st.historyOf id := by
    funext n
    rw [historyOf, revs, historyOf]
  rw [sameActive, sameHistory]
  exact top id

/-- The scope can still be published: its active revision does not have the last number there is. -/
def CanGrow (st : Store) (scope : ConfigScope) : Prop :=
  ∀ s, scope.validate = .ok s → ∀ prev, st.activeOf s.ID = some prev → prev.revision < 2 ^ 63 - 1

/-- When a step keeps the active revisions at the top of their histories. -/
def KeepsTop (st : Store) : ConfigStep → Prop
  | .applyConfig _ scope _ _ _ | .rollbackConfig _ scope _ _ => st.CanGrow scope
  | .deleteConfigScope scope => st.NoneInside scope.ID
  | .applyRemote (.configApplied p) => st.NoTie p.json
  | .applyRemote (.configDeleted scope) => st.NoneInside scope.json.ID
  | _ => True

variable {sha256 : GoString → GoString}

theorem TopOfHistory.applyConfig {st : Store} (top : st.TopOfHistory) {now : Time} {scope : ConfigScope}
    {vars : Vars} {note author : GoString} {r : Outcome ConfigRevision}
    (run : st.applyConfig sha256 now scope vars note author = .ok r) (grows : st.CanGrow scope) :
    r.store.TopOfHistory := by
  obtain ⟨s, valid, _, fitsActive, fits, rfl⟩ := applyConfig_eq_ok.mp run
  refine top.withPublished fitsActive fits fun prev present => ?_
  have next : st.allocate s.ID = nextRevision prev.revision := by rw [allocate, present]
  have less := lt_nextRevision (grows s valid prev present)
  rw [published, next]
  exact Int.le_of_lt less

theorem TopOfHistory.configStep {st : Store} (top : st.TopOfHistory) {step : ConfigStep}
    (keeps : st.KeepsTop step) : (st.configStep sha256 step).1.TopOfHistory := by
  cases step with
  | applyConfig now scope vars note author =>
    exact settle_store TopOfHistory top fun r run => top.applyConfig run keeps
  | rollbackConfig now scope revision author =>
    refine settle_store TopOfHistory top fun r run => ?_
    obtain ⟨target, _, again⟩ := rollbackConfig_eq_ok.mp run
    exact top.applyConfig again keeps
  | putDraft now scope vars author =>
    refine settle_store TopOfHistory top fun r run => ?_
    obtain ⟨_, _, _, _, rfl⟩ := putDraft_eq_ok.mp run
    exact top.congr rfl rfl
  | deleteDraft scope => exact top.congr rfl rfl
  | deleteConfigScope scope => exact top.deleteConfigScopeRaw keeps
  | applyRemote ev =>
    show (st.apply ev).TopOfHistory
    by_cases other : keepsRevisions ev = true
    · obtain ⟨active, revs⟩ := apply_keepsRevisions st other
      exact top.congr active revs
    · cases ev with
      | configApplied p =>
        rw [apply_configApplied]
        split
        next taken => exact top.withRevision p.json_idem taken.1 taken.2 keeps
        next => exact top
      | configDeleted scope => exact top.deleteConfigScopeRaw keeps
      | _ => exact absurd rfl other

/-- In every run from the empty store whose steps meet the condition, the active revision of every
scope is the top of its history all along. -/
theorem active_is_top {steps : List ConfigStep} (keeps : Meets (configStep sha256) KeepsTop empty steps) :
    Always (configStep sha256) TopOfHistory empty steps :=
  always_of_invariant TopOfHistory (fun _ _ top ok => top.configStep ok) (fun _ top => top) topOfHistory_empty keeps

/-- A publication, and one more. -/
theorem active_is_top_twice :
    Always (configStep id) TopOfHistory empty
      [.applyConfig 1 { kind := "global" } ∅ [] "a", .applyConfig 2 { kind := "global" } ∅ [] "a"] := by
  refine active_is_top ⟨fun s _ prev present => ?_, fun s valid prev present => ?_, trivial⟩
  · cases present.symm.trans (Bucket.get_empty _)
  · have normal : ConfigScope.validate { kind := "global" } = .ok { kind := "global" } := by decide
    obtain rfl := Except.ok.inj (normal.symm.trans valid)
    have first : ((empty.configStep id (.applyConfig 1 { kind := "global" } ∅ [] "a")).1.activeOf
        (ConfigScope.ID { kind := "global" })).map (·.revision) = some 1 := by decide
    rw [present] at first
    have number : prev.revision = 1 := Option.some.inj first
    rw [number]
    decide

/-- The scope of service `a/b` loses its history when the scope of service `a` is deleted. -/
theorem active_without_history :
    ¬∃ sha256, ∀ steps, Always (configStep sha256) TopOfHistory empty steps := by
  rintro ⟨sha256, always⟩
  let inner : ConfigScope := { kind := "service", service := "a/b" }
  let outer : ConfigScope := { kind := "service", service := "a" }
  have accepted : inner.Accepted := by decide
  have fits : KeyFits (cfgRevKey inner.ID 1) := by decide
  have fresh : empty.activeOf inner.ID = none := Bucket.get_empty _
  obtain ⟨rev, fitsActive, fits, _, _, _, published⟩ :=
    step_first_published sha256 1 [] "u" accepted (by decide : Marshals ∅) fits fresh
  obtain ⟨_, _, final⟩ := always [.applyConfig 1 inner ∅ [] "u", .deleteConfigScope outer]
  rw [published] at final
  have broken : IsTop (((empty.withPublished inner.ID rev fitsActive fits).deleteConfigScopeRaw outer).historyOf
      inner.ID) (((empty.withPublished inner.ID rev fitsActive fits).deleteConfigScopeRaw outer).activeOf
      inner.ID) := final inner.ID
  have differs : inner.ID ≠ outer.ID := by decide
  have active : ((empty.withPublished inner.ID rev fitsActive fits).deleteConfigScopeRaw outer).activeOf inner.ID =
      some rev.json := by
    rw [activeOf_deleteConfigScopeRaw, if_neg differs, activeOf_withPublished, if_pos rfl]
  have inside : outer.ID = inner.ID ∨ outer.ID ++ [slash] <+: inner.ID := Or.inr (by decide)
  rw [active] at broken
  have entry := broken.1
  rw [historyOf_deleteConfigScopeRaw, if_pos inside] at entry
  cases entry

end Store
end Discovery
