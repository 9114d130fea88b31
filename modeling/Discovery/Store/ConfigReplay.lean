import Discovery.Store.ConfigIsolation
import Discovery.Store.Pull

namespace Discovery
open Kv Machine
namespace Store
variable {sha256 : GoString → GoString} {a b : Store}

/-- The config buckets hold the same for every scope ID. -/
def SameConfig (a b : Store) : Prop := ∀ id, SameScope a b id

/-- `ApplyConfig` gets to write, under the validated scope `s`. -/
structure Publishes (st : Store) (scope : ConfigScope) (vars : Vars) (s : ConfigScope) : Prop where
  valid : scope.validate = .ok s
  marshals : Marshals vars
  fits : KeyFits (cfgRevKey s.ID (st.allocate s.ID))

/-- A publication at `now` that its event repeats: JSON leaves the ID alone, there is no draft to
drop, the number goes up, and the history has no later revision of that number. -/
structure Repeats (st : Store) (now : Time) (s : ConfigScope) : Prop where
  keepsID : s.json.ID = s.ID
  noDraft : st.draftOf s.ID = none
  rises : ∀ act, st.activeOf s.ID = some act → act.revision < nextRevision act.revision
  latest : ∀ old, st.historyOf s.ID (st.allocate s.ID) = some old → old.updatedAt ≤ now

/-- The keys of `id`'s history lie under the prefix of `id`, and so do those of an ID that begins with
`id/`. -/
abbrev Reaches (id j : GoString) : Prop := id = j ∨ id ++ [slash] <+: j

/-- A config step at this store whose events leave a replica with the same config. Where JSON changes
the scope's ID, the event goes to another key: then the step must have nothing to do at either. -/
def Replays (st : Store) : ConfigStep → Prop
  | .applyConfig now scope vars _ _ => ∀ s, st.Publishes scope vars s → st.Repeats now s
  | .rollbackConfig now scope revision _ => ∀ s target,
    st.configRevs.get (cfgRevKey scope.ID revision) = some target → st.Publishes scope target.vars s →
      st.Repeats now s
  | .putDraft now scope vars author => ∀ s, scope.validate = .ok s → Marshals vars → KeyFits (cfgDraftKey s.ID) →
    s.json.ID = s.ID ∨ st.draftOf s.ID = some (st.drafted now s vars author).json ∧
      (KeyFits (cfgDraftKey s.json.ID) → st.draftOf s.json.ID = some (st.drafted now s vars author).json)
  | .deleteDraft scope =>
    scope.json.ID = scope.ID ∨ st.draftOf scope.ID = none ∧ st.draftOf scope.json.ID = none
  | .deleteConfigScope scope =>
    scope.json.ID = scope.ID ∨
      (st.activeOf scope.ID = none ∧ st.activeOf scope.json.ID = none) ∧
      (st.draftOf scope.ID = none ∧ st.draftOf scope.json.ID = none) ∧
      ∀ j, ¬(Reaches scope.ID j ↔ Reaches scope.json.ID j) → ∀ n, st.historyOf j n = none
  | .applyRemote _ => True

theorem nextRevision_ne (n : Int) : nextRevision n ≠ n := by
  simp only [nextRevision, Int.bmod_def]
  omega

theorem allocate_ne {st : Store} {id : GoString} {act : ConfigRevision} (active : st.activeOf id = some act) :
    st.allocate id = nextRevision act.revision ∧ act.revision ≠ st.allocate id := by
  have number : st.allocate id = nextRevision act.revision := by rw [allocate, active]
  exact ⟨number, fun same => nextRevision_ne act.revision (number.symm.trans same.symm)⟩

section Published
variable {rev : ConfigRevision}

theorem active_ne_published (number : rev.revision = a.allocate rev.scope.ID) :
    a.activeOf rev.scope.ID ≠ some rev.json := fun old => (allocate_ne old).2 number

/-- The event of a publication that it repeats is not refused. -/
theorem taken_of_repeats (same : SameConfig a b) (number : rev.revision = a.allocate rev.scope.ID)
    (fits : KeyFits (cfgRevKey rev.scope.ID rev.revision)) (repeats : a.Repeats rev.updatedAt rev.scope) :
    KeyFits rev.json.revKey ∧ ¬b.Superseded rev.json := by
  have keeps : rev.json.scope.ID = rev.scope.ID := repeats.keepsID
  have key : rev.json.revKey = cfgRevKey rev.scope.ID rev.revision := by rw [ConfigRevision.revKey, keeps]; rfl
  refine ⟨key ▸ fits, fun newer => ?_⟩
  obtain ⟨old, stored, later⟩ := superseded_iff.mp newer
  rw [key] at stored
  have entry := ((same rev.scope.ID).history rev.revision).symm.trans stored
  rw [number] at entry
  exact absurd later (Int.not_lt.mpr (repeats.latest old entry))

/-- An event that leaves the replica as the publication left the node has been taken, and under the
same ID. -/
theorem taken_of_sameConfig (same : SameConfig a b) (number : rev.revision = a.allocate rev.scope.ID)
    {fitsActive : KeyFits (cfgActiveKey rev.scope.ID)} {fits : KeyFits (cfgRevKey rev.scope.ID rev.revision)}
    (after : SameConfig (a.withPublished rev.scope.ID rev fitsActive fits) (b.apply (.configApplied rev))) :
    ∃ taken : KeyFits rev.json.revKey ∧ ¬b.Superseded rev.json, rev.scope.ID = rev.json.scope.ID ∧
      b.apply (.configApplied rev) = b.withRevision rev.json taken.1 := by
  have active := (after rev.scope.ID).active
  rw [apply_configApplied, activeOf_withPublished, if_pos rfl] at active
  have changed : b.activeOf rev.scope.ID ≠ some rev.json := by
    rw [(same rev.scope.ID).active]
    exact active_ne_published number
  by_cases taken : KeyFits rev.json.revKey ∧ ¬b.Superseded rev.json
  · rw [dif_pos taken, activeOf_withRevision _ rev.json_idem] at active
    refine ⟨taken, ?_, by rw [apply_configApplied, dif_pos taken]⟩
    by_contra differs
    rw [if_neg differs] at active
    exact changed active
  · rw [dif_neg taken] at active
    exact absurd active changed

theorem repeats_of_sameConfig (same : SameConfig a b) (number : rev.revision = a.allocate rev.scope.ID)
    {fitsActive : KeyFits (cfgActiveKey rev.scope.ID)} {fits : KeyFits (cfgRevKey rev.scope.ID rev.revision)}
    (after : SameConfig (a.withPublished rev.scope.ID rev fitsActive fits) (b.apply (.configApplied rev))) :
    a.Repeats rev.updatedAt rev.scope := by
  have here := same rev.scope.ID
  obtain ⟨taken, keeps, received⟩ := taken_of_sameConfig same number after
  rw [received] at after
  refine ⟨keeps.symm, ?_, fun act present => ?_, fun old entry => ?_⟩
  · have draft := (after rev.scope.ID).draft
    rw [draftOf_withPublished, if_pos rfl] at draft
    exact here.draft.symm.trans draft
  · have active := (after rev.scope.ID).active
    rw [activeOf_withRevision _ rev.json_idem, if_pos keeps, activeOf_withPublished, if_pos rfl, here.active, present,
      Lww.merge] at active
    obtain ⟨next, differs⟩ := allocate_ne present
    by_cases newer : act.stamp < rev.json.stamp
    · rcases ConfigRevision.stamp_lt_iff.mp newer with less | ⟨equal, _⟩
      · rw [← next, ← number]
        exact less
      · exact absurd (equal.trans number) differs
    · rw [if_neg (by simpa using newer)] at active
      exact absurd (present.trans active) (active_ne_published number)
  · by_contra later
    refine taken.2 (superseded_iff.mpr ⟨old, ?_, Int.not_le.mp later⟩)
    rw [← number, ← here.history] at entry
    rw [ConfigRevision.revKey, ← keeps]
    exact entry

end Published

/-- A publication and its event. -/
theorem sameConfig_published (same : SameConfig a b) (rev : ConfigRevision)
    (number : rev.revision = a.allocate rev.scope.ID) (fitsActive : KeyFits (cfgActiveKey rev.scope.ID))
    (fits : KeyFits (cfgRevKey rev.scope.ID rev.revision)) :
    SameConfig (a.withPublished rev.scope.ID rev fitsActive fits) (b.apply (.configApplied rev)) ↔
      a.Repeats rev.updatedAt rev.scope := by
  refine ⟨repeats_of_sameConfig same number, fun repeats j => ?_⟩
  have here := same rev.scope.ID
  have other := same j
  have keeps : rev.json.scope.ID = rev.scope.ID := repeats.keepsID
  rw [apply_configApplied, dif_pos (taken_of_repeats same number fits repeats)]
  constructor
  · rw [activeOf_withRevision _ rev.json_idem, activeOf_withPublished, keeps]
    by_cases mine : j = rev.scope.ID
    · rw [if_pos mine, if_pos mine, mine, here.active]
      cases present : a.activeOf rev.scope.ID with
      | none => rfl
      | some act =>
        have rises := repeats.rises act present
        rw [← (allocate_ne present).1, ← number] at rises
        exact Lww.merge_of_replaces (decide_eq_true (ConfigRevision.stamp_lt_iff.mpr (Or.inl rises)))
    · rw [if_neg mine, if_neg mine, other.active]
  · rw [draftOf_withPublished]
    show b.draftOf j = _
    by_cases mine : j = rev.scope.ID
    · rw [if_pos mine, mine, here.draft, repeats.noDraft]
    · rw [if_neg mine, other.draft]
  · intro n
    rw [historyOf_withRevision _ rev.json_idem, historyOf_withPublished, keeps]
    by_cases mine : j = rev.scope.ID
    · rw [if_pos mine, if_pos mine, recorded, recorded, ConfigRevision.json_revision, other.history]
    · rw [if_neg mine, if_neg mine, other.history]

theorem draftOf_saved (st : Store) (id : GoString) (d : ConfigDraft) (fits : KeyFits (cfgDraftKey id)) (j : GoString) :
    ({ st with configDrafts := st.configDrafts.insert (cfgDraftKey id) d fits } : Store).draftOf j =
      if j = id then some d.json else st.draftOf j := by
  simp only [draftOf, Bucket.get_insert, cfgDraftKey_inj, ConfigDraft.roundTrip_eq]

theorem draftOf_deleteDraftRaw (st : Store) (scope : ConfigScope) (j : GoString) :
    (st.deleteDraftRaw scope).draftOf j = if j = scope.ID then none else st.draftOf j := by
  simp only [draftOf, deleteDraftRaw, Bucket.get_delete, cfgDraftKey_inj]

/-- A save and its event. -/
theorem sameConfig_saved (same : SameConfig a b) {d : ConfigDraft} (fits : KeyFits (cfgDraftKey d.scope.ID)) :
    SameConfig { a with configDrafts := a.configDrafts.insert (cfgDraftKey d.scope.ID) d fits }
        (b.apply (.configDraftSaved d)) ↔
      d.scope.json.ID = d.scope.ID ∨ a.draftOf d.scope.ID = some d.json ∧
        (KeyFits (cfgDraftKey d.scope.json.ID) → a.draftOf d.scope.json.ID = some d.json) := by
  have received (j : GoString) : (b.apply (.configDraftSaved d)).draftOf j =
      if j = d.scope.json.ID ∧ KeyFits (cfgDraftKey d.scope.json.ID) then some d.json else b.draftOf j := by
    have scope : d.json.scope = d.scope.json := rfl
    rw [apply_configDraftSaved]
    by_cases travels : KeyFits (cfgDraftKey d.scope.json.ID)
    · simp only [scope, dif_pos travels]
      have saved := draftOf_saved b d.scope.json.ID d.json travels j
      rw [d.json_idem] at saved
      simpa only [travels, and_true] using saved
    · simp only [scope, travels, dite_false, and_false, if_false]
  have rest (id : GoString) : (b.apply (.configDraftSaved d)).activeOf id = b.activeOf id ∧
      (b.apply (.configDraftSaved d)).historyOf id = b.historyOf id := by
    obtain ⟨active, revs⟩ := apply_keepsRevisions b (show keepsRevisions (.configDraftSaved d) = true from rfl)
    exact ⟨by rw [activeOf, active, activeOf], by funext n; rw [historyOf, revs, historyOf]⟩
  constructor
  · intro after
    by_cases keeps : d.scope.json.ID = d.scope.ID
    · exact Or.inl keeps
    · refine Or.inr ⟨?_, fun travels => ?_⟩
      · have draft := (after d.scope.ID).draft
        rw [received, if_neg (fun both => keeps both.1.symm), draftOf_saved, if_pos rfl] at draft
        exact (same _).draft.symm.trans draft
      · have draft := (after d.scope.json.ID).draft
        rw [received, if_pos ⟨rfl, travels⟩, draftOf_saved, if_neg keeps] at draft
        exact draft.symm
  · intro saved j
    refine ⟨(rest j).1.trans (same j).active, ?_, fun n => ?_⟩
    · rw [received, draftOf_saved, (same j).draft]
      rcases saved with keeps | ⟨own, travelled⟩
      · rw [keeps]
        simp only [fits, and_true]
      · by_cases mine : j = d.scope.ID
        · rw [if_pos mine, mine, own, ite_self]
        · rw [if_neg mine]
          split
          next there => rw [there.1, travelled there.2]
          next => rfl
    · rw [(rest j).2]
      exact (same j).history n

/-- Two deletions under different IDs agree on a register exactly if it is empty at both. -/
theorem cleared_iff {V : Type} {f g : GoString → Option V} (same : ∀ j, g j = f j) {i k : GoString} :
    (∀ j, (if j = k then none else g j) = if j = i then none else f j) ↔
      k = i ∨ f i = none ∧ f k = none := by
  constructor
  · intro agree
    by_cases keeps : k = i
    · exact Or.inl keeps
    · have atI := agree i
      have atK := agree k
      rw [if_neg (Ne.symm keeps), if_pos rfl, same] at atI
      rw [if_pos rfl, if_neg keeps] at atK
      exact Or.inr ⟨atI, atK.symm⟩
  · rintro (rfl | ⟨atI, atK⟩) j
    · rw [same]
    · rw [same]
      by_cases mine : j = i
      · rw [if_pos mine, mine, atI, ite_self]
      · rw [if_neg mine]
        split
        next there => rw [there, atK]
        next => rfl

theorem sameConfig_draftDeleted (same : SameConfig a b) (scope : ConfigScope) :
    SameConfig (a.deleteDraftRaw scope) (b.apply (.configDraftDeleted scope)) ↔
      a.Replays (.deleteDraft scope) := by
  have received : b.apply (.configDraftDeleted scope) = b.deleteDraftRaw scope.json := rfl
  rw [received, Replays, ← cleared_iff fun j => (same j).draft]
  constructor
  · intro after j
    rw [← draftOf_deleteDraftRaw, ← draftOf_deleteDraftRaw]
    exact (after j).draft
  · intro drafts j
    refine ⟨(same j).active, ?_, (same j).history⟩
    rw [draftOf_deleteDraftRaw, draftOf_deleteDraftRaw]
    exact drafts j

theorem sameConfig_deleted (same : SameConfig a b) (scope : ConfigScope) :
    SameConfig (a.deleteConfigScopeRaw scope) (b.apply (.configDeleted scope)) ↔
      a.Replays (.deleteConfigScope scope) := by
  have received : b.apply (.configDeleted scope) = b.deleteConfigScopeRaw scope.json := rfl
  rw [received, Replays]
  constructor
  · intro after
    have active := (cleared_iff fun j => (same j).active).mp fun j => by
      rw [← activeOf_deleteConfigScopeRaw, ← activeOf_deleteConfigScopeRaw]
      exact (after j).active
    have drafts := (cleared_iff fun j => (same j).draft).mp fun j => by
      rw [← draftOf_deleteConfigScopeRaw, ← draftOf_deleteConfigScopeRaw]
      exact (after j).draft
    by_cases keeps : scope.json.ID = scope.ID
    · exact Or.inl keeps
    · refine Or.inr ⟨active.resolve_left keeps, drafts.resolve_left keeps, fun j differ n => ?_⟩
      have entry := (after j).history n
      rw [historyOf_deleteConfigScopeRaw, historyOf_deleteConfigScopeRaw, (same j).history] at entry
      -- exactly one of the two deletions takes the entry
      by_cases mine : Reaches scope.ID j
      · have other : ¬Reaches scope.json.ID j := fun there => differ ⟨fun _ => there, fun _ => mine⟩
        rw [if_neg other, if_pos mine] at entry
        exact entry
      · have there : Reaches scope.json.ID j := not_not.mp fun other =>
          differ ⟨fun own => absurd own mine, fun its => absurd its other⟩
        rw [if_pos there, if_neg mine] at entry
        exact entry.symm
  · intro repeats j
    have active := (cleared_iff fun j => (same j).active).mpr (repeats.imp_right fun empty => empty.1)
    have drafts := (cleared_iff fun j => (same j).draft).mpr (repeats.imp_right fun empty => empty.2.1)
    constructor
    · rw [activeOf_deleteConfigScopeRaw, activeOf_deleteConfigScopeRaw]
      exact active j
    · rw [draftOf_deleteConfigScopeRaw, draftOf_deleteConfigScopeRaw]
      exact drafts j
    · intro n
      rw [historyOf_deleteConfigScopeRaw, historyOf_deleteConfigScopeRaw, (same j).history]
      rcases repeats with keeps | ⟨_, _, outside⟩
      · rw [keeps]
      · by_cases agree : Reaches scope.ID j ↔ Reaches scope.json.ID j
        · exact if_congr agree.symm rfl rfl
        · rw [outside j agree n, ite_self, ite_self]

theorem sameConfig_applyConfig (sha256 : GoString → GoString) (same : SameConfig a b) (now : Time)
    (scope : ConfigScope) (vars : Vars) (note author : GoString) :
    SameConfig (a.settle (a.applyConfig sha256 now scope vars note author)).1
        (b.applyAll (a.settle (a.applyConfig sha256 now scope vars note author)).2) ↔
      ∀ s, a.Publishes scope vars s → a.Repeats now s := by
  cases run : a.applyConfig sha256 now scope vars note author with
  | error e =>
    refine ⟨fun _ s publishes => ?_, fun _ => same⟩
    obtain ⟨r, done⟩ : ∃ r, a.applyConfig sha256 now scope vars note author = .ok r :=
      ⟨_, applyConfig_eq_ok.mpr ⟨s, publishes.valid, publishes.marshals, fits_cfgActiveKey publishes.fits,
        publishes.fits, rfl⟩⟩
    cases run.symm.trans done
  | ok r =>
    obtain ⟨s, valid, marshals, fitsActive, fits, rfl⟩ := applyConfig_eq_ok.mp run
    have publishes : a.Publishes scope vars s := ⟨valid, marshals, fits⟩
    have event := sameConfig_published same (a.published sha256 now s vars note author) rfl fitsActive fits
    rw [settle, applyAll_cons, applyAll_nil]
    refine event.trans ⟨fun repeats s' publishes' => ?_, fun all => all s publishes⟩
    obtain rfl := Except.ok.inj (valid.symm.trans publishes'.valid)
    exact repeats

theorem sameConfig_step (sha256 : GoString → GoString) (same : SameConfig a b) {step : ConfigStep}
    (own : step.isLocal = true) :
    SameConfig (a.configStep sha256 step).1 (b.applyAll (a.configStep sha256 step).2) ↔ a.Replays step := by
  cases step with
  | applyConfig now scope vars note author => exact sameConfig_applyConfig sha256 same now scope vars note author
  | rollbackConfig now scope revision author =>
    rw [configStep, Replays, rollbackConfig, read]
    cases a.configRevs.get (cfgRevKey scope.ID revision) with
    | none =>
      refine ⟨fun _ s target absent => ?_, fun _ => same⟩
      cases absent
    | some target =>
      have again := sameConfig_applyConfig sha256 same now scope target.vars
        (ofString "rollback to revision " ++ formatInt revision) author
      refine again.trans ⟨fun all s target' found => ?_, fun all s => all s target rfl⟩
      obtain rfl := Option.some.inj found
      exact all s
  | putDraft now scope vars author =>
    rw [configStep, Replays]
    cases run : a.putDraft now scope vars author with
    | error e =>
      refine ⟨fun _ s valid marshals fits => ?_, fun _ => same⟩
      cases run.symm.trans (putDraft_eq_ok.mpr ⟨s, valid, marshals, fits, rfl⟩)
    | ok r =>
      obtain ⟨s, valid, marshals, fits, rfl⟩ := putDraft_eq_ok.mp run
      have event := sameConfig_saved same (d := a.drafted now s vars author) fits
      refine event.trans ⟨fun saved s' valid' _ _ => ?_, fun all => all s valid marshals fits⟩
      obtain rfl := Except.ok.inj (valid.symm.trans valid')
      exact saved
  | deleteDraft scope => exact sameConfig_draftDeleted same scope
  | deleteConfigScope scope => exact sameConfig_deleted same scope
  | applyRemote ev => cases own

/-- A node that starts with the same config and applies the events of the local operations in order
has the same config at every moment exactly if every operation is one that its event repeats. -/
theorem config_replays_iff (sha256 : GoString → GoString) {a b : Store} (same : SameConfig a b)
    {steps : List ConfigStep} (own : ∀ step ∈ steps, step.isLocal = true) :
    (∀ pre, pre <+: steps →
        SameConfig (exec (configStep sha256) a pre).1 (b.applyAll (exec (configStep sha256) a pre).2)) ↔
      Meets (configStep sha256) Replays a steps := by
  have keeps (a b : Store) (step : ConfigStep) (same : SameConfig a b) (own : step.isLocal = true) :
      SameConfig (a.configStep sha256 step).1 ((a.configStep sha256 step).2.foldl apply b) ↔ a.Replays step :=
    sameConfig_step sha256 same own
  exact replay_iff_meets apply keeps same own

theorem sameConfig_refl (a : Store) : SameConfig a a := fun _ => ⟨rfl, rfl, fun _ => rfl⟩

theorem global_of_validate {s : ConfigScope} (valid : ConfigScope.validate { kind := scopeGlobal } = .ok s) :
    s = { kind := scopeGlobal } := by
  have accepted : ConfigScope.validate { kind := scopeGlobal } = .ok { kind := scopeGlobal } := by decide
  exact (Except.ok.inj (accepted.symm.trans valid)).symm

/-- A publication, a draft that is dropped again, and the deletion of the scope. -/
theorem config_replays_iff_global :
    SameConfig
      (exec (configStep id) empty [.applyConfig 1 { kind := scopeGlobal } ∅ [] "a",
        .putDraft 2 { kind := scopeGlobal } ∅ "a", .deleteDraft { kind := scopeGlobal },
        .deleteConfigScope { kind := scopeGlobal }]).1
      (empty.applyAll (exec (configStep id) empty [.applyConfig 1 { kind := scopeGlobal } ∅ [] "a",
        .putDraft 2 { kind := scopeGlobal } ∅ "a", .deleteDraft { kind := scopeGlobal },
        .deleteConfigScope { kind := scopeGlobal }]).2) := by
  have own : ∀ step ∈ ([.applyConfig 1 { kind := scopeGlobal } ∅ [] "a", .putDraft 2 { kind := scopeGlobal } ∅ "a",
      .deleteDraft { kind := scopeGlobal }, .deleteConfigScope { kind := scopeGlobal }] : List ConfigStep),
      step.isLocal = true := by
    intro step member
    simp only [List.mem_cons, List.not_mem_nil, or_false] at member
    rcases member with rfl | rfl | rfl | rfl <;> rfl
  refine (config_replays_iff id (sameConfig_refl empty) own).mpr
    ⟨fun s publishes => ?_, fun s valid _ _ => ?_, Or.inl (by decide), Or.inl (by decide), trivial⟩ _ List.prefix_rfl
  · obtain rfl := global_of_validate publishes.valid
    exact {
      keepsID := by decide
      noDraft := Bucket.get_empty _
      rises := fun act present => by cases (Bucket.get_empty _).symm.trans present
      latest := fun old entry => by cases (Bucket.get_empty _).symm.trans entry }
  · obtain rfl := global_of_validate valid
    exact Or.inl (by decide)

/-- A draft is saved and the scope published: the other node keeps the draft. -/
theorem config_not_replayed :
    ¬∃ sha256, ∀ (a b : Store) (steps : List ConfigStep), a.configActive = b.configActive →
      a.configRevs = b.configRevs → a.configDrafts = b.configDrafts → (∀ step ∈ steps, step.isLocal = true) →
        SameConfig (exec (configStep sha256) a steps).1 (b.applyAll (exec (configStep sha256) a steps).2) := by
  rintro ⟨sha256, reproduces⟩
  let scope : ConfigScope := { kind := scopeGlobal }
  let d := empty.drafted 1 scope ∅ "a"
  have fits : KeyFits (cfgDraftKey scope.ID) := by decide
  let saved : Store := { empty with configDrafts := empty.configDrafts.insert (cfgDraftKey scope.ID) d fits }
  have run : empty.putDraft 1 scope ∅ "a" = .ok ⟨d, saved, [.configDraftSaved d]⟩ :=
    putDraft_eq_ok.mpr ⟨scope, by decide, by decide, fits, rfl⟩
  have first : empty.configStep sha256 (.putDraft 1 scope ∅ "a") = (saved, [.configDraftSaved d]) := by
    rw [configStep, run, settle]
  have received : SameConfig saved (empty.applyAll [.configDraftSaved d]) := by
    have event := sameConfig_saved (sameConfig_refl empty) (d := d) fits
    exact event.mpr (Or.inl (by decide))
  have both := reproduces empty empty [.putDraft 1 scope ∅ "a", .applyConfig 2 scope ∅ [] "a"] rfl rfl rfl (by
    intro step member
    simp only [List.mem_cons, List.not_mem_nil, or_false] at member
    rcases member with rfl | rfl <;> rfl)
  have run₂ : exec (configStep sha256) empty [.putDraft 1 scope ∅ "a", .applyConfig 2 scope ∅ [] "a"] =
      ((saved.configStep sha256 (.applyConfig 2 scope ∅ [] "a")).1,
        [.configDraftSaved d] ++ (saved.configStep sha256 (.applyConfig 2 scope ∅ [] "a")).2) := by
    simp only [exec, first, List.append_nil]
  rw [run₂, applyAll_append] at both
  have number : saved.allocate scope.ID = 1 := by
    rw [allocate]
    have absent : saved.activeOf scope.ID = none := Bucket.get_empty _
    rw [absent]
  have publishes : saved.Publishes scope ∅ scope := ⟨by decide, by decide, number ▸ (by decide)⟩
  have repeats := (sameConfig_applyConfig sha256 received 2 scope ∅ [] "a").mp both scope publishes
  have draft := draftOf_saved empty scope.ID d fits scope.ID
  rw [if_pos rfl] at draft
  cases draft.symm.trans repeats.noDraft

end Store
end Discovery
