import Discovery.Overlay
import Discovery.Store.Pull

namespace Discovery
open Kv
namespace Store

/-- The draft of the scope ID that an event brings. -/
def draftFor (id : GoString) (ev : Event) : Option ConfigDraft := (draft ev).filter (·.scope.ID = id)

/-- The drafts of the scope ID: the one stored and the ones the events bring. -/
def draftsOf (st : Store) (es : List Event) (id : GoString) : Set ConfigDraft :=
  {d | st.draftOf id = some d ∨ ∃ ev ∈ es, draftFor id ev = some d}

/-- An event that brings a draft of the scope overwrites the stored one. -/
theorem draftOf_apply (st : Store) {ev : Event} (keeps : ev.isDeletion = false) (id : GoString) :
    (st.apply ev).draftOf id = (draftFor id ev).or (st.draftOf id) := by
  refine (drafts_merge keeps st (cfgDraftKey id)).trans ?_
  unfold draftFor
  cases brings : draft ev with
  | none => simp only [brings, Option.map_none, Option.filter_none, Option.none_or, draftOf]
  | some d =>
    simp only [brings, Option.map_some, cfgDraftKey_inj, Option.filter_some]
    by_cases here : d.scope.ID = id
    · rw [if_pos here.symm, if_pos (decide_eq_true here), Option.some_or]
      cases st.configDrafts.get (cfgDraftKey id) with
      | none => rfl
      | some old => exact Lww.merge_of_replaces rfl
    · rw [if_neg (Ne.symm here), if_neg (by simpa using here), Option.none_or, draftOf]

/-- The draft delivered last is the one kept. -/
theorem draftOf_applyAll (st : Store) {es : List Event} (keeps : ∀ ev ∈ es, ev.isDeletion = false) (id : GoString) :
    (st.applyAll es).draftOf id = (Overlay.last (draftFor id) es).or (st.draftOf id) := by
  have lays (st : Store) (ev : Event) (member : ev ∈ es) :
      (st.apply ev).draftOf id = ((draftFor id ev).map fun d => d).or (st.draftOf id) := by
    rw [Option.map_id']
    exact draftOf_apply st (keeps ev member) id
  have read := Overlay.read_foldl (fun st : Store => st.draftOf id) lays st
  rwa [Option.map_id'] at read

/-- One event keeps a later draft only where none is stored. -/
theorem draft_stays_iff (st : Store) (p : ConfigDraft) :
    (∀ old, st.draftOf p.json.scope.ID = some old → p.updatedAt < old.updatedAt →
        (st.apply (.configDraftSaved p)).draftOf p.json.scope.ID = some old) ↔
      ∀ old, st.draftOf p.json.scope.ID = some old → old.updatedAt ≤ p.updatedAt := by
  constructor
  · intro stays old stored
    by_contra later
    have kept := stays old stored (Int.not_le.mp later)
    have fits : KeyFits (cfgDraftKey p.json.scope.ID) := Bucket.fits_of_get stored
    rw [draftOf_apply st rfl, draftFor, draft, if_pos fits, Option.filter_some, decide_eq_true rfl, if_pos rfl,
      Option.some_or] at kept
    have same : p.json.updatedAt = old.updatedAt := congrArg ConfigDraft.updatedAt (Option.some.inj kept)
    exact later (Int.le_of_eq same.symm)
  · intro earlier old stored later
    exact absurd later (Int.not_lt.mpr (earlier old stored))

theorem newest_draft_iff (st : Store) {es : List Event} (keeps : ∀ ev ∈ es, ev.isDeletion = false) (id : GoString) :
    Lww.IsNewest ConfigDraft.updatedAt (st.draftsOf es id) ((st.applyAll es).draftOf id) ↔
      ∀ d, Overlay.last (draftFor id) es = some d → ∀ w ∈ st.draftsOf es id, w.updatedAt ≤ d.updatedAt := by
  rw [draftOf_applyAll st keeps]
  cases final : Overlay.last (draftFor id) es with
  | some d =>
    obtain ⟨ev, member, brings⟩ := Overlay.exists_of_last final
    rw [Option.some_or]
    constructor
    · intro newest d' same
      obtain rfl := Option.some.inj same
      exact newest.2
    · intro greatest
      exact ⟨Or.inr ⟨ev, member, brings⟩, greatest d rfl⟩
  | none =>
    have silent (ev : Event) (member : ev ∈ es) (d : ConfigDraft) : draftFor id ev ≠ some d := by
      intro brings
      have speaks := Overlay.last_isSome_iff.mpr ⟨ev, member, Option.isSome_of_eq_some brings⟩
      rw [final] at speaks
      cases speaks
    have stored : st.draftsOf es id = {d | st.draftOf id = some d} := by
      ext d
      exact or_iff_left fun brought => by
        obtain ⟨ev, member, brings⟩ := brought
        exact silent ev member d brings
    rw [Option.none_or, stored]
    refine ⟨fun _ d absent => ?_, fun _ => Lww.IsNewest.self _⟩
    cases absent

/-- A draft event keeps a later draft exactly where none is stored, and a series of deliveries leaves
the newest draft of a scope exactly if none delivered for it is newer than the last. -/
theorem drafts_forward_iff (st : Store) :
    (∀ p, (∀ old, st.draftOf p.json.scope.ID = some old → p.updatedAt < old.updatedAt →
          (st.apply (.configDraftSaved p)).draftOf p.json.scope.ID = some old) ↔
        ∀ old, st.draftOf p.json.scope.ID = some old → old.updatedAt ≤ p.updatedAt) ∧
      ∀ es, (∀ ev ∈ es, ev.isDeletion = false) → ∀ id,
        Lww.IsNewest ConfigDraft.updatedAt (st.draftsOf es id) ((st.applyAll es).draftOf id) ↔
          ∀ d, Overlay.last (draftFor id) es = some d → ∀ w ∈ st.draftsOf es id, w.updatedAt ≤ d.updatedAt :=
  ⟨draft_stays_iff st, fun _ keeps id => newest_draft_iff st keeps id⟩

def savedDraft (t : Time) : ConfigDraft := { scope := { kind := scopeGlobal }, vars := ∅, updatedAt := t }

theorem draftFor_savedDraft (t : Time) :
    draftFor "global" (.configDraftSaved (savedDraft t)) = some (savedDraft t) := by
  have vars : varsJson ∅ = ∅ := mapJson_eq_empty.mpr rfl
  have scope : ({ kind := scopeGlobal } : ConfigScope).json = { kind := scopeGlobal } := by decide
  have clean : (savedDraft t).json = savedDraft t := by
    unfold savedDraft ConfigDraft.json
    rw [vars, scope]
    rfl
  have fits : KeyFits (cfgDraftKey (savedDraft t).scope.ID) :=
    (by decide : KeyFits (cfgDraftKey ({ kind := scopeGlobal } : ConfigScope).ID))
  have here : (savedDraft t).scope.ID = "global" := (by decide : ({ kind := scopeGlobal } : ConfigScope).ID = "global")
  rw [draftFor, draft, clean, if_pos fits, Option.filter_some, decide_eq_true here, if_pos rfl]

/-- Two drafts of one scope, delivered in the order of their times. -/
theorem drafts_forward_iff_ordered :
    Lww.IsNewest ConfigDraft.updatedAt
      (empty.draftsOf [.configDraftSaved (savedDraft 1), .configDraftSaved (savedDraft 2)] "global")
      ((empty.applyAll [.configDraftSaved (savedDraft 1), .configDraftSaved (savedDraft 2)]).draftOf "global") := by
  have keeps : ∀ ev ∈ [Event.configDraftSaved (savedDraft 1), .configDraftSaved (savedDraft 2)],
      ev.isDeletion = false := by
    intro ev member
    simp only [List.mem_cons, List.not_mem_nil, or_false] at member
    rcases member with rfl | rfl <;> rfl
  refine ((drafts_forward_iff empty).2 _ keeps "global").mpr fun d final w member => ?_
  rw [Overlay.last_cons, Overlay.last_cons, draftFor_savedDraft, draftFor_savedDraft] at final
  obtain rfl : savedDraft 2 = d := Option.some.inj final
  rcases member with stored | ⟨ev, listed, brings⟩
  · cases (Bucket.get_empty _).symm.trans stored
  · simp only [List.mem_cons, List.not_mem_nil, or_false] at listed
    rcases listed with rfl | rfl
    · rw [draftFor_savedDraft] at brings
      obtain rfl := Option.some.inj brings
      show (1 : Int) ≤ 2
      decide
    · rw [draftFor_savedDraft] at brings
      obtain rfl := Option.some.inj brings
      exact Int.le_refl _

/-- A late event puts the older draft back. -/
theorem draft_goes_back :
    ¬∀ (st : Store) (p old : ConfigDraft), st.draftOf p.json.scope.ID = some old → p.updatedAt < old.updatedAt →
      (st.apply (.configDraftSaved p)).draftOf p.json.scope.ID = some old := by
  intro stays
  have clean := draft_eq_some.mp (Option.filter_eq_some_iff.mp (draftFor_savedDraft 1)).1
  obtain ⟨_, same, json, fits⟩ := clean
  obtain rfl := Event.configDraftSaved.inj same
  have here : (savedDraft 1).json.scope.ID = "global" := by
    rw [json]
    exact (by decide : ({ kind := scopeGlobal } : ConfigScope).ID = "global")
  have stored : (empty.apply (.configDraftSaved (savedDraft 2))).draftOf (savedDraft 1).json.scope.ID =
      some (savedDraft 2) := by
    rw [here, draftOf_apply empty rfl, draftFor_savedDraft, Option.some_or]
  have kept := stays _ (savedDraft 1) _ stored (by show (1 : Int) < 2; decide)
  rw [here, draftOf_apply _ rfl, draftFor_savedDraft, Option.some_or] at kept
  have times : (1 : Int) = 2 := congrArg ConfigDraft.updatedAt (Option.some.inj kept)
  exact absurd times (by decide)

end Store
end Discovery
