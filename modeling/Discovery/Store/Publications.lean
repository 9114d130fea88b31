import Discovery.Store.ConfigHistory

namespace Discovery
open Kv Machine

/-- Publications, rollbacks and draft operations. -/
def ConfigStep.isEdit : ConfigStep → Bool
  | .applyConfig .. | .rollbackConfig .. | .putDraft .. | .deleteDraft _ => true
  | .deleteConfigScope _ | .applyRemote _ => false

namespace Store
variable (sha256 : GoString → GoString)

/-- The revision a call returns that publishes one. -/
def publication (st : Store) : ConfigStep → Option ConfigRevision
  | .applyConfig now scope vars note author =>
    (st.applyConfig sha256 now scope vars note author).toOption.map (·.value)
  | .rollbackConfig now scope revision author =>
    (st.rollbackConfig sha256 now scope revision author).toOption.map (·.value)
  | _ => none

/-- The revisions a run publishes, the first one first. -/
def publications (st : Store) : List ConfigStep → List ConfigRevision
  | [] => []
  | step :: steps => (st.publication sha256 step).toList ++ publications (st.configStep sha256 step).1 steps

/-- Those of one scope ID. -/
def under (id : GoString) (log : List ConfigRevision) : List ConfigRevision := log.filter (·.scope.ID = id)

/-- `rev` says what the call was given: the scope as validated, the variables, their hashes, note and
author. A rollback takes the variables from the history. -/
def Says (st : Store) (rev : ConfigRevision) : ConfigStep → Prop
  | .applyConfig now scope vars note author =>
    scope.validate = .ok rev.scope ∧ rev.vars = vars ∧ rev.hashes = some (hashVars sha256 vars) ∧
      rev.note = note ∧ rev.author = author ∧ rev.updatedAt = now
  | .rollbackConfig now scope revision author =>
    ∃ target, st.historyOf scope.ID revision = some target ∧ scope.validate = .ok rev.scope ∧
      rev.vars = target.vars ∧ rev.hashes = some (hashVars sha256 target.vars) ∧
      rev.note = ofString "rollback to revision " ++ formatInt revision ∧ rev.author = author ∧
      rev.updatedAt = now
  | _ => False

/-- Active revision and history of an ID are the same in both stores. -/
def SameRevisions (st st' : Store) : Prop :=
  ∀ id, st'.activeOf id = st.activeOf id ∧ st'.historyOf id = st.historyOf id

variable {sha256} {st : Store}

/-- A publication gives the revision the next number of its scope and makes it the active one. -/
theorem publication_applyConfig {now : Time} {scope : ConfigScope} {vars : Vars} {note author : GoString}
    {r : Outcome ConfigRevision} (run : st.applyConfig sha256 now scope vars note author = .ok r) :
    ∃ fitsActive fits, r.store = st.withPublished r.value.scope.ID r.value fitsActive fits ∧
      r.value.revision = st.allocate r.value.scope.ID ∧
      st.Says sha256 r.value (.applyConfig now scope vars note author) := by
  obtain ⟨s, valid, _, fitsActive, fits, rfl⟩ := applyConfig_eq_ok.mp run
  exact ⟨fitsActive, fits, rfl, rfl, valid, rfl, rfl, rfl, rfl, rfl⟩

/-- A step either publishes nothing and changes no revision, or it publishes the next one of its
scope. -/
theorem publication_cases (sha256 : GoString → GoString) (st : Store) {step : ConfigStep} (edit : step.isEdit = true) :
    st.publication sha256 step = none ∧ SameRevisions st (st.configStep sha256 step).1 ∨
      ∃ rev fitsActive fits, st.publication sha256 step = some rev ∧
        (st.configStep sha256 step).1 = st.withPublished rev.scope.ID rev fitsActive fits ∧
        rev.revision = st.allocate rev.scope.ID ∧ st.Says sha256 rev step := by
  cases step with
  | applyConfig now scope vars note author =>
    rw [publication, configStep]
    cases run : st.applyConfig sha256 now scope vars note author with
    | error e => exact Or.inl ⟨rfl, fun _ => ⟨rfl, rfl⟩⟩
    | ok r =>
      obtain ⟨fitsActive, fits, store, number, says_⟩ := publication_applyConfig run
      exact Or.inr ⟨r.value, fitsActive, fits, rfl, store, number, says_⟩
  | rollbackConfig now scope revision author =>
    rw [publication, configStep]
    cases run : st.rollbackConfig sha256 now scope revision author with
    | error e => exact Or.inl ⟨rfl, fun _ => ⟨rfl, rfl⟩⟩
    | ok r =>
      obtain ⟨target, found, again⟩ := rollbackConfig_eq_ok.mp run
      obtain ⟨fitsActive, fits, store, number, says_⟩ := publication_applyConfig again
      exact Or.inr ⟨r.value, fitsActive, fits, rfl, store, number, target, found, says_⟩
  | putDraft now scope vars author =>
    refine Or.inl ⟨rfl, ?_⟩
    refine settle_store (SameRevisions st) (fun _ => ⟨rfl, rfl⟩) fun r run => ?_
    obtain ⟨_, _, _, _, rfl⟩ := putDraft_eq_ok.mp run
    exact fun _ => ⟨rfl, rfl⟩
  | deleteDraft scope => exact Or.inl ⟨rfl, fun _ => ⟨rfl, rfl⟩⟩
  | deleteConfigScope scope => cases edit
  | applyRemote ev => cases edit

structure Ledger (st : Store) (id : GoString) (own : List ConfigRevision) : Prop where
  active : st.activeOf id = own.getLast?.map ConfigRevision.json
  entries : ∀ n, st.historyOf id n = if 1 ≤ n then own[(n - 1).toNat]?.map ConfigRevision.json else none
  numbered : ∀ (i : Nat) r, own[i]? = some r → r.revision = i + 1

theorem ledger_empty (id : GoString) : Ledger empty id [] where
  active := Bucket.get_empty _
  entries n := by
    rw [List.getElem?_nil, Option.map_none, ite_self]
    exact Bucket.get_empty _
  numbered i r absent := by cases absent

/-- The ledger of a scope depends on the two registers of the scope alone. -/
theorem Ledger.congr {st' : Store} {id : GoString} {own : List ConfigRevision} (ledger : Ledger st id own)
    (active : st'.activeOf id = st.activeOf id) (history : st'.historyOf id = st.historyOf id) :
    Ledger st' id own where
  active := active.trans ledger.active
  entries n := by rw [history, ledger.entries]
  numbered := ledger.numbered

/-- The next number is the count of the publications so far, plus one, until the counter is full. -/
theorem Ledger.allocate {id : GoString} {own : List ConfigRevision} (ledger : Ledger st id own)
    (few : own.length + 1 < 2 ^ 63) : st.allocate id = own.length + 1 := by
  rw [Store.allocate, ledger.active]
  rcases List.eq_nil_or_concat own with rfl | ⟨init, r, rfl⟩
  · rfl
  · have last : r.revision = init.length + 1 := ledger.numbered init.length r (by simp)
    simp only [List.concat_eq_append, List.getLast?_append, List.getLast?_singleton, Option.some_or, Option.map_some,
      ConfigRevision.json_revision, last, nextRevision, Int.bmod_def, List.length_append, List.length_singleton] at few ⊢
    omega

/-- A publication under the ID is added to its ledger. -/
theorem Ledger.publish {id : GoString} {own : List ConfigRevision} (ledger : Ledger st id own)
    (few : own.length + 1 < 2 ^ 63) {rev : ConfigRevision} (fitsActive : KeyFits (cfgActiveKey id))
    (fits : KeyFits (cfgRevKey id rev.revision)) (number : rev.revision = st.allocate id) :
    Ledger (st.withPublished id rev fitsActive fits) id (own ++ [rev]) := by
  rw [ledger.allocate few] at number
  constructor
  · rw [activeOf_withPublished, if_pos rfl]
    simp
  · intro n
    rw [historyOf_withPublished, if_pos rfl, recorded, ConfigRevision.json_revision, ledger.entries]
    by_cases here : n = rev.revision
    · have index : (n - 1).toNat = own.length := by omega
      have positive : 1 ≤ n := by omega
      rw [if_pos here, if_pos positive, index]
      simp
    · rw [if_neg here]
      by_cases positive : 1 ≤ n
      · rw [if_pos positive, if_pos positive]
        by_cases earlier : (n - 1).toNat < own.length
        · rw [List.getElem?_append_left earlier]
        · have beyond : own.length + 1 ≤ (n - 1).toNat := by omega
          rw [List.getElem?_eq_none (by omega), List.getElem?_eq_none (by simpa using beyond)]
      · rw [if_neg positive, if_neg positive]
  · intro i r at_
    by_cases earlier : i < own.length
    · rw [List.getElem?_append_left earlier] at at_
      exact ledger.numbered i r at_
    · have last : i = own.length := by
        have inside := (List.getElem?_eq_some_iff.mp at_).1
        simp only [List.length_append, List.length_singleton] at inside
        omega
      subst last
      simp only [List.getElem?_append_right (Nat.le_refl _), Nat.sub_self, List.getElem?_cons_zero,
        Option.some.injEq] at at_
      rw [← at_, number]

/-- Drafts and publications of other IDs leave the ledger, and a failed publication adds nothing. -/
theorem Ledger.step {id : GoString} {own : List ConfigRevision} (ledger : Ledger st id own) {step : ConfigStep}
    (edit : step.isEdit = true)
    (few : (own ++ under id (st.publication sha256 step).toList).length < 2 ^ 63) :
    Ledger (st.configStep sha256 step).1 id (own ++ under id (st.publication sha256 step).toList) := by
  rcases publication_cases sha256 st edit with ⟨silent, same⟩ | ⟨rev, fitsActive, fits, found, store, number, _⟩
  · rw [silent]
    have nothing : own ++ under id (none : Option ConfigRevision).toList = own := List.append_nil own
    rw [nothing]
    exact ledger.congr (same id).1 (same id).2
  · rw [found] at few ⊢
    rw [store]
    by_cases here : rev.scope.ID = id
    · have mine : under id (some rev).toList = [rev] := by simp [under, here]
      rw [mine] at few ⊢
      subst here
      have few' : own.length + 1 < 2 ^ 63 := by simpa using few
      exact ledger.publish few' fitsActive fits number
    · have other : under id (some rev).toList = [] := by simp [under, here]
      rw [other, List.append_nil]
      refine ledger.congr ?_ ?_
      · rw [activeOf_withPublished, if_neg (Ne.symm here)]
      · rw [historyOf_withPublished, if_neg (Ne.symm here)]

theorem under_append (id : GoString) (log log' : List ConfigRevision) :
    under id (log ++ log') = under id log ++ under id log' :=
  List.filter_append ..

/-- Over a run the ledger grows by what is published under the ID. -/
theorem Ledger.run (sha256 : GoString → GoString) {id : GoString} {own : List ConfigRevision} (ledger : Ledger st id own) {steps : List ConfigStep}
    (edits : ∀ step ∈ steps, step.isEdit = true)
    (few : (own ++ under id (publications sha256 st steps)).length < 2 ^ 63) :
    Ledger (exec (configStep sha256) st steps).1 id (own ++ under id (publications sha256 st steps)) := by
  induction steps generalizing st own with
  | nil =>
    have nothing : own ++ under id (publications sha256 st []) = own := List.append_nil own
    rw [nothing]
    exact ledger
  | cons step steps ih =>
    obtain ⟨first, rest⟩ := List.forall_mem_cons.mp edits
    have split : own ++ under id (publications sha256 st (step :: steps)) =
        own ++ under id (st.publication sha256 step).toList ++
          under id (publications sha256 (st.configStep sha256 step).1 steps) := by
      rw [publications, under_append, List.append_assoc]
    rw [split] at few ⊢
    have few' : (own ++ under id (st.publication sha256 step).toList).length < 2 ^ 63 := by
      rw [List.length_append] at few
      omega
    exact ih (ledger.step first few') rest few

/-- A step publishes one revision at most. -/
theorem length_publications (sha256 : GoString → GoString) (st : Store) (steps : List ConfigStep) :
    (publications sha256 st steps).length ≤ steps.length := by
  induction steps generalizing st with
  | nil => exact Nat.le_refl 0
  | cons step steps ih =>
    have one : (st.publication sha256 step).toList.length ≤ 1 := by cases st.publication sha256 step <;> simp
    have rest := ih (st.configStep sha256 step).1
    rw [publications, List.length_append, List.length_cons]
    omega

theorem publications_append (steps more : List ConfigStep) :
    publications sha256 st (steps ++ more) =
      publications sha256 st steps ++ publications sha256 (exec (configStep sha256) st steps).1 more := by
  induction steps generalizing st with
  | nil => rfl
  | cons step steps ih =>
    rw [List.cons_append, publications, publications, ih, List.append_assoc, exec]

/-- After `own` was published: the active number counts the publications, the history keys are exactly
these numbers, and each entry is what was written. -/
structure Contiguous (st : Store) (id : GoString) (own : List ConfigRevision) : Prop where
  active : (st.activeOf id).map (·.revision) = if own.length = 0 then none else some (own.length : Int)
  keys : ∀ n, (st.historyOf id n).isSome ↔ 1 ≤ n ∧ n ≤ own.length
  entry : ∀ (i : Nat) r, own[i]? = some r → st.historyOf id (i + 1) = some r.json

/-- A ledger numbers the history from one on, without a gap, and its last revision is the active one. -/
theorem Ledger.contiguous {id : GoString} {own : List ConfigRevision} (ledger : Ledger st id own) :
    Contiguous st id own where
  active := by
    rw [ledger.active]
    rcases List.eq_nil_or_concat own with rfl | ⟨init, r, rfl⟩
    · rfl
    · have last : r.revision = init.length + 1 := ledger.numbered init.length r (by simp)
      simp [last]
  keys n := by
    rw [ledger.entries]
    by_cases positive : 1 ≤ n
    · have index : n.toNat - 1 < own.length ↔ n ≤ own.length := by omega
      simp [positive, index]
    · simp [positive]
  entry i r at_ := by
    have positive : (1 : Int) ≤ i + 1 := by omega
    have index : ((i : Int) + 1 - 1).toNat = i := by omega
    rw [ledger.entries, if_pos positive, index, at_, Option.map_some]

/-- In a run of publications, rollbacks and draft operations from the empty store the history of an ID
is contiguous, its entries never change, and nothing else touches a revision. -/
theorem history_contiguous (sha256 : GoString → GoString) {steps : List ConfigStep}
    (edits : ∀ step ∈ steps, step.isEdit = true) {id : GoString}
    (few : (under id (publications sha256 empty steps)).length < 2 ^ 63) :
    Contiguous (exec (configStep sha256) empty steps).1 id (under id (publications sha256 empty steps)) ∧
      (∀ pre, pre <+: steps → ∀ n : Int, 1 ≤ n → n ≤ (under id (publications sha256 empty pre)).length →
        (exec (configStep sha256) empty steps).1.historyOf id n =
          (exec (configStep sha256) empty pre).1.historyOf id n) ∧
      ∀ (st : Store) (step : ConfigStep), step.isEdit = true →
        (∀ rev, st.publication sha256 step = some rev → st.Says sha256 rev step) ∧
          (st.publication sha256 step = none → SameRevisions st (st.configStep sha256 step).1) := by
  have ledger := (ledger_empty id).run sha256 edits few
  rw [List.nil_append] at ledger
  refine ⟨ledger.contiguous, fun pre short n positive small => ?_, fun st step edit => ?_⟩
  · obtain ⟨more, rfl⟩ := short
    rw [publications_append, under_append] at ledger few
    have fewer : (under id (publications sha256 empty pre)).length < 2 ^ 63 := by
      rw [List.length_append] at few
      omega
    have before := (ledger_empty id).run sha256 (fun step member => edits step (List.mem_append_left more member)) fewer
    rw [List.nil_append] at before
    rw [ledger.entries, before.entries, if_pos positive, if_pos positive, List.getElem?_append_left (by omega)]
  · rcases publication_cases sha256 st edit with ⟨silent, same⟩ | ⟨rev, _, _, found, _, _, says_⟩
    · refine ⟨fun rev found => ?_, fun _ => same⟩
      cases silent.symm.trans found
    · refine ⟨fun rev' found' => ?_, fun silent => ?_⟩
      · obtain rfl := Option.some.inj (found.symm.trans found')
        exact says_
      · cases silent.symm.trans found

/-- Two publications of one scope with a draft between them. -/
theorem history_contiguous_twice :
    Contiguous
      (exec (configStep id) empty [.applyConfig 1 { kind := scopeGlobal } ∅ [] "a",
        .putDraft 2 { kind := scopeGlobal } ∅ "b", .rollbackConfig 3 { kind := scopeGlobal } 1 "a"]).1 "global"
      (under "global" (publications id empty [.applyConfig 1 { kind := scopeGlobal } ∅ [] "a",
        .putDraft 2 { kind := scopeGlobal } ∅ "b", .rollbackConfig 3 { kind := scopeGlobal } 1 "a"])) := by
  refine (history_contiguous id ?_ ?_).1
  · intro step member
    simp only [List.mem_cons, List.not_mem_nil, or_false] at member
    rcases member with rfl | rfl | rfl <;> rfl
  · have short := length_publications id empty [.applyConfig 1 { kind := scopeGlobal } ∅ [] "a",
      .putDraft 2 { kind := scopeGlobal } ∅ "b", .rollbackConfig 3 { kind := scopeGlobal } 1 "a"]
    have fewer := List.length_filter_le (fun r : ConfigRevision => decide (r.scope.ID = "global"))
      (publications id empty [.applyConfig 1 { kind := scopeGlobal } ∅ [] "a",
        .putDraft 2 { kind := scopeGlobal } ∅ "b", .rollbackConfig 3 { kind := scopeGlobal } 1 "a"])
    simp only [List.length_cons, List.length_nil] at short
    rw [under]
    omega

/-- The key of a revision can be stored when the ID is not too long. -/
theorem fits_cfgRevKey {id : GoString} {n : Int} (short : id.length ≤ 32000) (small : n.natAbs < 10 ^ 20) :
    KeyFits (cfgRevKey id n) := by
  have digits : (decimal n.natAbs).length ≤ 20 := by
    rw [decimal, List.length_map]
    exact (Nat.length_toDigits_le_iff (by decide) (by decide)).mpr small
  have size : (ofString "rev/").length = 4 := by decide
  refine ⟨by simp [cfgRevKey_eq, ofString], ?_⟩
  rw [cfgRevKey_eq, padRevision]
  simp only [List.length_append, List.length_cons, List.length_replicate, size, revPad, maxKeySize]
  split
  · have minus : (ofString "-").length = 1 := by decide
    omega
  · simp only [List.length_nil]
    omega

section Wraps
variable (sha256)

def publishGlobal (now : Time) : ConfigStep := .applyConfig now { kind := scopeGlobal } ∅ [] "a"

theorem ID_global : ConfigScope.ID { kind := scopeGlobal } = "global" := by decide

theorem run_publishGlobal (st : Store) (now : Time) (small : (st.allocate "global").natAbs < 10 ^ 20) :
    ∃ r fitsActive fits, st.applyConfig sha256 now { kind := scopeGlobal } ∅ [] "a" = .ok r ∧
      r.value.scope = { kind := scopeGlobal } ∧ r.value.revision = st.allocate "global" ∧ r.value.updatedAt = now ∧
      r.store = st.withPublished "global" r.value fitsActive fits := by
  have fits : KeyFits (cfgRevKey "global" (st.allocate "global")) := fits_cfgRevKey (by decide) small
  have run : st.applyConfig sha256 now { kind := scopeGlobal } ∅ [] "a" =
      .ok ⟨st.published sha256 now { kind := scopeGlobal } ∅ [] "a",
        st.withPublished "global" (st.published sha256 now { kind := scopeGlobal } ∅ [] "a")
          (fits_cfgActiveKey fits) fits,
        [.configApplied (st.published sha256 now { kind := scopeGlobal } ∅ [] "a")]⟩ :=
    applyConfig_eq_ok.mpr ⟨{ kind := scopeGlobal }, by decide, by decide, fits_cfgActiveKey fits, fits, rfl⟩
  refine ⟨⟨st.published sha256 now { kind := scopeGlobal } ∅ [] "a", _, _⟩, fits_cfgActiveKey fits, fits, run, ?_⟩
  exact ⟨rfl, rfl, rfl, rfl⟩

theorem step_publishGlobal {st : Store} {now : Time} {r : Outcome ConfigRevision}
    (run : st.applyConfig sha256 now { kind := scopeGlobal } ∅ [] "a" = .ok r) :
    st.publication sha256 (publishGlobal now) = some r.value ∧ (st.configStep sha256 (publishGlobal now)).1 = r.store := by
  rw [publishGlobal, publication, configStep, run]
  exact ⟨rfl, rfl⟩

theorem exec_replicate_succ (n : Nat) :
    (exec (configStep sha256) empty (List.replicate (n + 1) (publishGlobal 1))).1 =
      ((exec (configStep sha256) empty (List.replicate n (publishGlobal 1))).1.configStep sha256 (publishGlobal 1)).1 := by
  rw [List.replicate_succ', exec_append]
  rfl

/-- As long as the number does not wrap, each of the publications succeeds. -/
theorem under_replicate (n : Nat) (few : n < 2 ^ 63) :
    (under "global" (publications sha256 empty (List.replicate n (publishGlobal 1)))).length = n := by
  induction n with
  | zero => rfl
  | succ n ih =>
    have length := ih (by omega)
    have edits : ∀ step ∈ List.replicate n (publishGlobal 1), step.isEdit = true := by
      intro step member
      rw [List.eq_of_mem_replicate member]
      rfl
    have ledger := (ledger_empty "global").run sha256 edits (by rw [List.nil_append]; omega)
    rw [List.nil_append] at ledger
    have number := ledger.allocate (by omega)
    obtain ⟨r, _, _, run, scope, _, _, _⟩ := run_publishGlobal sha256 _ 1 (by rw [number, length]; omega)
    have here : r.value.scope.ID = "global" := by rw [scope, ID_global]
    have found := (step_publishGlobal sha256 run).1
    rw [List.replicate_succ', publications_append, under_append, List.length_append, length, publications, found]
    simp [publications, under, here]

/-- The number of the 2^63rd publication of a scope is negative. -/
theorem history_wraps :
    ¬∃ sha256, ∀ (steps : List ConfigStep) (id : GoString), (∀ step ∈ steps, step.isEdit = true) →
      Contiguous (exec (configStep sha256) empty steps).1 id (under id (publications sha256 empty steps)) := by
  rintro ⟨sha256, contiguous⟩
  have edits (n : Nat) : ∀ step ∈ List.replicate n (publishGlobal 1), step.isEdit = true := by
    intro step member
    rw [List.eq_of_mem_replicate member]
    rfl
  have length := under_replicate sha256 (2 ^ 63 - 1) (by decide)
  have before := (contiguous (List.replicate (2 ^ 63 - 1) (publishGlobal 1)) "global" (edits _)).active
  have after := (contiguous (List.replicate (2 ^ 63 - 1 + 1) (publishGlobal 1)) "global" (edits _)).active
  rw [length] at before
  obtain ⟨act, active, number⟩ := Option.map_eq_some_iff.mp before
  have next : (exec (configStep sha256) empty (List.replicate (2 ^ 63 - 1) (publishGlobal 1))).1.allocate "global" =
      -2 ^ 63 := by
    rw [allocate, active]
    show nextRevision act.revision = _
    rw [number]
    decide
  obtain ⟨r, fitsActive, fits, run, _, number', _, store⟩ := run_publishGlobal sha256 _ 1 (by rw [next]; decide)
  rw [exec_replicate_succ, (step_publishGlobal sha256 run).2, store, activeOf_withPublished, if_pos rfl, Option.map_some, ConfigRevision.json_revision,
    number', next] at after
  split at after
  · cases after
  · have negative := Option.some.inj after
    omega

end Wraps

end Store
end Discovery
