import Discovery.Store.Publications
import Discovery.Store.Precedence
import Mathlib.Data.List.Infix
import Mathlib.Data.List.Nodup

namespace Discovery
open Kv Machine

/-- A call of `ResolveConfig` under way, with the store it runs against. -/
structure Resolving where
  store : Store
  acc : Resolution
  /-- The scopes whose active revisions come next. -/
  scopes : List ConfigScope
  /-- The version blocks are yet to be listed. -/
  unlisted : Bool

/-- Transactions on one store: the next one of the call, or one of someone else. -/
inductive ResolveStep
  | read
  | commit (op : ConfigStep)

/-- `ApplyConfig` and `DeleteConfigScope`. -/
def ConfigStep.isCommit : ConfigStep → Bool
  | .applyConfig .. | .deleteConfigScope _ => true
  | _ => false

/-- The ID under which the active revision may become another one. -/
def ConfigStep.target : ConfigStep → Option GoString
  | .applyConfig _ scope _ _ _ => scope.validate.toOption.map ConfigScope.ID
  | .deleteConfigScope scope => some scope.ID
  | _ => none

/-- The scopes that are read without a listing. -/
def ConfigScope.heads (service : GoString) : List ConfigScope :=
  { kind := scopeGlobal } :: if service ≠ [] then [{ kind := scopeService, service }] else []

namespace Store
variable (sha256 : GoString → GoString) (mm : Masterminds) (service version : GoString)

/-- One transaction. A read of the call is logged with the store it sees: of the scope's active revision,
or of the version blocks. -/
def resolveStep (r : Resolving) : ResolveStep → Resolving × List (Store × Option ConfigScope)
  | .read =>
    match r.scopes with
    | scope :: scopes => ({ r with acc := r.store.overlay sha256 r.acc scope, scopes }, [(r.store, some scope)])
    | [] =>
      if r.unlisted then
        ({ r with scopes := r.store.matchingBlocks mm service version, unlisted := false }, [(r.store, none)])
      else (r, [])
  | .commit op => ({ r with store := (r.store.configStep sha256 op).1 }, [])

/-- The call before its first read. -/
def resolving (st : Store) : Resolving where
  store := st
  acc := {}
  scopes := ConfigScope.heads service
  unlisted := service ≠ [] ∧ version ≠ []

/-- What the call returns once everything is read. -/
def answer (prefixes keys : List GoString) (acc : Resolution) : ResolvedConfig :=
  let filtered :=
    if prefixes ≠ [] ∨ keys ≠ [] then filterConfig acc.out acc.prov prefixes keys else (acc.out, acc.prov)
  { service, version, vars := filtered.1, provenance := filtered.2
    etag := configETag sha256 filtered.1 acc.winHash }

end Store

/-- Nothing is left to read. -/
def Resolving.Finished (r : Resolving) : Prop := r.scopes = [] ∧ r.unlisted = false

namespace Store

/-- One of the reads of the call sees the store `s`. -/
def Sees (sha256 : GoString → GoString) (mm : Masterminds) (service version : GoString) (r : Resolving)
    (steps : List ResolveStep) (s : Store) : Prop :=
  ∃ pre, pre ++ [.read] <+: steps ∧ ¬(exec (resolveStep sha256 mm service version) r pre).1.Finished ∧
    (exec (resolveStep sha256 mm service version) r pre).1.store = s

/-- The logged reads of active revisions. -/
def activeReads (log : List (Store × Option ConfigScope)) : List (Store × ConfigScope) :=
  log.filterMap fun e => e.2.map (e.1, ·)

variable {sha256 : GoString → GoString} {mm : Masterminds} {service version : GoString}

/-- A resolution answers with the overlay of its reads, and adds nothing to it. -/
theorem resolveConfig_eq (st : Store) (prefixes keys : List GoString) :
    st.resolveConfig sha256 mm service version prefixes keys =
      answer sha256 service version prefixes keys (st.resolution sha256 mm service version) := rfl

theorem layers_eq (st : Store) :
    st.layers mm service version = ConfigScope.heads service ++
      if service ≠ [] ∧ version ≠ [] then st.matchingBlocks mm service version else [] := rfl

section Steps
variable (store : Store) (acc : Resolution) (scope : ConfigScope) (scopes : List ConfigScope) (unlisted : Bool)

theorem resolveStep_active : resolveStep sha256 mm service version ⟨store, acc, scope :: scopes, unlisted⟩ .read =
    (⟨store, store.overlay sha256 acc scope, scopes, unlisted⟩, [(store, some scope)]) := rfl

/-- The blocks are listed once the fixed scopes are read, from the store as it is then. -/
theorem resolveStep_listing : resolveStep sha256 mm service version ⟨store, acc, [], true⟩ .read =
    (⟨store, acc, store.matchingBlocks mm service version, false⟩, [(store, none)]) := rfl

theorem resolveStep_idle :
    resolveStep sha256 mm service version ⟨store, acc, [], false⟩ .read = (⟨store, acc, [], false⟩, []) := rfl

/-- A read changes nothing and sees the store as it is. -/
theorem resolveStep_read (r : Resolving) : (resolveStep sha256 mm service version r .read).1.store = r.store ∧
    ∀ e ∈ (resolveStep sha256 mm service version r .read).2, e.1 = r.store ∧ ¬r.Finished := by
  obtain ⟨store, acc, scopes, unlisted⟩ := r
  cases scopes with
  | cons scope scopes =>
    rw [resolveStep_active]
    refine ⟨rfl, fun e logged => ?_⟩
    obtain rfl := List.mem_singleton.mp logged
    exact ⟨rfl, fun finished => List.cons_ne_nil scope scopes finished.1⟩
  | nil =>
    cases unlisted with
    | true =>
      rw [resolveStep_listing]
      refine ⟨rfl, fun e logged => ?_⟩
      obtain rfl := List.mem_singleton.mp logged
      exact ⟨rfl, fun finished => Bool.noConfusion finished.2⟩
    | false =>
      rw [resolveStep_idle]
      refine ⟨rfl, fun e logged => ?_⟩
      cases logged

end Steps

/-- After the listing as many reads as scopes are left finish the call. -/
theorem finishes_listed (store : Store) (acc : Resolution) (scopes : List ConfigScope) :
    (exec (resolveStep sha256 mm service version) ⟨store, acc, scopes, false⟩
      (List.replicate scopes.length .read)).1.Finished := by
  induction scopes generalizing acc with
  | nil => exact ⟨rfl, rfl⟩
  | cons scope scopes ih =>
    rw [List.length_cons, List.replicate_succ, exec, resolveStep_active]
    exact ih _

/-- Whatever has been committed in between, a call finishes after some more reads. -/
theorem finishes (r : Resolving) :
    ∃ n, (exec (resolveStep sha256 mm service version) r (List.replicate n .read)).1.Finished := by
  obtain ⟨store, acc, scopes, unlisted⟩ := r
  cases unlisted with
  | false => exact ⟨scopes.length, finishes_listed store acc scopes⟩
  | true =>
    induction scopes generalizing acc with
    | nil =>
      refine ⟨(store.matchingBlocks mm service version).length + 1, ?_⟩
      rw [List.replicate_succ, exec, resolveStep_listing]
      exact finishes_listed store acc _
    | cons scope scopes ih =>
      obtain ⟨n, finished⟩ := ih (store.overlay sha256 acc scope)
      refine ⟨n + 1, ?_⟩
      rw [List.replicate_succ, exec, resolveStep_active]
      exact finished

theorem activeReads_append (log log' : List (Store × Option ConfigScope)) :
    activeReads (log ++ log') = activeReads log ++ activeReads log' :=
  List.filterMap_append ..

/-- What a read has logged is a store that the node was in while the call ran. -/
theorem sees_of_logged {r : Resolving} {steps : List ResolveStep} {e : Store × Option ConfigScope}
    (logged : e ∈ (exec (resolveStep sha256 mm service version) r steps).2) :
    Sees sha256 mm service version r steps e.1 := by
  induction steps generalizing r with
  | nil => cases logged
  | cons step steps ih =>
    rcases List.mem_append.mp logged with here | there
    · cases step with
      | commit op => cases here
      | read =>
        obtain ⟨store, unfinished⟩ := (resolveStep_read r).2 e here
        exact ⟨[], (List.prefix_cons_inj _).mpr steps.nil_prefix, unfinished, store.symm⟩
    · obtain ⟨pre, short, unfinished, store⟩ := ih there
      exact ⟨step :: pre, (List.prefix_cons_inj step).mpr short, unfinished, store⟩

/-- The log accounts for what is laid and for what comes next. -/
structure Logged (sha256 : GoString → GoString) (mm : Masterminds) (service version : GoString)
    (log : List (Store × Option ConfigScope)) (r : Resolving) : Prop where
  acc : r.acc = lay sha256 (activeReads log)
  unlisted : r.unlisted = true → (service ≠ [] ∧ version ≠ []) ∧
    (activeReads log).map Prod.snd ++ r.scopes = ConfigScope.heads service
  listed : r.unlisted = false → ∃ listing : Store,
    (activeReads log).map Prod.snd ++ r.scopes = listing.layers mm service version ∧
      (service ≠ [] ∧ version ≠ [] → (listing, none) ∈ log)

/-- A call that has read nothing yet has an empty log. -/
theorem logged_resolving (sha256 : GoString → GoString) (mm : Masterminds) (service version : GoString) (st : Store) :
    Logged sha256 mm service version [] (resolving service version st) where
  acc := rfl
  unlisted versioned := ⟨of_decide_eq_true versioned, rfl⟩
  listed plain := by
    have plain : ¬(service ≠ [] ∧ version ≠ []) := of_decide_eq_false plain
    refine ⟨st, ?_, fun versioned => absurd versioned plain⟩
    rw [layers_eq, if_neg plain, List.append_nil]
    rfl

/-- A read adds itself to the log and its layer to the result; a commit of another call changes neither. -/
theorem Logged.step {log : List (Store × Option ConfigScope)} {r : Resolving}
    (account : Logged sha256 mm service version log r) (step : ResolveStep) :
    Logged sha256 mm service version (log ++ (resolveStep sha256 mm service version r step).2)
      (resolveStep sha256 mm service version r step).1 := by
  obtain ⟨store, acc, scopes, unlisted⟩ := r
  obtain ⟨laid, before, after⟩ := account
  cases step with
  | commit op =>
    rw [resolveStep, List.append_nil]
    exact ⟨laid, before, after⟩
  | read =>
    cases scopes with
    | cons scope scopes =>
      have reads : activeReads (log ++ [(store, some scope)]) = activeReads log ++ [(store, scope)] :=
        activeReads_append log _
      have order : ((activeReads log ++ [(store, scope)]).map Prod.snd) ++ scopes =
          (activeReads log).map Prod.snd ++ scope :: scopes := by
        rw [List.map_append, List.append_assoc]
        rfl
      dsimp only at laid before after
      rw [resolveStep_active]
      refine ⟨?_, fun unread => ?_, fun read => ?_⟩
      · rw [reads, lay, List.foldl_append, laid]
        rfl
      · rw [reads, order]
        exact before unread
      · rw [reads, order]
        obtain ⟨listing, whole, seen⟩ := after read
        exact ⟨listing, whole, fun versioned => List.mem_append_left _ (seen versioned)⟩
    | nil =>
      cases unlisted with
      | false =>
        rw [resolveStep_idle, List.append_nil]
        exact ⟨laid, before, after⟩
      | true =>
        obtain ⟨versioned, whole⟩ := before rfl
        have reads : activeReads (log ++ [(store, none)]) = activeReads log :=
          (activeReads_append log _).trans (List.append_nil _)
        dsimp only at laid whole
        rw [List.append_nil] at whole
        rw [resolveStep_listing]
        refine ⟨?_, fun unread => ?_, fun _ => ⟨store, ?_, fun _ => ?_⟩⟩
        · rw [reads]
          exact laid
        · cases unread
        · rw [reads, whole, layers_eq, if_pos versioned]
        · exact List.mem_append_right log List.mem_cons_self

theorem Logged.run {log : List (Store × Option ConfigScope)} {r : Resolving}
    (account : Logged sha256 mm service version log r) (steps : List ResolveStep) :
    Logged sha256 mm service version (log ++ (exec (resolveStep sha256 mm service version) r steps).2)
      (exec (resolveStep sha256 mm service version) r steps).1 := by
  induction steps generalizing log r with
  | nil =>
    rw [exec, List.append_nil]
    exact account
  | cons step steps ih =>
    rw [exec, ← List.append_assoc]
    exact ih (account.step step)

/-- A finished call has read the scopes of one listing one after the other. With a version it has read the
listing itself; without one every store has the same. -/
theorem reads_of_finished {st : Store} {steps : List ResolveStep}
    (finished : (exec (resolveStep sha256 mm service version) (resolving service version st) steps).1.Finished) :
    let run := exec (resolveStep sha256 mm service version) (resolving service version st) steps
    run.1.acc = lay sha256 (activeReads run.2) ∧
      ∃ e ∈ run.2, (service ≠ [] ∧ version ≠ [] → e.2 = none) ∧
        (activeReads run.2).map Prod.snd = e.1.layers mm service version := by
  have account := (logged_resolving sha256 mm service version st).run steps
  rw [List.nil_append] at account
  generalize exec (resolveStep sha256 mm service version) (resolving service version st) steps = run
    at account finished ⊢
  obtain ⟨listing, whole, seen⟩ := account.listed finished.2
  rw [finished.1, List.append_nil] at whole
  refine ⟨account.acc, ?_⟩
  by_cases versioned : service ≠ [] ∧ version ≠ []
  · exact ⟨(listing, none), seen versioned, fun _ => rfl, whole⟩
  · -- without a listing every store has the same layers
    obtain ⟨e, member⟩ : ∃ e, e ∈ run.2 := by
      refine List.exists_mem_of_ne_nil _ fun silent => ?_
      rw [silent, layers_eq] at whole
      cases whole
    refine ⟨e, member, fun given => absurd given versioned, whole.trans ?_⟩
    rw [layers_eq, layers_eq, if_neg versioned, if_neg versioned]

theorem mem_activeReads {log : List (Store × Option ConfigScope)} {e : Store × ConfigScope} :
    e ∈ activeReads log ↔ (e.1, some e.2) ∈ log := by
  obtain ⟨s, scope⟩ := e
  simp [activeReads]

/-- A call nobody commits during is `resolveConfig`. -/
theorem resolve_uninterrupted {st : Store} {steps : List ResolveStep} (alone : ∀ step ∈ steps, step = .read)
    (finished : (exec (resolveStep sha256 mm service version) (resolving service version st) steps).1.Finished)
    (prefixes keys : List GoString) :
    answer sha256 service version prefixes keys
        (exec (resolveStep sha256 mm service version) (resolving service version st) steps).1.acc =
      st.resolveConfig sha256 mm service version prefixes keys := by
  obtain ⟨acc, listing, logged, -, order⟩ := reads_of_finished finished
  have still : ∀ e ∈ (exec (resolveStep sha256 mm service version) (resolving service version st) steps).2, e.1 = st := by
    refine forall_outputs (fun r => r.store = st) (fun r step same read => ?_) (fun r step same read e logged => ?_) rfl
      (meets_of_forall alone)
    · rw [read, (resolveStep_read r).1, same]
    · rw [read] at logged
      rw [((resolveStep_read r).2 e logged).1, same]
  generalize (exec (resolveStep sha256 mm service version) (resolving service version st) steps).2 = log at *
  have reads : activeReads log = ((activeReads log).map Prod.snd).map (st, ·) := by
    rw [List.map_map]
    refine ((List.map_congr_left fun e read => ?_).trans (List.map_id _)).symm
    exact Prod.ext (still _ (mem_activeReads.mp read)).symm rfl
  rw [acc, reads, order, still listing logged, resolveConfig_eq, resolution_eq_lay]

/-- A block of the service lies under its own ID, and nothing else does. -/
def Filed (service : GoString) (st : Store) : Prop :=
  ∀ id rev, st.activeOf id = some rev → ∀ c, id = ConfigScope.ID { kind := scopeVersion, service, constraint := c } ↔
    rev.scope = { kind := scopeVersion, service, constraint := c }

/-- Whether a scope applies depends on its own active revision alone, since the key of a block fixes its service
and its constraint. -/
theorem Applicable.congr {st st' : Store} {scope : ConfigScope} (applicable : st.Applicable mm service version scope)
    (filed : st.Filed service) (filed' : st'.Filed service)
    (still : (st.activeOf scope.ID).isSome → (st'.activeOf scope.ID).isSome) :
    st'.Applicable mm service version scope := by
  cases applicable with
  | global => exact .global
  | service named => exact .service named
  | block named versioned constraint published satisfied =>
    obtain ⟨id, rev, active, own⟩ := published
    obtain rfl := (filed id rev active constraint).mpr own
    obtain ⟨rev', active'⟩ := Option.isSome_iff_exists.mp (still (Option.isSome_iff_exists.mpr ⟨rev, active⟩))
    exact .block named versioned constraint ⟨_, rev', active', (filed' _ rev' active' constraint).mp rfl⟩ satisfied

theorem said_congr {st st' : Store} {scope : ConfigScope} (same : st.activeOf scope.ID = st'.activeOf scope.ID)
    (k : GoString) : st.said k scope = st'.said k scope := by
  rw [said, said, same]

/-- Reads in the order of a listing lay what an uninterrupted call lays on a store where the same
revisions are active, and which lists the same scopes of those that have one. -/
theorem lay_eq_resolution [Std.TransCmp mm.compare] {reads : List (Store × ConfigScope)} {listing st : Store}
    (order : reads.map Prod.snd = listing.layers mm service version)
    (same : ∀ e ∈ reads, e.1.activeOf e.2.ID = st.activeOf e.2.ID)
    (listed : ∀ scope, (st.activeOf scope.ID).isSome →
      (scope ∈ listing.layers mm service version ↔ scope ∈ st.layers mm service version)) :
    lay sha256 reads = st.resolution sha256 mm service version := by
  have strict (s : Store) : ∀ x ∈ s.layers mm service version, ∀ y ∈ s.layers mm service version,
      precedence mm x y = .eq → x = y :=
    fun x left y right par => (mem_layers.mp left).eq_of_precedence (mem_layers.mp right) par
  rw [resolution_eq_lay]
  refine lay_congr sha256 fun k => ?_
  have one : decidedBy k reads = Overlay.last (st.said k) (reads.map Prod.snd) :=
    Overlay.last_map fun e member => said_congr (same e member) k
  rw [decidedBy_layers, one, order, decided]
  refine Overlay.last_eq_of_speakers (layers_sorted service version) (layers_sorted service version) (strict listing)
    (strict st) fun scope speaks => listed scope ?_
  obtain ⟨_, speech⟩ := Option.isSome_iff_exists.mp speaks
  exact Option.isSome_iff_exists.mpr ⟨_, (said_eq_some.mp speech).2.1⟩

/-- Where blocks lie under their own IDs, none is listed twice. -/
theorem nodup_matchingBlocks {st : Store} (filed : st.Filed service) :
    (st.matchingBlocks mm service version).Nodup := by
  rw [matchingBlocks, (List.mergeSort_perm _ _).nodup_iff, versionScopes]
  refine List.Pairwise.filter _ ?_
  rw [List.pairwise_filter, List.pairwise_map, Bucket.scan_eq_filter]
  refine (List.Pairwise.filter _ st.configActive.toList_sorted).imp_of_mem fun {e f} left right less block _ same => ?_
  rw [← Bucket.scan_eq_filter] at left right
  obtain ⟨present, id, key⟩ := Bucket.mem_scan.mp left
  obtain ⟨present', id', key'⟩ := Bucket.mem_scan.mp right
  rw [← key] at present
  rw [← key'] at present'
  rw [Bool.and_eq_true, beq_iff_eq, beq_iff_eq] at block
  have own : e.2.scope = { kind := scopeVersion, service, constraint := e.2.scope.constraint } := by
    rw [← block.1, ← block.2]
  have ids : id = id' :=
    ((filed id e.2 present _).mpr own).trans ((filed id' f.2 present' _).mpr (same ▸ own)).symm
  have keys : e.1 = f.1 := by rw [← key, ← key', ids]
  have self : compare f.1 f.1 = .eq := Std.ReflCmp.compare_self
  rw [keys, self] at less
  cases less

theorem nodup_heads (service : GoString) : (ConfigScope.heads service).Nodup := by
  have differ : scopeGlobal ≠ scopeService := by decide
  rw [ConfigScope.heads]
  split
  · simp [differ]
  · exact List.pairwise_singleton _ _

theorem kind_of_heads {scope : ConfigScope} (member : scope ∈ ConfigScope.heads service) : scope.kind ≠ scopeVersion := by
  have differ : scopeGlobal ≠ scopeVersion ∧ scopeService ≠ scopeVersion := by decide
  rcases List.mem_cons.mp member with rfl | member
  · exact differ.1
  · split at member
    · rw [List.mem_singleton.mp member]
      exact differ.2
    · cases member

theorem nodup_layers {st : Store} (filed : st.Filed service) : (st.layers mm service version).Nodup := by
  rw [layers_eq, List.nodup_append]
  split
  · refine ⟨nodup_heads service, nodup_matchingBlocks filed, fun scope head scope' block same => kind_of_heads head ?_⟩
    rw [same]
    exact (mem_matchingBlocks.mp block).1.2.1
  · refine ⟨nodup_heads service, List.nodup_nil, fun _ _ _ block => ?_⟩
    cases block

/-- A scope that applies to the instance in one store or another. -/
def Eligible (mm : Masterminds) (service version : GoString) (scope : ConfigScope) : Prop :=
  ∃ st : Store, st.Applicable mm service version scope

end Store

/-- The step publishes a block of the service as such, and nothing else under its ID. -/
def ConfigStep.Files (service : GoString) : ConfigStep → Prop
  | .applyConfig _ scope _ _ _ => ∀ u, scope.validate = .ok u → ∀ c,
      u.ID = ConfigScope.ID { kind := scopeVersion, service, constraint := c } ↔
        u.json = { kind := scopeVersion, service, constraint := c }
  | _ => True

/-- Of the scopes that may apply to the instance, the step commits to no other than `t`. -/
def ConfigStep.Within (mm : Masterminds) (service version : GoString) (t : ConfigScope) (op : ConfigStep) : Prop :=
  ∀ scope, Store.Eligible mm service version scope → op.target = some scope.ID → scope = t

namespace Store

/-- A commit leaves the active revisions alone, or changes one. -/
theorem commit_cases (sha256 : GoString → GoString) (service : GoString) (st : Store) {op : ConfigStep}
    (commit : op.isCommit = true) :
    (∀ j, (st.configStep sha256 op).1.activeOf j = st.activeOf j) ∨
      ∃ id new, op.target = some id ∧
        (∀ j, (st.configStep sha256 op).1.activeOf j = if j = id then new else st.activeOf j) ∧
        (op.Files service → ∀ rev, new = some rev → ∀ c,
          id = ConfigScope.ID { kind := scopeVersion, service, constraint := c } ↔
            rev.scope = { kind := scopeVersion, service, constraint := c }) := by
  cases op with
  | applyConfig now scope vars note author =>
    rw [configStep]
    cases run : st.applyConfig sha256 now scope vars note author with
    | error e => exact Or.inl fun _ => rfl
    | ok r =>
      obtain ⟨u, valid, _, fitsActive, fits, rfl⟩ := applyConfig_eq_ok.mp run
      refine Or.inr ⟨u.ID, some (st.published sha256 now u vars note author).json, ?_, ?_, ?_⟩
      · rw [ConfigStep.target, valid]
        rfl
      · exact activeOf_withPublished st fitsActive fits
      · intro files rev same
        obtain rfl := Option.some.inj same
        exact files u valid
  | deleteConfigScope scope =>
    refine Or.inr ⟨scope.ID, none, rfl, activeOf_deleteConfigScopeRaw st scope, ?_⟩
    intro _ rev same
    cases same
  | _ => cases commit

/-- What commits within `t` keep. -/
structure AsideFrom (mm : Masterminds) (service version : GoString) (t : ConfigScope) (st st' : Store) : Prop where
  filed : st'.Filed service
  same : ∀ scope, Eligible mm service version scope → scope ≠ t → st'.activeOf scope.ID = st.activeOf scope.ID

/-- A commit of the one scope that is written leaves every other scope as it was. -/
theorem AsideFrom.commit {t : ConfigScope} {st st' : Store} (kept : AsideFrom mm service version t st st')
    {op : ConfigStep} (commit : op.isCommit = true) (files : op.Files service) (within : op.Within mm service version t) :
    AsideFrom mm service version t st (st'.configStep sha256 op).1 := by
  rcases commit_cases sha256 service st' commit with same | ⟨id, new, target, active, own⟩
  · refine ⟨fun j rev here => ?_, fun scope eligible other => ?_⟩
    · rw [same] at here
      exact kept.filed j rev here
    · rw [same, kept.same scope eligible other]
  · refine ⟨fun j rev here => ?_, fun scope eligible other => ?_⟩
    · rw [active] at here
      split at here
      next at_ =>
        rw [at_]
        exact own files rev here
      next => exact kept.filed j rev here
    · have elsewhere : scope.ID ≠ id := by
        intro at_
        exact other (within scope eligible (at_ ▸ target))
      rw [active, if_neg elsewhere, kept.same scope eligible other]

section AsideFrom
variable {t : ConfigScope} {st s s' : Store} {scope : ConfigScope}

/-- Two stores of such a run agree on every scope but that one. -/
theorem AsideFrom.agree (left : AsideFrom mm service version t st s) (right : AsideFrom mm service version t st s')
    (eligible : Eligible mm service version scope) (other : scope ≠ t) :
    s.activeOf scope.ID = s'.activeOf scope.ID :=
  (left.same scope eligible other).trans (right.same scope eligible other).symm

theorem AsideFrom.mem_layers (left : AsideFrom mm service version t st s) (right : AsideFrom mm service version t st s')
    (other : scope ≠ t) (listed : scope ∈ s.layers mm service version) : scope ∈ s'.layers mm service version := by
  have applicable := Store.mem_layers.mp listed
  have equal := left.agree right ⟨s, applicable⟩ other
  refine Store.mem_layers.mpr (applicable.congr left.filed right.filed ?_)
  rw [equal]
  exact id

/-- Reads of stores that differ in `t` alone lay what one of these stores gives at once. -/
theorem lay_of_asideFrom (sha256 : GoString → GoString) [Std.TransCmp mm.compare]
    {reads : List (Store × ConfigScope)} {listing : Store}
    (order : reads.map Prod.snd = listing.layers mm service version)
    (listed : AsideFrom mm service version t st listing) (kept : ∀ e ∈ reads, AsideFrom mm service version t st e.1) :
    ∃ s, (s = listing ∨ ∃ e ∈ reads, e.1 = s) ∧ lay sha256 reads = s.resolution sha256 mm service version := by
  have layer {e : Store × ConfigScope} (read : e ∈ reads) : e.2 ∈ listing.layers mm service version := by
    rw [← order]
    exact List.mem_map_of_mem read
  have eligible {e : Store × ConfigScope} (read : e ∈ reads) : Eligible mm service version e.2 :=
    ⟨listing, Store.mem_layers.mp (layer read)⟩
  by_cases concerned : t ∈ listing.layers mm service version
  · -- the answer is that of the moment at which `t` was read
    rw [← order] at concerned
    obtain ⟨here, read, rfl⟩ := List.mem_map.mp concerned
    have now := kept here read
    have once : (reads.map Prod.snd).Nodup := by
      rw [order]
      exact nodup_layers listed.filed
    refine ⟨here.1, Or.inr ⟨here, read, rfl⟩, lay_eq_resolution order (fun e member => ?_) fun scope active => ?_⟩
    · by_cases same : e.2 = here.2
      · rw [List.inj_on_of_nodup_map once member read same]
      · exact (kept e member).agree now (eligible member) same
    · by_cases same : scope = here.2
      · subst same
        have applicable := Store.mem_layers.mp (layer read)
        have still := applicable.congr listed.filed now.filed fun _ => active
        exact iff_of_true (layer read) (Store.mem_layers.mpr still)
      · exact ⟨listed.mem_layers now same, now.mem_layers listed same⟩
  · -- `t` was not read, and the answer is that of the moment of the listing
    refine ⟨listing, Or.inl rfl, lay_eq_resolution order (fun e member => ?_) fun _ _ => Iff.rfl⟩
    have other : e.2 ≠ t := fun same => concerned (same ▸ layer member)
    exact (kept e member).agree listed (eligible member) other

end AsideFrom

/-- The stores a call has read are kept by commits within `t`. -/
theorem asideFrom_of_logged (sha256 : GoString → GoString) {t : ConfigScope} {st : Store}
    {steps : List ResolveStep} (filed : st.Filed service)
    (commits : ∀ op, .commit op ∈ steps → op.isCommit = true ∧ op.Files service ∧ op.Within mm service version t) :
    ∀ e ∈ (exec (resolveStep sha256 mm service version) (resolving service version st) steps).2,
      AsideFrom mm service version t st e.1 := by
  have meets : Meets (resolveStep sha256 mm service version) (fun _ step => ∀ op, step = .commit op →
      op.isCommit = true ∧ op.Files service ∧ op.Within mm service version t) (resolving service version st) steps :=
    meets_of_forall fun step member op same => commits op (same ▸ member)
  have start : AsideFrom mm service version t st (resolving service version st).store := ⟨filed, fun _ _ _ => rfl⟩
  refine forall_outputs (fun r => AsideFrom mm service version t st r.store) (fun r step kept within => ?_)
    (fun r step kept _ e logged => ?_) start meets
  · cases step with
    | read =>
      rw [(resolveStep_read r).1]
      exact kept
    | commit op =>
      obtain ⟨commit, files, within⟩ := within op rfl
      exact kept.commit commit files within
  · cases step with
    | read =>
      rw [((resolveStep_read r).2 e logged).1]
      exact kept
    | commit op => cases logged

/-- Each scope is read as it is at its own moment, in the order of one listing: the answer is made of the
call's own logged reads. If all commits that concern the instance are of one scope, the answer is that of
one moment. -/
theorem resolve_interleaved (sha256 : GoString → GoString) (mm : Masterminds) [Std.TransCmp mm.compare] {st : Store}
    {steps : List ResolveStep} (service version : GoString)
    (commits : ∀ op, .commit op ∈ steps → op.isCommit = true)
    (finished : (exec (resolveStep sha256 mm service version) (resolving service version st) steps).1.Finished)
    (prefixes keys : List GoString) :
    let run := exec (resolveStep sha256 mm service version) (resolving service version st) steps
    let r := answer sha256 service version prefixes keys run.1.acc
    let sees := Sees sha256 mm service version (resolving service version st) steps
    ((∀ e ∈ run.2, sees e.1) ∧
      (∃ e ∈ run.2, (service ≠ [] ∧ version ≠ [] → e.2 = none) ∧
        (activeReads run.2).map Prod.snd = e.1.layers mm service version) ∧
      r = answer sha256 service version prefixes keys (lay sha256 (activeReads run.2))) ∧
    ∀ t, st.Filed service →
      (∀ op, .commit op ∈ steps → op.Files service ∧ op.Within mm service version t) →
      ∃ s, sees s ∧ r = s.resolveConfig sha256 mm service version prefixes keys := by
  intro run r sees
  obtain ⟨acc, listing, logged, listed, order⟩ := reads_of_finished finished
  have seen : ∀ e ∈ run.2, sees e.1 := fun e read => sees_of_logged read
  have whole : r = answer sha256 service version prefixes keys (lay sha256 (activeReads run.2)) :=
    congrArg (answer sha256 service version prefixes keys) acc
  refine ⟨⟨seen, ⟨listing, logged, listed, order⟩, whole⟩, fun t filed within => ?_⟩
  have kept := asideFrom_of_logged sha256 filed fun op member => ⟨commits op member, within op member⟩
  obtain ⟨s, here, laid⟩ := lay_of_asideFrom sha256 order (kept listing logged)
    fun e read => kept _ (mem_activeReads.mp read)
  refine ⟨s, ?_, ?_⟩
  · rcases here with rfl | ⟨e, read, rfl⟩
    · exact seen listing logged
    · exact seen _ (mem_activeReads.mp read)
  · rw [resolveConfig_eq, ← laid, whole]

def globalVars : Vars := (∅ : Vars).insert "G" ⟨"string", "\"1\""⟩

def applyGlobal : ConfigStep := .applyConfig 1 { kind := scopeGlobal } globalVars [] "a"

/-- The global scope is published after the call has read it. -/
def publishGlobalScope : List ResolveStep := [.read, .commit applyGlobal, .read]

/-- A publication of the global scope between the two reads: the answer is that of one store of the run. -/
theorem resolve_interleaved_global :
    ∃ s, Sees id dotted "s" [] (resolving "s" [] empty) publishGlobalScope s ∧
      answer id "s" [] [] []
          (exec (resolveStep id dotted "s" []) (resolving "s" [] empty) publishGlobalScope).1.acc =
        s.resolveConfig id dotted "s" [] [] [] := by
  have only {op : ConfigStep} (member : ResolveStep.commit op ∈ publishGlobalScope) : op = applyGlobal := by
    simpa [publishGlobalScope] using member
  refine (resolve_interleaved id dotted "s" [] (fun op member => ?_) ⟨rfl, rfl⟩ [] []).2 { kind := scopeGlobal }
    (fun id rev active => ?_) fun op member => ⟨?_, ?_⟩
  · rw [only member]
    rfl
  · cases active.symm.trans (Bucket.get_empty _)
  · rw [only member]
    intro u valid c
    have kinds : scopeGlobal ≠ scopeVersion := by decide
    obtain rfl : { kind := scopeGlobal } = u := Except.ok.inj valid
    refine iff_of_false (fun same => ?_) fun same => ?_
    · cases same
    · exact kinds (congrArg ConfigScope.kind same)
  · rw [only member]
    rintro scope ⟨st, applicable⟩ target
    have ids := Option.some.inj target
    cases applicable with
    | global => rfl
    | service named => cases ids
    | block named versioned => exact absurd rfl versioned

def serviceVars : Vars := (∅ : Vars).insert "S" ⟨"string", "\"1\""⟩

def applyService : ConfigStep := .applyConfig 2 { kind := scopeService, service := "s" } serviceVars [] "a"

/-- Two commits between the two reads of a call without a version. -/
def between (op op' : ConfigStep) : List ResolveStep := [.read, .commit op, .commit op', .read]

section Between
variable (sha256 : GoString → GoString) (mm : Masterminds) (st : Store) (op op' : ConfigStep)

theorem acc_between : (exec (resolveStep sha256 mm "s" []) (resolving "s" [] st) (between op op')).1.acc =
    ((st.configStep sha256 op).1.configStep sha256 op').1.overlay sha256
      (st.overlay sha256 {} { kind := scopeGlobal }) { kind := scopeService, service := "s" } := rfl

/-- The stores of the run are the three that the two commits make. -/
theorem store_between {pre : List ResolveStep} (short : pre <+: between op op') :
    (exec (resolveStep sha256 mm "s" []) (resolving "s" [] st) pre).1.store ∈
      [st, (st.configStep sha256 op).1, ((st.configStep sha256 op).1.configStep sha256 op').1] := by
  have cut := (List.mem_inits _ _).mpr short
  simp only [between, List.inits, List.map_cons, List.map_nil, List.mem_cons, List.not_mem_nil, or_false] at cut
  rcases cut with rfl | rfl | rfl | rfl | rfl
  · exact List.mem_cons_self
  · exact List.mem_cons_self
  · exact List.mem_cons_of_mem _ List.mem_cons_self
  · exact List.mem_cons_of_mem _ (List.mem_cons_of_mem _ List.mem_cons_self)
  · exact List.mem_cons_of_mem _ (List.mem_cons_of_mem _ List.mem_cons_self)

end Between

/-- Without a version the service scope is laid over the global one, and nothing else. -/
theorem resolve_service (sha256 : GoString → GoString) (mm : Masterminds) (st : Store) (k : GoString) :
    (st.resolveConfig sha256 mm "s" [] [] []).vars[k]? =
      ((st.said k { kind := scopeService, service := "s" }).map fun e => e.2.2).or
        ((st.said k { kind := scopeGlobal }).map fun e => e.2.2) := by
  have passes : Passes [] [] k := Or.inl ⟨rfl, rfl⟩
  have layers : st.layers mm "s" [] = [{ kind := scopeGlobal }, { kind := scopeService, service := "s" }] := rfl
  rw [resolveConfig_vars, if_pos passes, decided, layers, Overlay.last_cons, Overlay.last_cons, Option.map_or]
  rfl

theorem said_of_active {st : Store} {scope : ConfigScope} {rev : ConfigRevision}
    (active : st.activeOf scope.ID = some rev) (k : GoString) :
    (st.said k scope).map (fun e => e.2.2) = rev.vars[k]? := by
  rw [said, active, Option.bind_some, Option.map_map]
  exact Option.map_id'

theorem said_of_none {st : Store} {scope : ConfigScope} (absent : st.activeOf scope.ID = none) (k : GoString) :
    (st.said k scope).map (fun e => e.2.2) = none := by
  rw [said, absent, Option.bind_none, Option.map_none]

/-- The variables of either scope as stored. -/
theorem vars_json :
    (varsJson globalVars)[ofString "G"]?.isSome ∧ (varsJson globalVars)[ofString "S"]? = none ∧
      (varsJson serviceVars)[ofString "S"]?.isSome ∧ (varsJson serviceVars)[ofString "G"]? = none := by
  simp only [varsJson, getElem?_mapJson]
  decide

/-- The publication of the service scope leaves the one of the global scope active. -/
theorem publish_both (sha256 : GoString → GoString) :
    ∃ rev rev' : ConfigRevision, rev.vars = varsJson globalVars ∧ rev'.vars = varsJson serviceVars ∧
      let st₁ := (empty.configStep sha256 applyGlobal).1
      let st₂ := (st₁.configStep sha256 applyService).1
      (st₁.activeOf (ConfigScope.ID { kind := scopeGlobal }) = some rev ∧
        st₁.activeOf (ConfigScope.ID { kind := scopeService, service := "s" }) = none) ∧
      st₂.activeOf (ConfigScope.ID { kind := scopeGlobal }) = some rev ∧
        st₂.activeOf (ConfigScope.ID { kind := scopeService, service := "s" }) = some rev' := by
  have fresh (id : GoString) : empty.activeOf id = none := Bucket.get_empty _
  have apart : ConfigScope.ID { kind := scopeService, service := "s" } ≠ ConfigScope.ID { kind := scopeGlobal } := by decide
  have accepted : ConfigScope.Accepted { kind := scopeGlobal } := by decide
  have accepted' : ConfigScope.Accepted { kind := scopeService, service := "s" } := by decide
  have marshals : Marshals globalVars ∧ Marshals serviceVars := by decide
  obtain ⟨rev, fitsActive, fits, _, _, vars, published⟩ :=
    step_first_published sha256 1 [] "a" accepted marshals.1 (fits_cfgRevKey (by decide) (by decide)) (fresh _)
  have global₁ := (activeOf_withPublished empty fitsActive fits (ConfigScope.ID { kind := scopeGlobal })).trans (if_pos rfl)
  have service₁ := (activeOf_withPublished empty fitsActive fits
    (ConfigScope.ID { kind := scopeService, service := "s" })).trans ((if_neg apart).trans (fresh _))
  rw [← published] at global₁ service₁
  obtain ⟨rev', fitsActive', fits', _, _, vars', published'⟩ :=
    step_first_published sha256 2 [] "a" accepted' marshals.2 (fits_cfgRevKey (by decide) (by decide)) service₁
  refine ⟨rev.json, rev'.json, congrArg varsJson vars, congrArg varsJson vars', ⟨global₁, service₁⟩, ?_, ?_⟩
  · show ((empty.configStep sha256 applyGlobal).1.configStep sha256 applyService).1.activeOf _ = _
    rw [applyService, applyGlobal, published', activeOf_withPublished, if_neg apart.symm, global₁]
  · show ((empty.configStep sha256 applyGlobal).1.configStep sha256 applyService).1.activeOf _ = _
    rw [applyService, applyGlobal, published', activeOf_withPublished, if_pos rfl]

/-- What a call returns that reads the global scope before anything is published. -/
theorem answer_behind {st : Store} (sha256 : GoString → GoString)
    (absent : st.activeOf (ConfigScope.ID { kind := scopeGlobal }) = none) (st' : Store) (k : GoString) :
    (answer sha256 "s" [] [] [] (st'.overlay sha256 (st.overlay sha256 {} { kind := scopeGlobal })
      { kind := scopeService, service := "s" })).vars[k]? =
      (st'.said k { kind := scopeService, service := "s" }).map fun e => e.2.2 := by
  have out : (answer sha256 "s" [] [] [] (st'.overlay sha256 (st.overlay sha256 {} { kind := scopeGlobal })
      { kind := scopeService, service := "s" })).vars =
      (st'.overlay sha256 (st.overlay sha256 {} { kind := scopeGlobal })
        { kind := scopeService, service := "s" }).out := rfl
  rw [out, out_overlay, out_overlay, said_of_none absent]
  simp

/-- A call can return the later publication without the earlier one, which no store has ever held. -/
theorem resolve_mixed :
    ¬∃ sha256 mm, ∀ (st : Store) (service version : GoString) (prefixes keys : List GoString) (steps : List ResolveStep),
      (∀ op, .commit op ∈ steps → op.isCommit = true) →
      (exec (resolveStep sha256 mm service version) (resolving service version st) steps).1.Finished →
      ∃ pre, pre <+: steps ∧
        answer sha256 service version prefixes keys
            (exec (resolveStep sha256 mm service version) (resolving service version st) steps).1.acc =
          (exec (resolveStep sha256 mm service version) (resolving service version st) pre).1.store.resolveConfig
            sha256 mm service version prefixes keys := by
  rintro ⟨sha256, mm, snapshot⟩
  have commits : ∀ op, .commit op ∈ between applyGlobal applyService → op.isCommit = true := by
    intro op member
    simp only [between, List.mem_cons, reduceCtorEq, List.not_mem_nil, or_false, false_or,
      ResolveStep.commit.injEq] at member
    rcases member with rfl | rfl <;> rfl
  have fresh (id : GoString) : empty.activeOf id = none := Bucket.get_empty _
  obtain ⟨pre, short, same⟩ := snapshot empty "s" [] [] [] _ commits ⟨rfl, rfl⟩
  obtain ⟨rev, rev', vars, vars', ⟨global₁, service₁⟩, global₂, service₂⟩ := publish_both sha256
  have held := store_between sha256 mm empty applyGlobal applyService short
  rw [acc_between] at same
  have read (k : GoString) := (answer_behind sha256 (fresh _) _ k).symm.trans
    (congrArg (fun r : ResolvedConfig => r.vars[k]?) same)
  simp only [said_of_active service₂, resolve_service, vars'] at read
  obtain ⟨globalG, globalS, serviceS, serviceG⟩ := vars_json
  simp only [List.mem_cons, List.not_mem_nil, or_false] at held
  rcases held with start | first | both
  · rw [read, start, said_of_none (fresh _), said_of_none (fresh _)] at serviceS
    cases serviceS
  · rw [read, first, said_of_none service₁, said_of_active global₁, vars, globalS] at serviceS
    cases serviceS
  · have missing := serviceG
    rw [read, both, said_of_active service₂, said_of_active global₂, vars, vars', serviceG, Option.none_or] at missing
    rw [missing] at globalG
    cases globalG

end Store
end Discovery
