import Discovery.Server.ConfigETag
import Discovery.Server.DiscoverETag
import Discovery.Server.Reads
import Discovery.Store.Node
import Discovery.Store.Precedence

namespace Discovery
open Kv
namespace Server

/-- `strings.TrimPrefix(p, "W/")`. -/
def trimWeak (p : GoString) : GoString := if (ofString "W/").isPrefixOf p then p.drop 2 else p

/-- `strings.Trim` of double quotes. -/
def trimQuotes (p : GoString) : GoString := ((p.dropWhile (· = 0x22)).reverse.dropWhile (· = 0x22)).reverse

def etagMatches (ifNoneMatch etag : GoString) : Bool :=
  (ifNoneMatch.splitOn 0x2C).any fun part =>
    let p := trimQuotes (trimWeak (trimSpace part))
    p = "*" || p = etag

/-- The status that `handleETag` answers with instead of a body, if it does. -/
def handleETag (ifNoneMatch : GoString) (head : Bool) (etag : GoString) : Option Nat :=
  if ifNoneMatch ≠ [] ∧ etagMatches ifNoneMatch etag then some 304
  else if head then some 200
  else none

/-- The value of the `ETag` header. -/
def quoted (etag : GoString) : GoString := 0x22 :: (etag ++ [0x22])

/-- One entry of an `If-None-Match` list. -/
structure Validator where
  spaced : Bool := false
  weak : Bool := false
  tag : GoString

def Validator.text (v : Validator) : GoString :=
  (if v.spaced then [0x20] else []) ++ (if v.weak then ofString "W/" else []) ++ quoted v.tag

/-- A tag that cannot be taken for list syntax. -/
structure PlainTag (tag : GoString) : Prop where
  comma : 0x2C ∉ tag
  quote : 0x22 ∉ tag
  star : tag ≠ "*"

theorem dropWhile_of_notMem {b : UInt8} {s : GoString} (absent : b ∉ s) : s.dropWhile (· = b) = s := by
  cases s with
  | nil => rfl
  | cons c s =>
    have other : c ≠ b := fun same => absent (same ▸ List.mem_cons_self)
    exact List.dropWhile_cons_of_neg (by simpa using other)

/-- The quotes around a tag are taken off, and nothing of the tag. -/
theorem trimQuotes_quoted {tag : GoString} (plain : 0x22 ∉ tag) : trimQuotes (quoted tag) = tag := by
  cases tag with
  | nil => rfl
  | cons b tag =>
    have other : b ≠ 0x22 := fun same => plain (same ▸ List.mem_cons_self)
    have inner : (quoted (b :: tag)).dropWhile (· = 0x22) = b :: tag ++ [0x22] := by
      rw [quoted, List.dropWhile_cons_of_pos (by decide), List.cons_append]
      exact List.dropWhile_cons_of_neg (by simpa using other)
    rw [trimQuotes, inner, List.reverse_append, List.reverse_singleton, List.singleton_append,
      List.dropWhile_cons_of_pos (by decide), dropWhile_of_notMem fun member => plain (List.mem_reverse.mp member),
      List.reverse_reverse]

/-- What neither begins nor ends like an encoding of a space is not trimmed. -/
theorem dropRunes_of_solid {runes : List GoString} (nonempty : [] ∉ runes) {b : UInt8}
    (solid : ∀ rune ∈ runes, rune.head? ≠ some b) (s : GoString) : dropRunes runes 0 (b :: s) = b :: s := by
  refine dropRunes_of_not_prefix fun rune member here => ?_
  cases rune with
  | nil => exact nonempty member
  | cons c rune =>
    obtain ⟨rest, same⟩ := here
    exact solid _ member (congrArg some (List.cons.inj same).1)

theorem trimSpace_text (v : Validator) :
    trimSpace v.text = (if v.weak then ofString "W/" else []) ++ quoted v.tag := by
  have space (s : GoString) : dropRunes spaceRunes 0 (0x20 :: s) = dropRunes spaceRunes 0 s := rfl
  have left (s : GoString) :
      dropRunes spaceRunes 0 ((if v.spaced then [0x20] else []) ++ s) = dropRunes spaceRunes 0 s := by
    cases v.spaced
    · rfl
    · exact space s
  have start : dropRunes spaceRunes 0 ((if v.weak then ofString "W/" else []) ++ quoted v.tag) =
      (if v.weak then ofString "W/" else []) ++ quoted v.tag := by
    cases v.weak
    · exact dropRunes_of_solid (by decide) (by decide) _
    · exact dropRunes_of_solid (by decide) (by decide) _
  have reversed : ((if v.weak then ofString "W/" else []) ++ quoted v.tag).reverse =
      0x22 :: ((if v.weak then ofString "W/" else []) ++ 0x22 :: v.tag).reverse := by
    simp [quoted]
  rw [trimSpace, Validator.text, List.append_assoc, left, start, reversed, dropRunes_of_solid (by decide) (by decide),
    ← reversed, List.reverse_reverse]

/-- A validator is read back as its tag, weak or not. -/
theorem tag_of_text {v : Validator} (plain : 0x22 ∉ v.tag) : trimQuotes (trimWeak (trimSpace v.text)) = v.tag := by
  rw [trimSpace_text]
  cases v.weak
  · exact trimQuotes_quoted plain
  · exact trimQuotes_quoted plain

/-- A list of quoted tags, weak or not, matches exactly its members. -/
theorem etagMatches_list {vs : List Validator} (nonempty : vs ≠ []) (plain : ∀ v ∈ vs, PlainTag v.tag)
    (etag : GoString) :
    etagMatches ([(0x2C : UInt8)].intercalate (vs.map Validator.text)) etag = true ↔ ∃ v ∈ vs, v.tag = etag := by
  have commas : ∀ part ∈ vs.map Validator.text, (0x2C : UInt8) ∉ part := by
    intro part member
    obtain ⟨v, listed, rfl⟩ := List.mem_map.mp member
    have inner := (plain v listed).comma
    cases spaced : v.spaced <;> cases weak : v.weak <;> simp [Validator.text, quoted, spaced, weak, inner] <;> decide
  rw [etagMatches, List.splitOn_intercalate _ commas (by simpa using nonempty), List.any_map, List.any_eq_true]
  refine exists_congr fun v => and_congr_right fun listed => ?_
  have tag := tag_of_text (plain v listed).quote
  simp [tag, (plain v listed).star]

/-- A client that echoes the `ETag` header is told to keep its copy exactly if the tag is the same. -/
theorem handleETag_quoted {held : GoString} (plain : PlainTag held) (etag : GoString) :
    handleETag (quoted held) false etag = if held = etag then some 304 else none := by
  have single : [(0x2C : UInt8)].intercalate (([⟨false, false, held⟩] : List Validator).map Validator.text) =
      quoted held := by
    simp [Validator.text]
  have each : ∀ v ∈ ([⟨false, false, held⟩] : List Validator), PlainTag v.tag := List.forall_mem_singleton.mpr plain
  have parsed := etagMatches_list (List.cons_ne_nil _ _) each etag
  rw [single] at parsed
  have given : quoted held ≠ [] := by simp [quoted]
  by_cases same : held = etag
  · rw [handleETag, if_pos ⟨given, parsed.mpr ⟨_, List.mem_singleton_self _, same⟩⟩, if_pos same]
  · rw [handleETag, if_neg, if_neg same, if_neg Bool.false_ne_true]
    rintro ⟨_, matched⟩
    obtain ⟨v, listed, tag⟩ := parsed.mp matched
    obtain rfl := List.mem_singleton.mp listed
    exact same tag

/-- Something changes the store, or the client polls. -/
inductive PollStep (ι : Type)
  | change (i : ι)
  | poll

section Poll
variable {σ ι B : Type} (serve : σ → Except HttpError (GoString × B))

/-- A client sends the tag of its copy along and keeps the copy unless it gets another. `serve` is what the
handler has before it calls `handleETag`. -/
def poll (s : σ) (held : Option (GoString × B)) : Option (GoString × B) :=
  match serve s with
  | .error _ => held
  | .ok (etag, body) =>
    match handleETag ((held.map Prod.fst).getD []) false etag with
    | some _ => held
    | none => some (quoted etag, body)

def pollStep (next : σ → ι → σ × List Event) (s : σ × Option (GoString × B)) :
    PollStep ι → (σ × Option (GoString × B)) × List Event
  | .change i => (((next s.1 i).1, s.2), (next s.1 i).2)
  | .poll => ((s.1, poll serve s.1 s.2), [])

/-- The copy was served in some good state. -/
def Backed (good : σ → Prop) (held : Option (GoString × B)) : Prop :=
  ∀ header body, held = some (header, body) → ∃ s etag, good s ∧ serve s = .ok (etag, body) ∧ header = quoted etag

/-- Within the good states tags are plain, and one tag stands for one kind of body. -/
structure Tells (good : σ → Prop) (Same : B → B → Prop) : Prop where
  plain : ∀ s etag body, good s → serve s = .ok (etag, body) → PlainTag etag
  same : ∀ s s' etag body body', good s → good s' → serve s = .ok (etag, body) → serve s' = .ok (etag, body') →
    Same body body'

/-- The client polls in good states only. -/
def PollsIn (good : σ → Prop) (s : σ × Option (GoString × B)) : PollStep ι → Prop
  | .change _ => True
  | .poll => good s.1

instance {good : σ → Prop} [DecidablePred good] (s : σ × Option (GoString × B)) :
    (step : PollStep ι) → Decidable (PollsIn good s step)
  | .change _ => inferInstanceAs (Decidable True)
  | .poll => inferInstanceAs (Decidable (good s.1))

variable {serve} {good : σ → Prop} {Same : B → B → Prop} {s : σ} {held : Option (GoString × B)}

/-- A client that polls a good store holds what such a store has answered, with its tag. -/
theorem Backed.poll (backed : Backed serve good held) (fine : good s) : Backed serve good (poll serve s held) := by
  unfold Server.poll
  split
  · exact backed
  next etag body served =>
    split
    · exact backed
    · intro header copy stored
      obtain ⟨rfl, rfl⟩ := Prod.mk.inj (Option.some.inj stored)
      exact ⟨s, etag, fine, served, rfl⟩

/-- After a poll that is answered the client has what is served now, or had it already. -/
theorem poll_current (tells : Tells serve good Same) (backed : Backed serve good held) (fine : good s)
    {etag : GoString} {body : B} (served : serve s = .ok (etag, body)) :
    ∃ copy, poll serve s held = some (quoted etag, copy) ∧ Same copy body := by
  have itself := tells.same s s etag body body fine fine served served
  simp only [poll, served]
  cases present : held with
  | none => exact ⟨body, rfl, itself⟩
  | some entry =>
    obtain ⟨header, copy⟩ := entry
    obtain ⟨s', etag', fine', served', rfl⟩ := backed header copy present
    simp only [Option.map_some, Option.getD_some, handleETag_quoted (tells.plain s' etag' copy fine' served')]
    by_cases same : etag' = etag
    · subst same
      rw [if_pos rfl]
      exact ⟨copy, rfl, tells.same s' s etag' copy body fine' fine served' served⟩
    · rw [if_neg same]
      exact ⟨body, rfl, itself⟩

/-- A client that polls where the state is good keeps a copy that is backed. -/
theorem backed_exec {next : σ → ι → σ × List Event} {steps : List (PollStep ι)} {first : σ × Option (GoString × B)}
    (fresh : first.2 = none)
    (fine : Machine.Meets (pollStep serve next) (PollsIn good) first steps) :
    Backed serve good (Machine.exec (pollStep serve next) first steps).1.2 := by
  refine Machine.exec_invariant (fun s => Backed serve good s.2) (fun s step backed now => ?_) ?_ fine
  · cases step with
    | change i => exact backed
    | poll => exact backed.poll now
  · intro header body stored
    rw [fresh] at stored
    cases stored

/-- Where every change keeps the state good, every poll is made in a good state. -/
theorem pollsIn_of_keeps {next : σ → ι → σ × List Event} {ok : ι → Prop}
    (keep : ∀ s i, good s → ok i → good (next s i).1) {steps : List (PollStep ι)} {first : σ × Option (GoString × B)}
    (fine : good first.1) (changes : ∀ i, .change i ∈ steps → ok i) :
    Machine.Meets (pollStep serve next) (PollsIn good) first steps ∧
      good (Machine.exec (pollStep serve next) first steps).1.1 := by
  induction steps generalizing first with
  | nil => exact ⟨trivial, fine⟩
  | cons step steps ih =>
    have later : good (pollStep serve next first step).1.1 := by
      cases step with
      | change i => exact keep _ i fine (changes i List.mem_cons_self)
      | poll => exact fine
    obtain ⟨rest, final⟩ := ih later fun i member => changes i (List.mem_cons_of_mem _ member)
    refine ⟨⟨?_, rest⟩, final⟩
    cases step with
    | change i => trivial
    | poll => exact fine

end Poll

/-- A hash in hexadecimal can stand between quotes. -/
theorem plainTag_hexEncode (s : GoString) : PlainTag (hexEncode s) := by
  have digits : ∀ n < 16, hexChar n ≠ 0x2C ∧ hexChar n ≠ 0x22 ∧ hexChar n ≠ 0x2A := by decide
  have apart {c : UInt8} (member : c ∈ hexEncode s) : c ≠ 0x2C ∧ c ≠ 0x22 ∧ c ≠ 0x2A := by
    obtain ⟨b, _, digit⟩ := List.mem_flatMap.mp member
    have small := b.toNat_lt
    simp only [List.mem_cons, List.not_mem_nil, or_false] at digit
    rcases digit with rfl | rfl
    · exact digits _ (by omega)
    · exact digits _ (by omega)
  refine ⟨fun member => (apart member).1 rfl, fun member => (apart member).2.1 rfl, fun star => ?_⟩
  have member : (0x2A : UInt8) ∈ hexEncode s := star ▸ List.mem_singleton_self _
  exact (apart member).2.2 rfl

end Server

/-- A publication is of what the handler let through and what marshals as it is, and a revision that an event
brings carries the hashes of its variables. -/
def ConfigStep.Tags (sha256 : GoString → GoString) : ConfigStep → Prop
  | .applyConfig _ _ vars _ _ => validateConfigVars vars = .ok () ∧ Canonical vars
  | .applyRemote ev => ∀ r, Store.revision ev = some r → Tagged sha256 r
  | _ => True

namespace Store
variable {sha256 : GoString → GoString}

theorem AllTagged.of_subset {st st' : Store} (all : st.AllTagged sha256)
    (active : ∀ key r, st'.configActive.get key = some r → st.configActive.get key = some r)
    (revisions : ∀ key r, st'.configRevs.get key = some r → st.configRevs.get key = some r) : st'.AllTagged sha256 where
  active key r stored := all.active key r (active key r stored)
  revisions key r stored := all.revisions key r (revisions key r stored)

theorem AllTagged.deleteConfigScopeRaw {st : Store} (all : st.AllTagged sha256) (scope : ConfigScope) :
    (st.deleteConfigScopeRaw scope).AllTagged sha256 := by
  refine all.of_subset (fun key r stored => ?_) (fun key r stored => ?_)
  · rw [Store.deleteConfigScopeRaw, Bucket.get_delete] at stored
    split at stored
    · cases stored
    · exact stored
  · rw [Store.deleteConfigScopeRaw, Bucket.get_deletePrefix] at stored
    split at stored
    · cases stored
    · exact stored

/-- A deletion brings no revision. -/
theorem AllTagged.apply_deletion {st : Store} (all : st.AllTagged sha256) {ev : Event}
    (deletion : ev.isDeletion = true) : (st.apply ev).AllTagged sha256 := by
  cases ev with
  | configDeleted scope => exact all.deleteConfigScopeRaw scope.json
  | serviceDeleted _ | instanceDeleted _ _ | affinityDeleted _ | tokenDeleted _ | configDraftDeleted _ =>
    exact all.of_subset (fun _ _ stored => stored) (fun _ _ stored => stored)
  | _ => cases deletion

/-- A merge of revisions that are tagged keeps all revisions tagged; other events bring none, and deletions take
only away. -/
theorem AllTagged.apply {st : Store} (all : st.AllTagged sha256) {ev : Event}
    (tagged : ∀ r, revision ev = some r → Tagged sha256 r) : (st.apply ev).AllTagged sha256 := by
  by_cases deletion : ev.isDeletion = true
  · exact all.apply_deletion deletion
  have keeps : ev.isDeletion = false := by simpa using deletion
  rcases apply_cases st keeps with ⟨active, revs, _⟩ | ⟨r, fits, brings, clean, _, taken⟩
  · exact all.of_subset (fun key r stored => active ▸ stored) (fun key r stored => revs ▸ stored)
  · have own := tagged r brings
    rw [taken]
    constructor
    · intro key s stored
      rw [withRevision, Bucket.get_mergePut _ clean] at stored
      split at stored
      next =>
        rcases Lww.mem_merge stored with rfl | old
        · exact own
        · exact all.active key s old
      next => exact all.active key s stored
    · intro key s stored
      rw [withRevision, Bucket.get_insert, ConfigRevision.roundTrip_eq, clean] at stored
      split at stored
      next => rwa [← Option.some.inj stored]
      next => exact all.revisions key s stored

/-- So does every step of the config that publishes in canonical form. -/
theorem AllTagged.step {st : Store} (all : st.AllTagged sha256) {step : ConfigStep} (tags : step.Tags sha256) :
    (st.configStep sha256 step).1.AllTagged sha256 := by
  cases step with
  | applyConfig now scope vars note author => exact all.configStep tags.1 tags.2
  | rollbackConfig now scope revision author => exact all.configStep trivial trivial
  | putDraft now scope vars author =>
    refine settle_store (AllTagged sha256) all fun r run => ?_
    obtain ⟨_, _, _, _, rfl⟩ := putDraft_eq_ok.mp run
    exact all.of_subset (fun _ _ stored => stored) (fun _ _ stored => stored)
  | deleteDraft scope => exact all.of_subset (fun _ _ stored => stored) (fun _ _ stored => stored)
  | deleteConfigScope scope => exact all.deleteConfigScopeRaw scope
  | applyRemote ev => exact all.apply tags

end Store

namespace Server
section Config
variable {sha256 : GoString → GoString} (injective : Function.Injective sha256) (mm : Masterminds) (id : Identity)
  (service version : GoString) (prefixes keys : List GoString)

/-- What `configResolve` has before it calls `handleETag`. -/
def serveConfig (sha256 : GoString → GoString) (st : Store) : Except HttpError (GoString × ResolvedConfig) :=
  (configResolve mm sha256 st id service version prefixes keys).map fun r => (r.etag, r)

theorem serveConfig_eq_ok {st : Store} {etag : GoString} {r : ResolvedConfig} :
    serveConfig mm id service version prefixes keys sha256 st = .ok (etag, r) ↔
      requireRead id = .ok () ∧ r = st.resolveConfig sha256 mm (trimSpace service) (trimSpace version) prefixes keys ∧
        etag = r.etag := by
  rw [serveConfig, configResolve]
  cases requireRead id with
  | error e => simp [bind, Except.bind, Except.map]
  | ok u =>
    simp only [bind, Except.bind, Except.map, Except.ok.injEq, Prod.mk.injEq, true_and]
    constructor
    · rintro ⟨rfl, rfl⟩
      exact ⟨rfl, rfl⟩
    · rintro ⟨rfl, rfl⟩
      exact ⟨rfl, rfl⟩

include injective in
/-- Of config answers the tag tells the variables: two answers with one tag are marshalled to the same text. -/
theorem tells_config : Tells (serveConfig mm id service version prefixes keys sha256) (Store.AllTagged sha256)
    (fun r r' => marshalVars r.vars = marshalVars r'.vars) where
  plain st etag r _ served := by
    obtain ⟨_, rfl, rfl⟩ := (serveConfig_eq_ok mm id service version prefixes keys).mp served
    exact plainTag_hexEncode _
  same st st' etag r r' all all' served served' := by
    obtain ⟨_, rfl, same⟩ := (serveConfig_eq_ok mm id service version prefixes keys).mp served
    obtain ⟨_, rfl, same'⟩ := (serveConfig_eq_ok mm id service version prefixes keys).mp served'
    exact (Store.etag_eq_iff_of_tagged injective all all').mp (same.symm.trans same')

include injective in
/-- A client that polls the config with the tag of its copy has, after each poll, the variables that are in
force. -/
theorem configPoll_current {steps : List (PollStep ConfigStep)}
    (tags : ∀ step, .change step ∈ steps → step.Tags sha256) {r : ResolvedConfig} :
    let serve := serveConfig mm id service version prefixes keys sha256
    let s := (Machine.exec (pollStep serve (Store.configStep sha256)) (Store.empty, none) steps).1
    configResolve mm sha256 s.1 id service version prefixes keys = .ok r →
      ∃ copy, poll serve s.1 s.2 = some (quoted r.etag, copy) ∧ marshalVars copy.vars = marshalVars r.vars := by
  intro serve s answered
  have keep (st : Store) (step : ConfigStep) (all : st.AllTagged sha256) (now : step.Tags sha256) :
      (st.configStep sha256 step).1.AllTagged sha256 := all.step now
  obtain ⟨polls, all⟩ : Machine.Meets (pollStep serve (Store.configStep sha256)) (PollsIn (Store.AllTagged sha256))
      (Store.empty, none) steps ∧ s.1.AllTagged sha256 := pollsIn_of_keeps keep Store.allTagged_empty tags
  have served : serve s.1 = .ok (r.etag, r) := by
    show (configResolve mm sha256 s.1 id service version prefixes keys).map _ = _
    rw [answered]
    rfl
  exact poll_current (tells_config injective mm id service version prefixes keys) (backed_exec rfl polls) all served

end Config

/-- The poll after a rollback that changes nothing, and the deletion of a scope that was not there. -/
theorem configPoll_current_rollback :
    let vars : Vars := (∅ : Vars).insert "LOG" ⟨"string", "\"info\""⟩
    let steps : List (PollStep ConfigStep) := [
      .poll, .change (.applyConfig 1 { kind := "global" } vars [] "a"), .poll,
      .change (.rollbackConfig 2 { kind := "global" } 1 "b"),
      .change (.deleteConfigScope { kind := "service", service := "s" })]
    let serve := serveConfig Store.dotted { role := .read } "s" "2.0.5" ["L"] [] id
    let s := (Machine.exec (pollStep serve (Store.configStep id)) (Store.empty, none) steps).1
    ∃ r copy : ResolvedConfig, poll serve s.1 s.2 = some (quoted r.etag, copy) ∧
      marshalVars copy.vars = marshalVars r.vars := by
  intro vars steps serve s
  have valid : validateConfigVars vars = .ok () := by decide
  have canonical : Canonical vars :=
    Store.canonical_single (by decide) (compact_of_plain (by decide) (forall_of_all (by decide)) (by decide))
  have tags : ∀ step, PollStep.change step ∈ steps → step.Tags id := by
    intro step member
    simp only [steps, List.mem_cons, reduceCtorEq, PollStep.change.injEq, List.not_mem_nil, false_or, or_false] at member
    rcases member with rfl | rfl | rfl
    · exact ⟨valid, canonical⟩
    · trivial
    · trivial
  exact ⟨_, configPoll_current Function.injective_id Store.dotted _ _ _ _ _ tags rfl⟩

section Discover
variable {sha256 : GoString → GoString} (injective : Function.Injective sha256)
  {sort : List Instance → List Instance} (sorts : SortsById sort) (mm : Masterminds) (id : Identity)
  (name version : GoString)

/-- What `discover` has before it calls `handleETag`. -/
def serveDiscover (sha256 : GoString → GoString) (sort : List Instance → List Instance) (st : Store) :
    Except HttpError (GoString × List Instance) :=
  (discover mm st id name version).map fun insts => (discoverETag sha256 sort insts, insts)

/-- The instances that the query finds keep to the separators of the tag. -/
def FindsDelimited (st : Store) : Prop := ∀ insts, discover mm st id name version = .ok insts → Delimited insts

instance (insts : List Instance) : Decidable (Delimited insts) :=
  decidable_of_iff ((insts.map Instance.id).Nodup ∧ (∀ i ∈ insts, 0 ∉ i.id ∧ 0 ∉ i.address ∧ 0 ∉ i.version) ∧
      (∀ i ∈ insts, ∀ it ∈ i.interfaces, 0 ∉ it.name ∧ 0x3A ∉ it.name) ∧
      ∀ i ∈ insts, ∀ it ∈ i.interfaces, 0x3A ∉ it.protocol)
    ⟨fun ⟨ids, nulFree, names, protocols⟩ => ⟨ids, nulFree, names, protocols⟩,
      fun ⟨ids, nulFree, names, protocols⟩ => ⟨ids, nulFree, names, protocols⟩⟩

instance (st : Store) : Decidable (FindsDelimited mm id name version st) :=
  decidable_of_iff (∀ insts ∈ (discover mm st id name version).toOption, Delimited insts) (by
    unfold FindsDelimited
    cases discover mm st id name version <;> simp [Except.toOption])

theorem discover_of_served {st : Store} {etag : GoString} {insts : List Instance}
    (served : serveDiscover mm id name version sha256 sort st = .ok (etag, insts)) :
    discover mm st id name version = .ok insts ∧ etag = discoverETag sha256 sort insts := by
  unfold serveDiscover at served
  cases found : discover mm st id name version with
  | error e =>
    rw [found] at served
    cases served
  | ok insts' =>
    rw [found] at served
    obtain ⟨rfl, rfl⟩ := Prod.mk.inj (Except.ok.inj served)
    exact ⟨rfl, rfl⟩

include injective sorts in
/-- Of discovery answers the tag tells what is hashed of the instances. -/
theorem tells_discover : Tells (serveDiscover mm id name version sha256 sort) (FindsDelimited mm id name version)
    SameHashed where
  plain st etag insts _ served := by
    obtain ⟨_, rfl⟩ := discover_of_served mm id name version served
    exact plainTag_hexEncode _
  same st st' etag insts insts' fine fine' served served' := by
    obtain ⟨found, rfl⟩ := discover_of_served mm id name version served
    obtain ⟨found', same⟩ := discover_of_served mm id name version served'
    exact (etag_eq_iff_sameHashed injective sorts (fine insts found) (fine' insts' found')).mp same

include injective sorts in
/-- A client that polls a service with the tag of its copy has, after each poll, the instances that are up:
their IDs, addresses, versions and weights, and the names, ports, protocols and TLS of their interfaces. -/
theorem discoverPoll_current {st : Store} {steps : List (PollStep NodeStep)} {insts : List Instance} :
    let serve := serveDiscover mm id name version sha256 sort
    let s := (Machine.exec (pollStep serve Store.nodeStep) (st, none) steps).1
    Machine.Meets (pollStep serve Store.nodeStep) (PollsIn (FindsDelimited mm id name version)) (st, none) steps →
      discover mm s.1 id name version = .ok insts → Delimited insts →
        ∃ copy, poll serve s.1 s.2 = some (quoted (discoverETag sha256 sort insts), copy) ∧ SameHashed copy insts := by
  intro serve s polls found delimited
  have fine : FindsDelimited mm id name version s.1 := by
    intro insts' found'
    obtain rfl := Except.ok.inj (found.symm.trans found')
    exact delimited
  have served : serve s.1 = .ok (discoverETag sha256 sort insts, insts) := by
    show (discover mm s.1 id name version).map _ = _
    rw [found]
    rfl
  exact poll_current (tells_discover injective sorts mm id name version) (backed_exec rfl polls) fine served

end Discover

/-- The poll after the only instance was blocked. -/
theorem discoverPoll_current_blocked :
    let serve := serveDiscover Store.dotted { role := .read } "s" [] id sortByID
    let s := (Machine.exec (pollStep serve Store.nodeStep) (Store.empty, none)
      [.change (.catalog (.putInstance 1 (servedAt "/v1"))), .poll, .change (.catalog (.setBlocked 2 "s" "a" true))]).1
    ∃ copy, poll serve s.1 s.2 = some (quoted (discoverETag id sortByID []), copy) ∧ SameHashed copy [] := by
  intro serve s
  have polls : Machine.Meets (pollStep serve Store.nodeStep)
      (PollsIn (FindsDelimited Store.dotted { role := .read } "s" [])) (Store.empty, none)
      [.change (.catalog (.putInstance 1 (servedAt "/v1"))), .poll, .change (.catalog (.setBlocked 2 "s" "a" true))] :=
    by decide +kernel
  have found : discover Store.dotted s.1 { role := .read } "s" [] = .ok [] := by decide +kernel
  exact discoverPoll_current Function.injective_id sortsById_sortByID Store.dotted _ _ _ polls found (by decide)

end Server
end Discovery
