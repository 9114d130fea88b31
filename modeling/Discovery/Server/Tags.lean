import Discovery.Server.AccessGrowth
import Discovery.Server.Reads

namespace Discovery
open Kv Machine

/-- A tag with white space around it stands beside the same tag without. -/
def SelfTagged (tags : List GoString) : Prop := ∀ t ∈ tags, trimSpace t ≠ [] → trimSpace t ∈ tags

instance (tags : List GoString) : Decidable (SelfTagged tags) := inferInstanceAs (Decidable (∀ t ∈ tags, _))

/-- An update that is to store its tags trimmed as well. -/
def AccessStep.Trims (s : AccessStep) : Prop :=
  ∀ name input, s.request = .putService name (some input) → SelfTagged (jsonStrings input.tags)

namespace Server

/-- The rows of the tag index and the tag queries say the same. -/
structure TagsAgree (mm : Masterminds) (st : Store) : Prop where
  counted : ∀ id rows, listTags st id = .ok rows → ∀ row ∈ rows, ∃ svcs,
    listServices st id row.tag = .ok svcs ∧ svcs.length = row.count ∧
      ∀ version constraint, versionConstraint mm version = .ok constraint →
        discoverByTag mm st id row.tag version = .ok (svcs.flatMap fun svc =>
          upInstances (matchVersion mm) (st.listInstances svc.name) constraint)
  listed : ∀ id tag svcs, trimSpace tag ≠ [] → listServices st id tag = .ok svcs → svcs ≠ [] →
    ∃ rows, listTags st id = .ok rows ∧ ∃ row ∈ rows, row.tag = trimSpace tag

theorem requireRead_eq_ok {id : Identity} {u : Unit} : requireRead id = .ok u ↔ .read ≤ id.role := by
  simp [requireRead, writeErr]

/-- The index counts the trimmed tags of a service that are not blank, each once. -/
theorem mem_ownTags {svc : Service} {tag : GoString} :
    tag ∈ ownTags svc ↔ tag ≠ [] ∧ ∃ t ∈ svc.tags, trimSpace t = tag := by
  simp only [ownTags, List.mem_dedup, List.mem_filter, List.mem_map, decide_eq_true_eq]
  exact and_comm

theorem count_ownTags (svcs : List Service) (tag : GoString) :
    (svcs.flatMap ownTags).count tag = svcs.countP (tag ∈ ownTags ·) := by
  induction svcs with
  | nil => rfl
  | cons svc svcs ih =>
    have once : (ownTags svc).count tag = if tag ∈ ownTags svc then 1 else 0 :=
      (List.nodup_dedup _).count
    rw [List.flatMap_cons, List.count_append, ih, once, List.countP_cons, Nat.add_comm]
    simp

/-- The index lists every tag once, in the order of the tags, with the number of services that have it. -/
theorem listTags_eq_ok {st : Store} {id : Identity} {rows : List TagCount} :
    listTags st id = .ok rows ↔ .read ≤ id.role ∧
      rows = ((st.listServices.flatMap ownTags).dedup.mergeSort fun a b => compare a b ≠ .gt).map fun tag =>
        ⟨tag, (st.listServices.flatMap ownTags).count tag⟩ := by
  simp only [listTags, bind_eq_ok, requireRead_eq_ok, exists_const, Except.ok.injEq, eq_comm (b := rows)]

/-- A row for each tag of a service, with the number of services that have it. -/
theorem mem_listTags {st : Store} {id : Identity} {rows : List TagCount} (run : listTags st id = .ok rows)
    (row : TagCount) : row ∈ rows ↔ (∃ svc ∈ st.listServices, row.tag ∈ ownTags svc) ∧
      row.count = st.listServices.countP (row.tag ∈ ownTags ·) := by
  obtain ⟨_, rfl⟩ := listTags_eq_ok.mp run
  rw [List.mem_map, ← List.mem_flatMap]
  constructor
  · rintro ⟨tag, member, rfl⟩
    exact ⟨List.mem_dedup.mp (List.mem_mergeSort.mp member), count_ownTags _ _⟩
  · rintro ⟨member, count⟩
    refine ⟨row.tag, List.mem_mergeSort.mpr (List.mem_dedup.mpr member), ?_⟩
    rw [count_ownTags, ← count]

theorem listServices_eq_ok {st : Store} {id : Identity} {tag : GoString} {svcs : List Service}
    (asked : trimSpace tag ≠ []) :
    listServices st id tag = .ok svcs ↔
      .read ≤ id.role ∧ svcs = filterServicesByTag st.listServices (trimSpace tag) := by
  simp only [listServices, bind_eq_ok, requireRead_eq_ok, exists_const, Except.ok.injEq, ne_eq, asked,
    not_false_eq_true, if_true, eq_comm (b := svcs)]

theorem discoverByTag_eq {mm : Masterminds} {st : Store} {id : Identity} (reads : .read ≤ id.role)
    {tag version constraint : GoString} (asked : trimSpace tag ≠ [])
    (valid : versionConstraint mm version = .ok constraint) :
    discoverByTag mm st id tag version =
      .ok ((filterServicesByTag st.listServices (trimSpace tag)).flatMap fun svc =>
        upInstances (matchVersion mm) (st.listInstances svc.name) constraint) := by
  have allowed : requireRead id = .ok () := requireRead_eq_ok.mpr reads
  rw [discoverByTag, allowed, valid]
  simp only [asked, if_false]
  rfl

/-- Where one test implies the other, as many pass both only if the converse holds as well. -/
theorem countP_eq_iff {α : Type} {l : List α} {p q : α → Bool} (implies : ∀ x ∈ l, p x → q x) :
    l.countP p = l.countP q ↔ ∀ x ∈ l, q x → p x := by
  induction l with
  | nil => simp
  | cons x l ih =>
    obtain ⟨here, later⟩ := List.forall_mem_cons.mp implies
    have le := List.countP_mono_left later
    rw [List.forall_mem_cons, ← ih later, List.countP_cons, List.countP_cons]
    cases first : p x with
    | true =>
      rw [first] at here
      simp [here rfl]
    | false =>
      cases second : q x with
      | false => simp
      | true =>
        simp
        omega

/-- The filter compares with the tags as they are stored. -/
theorem length_filterServicesByTag (svcs : List Service) (tag : GoString) :
    (filterServicesByTag svcs tag).length = svcs.countP (tag ∈ ·.tags) :=
  List.countP_eq_length_filter.symm

/-- Index and queries agree on a set of services exactly if each stores its tags trimmed as well. -/
theorem tagsAgree_iff (mm : Masterminds) (st : Store) :
    TagsAgree mm st ↔ ∀ svc ∈ st.listServices, SelfTagged svc.tags := by
  have tagged {tag : GoString} (trimmed : trimSpace tag = tag) (asked : tag ≠ []) (svc : Service)
      (raw : tag ∈ svc.tags) : tag ∈ ownTags svc := mem_ownTags.mpr ⟨asked, tag, raw, trimmed⟩
  constructor
  · intro agree svc member t own asked
    let reader : Identity := { role := .read }
    obtain ⟨rows, run⟩ : ∃ rows, listTags st reader = .ok rows := ⟨_, listTags_eq_ok.mpr ⟨by decide, rfl⟩⟩
    have indexed : trimSpace t ∈ ownTags svc := mem_ownTags.mpr ⟨asked, t, own, rfl⟩
    have row := (mem_listTags run ⟨trimSpace t, st.listServices.countP (trimSpace t ∈ ownTags ·)⟩).mpr
      ⟨⟨svc, member, indexed⟩, rfl⟩
    obtain ⟨svcs, query, length, _⟩ := agree.counted reader rows run _ row
    obtain ⟨_, rfl⟩ := (listServices_eq_ok (by rwa [trimSpace_idem])).mp query
    rw [trimSpace_idem, length_filterServicesByTag] at length
    have all := (countP_eq_iff fun svc _ raw => by
      simpa using tagged (trimSpace_idem t) asked svc (by simpa using raw)).mp length
    simpa using all svc member (by simpa using indexed)
  · intro stored
    constructor
    · intro id rows run row listed
      obtain ⟨reads, _⟩ := listTags_eq_ok.mp run
      obtain ⟨⟨svc, member, indexed⟩, count⟩ := (mem_listTags run row).mp listed
      obtain ⟨asked, t, own, trimmed⟩ := mem_ownTags.mp indexed
      have again : trimSpace row.tag = row.tag := by rw [← trimmed, trimSpace_idem]
      have query : trimSpace row.tag ≠ [] := by rwa [again]
      refine ⟨_, (listServices_eq_ok query).mpr ⟨reads, rfl⟩, ?_, fun version constraint valid =>
        discoverByTag_eq reads query valid⟩
      rw [again, length_filterServicesByTag, count]
      refine (countP_eq_iff fun svc _ raw => ?_).mpr fun svc member indexed => ?_
      · simpa using tagged again asked svc (by simpa using raw)
      · obtain ⟨_, t, own, trimmed⟩ := mem_ownTags.mp (by simpa using indexed)
        rw [← trimmed] at asked ⊢
        simpa using stored svc member t own asked
    · intro id tag svcs asked query some
      obtain ⟨reads, rfl⟩ := (listServices_eq_ok asked).mp query
      obtain ⟨svc, found⟩ := List.exists_mem_of_ne_nil _ some
      obtain ⟨member, raw⟩ := List.mem_filter.mp found
      have indexed := tagged (trimSpace_idem tag) asked svc (by simpa using raw)
      obtain ⟨rows, run⟩ : ∃ rows, listTags st id = .ok rows := ⟨_, listTags_eq_ok.mpr ⟨reads, rfl⟩⟩
      have row := (mem_listTags run ⟨trimSpace tag, st.listServices.countP (trimSpace tag ∈ ownTags ·)⟩).mpr
        ⟨⟨svc, member, indexed⟩, rfl⟩
      exact ⟨rows, run, _, row, rfl⟩

def serveStep (st : Store) (s : AccessStep) : Store × List Event := (serveService st s.now s.caller s.request, [])

def AllSelfTagged (st : Store) : Prop := ∀ name svc, st.services.get name = some svc → SelfTagged svc.tags

/-- A registration that has each of its tags in trimmed form as well leaves only such services in the store. -/
theorem AllSelfTagged.putService {st : Store} (stored : AllSelfTagged st) {now : Time} {svc : Service}
    {o : Outcome Service} (run : st.putService now svc = .ok o) (own : SelfTagged (jsonStrings svc.tags)) :
    AllSelfTagged o.store := by
  intro name found here
  rw [Store.get_putService run] at here
  split at here
  · obtain rfl := Option.some.inj here
    exact own
  · exact stored name found here

/-- The tags of a stored record are those it would be stored with again. -/
theorem AllSelfTagged.restored {st : Store} (stored : AllSelfTagged st) {name : GoString} {own : Service}
    (present : st.services.get name = some own) : SelfTagged (jsonStrings own.tags) := by
  have same : jsonStrings own.tags = own.tags := congrArg Service.tags (Bucket.clean present)
  rw [same]
  exact stored name own present

theorem requestedService_tags {st : Store} {id : Identity} {name : GoString} {input : ServiceInput} {svc : Service}
    (run : requestedService st id name input = .ok svc) : svc.tags = input.tags := by
  obtain ⟨_, rfl⟩ := requestedService_eq_ok.mp run
  cases st.services.get name with
  | none => rfl
  | some existing =>
    simp only [ServiceInput.updated]
    split <;> rfl

/-- So does every request that stores no other tags. -/
theorem AllSelfTagged.serveStep {st : Store} {s : AccessStep} (stored : AllSelfTagged st) (trims : s.Trims) :
    AllSelfTagged (serveStep st s).1 := by
  obtain ⟨now, caller, request⟩ := s
  cases request with
  | putService name body =>
    refine settle_eq AllSelfTagged stored fun r run => ?_
    obtain ⟨_, input, rfl, svc, wanted, o, put, rfl⟩ := putService_eq_ok.mp run
    refine stored.putService put ?_
    rw [requestedService_tags wanted]
    exact trims name input rfl
  | renameService name body =>
    refine settle_eq AllSelfTagged stored fun r run => ?_
    obtain ⟨_, _, _, _, req, _, o, renamed, rfl⟩ := renameService_eq_ok.mp run
    obtain ⟨_, _, ⟨_, svc, _, rfl⟩ | ⟨_, moves⟩⟩ := Store.renameService_eq_ok.mp renamed
    · exact stored
    · intro key found here
      rw [moves.get_services] at here
      obtain ⟨_, old, present, _, _, _, rfl⟩ := moves
      split at here
      · cases here
      · split at here
        · have restored := stored.restored present
          obtain rfl := Option.some.inj here
          exact restored
        · exact stored key found here
  | deleteService name =>
    refine settle_eq AllSelfTagged stored fun r run => ?_
    obtain ⟨_, own, _, _, o, deleted, rfl⟩ := deleteService_eq_ok.mp run
    obtain ⟨_, rfl⟩ := Store.deleteService_eq_ok.mp deleted
    intro key found here
    rw [Bucket.get_delete] at here
    split at here
    · cases here
    · exact stored key found here
  | addGrant name body =>
    refine settle_eq AllSelfTagged stored fun r run => ?_
    obtain ⟨own, present, _, req, _, _, ⟨_, rfl⟩ | ⟨_, o, put, rfl⟩⟩ := addGrant_eq_ok.mp run
    · exact stored
    · have restored := stored.restored present
      exact stored.putService put restored
  | removeGrant name userID =>
    refine settle_eq AllSelfTagged stored fun r run => ?_
    obtain ⟨own, present, _, ⟨_, rfl⟩ | ⟨_, o, put, rfl⟩⟩ := removeGrant_eq_ok.mp run
    · exact stored
    · have restored := stored.restored present
      exact stored.putService put restored

/-- In every run whose updates trim their tags index and queries agree, and in a state of any run they do as
far as its services are stored with trimmed tags. -/
theorem tags_agree_iff (mm : Masterminds) :
    (∀ steps : List AccessStep, (∀ s ∈ steps, s.Trims) → TagsAgree mm (exec serveStep Store.empty steps).1) ∧
      ∀ steps : List AccessStep, TagsAgree mm (exec serveStep Store.empty steps).1 ↔
        ∀ svc ∈ (exec serveStep Store.empty steps).1.listServices, SelfTagged svc.tags := by
  refine ⟨fun steps trims => ?_, fun steps => tagsAgree_iff mm _⟩
  have start : AllSelfTagged Store.empty := by
    intro name svc present
    cases present.symm.trans (Bucket.get_empty name)
  have all := exec_invariant AllSelfTagged (fun st s stored trims => stored.serveStep trims) start
    (meets_of_forall (P := AccessStep.Trims) trims)
  refine (tagsAgree_iff mm _).mpr fun svc member => ?_
  obtain ⟨name, present⟩ := Bucket.mem_values.mp member
  exact all name svc present

/-- A service put with the tag `" a"` is counted under `a` and found under no tag. -/
def spacedTag : AccessStep where
  now := 1
  caller := { userID := "1", role := .write }
  request := .putService "s" (some { tags := [" a"] })

theorem index_ahead_of_filter :
    ¬∃ mm : Masterminds, ∀ steps : List AccessStep, TagsAgree mm (exec serveStep Store.empty steps).1 := by
  rintro ⟨mm, agree⟩
  have stored := (tagsAgree_iff mm _).mp (agree [spacedTag])
  exact absurd stored (by decide)

end Server
end Discovery
