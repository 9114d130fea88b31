import Discovery.Model.ConfigHash
import Discovery.Model.ConfigKeys
import Discovery.Model.Instance
import Mathlib.Data.List.Perm.Basic

namespace Discovery

/-- What clients see of an instance, its interfaces through `view`. -/
@[ext] structure Projection (ι : Type) where
  id : GoString
  address : GoString
  version : GoString
  weight : Int
  interfaces : List ι
  deriving DecidableEq

def Instance.project {ι : Type} (view : Interface → ι) (i : Instance) : Projection ι where
  id := i.id
  address := i.address
  version := i.version
  weight := i.weight
  interfaces := i.interfaces.map view

/-- An interface as clients see it. -/
def Interface.endpoint (it : Interface) : GoString × Int × GoString × Bool × GoString :=
  (it.name, it.port, it.protocol, it.tls, it.path)

/-- What the tag hashes of it. -/
def Interface.hashed (it : Interface) : GoString × Int × GoString × Bool := (it.name, it.port, it.protocol, it.tls)

namespace Server

/-- `%t`. -/
def boolText (b : Bool) : GoString := if b then "true" else "false"

/-- `"%s:%d:%s:%t;"` of an interface. -/
def interfaceText (it : Interface) : GoString :=
  it.name ++ ofString ":" ++ formatInt it.port ++ ofString ":" ++ it.protocol ++ ofString ":" ++ boolText it.tls ++
    ofString ";"

/-- What the tag hashes of an instance. -/
def instanceText (i : Instance) : GoString :=
  i.id ++ 0 :: (i.address ++ 0 :: (i.version ++ 0 :: (formatInt i.weight ++ 0 ::
    (i.interfaces.flatMap interfaceText ++ [0]))))

/-- What `sort.Slice` by id promises: some order in which no id comes before a smaller one. -/
structure SortsById (sort : List Instance → List Instance) : Prop where
  perm : ∀ insts, (sort insts).Perm insts
  ordered : ∀ insts, (sort insts).Pairwise fun i j => (compare i.id j.id).isLE

section Hash
variable (sha256 : GoString → GoString) (sort : List Instance → List Instance)

def discoverETag (insts : List Instance) : GoString :=
  hexEncode (sha256 ((sort insts).flatMap instanceText))

/-- The same multiset of discoverable instances. -/
def SamePool (insts insts' : List Instance) : Prop :=
  (insts.map (Instance.project Interface.endpoint)).Perm (insts'.map (Instance.project Interface.endpoint))

/-- The same multiset of what is hashed. -/
def SameHashed (insts insts' : List Instance) : Prop :=
  (insts.map (Instance.project Interface.hashed)).Perm (insts'.map (Instance.project Interface.hashed))

/-- The tag tells the two pools apart exactly when they differ. -/
def Identifies (insts insts' : List Instance) : Prop :=
  discoverETag sha256 sort insts = discoverETag sha256 sort insts' ↔ SamePool insts insts'

/-- No NUL in the free text before the interfaces. -/
def NulFree (i : Instance) : Prop := 0 ∉ i.id ∧ 0 ∉ i.address ∧ 0 ∉ i.version

/-- No instance, or one without interfaces or a NUL in its text. -/
def Lone (insts : List Instance) : Prop := insts = [] ∨ ∃ i, insts = [i] ∧ i.interfaces = [] ∧ NulFree i

/-- Text in which each part ends where its separator stands. -/
structure Delimited (insts : List Instance) : Prop where
  ids : (insts.map Instance.id).Nodup
  nulFree : ∀ i ∈ insts, NulFree i
  names : ∀ i ∈ insts, ∀ it ∈ i.interfaces, 0 ∉ it.name ∧ 0x3A ∉ it.name
  protocols : ∀ i ∈ insts, ∀ it ∈ i.interfaces, 0x3A ∉ it.protocol

end Hash

theorem zero_notMem_formatInt (n : Int) : 0 ∉ formatInt n := by
  intro member
  rcases formatInt_bytes member with h | ⟨h, _⟩ <;> exact absurd h (by decide)

theorem colon_notMem_formatInt (n : Int) : 0x3A ∉ formatInt n := by
  intro member
  rcases formatInt_bytes member with h | ⟨_, h⟩ <;> exact absurd h (by decide)

/-- The fields before the interfaces. -/
theorem fields_eq {i j : Instance} {s t : GoString} (left : NulFree i) (right : NulFree j)
    (same : instanceText i ++ s = instanceText j ++ t) :
    i.id = j.id ∧ i.address = j.address ∧ i.version = j.version ∧ i.weight = j.weight ∧
      i.interfaces.flatMap interfaceText ++ 0 :: s = j.interfaces.flatMap interfaceText ++ 0 :: t := by
  have terminated := PrefixCode.delimits_terminated (0 : UInt8)
  simp only [instanceText, List.append_assoc, List.cons_append, List.nil_append] at same
  obtain ⟨ids, same⟩ := terminated i.id left.1 j.id right.1 _ _ (by simpa using same)
  obtain ⟨addresses, same⟩ := terminated i.address left.2.1 j.address right.2.1 _ _ (by simpa using same)
  obtain ⟨versions, same⟩ := terminated i.version left.2.2 j.version right.2.2 _ _ (by simpa using same)
  obtain ⟨weights, same⟩ := terminated _ (zero_notMem_formatInt i.weight) _ (zero_notMem_formatInt j.weight) _ _
    (by simpa using same)
  exact ⟨ids, addresses, versions, formatInt_injective weights, same⟩

/-- The text of what is hashed of an interface. -/
def hashedText (e : GoString × Int × GoString × Bool) : GoString :=
  e.1 ++ ofString ":" ++ formatInt e.2.1 ++ ofString ":" ++ e.2.2.1 ++ ofString ":" ++ boolText e.2.2.2 ++
    ofString ";"

/-- The text of an interface can be told from what follows, where its name and protocol have no colon. -/
theorem delimits_hashedText :
    PrefixCode.Delimits hashedText {e | (0 ∉ e.1 ∧ 0x3A ∉ e.1) ∧ 0x3A ∉ e.2.2.1} := by
  have terminated := PrefixCode.delimits_terminated (0x3A : UInt8)
  have colon : ofString ":" = [0x3A] := rfl
  rintro ⟨name, port, protocol, tls⟩ ⟨left, left'⟩ ⟨name', port', protocol', tls'⟩ ⟨right, right'⟩ s t same
  simp only [hashedText, colon, List.append_assoc, List.cons_append, List.nil_append] at same
  obtain ⟨rfl, afterName⟩ := terminated name left.2 name' right.2 _ _ (by simpa using same)
  obtain ⟨ports, afterPort⟩ := terminated _ (colon_notMem_formatInt port) _ (colon_notMem_formatInt port') _ _
    (by simpa using afterName)
  obtain rfl := formatInt_injective ports
  obtain ⟨rfl, afterProtocol⟩ := terminated protocol left' protocol' right' _ _ (by simpa using afterPort)
  cases tls with
  | false =>
    cases tls' with
    | false => exact ⟨rfl, List.append_cancel_left (List.append_cancel_left afterProtocol)⟩
    | true => cases (List.cons.inj afterProtocol).1
  | true =>
    cases tls' with
    | false => cases (List.cons.inj afterProtocol).1
    | true => exact ⟨rfl, List.append_cancel_left (List.append_cancel_left afterProtocol)⟩

/-- The NULs of an instance are counted by its fields, with five that separate them. -/
theorem count_zero_instanceText (i : Instance) :
    (instanceText i).count 0 = i.id.count 0 + i.address.count 0 + i.version.count 0 +
      (i.interfaces.flatMap interfaceText).count 0 + 5 := by
  have weight := List.count_eq_zero.mpr (zero_notMem_formatInt i.weight)
  simp only [instanceText, List.count_append, List.count_cons_self, List.count_nil, weight]
  omega

/-- Every instance adds five NULs or more. -/
theorem count_zero_flatMap (insts : List Instance) : 5 * insts.length ≤ (insts.flatMap instanceText).count 0 := by
  induction insts with
  | nil => exact Nat.zero_le _
  | cons i rest ih =>
    have first := count_zero_instanceText i
    rw [List.flatMap_cons, List.count_append, List.length_cons]
    omega

theorem interfaceText_ne_nil (it : Interface) : interfaceText it ≠ [] := by
  intro blank
  exact absurd (List.append_eq_nil_iff.mp blank).2 (by decide)

/-- The text of a pool of several instances is that of one instance with a long id. -/
theorem exists_text_of_many {insts : List Instance} (nonempty : insts ≠ []) :
    ∃ j, instanceText j = insts.flatMap instanceText := by
  rcases List.eq_nil_or_concat insts with rfl | ⟨init, last, rfl⟩
  · exact absurd rfl nonempty
  · refine ⟨{ last with id := init.flatMap instanceText ++ last.id }, ?_⟩
    simp [instanceText]

/-- An instance whose text says something else as well: with an interface, whose path is not hashed, or with
a NUL in the text before the interfaces. -/
theorem exists_twin {i : Instance} (either : i.interfaces ≠ [] ∨ ¬NulFree i) :
    ∃ j, instanceText j = instanceText i ∧ j.project Interface.endpoint ≠ i.project Interface.endpoint := by
  rcases either with some | nul
  · obtain ⟨it, rest, interfaces⟩ := List.exists_cons_of_ne_nil some
    refine ⟨{ i with interfaces := { it with path := slash :: it.path } :: rest }, ?_, fun same => ?_⟩
    · simp [instanceText, interfaces, interfaceText]
    · have paths := congrArg Projection.interfaces same
      simp only [Instance.project, interfaces, List.map_cons, Interface.endpoint, List.cons.injEq,
        Prod.mk.injEq] at paths
      exact List.cons_ne_self slash it.path paths.1.2.2.2.2
  · have shorter {x y : GoString} : x ≠ x ++ 0 :: y := by
      intro same
      have lengths := congrArg List.length same
      simp only [List.length_append, List.length_cons] at lengths
      omega
    by_cases inID : 0 ∈ i.id
    · obtain ⟨x, y, split, _⟩ := List.eq_append_cons_of_mem inID
      refine ⟨{ i with id := x, address := y ++ 0 :: i.address }, ?_, fun same => ?_⟩
      · simp [instanceText, split]
      · exact shorter ((congrArg Projection.id same).trans split)
    · by_cases inAddress : 0 ∈ i.address
      · obtain ⟨x, y, split, _⟩ := List.eq_append_cons_of_mem inAddress
        refine ⟨{ i with address := x, version := y ++ 0 :: i.version }, ?_, fun same => ?_⟩
        · simp [instanceText, split]
        · exact shorter ((congrArg Projection.address same).trans split)
      · have inVersion : 0 ∈ i.version := by
          by_contra absent
          exact nul ⟨inID, inAddress, absent⟩
        obtain ⟨x, y, split, _⟩ := List.eq_append_cons_of_mem inVersion
        refine ⟨{ i with id := i.id ++ 0 :: i.address, address := x, version := y }, ?_, fun same => ?_⟩
        · simp [instanceText, split]
        · exact shorter (congrArg Projection.id same).symm

section Sorted
variable {sha256 : GoString → GoString} {sort : List Instance → List Instance}

/-- Two pools have the same tag exactly when the same text is hashed of them. -/
theorem etag_eq (injective : Function.Injective sha256) {insts insts' : List Instance} :
    discoverETag sha256 sort insts = discoverETag sha256 sort insts' ↔
      (sort insts).flatMap instanceText = (sort insts').flatMap instanceText :=
  ⟨fun same => injective (hexEncode_injective same), fun same => by rw [discoverETag, same, discoverETag]⟩

theorem SortsById.nil (sorts : SortsById sort) : sort [] = [] := List.perm_nil.mp (sorts.perm [])

theorem SortsById.single (sorts : SortsById sort) (i : Instance) : sort [i] = [i] :=
  List.perm_singleton.mp (sorts.perm [i])

/-- A pool that is told apart from every other is one that cannot be misread. -/
theorem lone_of_identifies (injective : Function.Injective sha256) (sorts : SortsById sort) {insts : List Instance}
    (told : ∀ insts', Identifies sha256 sort insts insts') : Lone insts := by
  have perm := sorts.perm insts
  -- a single instance with the text of the pool is the pool
  have same {j : Instance} (text : instanceText j = (sort insts).flatMap instanceText) : SamePool insts [j] := by
    refine (told [j]).mp ((etag_eq injective).mpr ?_)
    rw [sorts.single, List.flatMap_singleton, text]
  cases sorted : sort insts with
  | nil =>
    rw [sorted] at perm
    exact Or.inl (List.nil_perm.mp perm)
  | cons i rest =>
    rw [sorted] at perm same
    obtain ⟨j, text⟩ := exists_text_of_many (List.cons_ne_nil i rest)
    have length := (same text).length_eq
    rw [List.length_map, List.length_map, ← perm.length_eq, List.length_cons, List.length_singleton] at length
    obtain rfl : rest = [] := List.length_eq_zero_iff.mp (by omega)
    obtain rfl : insts = [i] := List.perm_singleton.mp perm.symm
    refine Or.inr ⟨i, rfl, ?_⟩
    have alone : ¬(i.interfaces ≠ [] ∨ ¬NulFree i) := by
      intro either
      obtain ⟨twin, twinText, differs⟩ := exists_twin either
      have pool := same (j := twin) (by rw [List.flatMap_singleton, twinText])
      exact differs (List.singleton_perm_singleton.mp pool).symm
    obtain ⟨none, nulFree⟩ := not_or.mp alone
    exact ⟨not_not.mp none, not_not.mp nulFree⟩

/-- The text of an instance without interfaces or NULs is that of no other. -/
theorem eq_of_instanceText {i j : Instance} (none : i.interfaces = []) (nulFree : NulFree i)
    (same : instanceText j = instanceText i) :
    j.interfaces = [] ∧ j.project Interface.endpoint = i.project Interface.endpoint := by
  have counts := congrArg (List.count 0) same
  rw [count_zero_instanceText, count_zero_instanceText, List.count_eq_zero.mpr nulFree.1,
    List.count_eq_zero.mpr nulFree.2.1, List.count_eq_zero.mpr nulFree.2.2, none, List.flatMap_nil,
    List.count_nil] at counts
  have nulFree' : NulFree j := by
    refine ⟨List.count_eq_zero.mp ?_, List.count_eq_zero.mp ?_, List.count_eq_zero.mp ?_⟩ <;> omega
  obtain ⟨ids, addresses, versions, weights, rest⟩ := fields_eq (s := []) (t := []) nulFree' nulFree (by rw [same])
  have none' : j.interfaces = [] := by
    rw [none, List.flatMap_nil] at rest
    have blank : j.interfaces.flatMap interfaceText = [] := List.append_cancel_right rest
    rw [List.flatMap_eq_nil_iff] at blank
    exact List.eq_nil_iff_forall_not_mem.mpr fun it member => interfaceText_ne_nil it (blank it member)
  refine ⟨none', ?_⟩
  simp only [Instance.project, ids, addresses, versions, weights, none, none']

/-- A pool that cannot be misread is told apart from every other. -/
theorem Lone.identifies (injective : Function.Injective sha256) (sorts : SortsById sort) {insts : List Instance}
    (lone : Lone insts) (insts' : List Instance) : Identifies sha256 sort insts insts' := by
  have perm := sorts.perm insts'
  have size := count_zero_flatMap (sort insts')
  rcases lone with rfl | ⟨i, rfl, none, nulFree⟩
  · rw [Identifies, etag_eq injective, sorts.nil]
    constructor
    · intro same
      rw [← same, List.flatMap_nil, List.count_nil] at size
      have empty : sort insts' = [] := List.length_eq_zero_iff.mp (by omega)
      rw [empty] at perm
      rw [List.nil_perm.mp perm]
      exact List.Perm.refl _
    · intro pool
      have empty : insts' = [] := List.map_eq_nil_iff.mp (List.nil_perm.mp pool)
      rw [empty, sorts.nil]
  · rw [Identifies, etag_eq injective, sorts.single, List.flatMap_singleton]
    have five : (instanceText i).count 0 = 5 := by
      rw [count_zero_instanceText, List.count_eq_zero.mpr nulFree.1, List.count_eq_zero.mpr nulFree.2.1,
        List.count_eq_zero.mpr nulFree.2.2, none, List.flatMap_nil, List.count_nil]
    constructor
    · intro same
      rw [← same, five] at size
      cases sorted : sort insts' with
      | nil =>
        rw [sorted] at same
        rw [same, List.flatMap_nil, List.count_nil] at five
        cases five
      | cons j rest =>
        rw [sorted, List.length_cons] at size
        obtain rfl : rest = [] := List.length_eq_zero_iff.mp (by omega)
        rw [sorted] at same perm
        rw [List.flatMap_singleton] at same
        rw [List.perm_singleton.mp perm.symm]
        exact List.Perm.of_eq (congrArg (fun p => [p]) (eq_of_instanceText none nulFree same.symm).2.symm)
    · intro pool
      obtain ⟨j, rfl⟩ : ∃ j, insts' = [j] := List.length_eq_one_iff.mp (by simpa using pool.length_eq.symm)
      have projects := List.singleton_perm_singleton.mp pool
      rw [sorts.single, List.flatMap_singleton]
      have none' : j.interfaces = [] := by
        have interfaces := congrArg Projection.interfaces projects
        rw [Instance.project, Instance.project, none] at interfaces
        exact List.map_eq_nil_iff.mp interfaces.symm
      have fields := Projection.ext_iff.mp projects
      simp only [Instance.project] at fields
      simp only [instanceText, none, none', fields]

/-- The hashed part of an instance as text. -/
def projectionText (p : Projection (GoString × Int × GoString × Bool)) : GoString :=
  p.id ++ 0 :: (p.address ++ 0 :: (p.version ++ 0 :: (formatInt p.weight ++ 0 ::
    (p.interfaces.flatMap hashedText ++ [0]))))

theorem projectionText_project (i : Instance) : projectionText (i.project Interface.hashed) = instanceText i := by
  simp only [projectionText, Instance.project, instanceText, List.flatMap_map]
  rfl

theorem flatMap_projectionText (insts : List Instance) :
    (insts.map (Instance.project Interface.hashed)).flatMap projectionText = insts.flatMap instanceText := by
  rw [List.flatMap_map]
  exact congrArg (insts.flatMap ·) (funext projectionText_project)

/-- What makes a pool delimited, of one hashed part. -/
def Readable (p : Projection (GoString × Int × GoString × Bool)) : Prop :=
  (0 ∉ p.id ∧ 0 ∉ p.address ∧ 0 ∉ p.version) ∧
    ∀ e ∈ p.interfaces, (0 ∉ e.1 ∧ 0x3A ∉ e.1) ∧ 0x3A ∉ e.2.2.1

/-- The text of an instance can be told from that of the next one. -/
theorem delimits_projectionText : PrefixCode.Delimits projectionText {p | Readable p} := by
  have terminated := PrefixCode.delimits_terminated (0 : UInt8)
  have opens : ∀ e ∈ {e : GoString × Int × GoString × Bool | (0 ∉ e.1 ∧ 0x3A ∉ e.1) ∧ 0x3A ∉ e.2.2.1}, ∀ s t,
      hashedText e ++ s ≠ 0 :: t := by
    rintro ⟨name, port, protocol, tls⟩ ⟨⟨nul, _⟩, _⟩ s t same
    cases name with
    | nil => cases (List.cons.inj same).1
    | cons b name => exact nul ((List.cons.inj same).1 ▸ List.mem_cons_self)
  have interfaces := delimits_hashedText.list opens
  intro p left q right s t same
  obtain ⟨⟨nulID, nulAddress, nulVersion⟩, delimited⟩ := left
  obtain ⟨⟨nulID', nulAddress', nulVersion'⟩, delimited'⟩ := right
  simp only [projectionText, List.append_assoc, List.cons_append] at same
  obtain ⟨ids, afterID⟩ := terminated p.id nulID q.id nulID' _ _ (by simpa using same)
  obtain ⟨addresses, afterAddress⟩ :=
    terminated p.address nulAddress q.address nulAddress' _ _ (by simpa using afterID)
  obtain ⟨versions, afterVersion⟩ :=
    terminated p.version nulVersion q.version nulVersion' _ _ (by simpa using afterAddress)
  obtain ⟨weights, afterWeight⟩ :=
    terminated _ (zero_notMem_formatInt p.weight) _ (zero_notMem_formatInt q.weight) _ _ (by simpa using afterVersion)
  obtain ⟨lists, tails⟩ := interfaces p.interfaces delimited q.interfaces delimited' s t (by simpa using afterWeight)
  exact ⟨Projection.ext ids addresses versions (formatInt_injective weights) lists, tails⟩

theorem Delimited.readable {insts : List Instance} (delimited : Delimited insts)
    {p : Projection (GoString × Int × GoString × Bool)} (member : p ∈ insts.map (Instance.project Interface.hashed)) :
    Readable p := by
  obtain ⟨i, listed, rfl⟩ := List.mem_map.mp member
  refine ⟨delimited.nulFree i listed, ?_⟩
  intro e inside
  obtain ⟨it, has, rfl⟩ := List.mem_map.mp inside
  exact ⟨delimited.names i listed it has, delimited.protocols i listed it has⟩

/-- In a pool without two instances of one id the order is fixed. -/
theorem SortsById.strict (sorts : SortsById sort) {insts : List Instance} (ids : (insts.map Instance.id).Nodup) :
    ((sort insts).map (Instance.project Interface.hashed)).Pairwise fun p q => compare p.id q.id = .lt := by
  have nodup := ((sorts.perm insts).map Instance.id).nodup_iff.mpr ids
  rw [List.pairwise_map]
  refine (sorts.ordered insts).imp₂ ?_ (List.pairwise_map.mp nodup)
  intro i j le differs
  cases order : compare i.id j.id with
  | lt => exact order
  | eq => exact absurd (Std.LawfulEqCmp.eq_of_compare order) differs
  | gt =>
    rw [order] at le
    cases le

/-- The tag of delimited pools is that of what is hashed. -/
theorem etag_eq_iff_sameHashed (injective : Function.Injective sha256) (sorts : SortsById sort)
    {insts insts' : List Instance} (delimited : Delimited insts) (delimited' : Delimited insts') :
    discoverETag sha256 sort insts = discoverETag sha256 sort insts' ↔ SameHashed insts insts' := by
  have perm := (sorts.perm insts).map (Instance.project Interface.hashed)
  have perm' := (sorts.perm insts').map (Instance.project Interface.hashed)
  rw [etag_eq injective, ← flatMap_projectionText, ← flatMap_projectionText]
  constructor
  · intro same
    have lists := delimits_projectionText.injOn_flatMap
      (fun p _ blank => by cases (List.append_eq_nil_iff.mp blank).2)
      (fun p member => delimited.readable (perm.mem_iff.mp member))
      (fun p member => delimited'.readable (perm'.mem_iff.mp member)) same
    exact perm.symm.trans ((List.Perm.of_eq lists).trans perm')
  · intro same
    have lists := (perm.trans (same.trans perm'.symm)).eq_of_pairwise ?_ (sorts.strict delimited.ids)
      (sorts.strict delimited'.ids)
    · rw [lists]
    · intro p q _ _ less greater
      rw [Kv.compare_swap, less] at greater
      cases greater

end Sorted

/-- Everything that is hashed is discoverable. -/
theorem SamePool.sameHashed {insts insts' : List Instance} (pool : SamePool insts insts') :
    SameHashed insts insts' := by
  let forget (p : Projection (GoString × Int × GoString × Bool × GoString)) :
      Projection (GoString × Int × GoString × Bool) :=
    { p with interfaces := p.interfaces.map fun e => (e.1, e.2.1, e.2.2.1, e.2.2.2.1) }
  have forgets (insts : List Instance) : (insts.map (Instance.project Interface.endpoint)).map forget =
      insts.map (Instance.project Interface.hashed) := by
    rw [List.map_map]
    refine List.map_congr_left fun i _ => Projection.ext rfl rfl rfl rfl ?_
    exact List.map_map
  have hashed := pool.map forget
  rwa [forgets, forgets] at hashed

/-- The tag tells a pool apart from every other only where there is no more than one instance, without
interfaces; of delimited pools it tells apart all but those that differ in paths only. -/
theorem etag_identifies_iff {sha256 : GoString → GoString} (injective : Function.Injective sha256)
    {sort : List Instance → List Instance} (sorts : SortsById sort) :
    (∀ insts, (∀ insts', Identifies sha256 sort insts insts') ↔ Lone insts) ∧
      ∀ insts insts', Delimited insts → Delimited insts' →
        (Identifies sha256 sort insts insts' ↔ (SameHashed insts insts' → SamePool insts insts')) := by
  refine ⟨fun insts => ⟨lone_of_identifies injective sorts, fun lone => lone.identifies injective sorts⟩, ?_⟩
  intro insts insts' delimited delimited'
  rw [Identifies, etag_eq_iff_sameHashed injective sorts delimited delimited']
  exact ⟨fun iff_ => iff_.mp, fun enough => ⟨enough, SamePool.sameHashed⟩⟩

def sortByID (insts : List Instance) : List Instance := insts.mergeSort fun i j => (compare i.id j.id).isLE

theorem sortsById_sortByID : SortsById sortByID where
  perm insts := List.mergeSort_perm insts _
  ordered insts := by
    refine List.pairwise_mergeSort ?_ ?_ insts
    · intro i j k first second
      exact Std.TransCmp.isLE_trans first second
    · intro i j
      rw [Kv.compare_swap j.id i.id]
      cases compare i.id j.id <;> rfl

/-- An instance with one interface on the path. -/
def servedAt (path : GoString) : Instance where
  id := "a"
  serviceName := "s"
  address := "10.0.0.1"
  interfaces := [{ name := "http", protocol := "http", port := 80, path }]
  weight := 1

/-- An instance without interfaces is told apart from every other pool, and two paths of an instance are not. -/
theorem etag_identifies_iff_sorted :
    (∀ insts', Identifies id sortByID [{ servedAt "/v1" with interfaces := [] }] insts') ∧
      ¬Identifies id sortByID [servedAt "/v1"] [servedAt "/v2"] := by
  have both := etag_identifies_iff Function.injective_id sortsById_sortByID
  have nulFree (interfaces : List Interface) (path : GoString) : NulFree { servedAt path with interfaces } := by
    show 0 ∉ ofString "a" ∧ 0 ∉ ofString "10.0.0.1" ∧ 0 ∉ ([] : GoString)
    decide
  have delimited (path : GoString) : Delimited [servedAt path] := by
    have http : (0 ∉ ofString "http" ∧ 0x3A ∉ ofString "http") := by decide
    refine ⟨List.pairwise_singleton _ _, ?_, ?_, ?_⟩
    · intro i member
      exact List.mem_singleton.mp member ▸ nulFree _ path
    · intro i member it inside
      obtain rfl := List.mem_singleton.mp member
      obtain rfl := List.mem_singleton.mp inside
      exact http
    · intro i member it inside
      obtain rfl := List.mem_singleton.mp member
      obtain rfl := List.mem_singleton.mp inside
      exact http.2
  refine ⟨(both.1 _).mpr (Or.inr ⟨_, rfl, rfl, nulFree [] "/v1"⟩), fun identifies => ?_⟩
  have pool := (both.2 _ _ (delimited "/v1") (delimited "/v2")).mp identifies (List.Perm.refl _)
  exact absurd (List.singleton_perm_singleton.mp pool) (by decide)

/-- A new path leaves the tag. -/
theorem path_not_hashed :
    ¬∀ (sha256 : GoString → GoString) (sort : List Instance → List Instance), Function.Injective sha256 →
      SortsById sort → ∀ insts insts', Identifies sha256 sort insts insts' := by
  intro identifies
  have told := identifies id sortByID Function.injective_id sortsById_sortByID [servedAt "/v1"] [servedAt "/v2"]
  have text : instanceText (servedAt "/v1") = instanceText (servedAt "/v2") := by
    simp only [instanceText, servedAt, List.flatMap_cons, List.flatMap_nil, interfaceText]
  have tags : discoverETag id sortByID [servedAt "/v1"] = discoverETag id sortByID [servedAt "/v2"] := by
    rw [etag_eq Function.injective_id, sortsById_sortByID.single, sortsById_sortByID.single, List.flatMap_singleton,
      List.flatMap_singleton, text]
  have pool := told.mp tags
  exact absurd (List.singleton_perm_singleton.mp pool) (by decide)

end Server
end Discovery
