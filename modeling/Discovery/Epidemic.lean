import Mathlib.Logic.Function.Basic
import Discovery.Lww
import Discovery.Machine

/-! Nodes that pull each other's state as a list of events and merge the events one by one. A pull reads
the other state part by part, and merges an event in two transactions, with the steps of other pulls
between all of these. -/

namespace Epidemic
open Machine

/-- How a state is read and merged. It is dumped part by part; an event is merged by a transaction that
reads and may find nothing to do, and one that writes without looking again. -/
structure Exchange (σ π ε : Type) where
  parts : List π
  dump : π → σ → List ε
  keeps : σ → ε → Bool
  put : σ → ε → σ

/-- The two transactions in a row. -/
def Exchange.apply {σ π ε : Type} (x : Exchange σ π ε) (s : σ) (e : ε) : σ :=
  if x.keeps s e then s else x.put s e

/-- What `node` still has to read of the state of `peer`, and to merge of what it has read. `writing` says
that the first event of `rest` was read to be news and is to be written. `heard` is a history variable: the
nodes whose first state the pulled one covers. -/
structure Pull (ι π ε : Type) where
  node : ι
  peer : ι
  unseen : List π
  rest : List ε
  writing : Bool
  heard : List ι

structure State (ι σ π ε : Type) where
  nodes : ι → σ
  heard : ι → List ι
  pulls : List (Pull ι π ε)

/-- A node asks for the state of another, or a pull goes one step further: it reads the next part, does the
read transaction of the next event (or ends, where none is left), or the write transaction. A pull that no
step goes on with is one that was lost. -/
inductive Step (ι : Type)
  | fetch (i j : ι)
  | view (n : ℕ)
  | read (n : ℕ)
  | write (n : ℕ)
  deriving DecidableEq

variable {ι σ π ε : Type} [DecidableEq ι] (x : Exchange σ π ε)

def step (c : State ι σ π ε) : Step ι → State ι σ π ε
  | .fetch i j =>
    if i = j then c else { c with pulls := c.pulls ++ [⟨i, j, x.parts, [], false, c.heard j⟩] }
  | .view n =>
    match c.pulls[n]? with
    | none => c
    | some p =>
      match p.unseen with
      | [] => c
      | k :: unseen =>
        { c with pulls := c.pulls.set n { p with unseen, rest := p.rest ++ x.dump k (c.nodes p.peer) } }
  | .read n =>
    match c.pulls[n]? with
    | none => c
    | some p =>
      if p.unseen ≠ [] ∨ p.writing then c
      else
        match p.rest with
        | [] => { c with heard := Function.update c.heard p.node (c.heard p.node ++ p.heard) }
        | e :: rest =>
          if x.keeps (c.nodes p.node) e then { c with pulls := c.pulls.set n { p with rest } }
          else { c with pulls := c.pulls.set n { p with writing := true } }
  | .write n =>
    match c.pulls[n]? with
    | none => c
    | some p =>
      match p.writing, p.rest with
      | true, e :: rest =>
        { c with
          nodes := Function.update c.nodes p.node (x.put (c.nodes p.node) e)
          pulls := c.pulls.set n { p with rest, writing := false } }
      | _, _ => c

def start (first : ι → σ) : State ι σ π ε where
  nodes := first
  heard i := [i]
  pulls := []

def run (first : ι → σ) (steps : List (Step ι)) : State ι σ π ε := (exec (quiet (step x)) (start first) steps).1

/-- What was found by the read transaction still holds at the write: the node has stored nothing since that
the event does not replace. -/
def Standing (c : State ι σ π ε) : Step ι → Prop
  | .write n => ∀ p ∈ c.pulls[n]?, p.writing = true → ∀ e ∈ p.rest.head?, x.keeps (c.nodes p.node) e = false
  | _ => True

/-- No event is read between the two transactions of another one at the same node. -/
def Alone (c : State ι σ π ε) : Step ι → Prop
  | .read n => ∀ p ∈ c.pulls[n]?, ∀ q ∈ c.pulls, q.node = p.node → q.writing = false
  | _ => True

instance decidableAlone (c : State ι σ π ε) : (s : Step ι) → Decidable (Alone c s)
  | .read n => inferInstanceAs (Decidable (∀ p ∈ c.pulls[n]?, _))
  | .fetch _ _ | .view _ | .write _ => inferInstanceAs (Decidable True)

variable {x}

/-- What a step does whose write transaction finds what the read one found: nothing, ask for a state, read
a part of it, end a pull, find an event to be news, or merge one. -/
theorem step_cases (c : State ι σ π ε) {s : Step ι} (standing : Standing x c s) :
    step x c s = c ∨
    (∃ i j, step x c s = { c with pulls := c.pulls ++ [⟨i, j, x.parts, [], false, c.heard j⟩] }) ∨
    (∃ n p k unseen, c.pulls[n]? = some p ∧ p.unseen = k :: unseen ∧ step x c s =
      { c with pulls := c.pulls.set n { p with unseen, rest := p.rest ++ x.dump k (c.nodes p.peer) } }) ∨
    (∃ p ∈ c.pulls, p.unseen = [] ∧ p.rest = [] ∧
      step x c s = { c with heard := Function.update c.heard p.node (c.heard p.node ++ p.heard) }) ∨
    (∃ n p e rest, c.pulls[n]? = some p ∧ s = .read n ∧ p.rest = e :: rest ∧ x.keeps (c.nodes p.node) e = false ∧
      step x c s = { c with pulls := c.pulls.set n { p with writing := true } }) ∨
    ∃ n p e rest, c.pulls[n]? = some p ∧ p.rest = e :: rest ∧
      (p.writing = true ∨ x.apply (c.nodes p.node) e = c.nodes p.node) ∧ step x c s = { c with
        nodes := Function.update c.nodes p.node (x.apply (c.nodes p.node) e)
        pulls := c.pulls.set n { p with rest, writing := false } } := by
  cases s with
  | fetch i j =>
    by_cases same : i = j
    · exact .inl (if_pos same)
    · exact .inr (.inl ⟨i, j, if_neg same⟩)
  | view n =>
    cases found : c.pulls[n]? with
    | none => exact .inl (by simp only [step, found])
    | some p =>
      cases left : p.unseen with
      | nil => exact .inl (by simp only [step, found, left])
      | cons k unseen => exact .inr (.inr (.inl ⟨n, p, k, unseen, found, left, by simp only [step, found, left]⟩))
  | read n =>
    cases found : c.pulls[n]? with
    | none => exact .inl (by simp only [step, found])
    | some p =>
      by_cases busy : p.unseen ≠ [] ∨ p.writing
      · exact .inl (by simp only [step, found, if_pos busy])
      obtain ⟨seen, free⟩ := not_or.mp busy
      cases left : p.rest with
      | nil =>
        refine .inr (.inr (.inr (.inl ⟨p, List.mem_of_getElem? found, not_not.mp seen, left, ?_⟩)))
        simp only [step, found, if_neg busy, left]
      | cons e rest =>
        cases finds : x.keeps (c.nodes p.node) e with
        | false =>
          refine .inr (.inr (.inr (.inr (.inl ⟨n, p, e, rest, found, rfl, left, finds, ?_⟩))))
          simp only [step, found, if_neg busy, left, finds, Bool.false_eq_true, if_false]
        | true =>
          -- an event that is no news is merged by leaving it out
          have same : x.apply (c.nodes p.node) e = c.nodes p.node := if_pos finds
          have idle : p.writing = false := by simpa using free
          refine .inr (.inr (.inr (.inr (.inr ⟨n, p, e, rest, found, left, .inr same, ?_⟩))))
          simp only [step, found, if_neg busy, left, finds, if_true, same, Function.update_eq_self, ← idle]
  | write n =>
    cases found : c.pulls[n]? with
    | none => exact .inl (by simp only [step, found])
    | some p =>
      cases writing : p.writing with
      | false => exact .inl (by simp only [step, found, writing])
      | true =>
        cases left : p.rest with
        | nil => exact .inl (by simp only [step, found, writing, left])
        | cons e rest =>
          have news := standing p found writing e (by rw [left, List.head?_cons, Option.mem_some_iff])
          refine .inr (.inr (.inr (.inr (.inr ⟨n, p, e, rest, found, left, .inl writing, ?_⟩))))
          simp only [step, found, writing, left, Exchange.apply, news, Bool.false_eq_true, if_false]

/-- One event at most is between its two transactions at each node. -/
def Single (pulls : List (Pull ι π ε)) : Prop :=
  ∀ (m n : ℕ) (p q : Pull ι π ε), pulls[m]? = some p → pulls[n]? = some q → p.writing = true → q.writing = true →
    p.node = q.node → m = n

omit [DecidableEq ι] in
theorem Single.set {pulls : List (Pull ι π ε)} (single : Single pulls) {n : ℕ} {p p' : Pull ι π ε}
    (found : pulls[n]? = some p) (node : p'.node = p.node)
    (calls : p'.writing = true → p.writing = true ∨ ∀ q ∈ pulls, q.node = p.node → q.writing = false) :
    Single (pulls.set n p') := by
  have other {m : ℕ} {q : Pull ι π ε} (here : pulls[m]? = some q) (writing : p'.writing = true)
      (writing' : q.writing = true) (same : q.node = p'.node) : m = n := by
    rcases calls writing with before | free
    · exact single m n q p here found writing' before (same.trans node)
    · rw [free q (List.mem_of_getElem? here) (same.trans node)] at writing'
      cases writing'
  intro i j q r left right
  rw [List.getElem?_set] at left right
  split at left <;> split at right
  next here there => exact fun _ _ _ => here.symm.trans there
  next here there =>
    split at left
    · obtain rfl := Option.some.inj left
      exact fun writing writing' same => here ▸ (other right writing writing' same.symm).symm
    · cases left
  next here there =>
    split at right
    · obtain rfl := Option.some.inj right
      exact fun writing' writing same => there ▸ other left writing writing' same
    · cases right
  next => exact single i j q r left right

variable (x) in
/-- One event at most is being written at each node, and it still is news there. -/
structure Orderly (c : State ι σ π ε) : Prop where
  single : Single c.pulls
  news : ∀ p ∈ c.pulls, p.writing = true → ∃ e rest, p.rest = e :: rest ∧ x.keeps (c.nodes p.node) e = false

omit [DecidableEq ι] in
/-- Where calls on one node do not overlap, nothing is written between the read and the write of a call, so its
write stands for the whole merge. -/
theorem Orderly.standing {c : State ι σ π ε} (orderly : Orderly x c) (s : Step ι) : Standing x c s := by
  cases s with
  | write n =>
    intro p found writing e left
    obtain ⟨f, tail, same, news⟩ := orderly.news p (List.mem_of_getElem? found) writing
    rw [same, List.head?_cons] at left
    obtain rfl := Option.some.inj left
    exact news
  | _ => trivial

/-- Calls that have not overlapped so far still do not after a step that starts none beside another. -/
theorem Orderly.step {c : State ι σ π ε} (orderly : Orderly x c) {s : Step ι} (alone : Alone c s) :
    Orderly x (step x c s) := by
  rcases step_cases c (orderly.standing s) with same | ⟨i, j, same⟩ | ⟨n, p, k, unseen, found, left, same⟩ |
    ⟨p, _, _, _, same⟩ | ⟨n, p, e, rest, found, rfl, left, news, same⟩ | ⟨n, p, e, rest, found, left, how, same⟩ <;>
    rw [same]
  · exact orderly
  · refine ⟨fun m n p q left right writing writing' => ?_, fun p member => ?_⟩
    · -- a pull that has just begun writes nothing
      have old {l : ℕ} {r : Pull ι π ε} (here : (c.pulls ++ [⟨i, j, x.parts, [], false, c.heard j⟩])[l]? = some r)
          (busy : r.writing = true) : c.pulls[l]? = some r := by
        rw [List.getElem?_append] at here
        split at here
        next => exact here
        next =>
          obtain rfl := List.mem_singleton.mp (List.mem_of_getElem? here)
          cases busy
      exact orderly.single m n p q (old left writing) (old right writing') writing writing'
    · rcases List.mem_append.mp member with before | new
      · exact orderly.news p before
      · obtain rfl := List.mem_singleton.mp new
        exact fun writing => by cases writing
  · refine ⟨orderly.single.set found rfl .inl, fun q member writing => ?_⟩
    rcases List.mem_or_eq_of_mem_set member with before | rfl
    · exact orderly.news q before writing
    · obtain ⟨e, rest, here, news⟩ := orderly.news p (List.mem_of_getElem? found) writing
      exact ⟨e, rest ++ x.dump k (c.nodes p.peer), by rw [here, List.cons_append], news⟩
  · exact ⟨orderly.single, orderly.news⟩
  · refine ⟨orderly.single.set found rfl fun _ => .inr (alone p found), fun q member writing => ?_⟩
    rcases List.mem_or_eq_of_mem_set member with before | rfl
    · exact orderly.news q before writing
    · exact ⟨e, rest, left, news⟩
  · refine ⟨orderly.single.set found rfl nofun, fun q member writing => ?_⟩
    obtain ⟨m, here⟩ := List.mem_iff_getElem?.mp member
    rw [List.getElem?_set] at here
    split at here
    next =>
      split at here
      · obtain rfl := Option.some.inj here
        cases writing
      · cases here
    next elsewhere =>
      obtain ⟨f, tail, waits, news⟩ := orderly.news q (List.mem_of_getElem? here) writing
      refine ⟨f, tail, waits, ?_⟩
      simp only [Function.update_apply]
      split
      next sameNode =>
        rcases how with busy | unchanged
        · exact absurd (orderly.single n m p q found here busy writing sameNode.symm) elsewhere
        · rw [unchanged, ← sameNode, news]
      next => exact news

omit [DecidableEq ι] in
theorem orderly_start (first : ι → σ) : Orderly x (start first : State ι σ π ε) where
  single _ _ _ _ left := by cases left
  news _ member := by cases member

/-- Where the calls of each node come one after the other, every write finds what its call has read. -/
theorem standing_of_alone {first : ι → σ} {steps : List (Step ι)}
    (alone : Meets (quiet (step x)) Alone (start first) steps) :
    Meets (quiet (step x)) (Standing x) (start first) steps :=
  alone.of_invariant (Orderly x) (fun _ _ orderly now => orderly.step now)
    (fun _ s orderly _ => orderly.standing s) (orderly_start first)

variable (x) in
/-- The states that events meeting `ok` keep good, and whose dumps are such events. -/
structure Keeps (good : σ → Prop) (ok : ε → Prop) : Prop where
  merged : ∀ s e, good s → ok e → good (x.apply s e)
  dumped : ∀ s k, good s → ∀ e ∈ x.dump k s, ok e

structure Healthy (good : σ → Prop) (ok : ε → Prop) (c : State ι σ π ε) : Prop where
  nodes : ∀ i, good (c.nodes i)
  pulls : ∀ p ∈ c.pulls, ∀ e ∈ p.rest, ok e

/-- Every node stays good, and every listed event stays one that may be merged. -/
theorem Healthy.step {good : σ → Prop} {ok : ε → Prop} (keeps : Keeps x good ok) {c : State ι σ π ε}
    (healthy : Healthy good ok c) {s : Step ι} (standing : Standing x c s) : Healthy good ok (step x c s) := by
  obtain ⟨nodes, pulls⟩ := healthy
  have kept {n : ℕ} {p p' : Pull ι π ε} (found : c.pulls[n]? = some p)
      (rest : (∀ e ∈ p.rest, ok e) → ∀ e ∈ p'.rest, ok e) : ∀ q ∈ c.pulls.set n p', ∀ e ∈ q.rest, ok e := by
    intro q member
    rcases List.mem_or_eq_of_mem_set member with old | rfl
    · exact pulls q old
    · exact rest (pulls p (List.mem_of_getElem? found))
  rcases step_cases c standing with same | ⟨i, j, same⟩ | ⟨n, p, k, unseen, found, _, same⟩ |
    ⟨p, _, _, _, same⟩ | ⟨n, p, _, _, found, _, _, _, same⟩ | ⟨n, p, e, rest, found, left, _, same⟩ <;> rw [same]
  · exact ⟨nodes, pulls⟩
  · refine ⟨nodes, fun q member => ?_⟩
    rcases List.mem_append.mp member with old | new
    · exact pulls q old
    · obtain rfl := List.mem_singleton.mp new
      exact List.forall_mem_nil ok
  · refine ⟨nodes, kept found fun fine => ?_⟩
    exact List.forall_mem_append.mpr ⟨fine, keeps.dumped _ k (nodes p.peer)⟩
  · exact ⟨nodes, pulls⟩
  · exact ⟨nodes, kept found id⟩
  · have following := List.forall_mem_cons.mp (left ▸ pulls p (List.mem_of_getElem? found))
    refine ⟨fun i => ?_, kept found fun _ => following.2⟩
    simp only [Function.update_apply]
    split
    next => exact keeps.merged _ e (nodes _) following.1
    next => exact nodes i

section Spread
variable {V T κ : Type} [LinearOrder T] [DecidableEq κ] {stamp : V → T} {policy : κ → T → T → Bool}
  {get : σ → κ → Option V} {record : ε → Option (κ × V)} {part : κ → π} {good : σ → Prop} {ok : ε → Prop}

variable (x stamp policy get record part good ok) in
/-- The events merge registers by last write wins, and the part of a dump that a register belongs to carries
it, as it is when that part is read. -/
structure Replicates : Prop where
  settles : ∀ k, Lww.Settles (policy k)
  merges : ∀ s e, ok e → Lww.Merges stamp policy get x.apply record s e
  listed : ∀ k, part k ∈ x.parts
  dumps : ∀ s, good s → ∀ k v, get s k = some v → ∃ e ∈ x.dump (part k) s, record e = some (k, v)
  dumped : ∀ s, good s → ∀ j, ∀ e ∈ x.dump j s, ∀ k v, record e = some (k, v) → get s k = some v

variable (stamp get) in
/-- The register `k` is at least as new as `t`. -/
def Reaches (s : σ) (k : κ) (t : T) : Prop := ∃ v, get s k = some v ∧ t ≤ stamp v

variable (stamp get record part) in
/-- Registers hold first values only, none older than those of a node heard of. What a pull is to bring is
merged already, still to come, or in a part of the other state that is still to be read. -/
structure Spread (first : ι → σ) (c : State ι σ π ε) : Prop where
  within : ∀ i k v, get (c.nodes i) k = some v → ∃ n, get (first n) k = some v
  reached : ∀ i, ∀ n ∈ c.heard i, ∀ k v, get (first n) k = some v → Reaches stamp get (c.nodes i) k (stamp v)
  pulled : ∀ p ∈ c.pulls, ∀ e ∈ p.rest, ∀ k v, record e = some (k, v) → ∃ n, get (first n) k = some v
  coming : ∀ p ∈ c.pulls, ∀ n ∈ p.heard, ∀ k v, get (first n) k = some v →
    Reaches stamp get (c.nodes p.node) k (stamp v) ∨
      (∃ e ∈ p.rest, ∃ w, record e = some (k, w) ∧ stamp v ≤ stamp w) ∨
      part k ∈ p.unseen ∧ Reaches stamp get (c.nodes p.peer) k (stamp v)

theorem Replicates.mono {good' : σ → Prop} {ok' : ε → Prop}
    (replicates : Replicates x stamp policy get record part good ok) (fewer : ∀ s, good' s → good s)
    (fewer' : ∀ e, ok' e → ok e) : Replicates x stamp policy get record part good' ok' where
  settles := replicates.settles
  merges s e fine := replicates.merges s e (fewer' e fine)
  listed := replicates.listed
  dumps s fine := replicates.dumps s (fewer s fine)
  dumped s fine := replicates.dumped s (fewer s fine)

variable (replicates : Replicates x stamp policy get record part good ok)
include replicates

/-- A merge leaves a value whose stamp is neither below the new one nor below the old one. -/
theorem merge_reaches (k : κ) (stored : Option V) (v : V) :
    ∃ w, Lww.merge stamp (policy k) stored v = some w ∧ stamp v ≤ stamp w ∧
      ∀ u, stored = some u → stamp u ≤ stamp w := by
  have old : Lww.IsNewest stamp {u | stored = some u} stored := Lww.IsNewest.self stored
  have newest := old.merge (replicates.settles k) v
  obtain ⟨w, present⟩ := Option.isSome_iff_exists.mp (newest.isSome (Set.mem_insert v _))
  rw [present] at newest
  exact ⟨w, present, newest.2 v (Set.mem_insert v _), fun u same => newest.2 u (Set.mem_insert_of_mem v same)⟩

/-- Merging an event brings the stamp of its record to the node. -/
theorem reaches_of_record {s : σ} {e : ε} (fine : ok e) {k : κ} {v : V} (carries : record e = some (k, v)) :
    Reaches stamp get (x.apply s e) k (stamp v) := by
  have merged := replicates.merges s e fine k
  simp only [carries, if_true] at merged
  obtain ⟨w, present, le, _⟩ := merge_reaches replicates k (get s k) v
  exact ⟨w, merged.trans present, le⟩

/-- No merge takes a stamp back. -/
theorem reaches_apply {s : σ} {e : ε} (fine : ok e) {k : κ} {t : T} (reaches : Reaches stamp get s k t) :
    Reaches stamp get (x.apply s e) k t := by
  obtain ⟨v, stored, le⟩ := reaches
  have merged := replicates.merges s e fine k
  split at merged
  next j w carries =>
    split at merged
    next =>
      obtain ⟨u, present, _, older⟩ := merge_reaches replicates k (get s k) w
      exact ⟨u, merged.trans present, le.trans (older v stored)⟩
    next => exact ⟨v, merged.trans stored, le⟩
  next => exact ⟨v, merged.trans stored, le⟩

omit replicates [DecidableEq ι] [DecidableEq κ] in
/-- One pull may take the place of another that has listed only first values and has what it is to bring still
before it. -/
theorem Spread.set {first : ι → σ} {c : State ι σ π ε} (spread : Spread stamp get record part first c) (n : ℕ)
    {p : Pull ι π ε} (pulled : ∀ e ∈ p.rest, ∀ k v, record e = some (k, v) → ∃ n, get (first n) k = some v)
    (coming : ∀ n ∈ p.heard, ∀ k v, get (first n) k = some v → Reaches stamp get (c.nodes p.node) k (stamp v) ∨
      (∃ e ∈ p.rest, ∃ w, record e = some (k, w) ∧ stamp v ≤ stamp w) ∨
      part k ∈ p.unseen ∧ Reaches stamp get (c.nodes p.peer) k (stamp v)) :
    Spread stamp get record part first { c with pulls := c.pulls.set n p } where
  within := spread.within
  reached := spread.reached
  pulled q listed := by
    rcases List.mem_or_eq_of_mem_set listed with old | rfl
    · exact spread.pulled q old
    · exact pulled
  coming q listed := by
    rcases List.mem_or_eq_of_mem_set listed with old | rfl
    · exact spread.coming q old
    · exact coming

/-- Merging an event of first values at one node takes no stamp back and brings no other values. -/
theorem Spread.merged {first : ι → σ} {c : State ι σ π ε} (spread : Spread stamp get record part first c) {e : ε}
    (fine : ok e) (listed : ∀ k v, record e = some (k, v) → ∃ n, get (first n) k = some v) (i : ι) :
    Spread stamp get record part first
      { c with nodes := Function.update c.nodes i (x.apply (c.nodes i) e) } := by
  have grows {j : ι} {k : κ} {t : T} (reaches : Reaches stamp get (c.nodes j) k t) :
      Reaches stamp get (Function.update c.nodes i (x.apply (c.nodes i) e) j) k t := by
    rw [Function.update_apply]
    split
    next here => exact reaches_apply replicates fine (here ▸ reaches)
    next => exact reaches
  refine ⟨fun j k v stored => ?_, fun j n heard k v stored => grows (spread.reached j n heard k v stored),
    spread.pulled, fun p member n heard k v stored => ?_⟩
  · simp only [Function.update_apply] at stored
    split at stored
    next =>
      rcases Lww.mem_of_merges (replicates.merges _ e fine) stored with old | carries
      · exact spread.within _ k v old
      · exact listed k v carries
    next => exact spread.within j k v stored
  · exact (spread.coming p member n heard k v stored).imp grows
      (.imp_right fun ⟨awaited, there⟩ => ⟨awaited, grows there⟩)

/-- What a node knows reaches every node that hears of it: each step adds to what has been heard only what has
been merged or is on its way. -/
theorem Spread.step {first : ι → σ} {c : State ι σ π ε} (spread : Spread stamp get record part first c)
    (healthy : Healthy good ok c) {s : Step ι} (standing : Standing x c s) :
    Spread stamp get record part first (step x c s) := by
  have ⟨within, reached, pulled, coming⟩ := spread
  rcases step_cases c standing with same | ⟨i, j, same⟩ | ⟨n, p, j, unseen, found, left, same⟩ |
    ⟨p, member, seen, done, same⟩ | ⟨n, p, _, _, found, _, _, _, same⟩ | ⟨n, p, e, rest, found, left, _, same⟩ <;>
    rw [same]
  · exact spread
  · -- all parts of the state asked for are still to be read
    refine ⟨within, reached, fun q member => ?_, fun q member => ?_⟩
    · rcases List.mem_append.mp member with old | new
      · exact pulled q old
      · obtain rfl := List.mem_singleton.mp new
        exact List.forall_mem_nil _
    · rcases List.mem_append.mp member with old | new
      · exact coming q old
      · obtain rfl := List.mem_singleton.mp new
        exact fun n heard k v stored => .inr (.inr ⟨replicates.listed k, reached j n heard k v stored⟩)
  · -- the part holds what its registers hold by now
    have member := List.mem_of_getElem? found
    refine spread.set n (fun e inside k v carries => ?_) fun m heard k v stored => ?_
    · rcases List.mem_append.mp inside with before | new
      · exact pulled p member e before k v carries
      · exact within p.peer k v (replicates.dumped _ (healthy.nodes p.peer) j e new k v carries)
    · rcases coming p member m heard k v stored with merged | ⟨e, inside, waits⟩ | ⟨awaited, w, present, le⟩
      · exact .inl merged
      · exact .inr (.inl ⟨e, List.mem_append_left _ inside, waits⟩)
      · rw [left] at awaited
        rcases List.mem_cons.mp awaited with here | later
        · obtain ⟨e, inside, carries⟩ := replicates.dumps _ (healthy.nodes p.peer) k w present
          exact .inr (.inl ⟨e, List.mem_append_right _ (here ▸ inside), w, carries, le⟩)
        · exact .inr (.inr ⟨later, w, present, le⟩)
  · -- nothing is left to come of the pull
    refine ⟨within, fun i n heard k v stored => ?_, pulled, coming⟩
    simp only [Function.update_apply] at heard
    split at heard
    next here =>
      subst here
      rcases List.mem_append.mp heard with old | new
      · exact reached _ n old k v stored
      · rcases coming p member n new k v stored with merged | ⟨e, listed, _⟩ | ⟨awaited, _⟩
        · exact merged
        · rw [done] at listed
          cases listed
        · rw [seen] at awaited
          cases awaited
    next => exact reached i n heard k v stored
  · have member := List.mem_of_getElem? found
    exact spread.set n (pulled p member) (coming p member)
  · have member := List.mem_of_getElem? found
    have fine : ok e := healthy.pulls p member e (left ▸ List.mem_cons_self)
    have merges := spread.merged replicates fine (pulled p member e (left ▸ List.mem_cons_self)) p.node
    refine merges.set n (fun f inside => pulled p member f (left ▸ List.mem_cons_of_mem e inside))
      fun m heard k v stored => ?_
    rcases merges.coming p member m heard k v stored with here | ⟨f, inside, w, carries, le⟩ | there
    · exact .inl here
    · rw [left] at inside
      rcases List.mem_cons.mp inside with rfl | later
      · -- the event merged now is the one awaited
        obtain ⟨u, present, le'⟩ := reaches_of_record replicates (s := c.nodes p.node) fine carries
        refine .inl ⟨u, ?_, le.trans le'⟩
        simp only [Function.update_self]
        exact present
      · exact .inr (.inl ⟨f, later, w, carries, le⟩)
    · exact .inr (.inr there)

omit replicates [DecidableEq ι] [DecidableEq κ] in
theorem spread_start (first : ι → σ) : Spread stamp get record part first (start first : State ι σ π ε) where
  within i _ _ stored := ⟨i, stored⟩
  reached i n heard _ v stored := by
    obtain rfl := List.mem_singleton.mp heard
    exact ⟨v, stored, le_refl _⟩
  pulled _ member := by cases member
  coming _ member := by cases member

/-- So in every run whose writes stand, however the pulls of different nodes take turns. -/
theorem spread_run (keeps : Keeps x good ok) {first : ι → σ} (fine : ∀ i, good (first i))
    {steps : List (Step ι)} (standing : Meets (quiet (step x)) (Standing x) (start first) steps) :
    Healthy good ok (run x first steps) ∧ Spread stamp get record part first (run x first steps) :=
  exec_invariant (fun c => Healthy good ok c ∧ Spread stamp get record part first c)
    (fun _ _ now stands => ⟨now.1.step keeps stands, now.2.step replicates now.1 stands⟩)
    ⟨⟨fine, fun _ member => by cases member⟩, spread_start first⟩ standing

omit replicates [DecidableEq ι] [DecidableEq κ] in
/-- A node that has heard of every node holds the newest of all first values in each register. -/
theorem Spread.newest {first : ι → σ} {c : State ι σ π ε} (spread : Spread stamp get record part first c) {i : ι}
    (heard : ∀ n, n ∈ c.heard i) (k : κ) :
    Lww.IsNewest stamp {v | ∃ n, get (first n) k = some v} (get (c.nodes i) k) := by
  cases stored : get (c.nodes i) k with
  | none =>
    refine Set.eq_empty_iff_forall_notMem.mpr fun v ⟨n, present⟩ => ?_
    obtain ⟨w, held, _⟩ := spread.reached i n (heard n) k v present
    cases stored.symm.trans held
  | some w =>
    refine ⟨spread.within i k w stored, fun v ⟨n, present⟩ => ?_⟩
    obtain ⟨u, held, le⟩ := spread.reached i n (heard n) k v present
    obtain rfl := Option.some.inj (stored.symm.trans held)
    exact le

end Spread
end Epidemic
