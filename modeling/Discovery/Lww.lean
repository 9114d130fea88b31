import Mathlib.Data.List.Induction
import Mathlib.Data.Set.Insert
import Mathlib.Order.Defs.LinearOrder

/-! Registers that merge by last write wins. -/

namespace Lww
variable {V T : Type} [LinearOrder T]

/-- A policy decides whether a candidate's stamp replaces a stored one. It may only choose freely
on ties. -/
structure Settles (replaces : T → T → Bool) : Prop where
  newer : ∀ {s t}, s < t → replaces s t = true
  older : ∀ {s t}, t < s → replaces s t = false

variable (stamp : V → T)

def merge (replaces : T → T → Bool) (stored : Option V) (v : V) : Option V :=
  match stored with
  | none => some v
  | some w => if replaces (stamp w) (stamp v) then some v else some w

/-- `r` is a value of the greatest stamp among `C`, and nothing if there is none. -/
def IsNewest (C : Set V) : Option V → Prop
  | none => C = ∅
  | some v => v ∈ C ∧ ∀ w ∈ C, stamp w ≤ stamp v

/-- Different values carry different stamps. -/
def Separate (C : Set V) : Prop := ∀ v ∈ C, ∀ w ∈ C, stamp v = stamp w → v = w

variable {stamp} {replaces : T → T → Bool} {C : Set V} {r r' : Option V}

theorem IsNewest.unique (separate : Separate stamp C) (left : IsNewest stamp C r)
    (right : IsNewest stamp C r') : r = r' := by
  cases r with
  | none =>
    obtain rfl : C = ∅ := left
    cases r' with
    | none => rfl
    | some w => exact absurd right.1 (Set.notMem_empty w)
  | some v =>
    cases r' with
    | none =>
      obtain rfl : C = ∅ := right
      exact absurd left.1 (Set.notMem_empty v)
    | some w =>
      have same : stamp v = stamp w := le_antisymm (right.2 v left.1) (left.2 w right.1)
      exact congrArg some (separate v left.1 w right.1 same)

theorem IsNewest.merge (settles : Settles replaces) (newest : IsNewest stamp C r) (v : V) :
    IsNewest stamp (insert v C) (merge stamp replaces r v) := by
  cases r with
  | none =>
    obtain rfl : C = ∅ := newest
    refine ⟨Set.mem_insert v _, fun w member => ?_⟩
    rcases Set.mem_insert_iff.mp member with same | old
    · exact le_of_eq (congrArg stamp same)
    · exact absurd old (Set.notMem_empty w)
  | some w =>
    obtain ⟨present, greatest⟩ := newest
    unfold Lww.merge
    by_cases taken : replaces (stamp w) (stamp v) = true
    · have le : stamp w ≤ stamp v := by
        by_contra less
        exact absurd taken (by rw [settles.older (not_le.mp less)]; exact Bool.false_ne_true)
      simp only [taken, if_true]
      refine ⟨Set.mem_insert v _, fun u member => ?_⟩
      rcases Set.mem_insert_iff.mp member with same | old
      · exact le_of_eq (congrArg stamp same)
      · exact (greatest u old).trans le
    · have le : stamp v ≤ stamp w := by
        by_contra less
        exact taken (settles.newer (not_le.mp less))
      simp only [taken, Bool.false_eq_true, if_false]
      refine ⟨Set.mem_insert_of_mem v present, fun u member => ?_⟩
      rcases Set.mem_insert_iff.mp member with same | old
      · exact same ▸ le
      · exact greatest u old

/-- A value put over the newest one is the newest exactly if it is not older. -/
theorem IsNewest.overwrite_iff (newest : IsNewest stamp C r) (v : V) :
    IsNewest stamp (insert v C) (some v) ↔ ∀ w, r = some w → stamp w ≤ stamp v := by
  constructor
  · rintro ⟨_, greatest⟩ w rfl
    exact greatest w (Set.mem_insert_of_mem v newest.1)
  · intro older
    refine ⟨Set.mem_insert v C, fun w member => ?_⟩
    rcases Set.mem_insert_iff.mp member with same | old
    · exact le_of_eq (congrArg stamp same)
    · cases r with
      | none => exact absurd old (Set.eq_empty_iff_forall_notMem.mp newest w)
      | some u => exact (newest.2 w old).trans (older u rfl)

/-- A value that is not newer than the newest one may be counted. -/
theorem IsNewest.absorb {w : V} (newest : IsNewest stamp C (some w)) {v : V}
    (older : stamp v ≤ stamp w) : IsNewest stamp (insert v C) (some w) := by
  refine ⟨Set.mem_insert_of_mem v newest.1, fun u member => ?_⟩
  rcases Set.mem_insert_iff.mp member with same | old
  · exact same ▸ older
  · exact newest.2 u old

theorem IsNewest.self (r : Option V) : IsNewest stamp {v | r = some v} r := by
  cases r with
  | none => simp [IsNewest]
  | some v =>
    refine ⟨rfl, fun w same => ?_⟩
    exact le_of_eq (congrArg stamp (Option.some.inj same).symm)

/-- Candidates that are not newer may be counted or not. -/
theorem IsNewest.self_union {D : Set V} (bounded : ∀ w ∈ D, ∃ v, r = some v ∧ stamp w ≤ stamp v) :
    IsNewest stamp ({v | r = some v} ∪ D) r := by
  cases r with
  | none =>
    refine Set.eq_empty_iff_forall_notMem.mpr fun w member => ?_
    rcases member with same | other
    · cases same
    · obtain ⟨_, absent, _⟩ := bounded w other
      cases absent
  | some v =>
    refine ⟨Or.inl rfl, fun w member => ?_⟩
    rcases member with same | other
    · exact le_of_eq (congrArg stamp (Option.some.inj same).symm)
    · obtain ⟨u, same, le⟩ := bounded w other
      exact Option.some.inj same ▸ le

theorem IsNewest.eq_of_self (newest : IsNewest stamp {v | r = some v} r') : r' = r := by
  refine newest.unique ?_ (IsNewest.self r)
  intro v left w right _
  exact Option.some.inj (left.symm.trans right)

/-- The newest of the newest and more is the newest of all. -/
theorem IsNewest.trans {D : Set V} (newest : IsNewest stamp C r)
    (next : IsNewest stamp ({v | r = some v} ∪ D) r') : IsNewest stamp (C ∪ D) r' := by
  cases r with
  | none =>
    obtain rfl : C = ∅ := newest
    simpa using next
  | some v =>
    cases r' with
    | none =>
      have member : v ∈ {w | some v = some w} ∪ D := Or.inl rfl
      exact absurd member (Set.eq_empty_iff_forall_notMem.mp next v)
    | some w =>
      obtain ⟨member, greatest⟩ := next
      refine ⟨?_, fun u inside => ?_⟩
      · rcases member with same | other
        · exact Or.inl (Option.some.inj same ▸ newest.1)
        · exact Or.inr other
      · rcases inside with old | other
        · exact (newest.2 u old).trans (greatest v (Or.inl rfl))
        · exact greatest u (Or.inr other)

/-- More candidates change nothing if each is reached by an old one. -/
theorem IsNewest.widen {D : Set V} (newest : IsNewest stamp C r) (within : C ⊆ D)
    (reached : ∀ w ∈ D, ∃ v ∈ C, stamp w ≤ stamp v) : IsNewest stamp D r := by
  cases r with
  | none =>
    obtain rfl : C = ∅ := newest
    refine Set.eq_empty_iff_forall_notMem.mpr fun w member => ?_
    obtain ⟨v, inside, _⟩ := reached w member
    exact absurd inside (Set.notMem_empty v)
  | some v =>
    refine ⟨within newest.1, fun w member => ?_⟩
    obtain ⟨u, inside, le⟩ := reached w member
    exact le.trans (newest.2 u inside)

/-- Two registers that merge each other's value in turn end up equal. -/
theorem IsNewest.exchange {a b a' b' : Option V}
    (separate : ∀ v w, a = some v → b = some w → stamp v = stamp w → v = w)
    (left : IsNewest stamp ({v | a = some v} ∪ {v | b = some v}) a')
    (right : IsNewest stamp ({v | b = some v} ∪ {v | a' = some v}) b') : b' = a' := by
  have both : IsNewest stamp ({v | a = some v} ∪ {v | b = some v}) b' := by
    have within : {v | b = some v} ∪ {v | a' = some v} ⊆ {v | a = some v} ∪ {v | b = some v} := by
      rintro v (old | new)
      · exact Or.inr old
      · rw [Set.mem_ofPred_eq] at new
        subst new
        exact left.1
    refine right.widen within fun w member => ?_
    cases a' with
    | none => exact absurd member (Set.eq_empty_iff_forall_notMem.mp left w)
    | some v => exact ⟨v, Or.inr rfl, left.2 w member⟩
  refine both.unique ?_ left
  rintro v (hv | hv) w (hw | hw) same
  · exact Option.some.inj (hv.symm.trans hw)
  · exact separate v w hv hw same
  · exact (separate w v hw hv same.symm).symm
  · exact Option.some.inj (hv.symm.trans hw)

theorem IsNewest.isSome {v : V} (newest : IsNewest stamp C r) (member : v ∈ C) : r.isSome := by
  cases r with
  | none => exact absurd member (Set.eq_empty_iff_forall_notMem.mp newest v)
  | some w => rfl

omit [LinearOrder T] in
theorem merge_of_replaces {w v : V} (taken : replaces (stamp w) (stamp v) = true) :
    Lww.merge stamp replaces (some w) v = some v :=
  if_pos taken

omit [LinearOrder T] in
/-- A merge stores the candidate or keeps what was there. -/
theorem merge_eq_or (w v : V) :
    Lww.merge stamp replaces (some w) v = some v ∨ Lww.merge stamp replaces (some w) v = some w := by
  by_cases taken : replaces (stamp w) (stamp v) = true
  · exact Or.inl (if_pos taken)
  · exact Or.inr (if_neg taken)

omit [LinearOrder T] in
theorem mem_merge {v w : V} (merged : Lww.merge stamp replaces r v = some w) : w = v ∨ r = some w := by
  cases r with
  | none => exact Or.inl (Option.some.inj merged).symm
  | some u =>
    rcases merge_eq_or u v with taken | kept
    · exact Or.inl (Option.some.inj (taken.symm.trans merged)).symm
    · exact Or.inr (kept.symm.trans merged)

theorem merge_comm_of_lt (settles : Settles replaces) {v w : V} (less : stamp v < stamp w)
    (r : Option V) :
    Lww.merge stamp replaces (Lww.merge stamp replaces r v) w =
      Lww.merge stamp replaces (Lww.merge stamp replaces r w) v := by
  have taken := settles.newer less
  have kept := settles.older less
  cases r with
  | none => simp [Lww.merge, taken, kept]
  | some u =>
    by_cases first : replaces (stamp u) (stamp v) = true
    · have later : stamp u < stamp w := by
        by_contra above
        have older := settles.older (lt_of_lt_of_le less (not_lt.mp above))
        exact absurd first (by simp [older])
      simp [Lww.merge, first, taken, kept, settles.newer later]
    · by_cases second : replaces (stamp u) (stamp w) = true
      · simp [Lww.merge, first, second, kept]
      · simp [Lww.merge, first, second]

/-- Two values of different stamps may be merged in either order. -/
theorem merge_comm (settles : Settles replaces) {v w : V} (differ : stamp v ≠ stamp w) (r : Option V) :
    Lww.merge stamp replaces (Lww.merge stamp replaces r v) w =
      Lww.merge stamp replaces (Lww.merge stamp replaces r w) v := by
  rcases lt_or_gt_of_ne differ with less | more
  · exact merge_comm_of_lt settles less r
  · exact (merge_comm_of_lt settles more r).symm

omit [LinearOrder T] in
/-- Merging commutes with a stamp-preserving embedding of the values. -/
theorem merge_map {W : Type} {stamp' : W → T} (f : V → W) (same : ∀ v, stamp' (f v) = stamp v)
    (stored : Option V) (v : V) :
    (Lww.merge stamp replaces stored v).map f = Lww.merge stamp' replaces (stored.map f) (f v) := by
  cases stored with
  | none => rfl
  | some w =>
    simp only [Lww.merge, Option.map_some, same]
    split <;> rfl

section Replica
variable {σ ε κ : Type} [DecidableEq κ] (stamp) (policy : κ → T → T → Bool)
  (lookup : σ → κ → Option V) (apply : σ → ε → σ) (record : ε → Option (κ × V))

/-- An event with a record merges it into its key, one without changes nothing. -/
def Merges (s : σ) (e : ε) : Prop :=
  ∀ k, lookup (apply s e) k =
    match record e with
    | some (j, v) => if k = j then Lww.merge stamp (policy k) (lookup s k) v else lookup s k
    | none => lookup s k

/-- The values a key is given, by the initial state or by an event. -/
def candidates (s : σ) (es : List ε) (k : κ) : Set V :=
  {v | lookup s k = some v ∨ ∃ e ∈ es, record e = some (k, v)}

variable {stamp policy lookup apply record}

/-- After any sequence of merges each key holds the newest of its candidates. -/
theorem newest_of_merges (settles : ∀ k, Settles (policy k)) {es : List ε} (s : σ)
    (merges : ∀ s, ∀ e ∈ es, Merges stamp policy lookup apply record s e) (k : κ) :
    IsNewest stamp (candidates lookup record s es k) (lookup (es.foldl apply s) k) := by
  induction es using List.reverseRecOn with
  | nil =>
    cases present : lookup s k with
    | none => simp [candidates, IsNewest, present]
    | some v => simp [candidates, IsNewest, present]
  | append_singleton es e ih =>
    have before := ih fun s f member => merges s f (List.mem_append_left _ member)
    have step := merges (es.foldl apply s) e (List.mem_append_right _ (List.mem_singleton.mpr rfl)) k
    rw [List.foldl_append, List.foldl_cons, List.foldl_nil, step]
    cases rec : record e with
    | none =>
      have same : candidates lookup record s (es ++ [e]) k = candidates lookup record s es k := by
        ext v
        simp [candidates, or_and_right, exists_or, rec]
      simpa only [same] using before
    | some entry =>
      obtain ⟨j, v⟩ := entry
      by_cases here : k = j
      · subst here
        have grown : candidates lookup record s (es ++ [e]) k =
            insert v (candidates lookup record s es k) := by
          ext w
          simp only [candidates, Set.mem_insert_iff, Set.mem_ofPred_eq, List.mem_append,
            List.mem_singleton, or_and_right, exists_or, exists_eq_left, rec, Option.some.injEq,
            Prod.mk.injEq, true_and, eq_comm (a := v)]
          exact or_assoc.symm.trans or_comm
        simpa only [grown, if_true] using before.merge (settles k) v
      · have same : candidates lookup record s (es ++ [e]) k = candidates lookup record s es k := by
          ext w
          simp [candidates, or_and_right, exists_or, rec, Ne.symm here]
        simpa only [same, here, if_false] using before

/-- Two sequences with the same events agree on every key whose candidates are separate. -/
theorem agree_of_merges (settles : ∀ k, Settles (policy k)) {es fs : List ε} (s : σ)
    (same : ∀ e, e ∈ es ↔ e ∈ fs)
    (merges : ∀ s, ∀ e ∈ es, Merges stamp policy lookup apply record s e) {k : κ}
    (separate : Separate stamp (candidates lookup record s es k)) :
    lookup (es.foldl apply s) k = lookup (fs.foldl apply s) k := by
  have left := newest_of_merges settles s merges k
  have right := newest_of_merges settles s (fun s e member => merges s e ((same e).mpr member)) k
  have sets : candidates lookup record s fs k = candidates lookup record s es k := by
    simp only [candidates, same]
  rw [sets] at right
  exact left.unique separate right

omit [LinearOrder T] in
/-- What a key holds after a merge it held before or got from the event. -/
theorem mem_of_merges {s : σ} {e : ε} (merges : Merges stamp policy lookup apply record s e) {k : κ} {v : V}
    (stored : lookup (apply s e) k = some v) : lookup s k = some v ∨ record e = some (k, v) := by
  rw [merges k] at stored
  split at stored
  next j w carries =>
    split at stored
    next here =>
      subst here
      rcases mem_merge stored with rfl | old
      · exact Or.inr carries
      · exact Or.inl old
    next => exact Or.inl stored
  next => exact Or.inl stored

omit [LinearOrder T] in
/-- A key that no event carries keeps its value. -/
theorem lookup_of_quiet {es : List ε} (s : σ) (merges : ∀ s, ∀ e ∈ es, Merges stamp policy lookup apply record s e)
    {k : κ} (quiet : ∀ e ∈ es, ∀ v, record e ≠ some (k, v)) : lookup (es.foldl apply s) k = lookup s k := by
  induction es generalizing s with
  | nil => rfl
  | cons e es ih =>
    have step := merges s e List.mem_cons_self k
    have rest := ih (apply s e) (fun s f member => merges s f (List.mem_cons_of_mem _ member))
      (fun f member => quiet f (List.mem_cons_of_mem _ member))
    rw [List.foldl_cons, rest, step]
    cases rec : record e with
    | none => rfl
    | some entry =>
      obtain ⟨j, v⟩ := entry
      have other : k ≠ j := fun same => quiet e List.mem_cons_self v (same ▸ rec)
      exact if_neg other

omit [LinearOrder T] in
/-- Where every write replaces and all writes to a key are the same, one is enough. -/
theorem lookup_of_overwrites {es : List ε} (s : σ)
    (merges : ∀ s, ∀ e ∈ es, Merges stamp policy lookup apply record s e) {k : κ} {v : V}
    (overwrites : ∀ t t', policy k t t' = true) (one : ∀ e ∈ es, ∀ w, record e = some (k, w) → w = v)
    (written : ∃ e ∈ es, record e = some (k, v)) : lookup (es.foldl apply s) k = some v := by
  induction es using List.reverseRecOn with
  | nil =>
    obtain ⟨_, member, _⟩ := written
    exact absurd member List.not_mem_nil
  | append_singleton es e ih =>
    have inPrefix {f : ε} (member : f ∈ es) : f ∈ es ++ [e] := List.mem_append_left _ member
    have last : e ∈ es ++ [e] := List.mem_append_right _ (List.mem_singleton.mpr rfl)
    have step := merges (es.foldl apply s) e last k
    rw [List.foldl_append, List.foldl_cons, List.foldl_nil, step]
    have earlier (others : ∀ w, record e ≠ some (k, w)) : lookup (es.foldl apply s) k = some v := by
      refine ih (fun s f member => merges s f (inPrefix member)) (fun f member => one f (inPrefix member)) ?_
      obtain ⟨f, member, rec⟩ := written
      rcases List.mem_append.mp member with old | new
      · exact ⟨f, old, rec⟩
      · exact absurd (List.mem_singleton.mp new ▸ rec) (others v)
    cases rec : record e with
    | none => exact earlier fun w same => by cases rec.symm.trans same
    | some entry =>
      obtain ⟨j, w⟩ := entry
      by_cases here : k = j
      · subst here
        obtain rfl := one e last w rec
        simp only [if_true]
        cases lookup (es.foldl apply s) k with
        | none => rfl
        | some u => exact merge_of_replaces (overwrites _ _)
      · simp only [here, if_false]
        refine earlier fun u same => here ?_
        exact (Prod.mk.inj (Option.some.inj (rec.symm.trans same))).1.symm

end Replica
end Lww
