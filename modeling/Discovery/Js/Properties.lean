import Discovery.Js.Json

/-! Objects as they are read: the order of their properties, and what is read back of a value that is written. -/

namespace Discovery
namespace Js

variable {α N M L : Type}

/-- The value of an own property. -/
def get (k : JsString) : List (JsString × α) → Option α
  | [] => none
  | (k', v) :: m => if k = k' then some v else get k m

/-- Writing a property sets its value and leaves what is read of the others. -/
theorem get_put (j k : JsString) (v : α) (m : List (JsString × α)) :
    get j (put k v m) = if j = k then some v else get j m := by
  induction m with
  | nil => rfl
  | cons e m ih =>
    obtain ⟨k', v'⟩ := e
    rw [put]
    by_cases same : k = k'
    · rw [if_pos same, get, get]
      by_cases found : j = k
      · rw [if_pos found, if_pos found]
      · rw [if_neg found, if_neg found, if_neg (fun other => found (other.trans same.symm))]
    rw [if_neg same]
    by_cases before : comesBefore k k' = true
    · rw [if_pos before, get]
    rw [if_neg before, get, get, ih]
    by_cases found : j = k
    · rw [if_neg (fun other => same (found.symm.trans other)), if_pos found, if_pos found]
    · rw [if_neg found, if_neg found]

theorem get_eq_some_of_mem {k : JsString} {v : α} {m : List (JsString × α)} (distinct : (m.map Prod.fst).Nodup)
    (member : (k, v) ∈ m) : get k m = some v := by
  induction m with
  | nil => cases member
  | cons e m ih =>
    obtain ⟨other, rest⟩ := List.nodup_cons.mp distinct
    rw [get]
    rcases List.mem_cons.mp member with rfl | later
    · rw [if_pos rfl]
    · rw [if_neg, ih rest later]
      rintro rfl
      exact other (List.mem_map.mpr ⟨_, later, rfl⟩)

theorem mem_of_get {k : JsString} {v : α} {m : List (JsString × α)} (found : get k m = some v) : (k, v) ∈ m := by
  induction m with
  | nil => cases found
  | cons e m ih =>
    rw [get] at found
    split at found
    next same =>
      rw [same, Option.some.inj found.symm]
      exact List.mem_cons_self
    next => exact List.mem_cons_of_mem _ (ih found)

theorem comesBefore_trans {j k l : JsString} (first : comesBefore j k = true) (second : comesBefore k l = true) :
    comesBefore j l = true := by
  rw [comesBefore] at *
  cases atJ : arrayIndex j with
  | none =>
    rw [atJ] at first
    cases first
  | some a =>
    cases atL : arrayIndex l with
    | none => rfl
    | some c =>
      cases atK : arrayIndex k with
      | none =>
        rw [atK] at second
        cases second
      | some b =>
        rw [atJ, atK] at first
        rw [atK, atL] at second
        exact decide_eq_true ((of_decide_eq_true first).trans (of_decide_eq_true second))

/-- Distinct keys, and none behind one that it comes before. -/
def Ordered (m : List (JsString × α)) : Prop := m.Pairwise fun e e' => e.1 ≠ e'.1 ∧ comesBefore e'.1 e.1 = false

theorem mem_put {k : JsString} {v : α} {m : List (JsString × α)} {e : JsString × α} (member : e ∈ put k v m) :
    e = (k, v) ∨ e ∈ m := by
  induction m with
  | nil => exact .inl (List.mem_singleton.mp member)
  | cons e' m ih =>
    rw [put] at member
    split at member
    next =>
      rcases List.mem_cons.mp member with new | old
      · exact .inl new
      · exact .inr (List.mem_cons_of_mem e' old)
    split at member
    next => exact List.mem_cons.mp member
    next =>
      rcases List.mem_cons.mp member with first | later
      · exact .inr (first ▸ List.mem_cons_self)
      · exact (ih later).imp_right (List.mem_cons_of_mem e')

/-- The order of the properties is kept by a write: array indices first, by their size, and then the other keys as
they came. -/
theorem ordered_put (k : JsString) (v : α) {m : List (JsString × α)} (ordered : Ordered m) : Ordered (put k v m) := by
  induction m with
  | nil => exact List.pairwise_singleton _ _
  | cons e m ih =>
    obtain ⟨k', v'⟩ := e
    obtain ⟨first, rest⟩ := List.pairwise_cons.mp ordered
    rw [put]
    split
    next same => exact List.pairwise_cons.mpr ⟨fun e member => same ▸ first e member, rest⟩
    next other =>
    split
    next before =>
      refine List.pairwise_cons.mpr ⟨List.forall_mem_cons.mpr ⟨⟨other, ?_⟩, fun e member => ?_⟩, ordered⟩
      · by_contra back
        have loop := comesBefore_trans before (eq_true_of_ne_false back)
        rw [comesBefore] at loop
        cases index : arrayIndex k with
        | none =>
          rw [index] at loop
          cases loop
        | some n =>
          rw [index] at loop
          exact lt_irrefl n (of_decide_eq_true loop)
      · obtain ⟨_, behind⟩ := first e member
        constructor
        · rintro rfl
          rw [before] at behind
          cases behind
        · by_contra back
          rw [comesBefore_trans (eq_true_of_ne_false back) before] at behind
          cases behind
    next behind =>
      refine List.pairwise_cons.mpr ⟨fun e member => ?_, ih rest⟩
      rcases mem_put member with rfl | old
      · exact ⟨Ne.symm other, eq_false_of_ne_true behind⟩
      · exact first e old

/-- A property that comes behind all others is the last. -/
theorem put_last {k : JsString} (v : α) {m : List (JsString × α)}
    (last : ∀ e ∈ m, e.1 ≠ k ∧ comesBefore k e.1 = false) : put k v m = m ++ [(k, v)] := by
  induction m with
  | nil => rfl
  | cons e m ih =>
    obtain ⟨⟨other, behind⟩, rest⟩ := List.forall_mem_cons.mp last
    rw [put, if_neg (Ne.symm other), if_neg (by rw [behind]; exact Bool.false_ne_true), ih rest, List.cons_append]

namespace Json

mutual

/-- Every object has its properties in their order. -/
def Canonical : Json N → Prop
  | null => True
  | bool _ => True
  | number _ => True
  | string _ => True
  | array l => CanonicalElements l
  | object m => Ordered m ∧ CanonicalMembers m

def CanonicalElements : List (Json N) → Prop
  | [] => True
  | v :: l => v.Canonical ∧ CanonicalElements l

def CanonicalMembers : List (JsString × Json N) → Prop
  | [] => True
  | (_, v) :: m => v.Canonical ∧ CanonicalMembers m

end

theorem canonicalMembers_iff {m : List (JsString × Json N)} : CanonicalMembers m ↔ ∀ e ∈ m, e.2.Canonical := by
  induction m with
  | nil => exact ⟨fun _ e member => absurd member List.not_mem_nil, fun _ => trivial⟩
  | cons e m ih => rw [List.forall_mem_cons, ← ih, CanonicalMembers]

mutual

/-- What is read back has its properties in their order at every depth, and no key twice. -/
theorem canonical_canon : (v : Json N) → v.canon.Canonical
  | null => trivial
  | bool _ => trivial
  | number _ => trivial
  | string _ => trivial
  | array l => canonical_canonElements l
  | object m => canonical_canonMembers m List.Pairwise.nil trivial

theorem canonical_canonElements : (l : List (Json N)) → CanonicalElements (canonElements l)
  | [] => trivial
  | v :: l => ⟨canonical_canon v, canonical_canonElements l⟩

theorem canonical_canonMembers : (m : List (JsString × Json N)) → ∀ {properties : List (JsString × Json N)},
    Ordered properties → CanonicalMembers properties →
      Ordered (canonMembers properties m) ∧ CanonicalMembers (canonMembers properties m)
  | [], _, ordered, canonical => ⟨ordered, canonical⟩
  | (k, v) :: m, properties, ordered, canonical => by
    refine canonical_canonMembers m (ordered_put k v.canon ordered) (canonicalMembers_iff.mpr fun e member => ?_)
    rcases mem_put member with rfl | old
    · exact canonical_canon v
    · exact canonicalMembers_iff.mp canonical e old

end

mutual

/-- A value that is in order already is read back unchanged. -/
theorem canon_of_canonical : (v : Json N) → v.Canonical → v.canon = v
  | null, _ => rfl
  | bool _, _ => rfl
  | number _, _ => rfl
  | string _, _ => rfl
  | array l, canonical => by rw [canon, canonElements_of_canonical l canonical]
  | object m, canonical => by
    rw [canon, canonMembers_of_canonical m [] canonical.1 canonical.2, List.nil_append]

theorem canonElements_of_canonical : (l : List (Json N)) → CanonicalElements l → canonElements l = l
  | [], _ => rfl
  | v :: l, canonical => by
    rw [canonElements, canon_of_canonical v canonical.1, canonElements_of_canonical l canonical.2]

theorem canonMembers_of_canonical : (m properties : List (JsString × Json N)) → Ordered (properties ++ m) →
    CanonicalMembers m → canonMembers properties m = properties ++ m
  | [], _, _, _ => (List.append_nil _).symm
  | (k, v) :: m, properties, ordered, canonical => by
    have last := (List.pairwise_append.mp ordered).2.2
    rw [canonMembers, canon_of_canonical v canonical.1, put_last v fun e member => last e member _ List.mem_cons_self,
      canonMembers_of_canonical m _ (by rw [List.append_assoc]; exact ordered) canonical.2, List.append_assoc]
    rfl

end

theorem mem_bindMembers {f : N → Json M} {m : List (JsString × Json N)} :
    bindMembers f m = m.map fun e => (e.1, e.2.bind f) := by
  induction m with
  | nil => rfl
  | cons e m ih => rw [bindMembers, ih, List.map_cons]

mutual

theorem canonical_bind {f : N → Json M} (canonical : ∀ n, (f n).Canonical) : (v : Json N) → v.Canonical →
    (v.bind f).Canonical
  | null, _ => trivial
  | bool _, _ => trivial
  | number n, _ => canonical n
  | string _, _ => trivial
  | array l, elements => canonical_bindElements canonical l elements
  | object m, ⟨ordered, members⟩ => by
    refine ⟨?_, canonical_bindMembers canonical m members⟩
    rw [mem_bindMembers]
    exact List.pairwise_map.mpr ordered

theorem canonical_bindElements {f : N → Json M} (canonical : ∀ n, (f n).Canonical) : (l : List (Json N)) →
    CanonicalElements l → CanonicalElements (bindElements f l)
  | [], _ => trivial
  | v :: l, ⟨first, rest⟩ => ⟨canonical_bind canonical v first, canonical_bindElements canonical l rest⟩

theorem canonical_bindMembers {f : N → Json M} (canonical : ∀ n, (f n).Canonical) : (m : List (JsString × Json N)) →
    CanonicalMembers m → CanonicalMembers (bindMembers f m)
  | [], _ => trivial
  | (_, v) :: m, ⟨first, rest⟩ => ⟨canonical_bind canonical v first, canonical_bindMembers canonical m rest⟩

end

mutual

theorem bind_bind (f : N → Json M) (g : M → Json L) : (v : Json N) → (v.bind f).bind g = v.bind fun n => (f n).bind g
  | null => rfl
  | bool _ => rfl
  | number _ => rfl
  | string _ => rfl
  | array l => by rw [bind, bind, bind, bindElements_bind f g l]
  | object m => by rw [bind, bind, bind, bindMembers_bind f g m]

theorem bindElements_bind (f : N → Json M) (g : M → Json L) : (l : List (Json N)) →
    bindElements g (bindElements f l) = bindElements (fun n => (f n).bind g) l
  | [] => rfl
  | v :: l => by rw [bindElements, bindElements, bindElements, bind_bind f g v, bindElements_bind f g l]

theorem bindMembers_bind (f : N → Json M) (g : M → Json L) : (m : List (JsString × Json N)) →
    bindMembers g (bindMembers f m) = bindMembers (fun n => (f n).bind g) m
  | [] => rfl
  | (k, v) :: m => by rw [bindMembers, bindMembers, bindMembers, bind_bind f g v, bindMembers_bind f g m]

end

mutual

theorem all_bind {P : M → Prop} {f : N → Json M} (all : ∀ n, (f n).All P) : (v : Json N) → (v.bind f).All P
  | null => trivial
  | bool _ => trivial
  | number n => all n
  | string _ => trivial
  | array l => allElements_bind all l
  | object m => allMembers_bind all m

theorem allElements_bind {P : M → Prop} {f : N → Json M} (all : ∀ n, (f n).All P) : (l : List (Json N)) →
    AllElements P (bindElements f l)
  | [] => trivial
  | v :: l => ⟨all_bind all v, allElements_bind all l⟩

theorem allMembers_bind {P : M → Prop} {f : N → Json M} (all : ∀ n, (f n).All P) : (m : List (JsString × Json N)) →
    AllMembers P (bindMembers f m)
  | [] => trivial
  | (_, v) :: m => ⟨all_bind all v, allMembers_bind all m⟩

end

mutual

/-- A value stays as it is if each of its numbers does. -/
theorem bind_eq_self_iff {f : N → Json N} : (v : Json N) → (v.bind f = v ↔ v.All fun n => f n = .number n)
  | null => iff_of_true rfl trivial
  | bool _ => iff_of_true rfl trivial
  | number _ => Iff.rfl
  | string _ => iff_of_true rfl trivial
  | array l => by rw [bind, array.injEq, bindElements_eq_self_iff l, All]
  | object m => by rw [bind, object.injEq, bindMembers_eq_self_iff m, All]

theorem bindElements_eq_self_iff {f : N → Json N} : (l : List (Json N)) →
    (bindElements f l = l ↔ AllElements (fun n => f n = .number n) l)
  | [] => iff_of_true rfl trivial
  | v :: l => by rw [bindElements, List.cons.injEq, bind_eq_self_iff v, bindElements_eq_self_iff l, AllElements]

theorem bindMembers_eq_self_iff {f : N → Json N} : (m : List (JsString × Json N)) →
    (bindMembers f m = m ↔ AllMembers (fun n => f n = .number n) m)
  | [] => iff_of_true rfl trivial
  | (k, v) :: m => by
    rw [bindMembers, List.cons.injEq, Prod.mk.injEq, eq_self, true_and, bind_eq_self_iff v, bindMembers_eq_self_iff m,
      AllMembers]

end

end Json

/-- A number read from a text is one that can be written: its own value when it is rounded again. -/
theorem proper_ofRat (q : ℚ) : Proper (ofRat q) := fun _ value => ofRat_idem value

/-- What `JSON.parse` makes of a text is made of number values. -/
theorem all_parsed (v : Json ℚ) : v.parsed.All Proper := Json.all_bind proper_ofRat v.canon

theorem canonical_numberJson (x : Number) : (numberJson x).Canonical := by
  cases x <;> trivial

/-- The text that `JSON.stringify` writes is read back by `JSON.parse`, each number as its own text says. -/
theorem readJson_stringify {gap : JsString} (spaces : Spaces gap) {v : Json Number} (proper : v.All Proper) :
    readJson (stringify gap 0 v) = some (v.bind numberJson) := by
  have read := readValue_stringify spaces v proper 0 (stringify gap 0 v).length [] []
    (fun _ member => absurd member List.not_mem_nil) (by omega) stops_nil
  rw [List.nil_append, List.append_nil] at read
  rw [readJson, read]
  rfl

/-- The number that is written for the number value of a rational. -/
def rewritten (q : ℚ) : Json ℚ := numberJson (ofRat q)

/-- Reading, writing and reading again changes a value only in its numbers, and only as one more text makes of
them. -/
theorem parsed_bind (v : Json ℚ) : v.parsed.bind numberJson = v.canon.bind rewritten :=
  Json.bind_bind _ _ v.canon

theorem canonical_rewritten (v : Json ℚ) : (v.canon.bind rewritten).Canonical :=
  Json.canonical_bind (fun q => canonical_numberJson (ofRat q)) _ (Json.canonical_canon v)

/-- What is written for a number value is not changed when it is written again. -/
theorem rewritten_bind (q : ℚ) : (rewritten q).bind rewritten = rewritten q := by
  rw [rewritten]
  cases value : ofRat q with
  | nan => rfl
  | infinity => rfl
  | finite x =>
    show numberJson (ofRat (written x)) = _
    rw [ofRat_written (ofRat_idem value)]

/-- Writing, reading and writing again is as writing once. -/
theorem parsed_rewritten (v : Json ℚ) : (v.canon.bind rewritten).parsed.bind numberJson = v.canon.bind rewritten := by
  rw [parsed_bind, Json.canon_of_canonical _ (canonical_rewritten v), Json.bind_bind]
  exact congrArg v.canon.bind (funext rewritten_bind)

end Js
end Discovery
