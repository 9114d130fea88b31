import Mathlib.Data.List.Basic
import Mathlib.Tactic.Common

namespace Machine
variable {σ τ ι ω : Type} (step : σ → ι → σ × List ω)

/-- Feeds the inputs one after the other and collects the outputs. -/
def exec (s : σ) : List ι → σ × List ω
  | [] => (s, [])
  | i :: is =>
    let next := step s i
    let rest := exec next.1 is
    (rest.1, next.2 ++ rest.2)

/-- Every input of the run meets `ok` at the state it arrives in. -/
def Meets (ok : σ → ι → Prop) (s : σ) : List ι → Prop
  | [] => True
  | i :: is => ok s i ∧ Meets ok (step s i).1 is

/-- `P` holds of every state the run passes through, the first and the last included. -/
def Always (P : σ → Prop) (s : σ) : List ι → Prop
  | [] => P s
  | i :: is => P s ∧ Always P (step s i).1 is

/-- A machine without outputs. -/
def quiet (next : σ → ι → σ) (s : σ) (i : ι) : σ × List Empty := (next s i, [])

variable {step} {ok : σ → ι → Prop}

instance decidableMeets [∀ s i, Decidable (ok s i)] : (s : σ) → (is : List ι) → Decidable (Meets step ok s is)
  | _, [] => inferInstanceAs (Decidable True)
  | s, i :: is =>
    have := decidableMeets (step s i).1 is
    inferInstanceAs (Decidable (_ ∧ _))

theorem exec_append (s : σ) (is js : List ι) : (exec step s (is ++ js)).1 = (exec step (exec step s is).1 js).1 := by
  induction is generalizing s with
  | nil => rfl
  | cons i is ih => exact ih (step s i).1

/-- A condition on the inputs alone is met wherever they arrive. -/
theorem meets_of_forall {P : ι → Prop} {s : σ} {is : List ι} (all : ∀ i ∈ is, P i) :
    Meets step (fun _ i => P i) s is := by
  induction is generalizing s with
  | nil => exact trivial
  | cons i is ih => exact ⟨all i List.mem_cons_self, ih fun j member => all j (List.mem_cons_of_mem _ member)⟩

/-- A condition on the inputs alone adds to one on the states they arrive in. -/
theorem Meets.and {P : ι → Prop} {s : σ} {is : List ι} (run : Meets step ok s is)
    (all : ∀ i ∈ is, P i) : Meets step (fun s i => ok s i ∧ P i) s is := by
  induction is generalizing s with
  | nil => exact trivial
  | cons i is ih =>
    obtain ⟨now, later⟩ := run
    exact ⟨⟨now, all i List.mem_cons_self⟩, ih later fun j member => all j (List.mem_cons_of_mem _ member)⟩

theorem meets_append {s : σ} {is js : List ι} :
    Meets step ok s (is ++ js) ↔ Meets step ok s is ∧ Meets step ok (exec step s is).1 js := by
  induction is generalizing s with
  | nil => exact iff_of_eq (true_and _).symm
  | cons i is ih => exact (and_congr_right fun _ => ih).trans and_assoc.symm

theorem Meets.of_prefix {s : σ} {is js : List ι} (run : Meets step ok s js) (short : is <+: js) :
    Meets step ok s is := by
  induction is generalizing s js with
  | nil => exact trivial
  | cons i is ih =>
    obtain ⟨rest, rfl⟩ := short
    obtain ⟨now, later⟩ := run
    exact ⟨now, ih later ⟨rest, rfl⟩⟩

/-- What every admissible step keeps holds after every admissible run. -/
theorem exec_invariant (Inv : σ → Prop) (keep : ∀ s i, Inv s → ok s i → Inv (step s i).1)
    {s : σ} {is : List ι} (start : Inv s) (run : Meets step ok s is) : Inv (exec step s is).1 := by
  induction is generalizing s with
  | nil => exact start
  | cons i is ih =>
    obtain ⟨now, later⟩ := run
    exact ih (keep s i start now) later

/-- What the steps say as long as they keep the invariant, a run says. -/
theorem forall_outputs {P : ω → Prop} (Inv : σ → Prop) (keep : ∀ s i, Inv s → ok s i → Inv (step s i).1)
    (emits : ∀ s i, Inv s → ok s i → ∀ o ∈ (step s i).2, P o) {s : σ} {is : List ι} (start : Inv s)
    (run : Meets step ok s is) : ∀ o ∈ (exec step s is).2, P o := by
  induction is generalizing s with
  | nil =>
    intro o member
    cases member
  | cons i is ih =>
    obtain ⟨now, later⟩ := run
    intro o member
    rcases List.mem_append.mp member with here | there
    · exact emits s i start now o here
    · exact ih (keep s i start now) later o there

/-- What every admissible step keeps holds all along an admissible run. -/
theorem always_of_invariant {P : σ → Prop} (Inv : σ → Prop)
    (keep : ∀ s i, Inv s → ok s i → Inv (step s i).1) (holds : ∀ s, Inv s → P s) {s : σ}
    {is : List ι} (start : Inv s) (run : Meets step ok s is) : Always step P s is := by
  induction is generalizing s with
  | nil => exact holds s start
  | cons i is ih =>
    obtain ⟨now, later⟩ := run
    exact ⟨holds s start, ih (keep s i start now) later⟩

/-- Where a step keeps `P` exactly if it meets `ok`, `P` holds all along exactly the runs that meet it. -/
theorem always_iff_meets {P : σ → Prop} (keeps : ∀ s i, P s → (P (step s i).1 ↔ ok s i)) {s : σ}
    {is : List ι} (start : P s) : Always step P s is ↔ Meets step ok s is := by
  induction is generalizing s with
  | nil => exact iff_of_true start trivial
  | cons i is ih =>
    have one := keeps s i start
    constructor
    · rintro ⟨_, later⟩
      have next : P (step s i).1 := by
        cases is with
        | nil => exact later
        | cons j is => exact later.1
      exact ⟨one.mp next, (ih next).mp later⟩
    · rintro ⟨now, later⟩
      exact ⟨start, (ih (one.mpr now)).mpr later⟩

/-- What every admissible step of a run meets where the invariant holds. -/
theorem Meets.of_invariant {ok' : σ → ι → Prop} (Inv : σ → Prop)
    (keep : ∀ s i, Inv s → ok s i → Inv (step s i).1) (holds : ∀ s i, Inv s → ok s i → ok' s i) {s : σ}
    {is : List ι} (run : Meets step ok s is) (start : Inv s) : Meets step ok' s is := by
  induction is generalizing s with
  | nil => exact trivial
  | cons i is ih =>
    obtain ⟨now, later⟩ := run
    exact ⟨holds s i start now, ih later (keep s i start now)⟩

/-- Two conditions that agree wherever the invariant holds, which the steps that meet them keep, are
met by the same runs. -/
theorem meets_iff {ok' : σ → ι → Prop} {good : ι → Prop} (Inv : σ → Prop)
    (agree : ∀ s i, Inv s → good i → (ok s i ↔ ok' s i))
    (keep : ∀ s i, Inv s → good i → ok s i → Inv (step s i).1) {s : σ} {is : List ι} (start : Inv s)
    (all : ∀ i ∈ is, good i) : Meets step ok s is ↔ Meets step ok' s is := by
  induction is generalizing s with
  | nil => exact Iff.rfl
  | cons i is ih =>
    obtain ⟨first, rest⟩ := List.forall_mem_cons.mp all
    rw [Meets, Meets, ← agree s i start first]
    exact and_congr_right fun now => ih (keep s i start first now) rest

/-- Where each step is one of an abstract machine, a run is. -/
theorem exec_refines {step' : τ → ι → τ} (abs : σ → τ) (Inv : σ → Prop)
    (keep : ∀ s i, Inv s → ok s i → Inv (step s i).1)
    (refines : ∀ s i, Inv s → ok s i → abs (step s i).1 = step' (abs s) i) {s : σ} {is : List ι} (start : Inv s)
    (run : Meets step ok s is) : abs (exec step s is).1 = is.foldl step' (abs s) := by
  induction is generalizing s with
  | nil => rfl
  | cons i is ih =>
    obtain ⟨now, later⟩ := run
    rw [List.foldl_cons, ← refines s i start now]
    exact ih (keep s i start now) later

/-- A replica that consumes each step's outputs stays related to the machine over whole runs. -/
theorem exec_replay (consume : τ → ω → τ) (R : σ → τ → Prop)
    (keep : ∀ s t i, R s t → ok s i → R (step s i).1 ((step s i).2.foldl consume t))
    {s : σ} {t : τ} {is : List ι} (start : R s t) (run : Meets step ok s is) :
    R (exec step s is).1 ((exec step s is).2.foldl consume t) := by
  induction is generalizing s t with
  | nil => exact start
  | cons i is ih =>
    obtain ⟨now, later⟩ := run
    have next := ih (keep s t i start now) later
    rwa [exec, List.foldl_append]

/-- Where a step keeps the replica related exactly if the step meets `ok`, the replica is related at
every moment of exactly the runs that meet it. -/
theorem replay_iff_meets (consume : τ → ω → τ) {R : σ → τ → Prop} {good : ι → Prop}
    (keeps : ∀ s t i, R s t → good i → (R (step s i).1 ((step s i).2.foldl consume t) ↔ ok s i))
    {s : σ} {t : τ} {is : List ι} (start : R s t) (all : ∀ i ∈ is, good i) :
    (∀ pre, pre <+: is → R (exec step s pre).1 ((exec step s pre).2.foldl consume t)) ↔ Meets step ok s is := by
  induction is generalizing s t with
  | nil =>
    refine ⟨fun _ => trivial, fun _ pre short => ?_⟩
    obtain rfl := List.prefix_nil.mp short
    exact start
  | cons i is ih =>
    obtain ⟨first, rest⟩ := List.forall_mem_cons.mp all
    have one := keeps s t i start first
    have further (pre : List ι) : (exec step s (i :: pre)).2.foldl consume t =
        (exec step (step s i).1 pre).2.foldl consume ((step s i).2.foldl consume t) :=
      List.foldl_append
    constructor
    · intro related
      have next := related [i] ((List.prefix_cons_inj i).mpr is.nil_prefix)
      rw [further] at next
      refine ⟨one.mp next, (ih next rest).mp fun pre short => ?_⟩
      have later := related (i :: pre) ((List.prefix_cons_inj i).mpr short)
      rwa [further] at later
    · rintro ⟨met, later⟩ pre short
      have next := one.mpr met
      cases pre with
      | nil => exact start
      | cons j pre =>
        obtain ⟨rfl, shorter⟩ := List.cons_prefix_cons.mp short
        rw [further]
        exact (ih next rest).mpr later pre shorter

/-- An output may be consumed before the ones it can change places with. -/
theorem foldl_eraseIdx {consume : τ → ω → τ} {outs : List ω} {i : ℕ} {o : ω} (found : outs[i]? = some o)
    (swaps : ∀ earlier ∈ outs.take i, ∀ t, consume (consume t earlier) o = consume (consume t o) earlier)
    (t : τ) : (outs.eraseIdx i).foldl consume (consume t o) = outs.foldl consume t := by
  induction outs generalizing i t with
  | nil => cases found
  | cons first outs ih =>
    cases i with
    | zero =>
      obtain rfl := Option.some.inj found
      rfl
    | succ i =>
      rw [List.take_succ_cons] at swaps
      obtain ⟨here, rest⟩ := List.forall_mem_cons.mp swaps
      rw [List.eraseIdx_cons_succ, List.foldl_cons, List.foldl_cons, ← here]
      exact ih found rest (consume t first)

end Machine
