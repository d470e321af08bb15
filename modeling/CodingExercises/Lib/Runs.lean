import Mathlib.Logic.Relation
import Mathlib.Order.WellFounded
import Mathlib.Data.List.Induction

/-!
# Runs

Two ways a system runs.

- A `Machine` reacts to one event after another: `run` is its state after a list of events, `trace` what it emitted
  on the way. `run_induction` proves a property of every history: of the events so far, the state and the trace.
- A step relation: `Stuck` states have no step, `Terminates` says that no run from a state is infinite. A measure
  that falls with every step gives termination (`terminates_of_measure`), and a terminating state reaches a stuck
  one (`Terminates.exists_stuck`). A simulation carries runs over (`simulation_of_reaches`).
-/

namespace CodingExercises.Lib

/-! ## Machines that react to events -/

/-- `step s e` is the state after the event `e`, `emit s e` what the machine emits on it. -/
structure Machine (S E O : Type*) where
  step : S → E → S
  emit : S → E → List O

namespace Machine

variable {S E O : Type*} (M : Machine S E O)

/-- The state after the events. -/
def run (s : S) : List E → S
  | [] => s
  | e :: es => run (M.step s e) es

/-- What the events made the machine emit. -/
def trace (s : S) : List E → List O
  | [] => []
  | e :: es => M.emit s e ++ trace (M.step s e) es

@[simp] theorem run_nil (s : S) : M.run s [] = s := rfl

@[simp] theorem trace_nil (s : S) : M.trace s [] = [] := rfl

theorem run_append (s : S) (es fs : List E) : M.run s (es ++ fs) = M.run (M.run s es) fs := by
  induction es generalizing s with
  | nil => rfl
  | cons e es ih => exact ih _

theorem trace_append (s : S) (es fs : List E) :
    M.trace s (es ++ fs) = M.trace s es ++ M.trace (M.run s es) fs := by
  induction es generalizing s with
  | nil => rfl
  | cons e es ih =>
    simp only [List.cons_append, trace, run, List.append_assoc]
    rw [ih]

theorem run_concat (s : S) (es : List E) (e : E) : M.run s (es ++ [e]) = M.step (M.run s es) e := by
  rw [run_append]; rfl

theorem trace_concat (s : S) (es : List E) (e : E) :
    M.trace s (es ++ [e]) = M.trace s es ++ M.emit (M.run s es) e := by
  rw [trace_append]; simp [trace]

/-- Machines with the same steps run alike, whatever they emit. -/
theorem run_congr {O' : Type*} {M : Machine S E O} {N : Machine S E O'} (h : M.step = N.step) (s : S) (es : List E) :
    M.run s es = N.run s es := by
  induction es generalizing s with
  | nil => rfl
  | cons e es ih => rw [run, run, h, ih]

/-- Whatever was emitted was emitted on one of the events. -/
theorem mem_trace {M : Machine S E O} {s : S} {es : List E} {o : O} :
    o ∈ M.trace s es ↔ ∃ pre e post, es = pre ++ e :: post ∧ o ∈ M.emit (M.run s pre) e := by
  constructor
  · intro h
    induction es using List.reverseRecOn with
    | nil => cases h
    | append_singleton es e ih =>
      rw [trace_concat] at h
      rcases List.mem_append.1 h with h | h
      · obtain ⟨pre, e', post, rfl, ho⟩ := ih h
        exact ⟨pre, e', post ++ [e], by simp, ho⟩
      · exact ⟨es, e, [], rfl, h⟩
  · rintro ⟨pre, e, post, rfl, ho⟩
    rw [trace_append]
    exact List.mem_append_right _ (List.mem_append_left _ ho)

variable {M}

/-- A property of histories holds of every run when it holds at the start and every event keeps it. -/
theorem run_induction {P : List E → S → List O → Prop} {s : S} (start : P [] s [])
    (next : ∀ es e, P es (M.run s es) (M.trace s es) →
      P (es ++ [e]) (M.step (M.run s es) e) (M.trace s es ++ M.emit (M.run s es) e)) (es : List E) :
    P es (M.run s es) (M.trace s es) := by
  induction es using List.reverseRecOn with
  | nil => exact start
  | append_singleton es e ih =>
    rw [run_concat, trace_concat]
    exact next es e ih

/-- An invariant of the steps is an invariant of the runs. -/
theorem run_invariant {I : S → Prop} (next : ∀ s e, I s → I (M.step s e)) {s : S} (h : I s) (es : List E) :
    I (M.run s es) :=
  run_induction (P := fun _ s' _ => I s') h (fun _ e hi => next _ e hi) es

end Machine

/-! ## Step relations -/

variable {S : Type*} {R : S → S → Prop}

/-- A state with no step. -/
def Stuck (R : S → S → Prop) (s : S) : Prop := ∀ t, ¬ R s t

/-- No run from `s` is infinite. -/
def Terminates (R : S → S → Prop) (s : S) : Prop := Acc (fun t s => R s t) s

/-- An invariant of the steps holds in every state a run reaches. -/
theorem invariant_of_reaches {I : S → Prop} (next : ∀ s t, I s → R s t → I t) {s t : S}
    (h : Relation.ReflTransGen R s t) (hs : I s) : I t := by
  induction h with
  | refl => exact hs
  | tail _ hst ih => exact next _ _ ih hst

/-- When every step of one system is matched by a step of another, so is every run. -/
theorem simulation_of_reaches {T : Type*} (Q : T → T → Prop) (Sim : T → S → Prop)
    (next : ∀ a s t, Sim a s → R s t → ∃ b, Q a b ∧ Sim b t) {a : T} {s t : S}
    (h : Relation.ReflTransGen R s t) (hs : Sim a s) : ∃ b, Relation.ReflTransGen Q a b ∧ Sim b t := by
  induction h with
  | refl => exact ⟨a, .refl, hs⟩
  | tail _ hst ih =>
    obtain ⟨b, hab, hb⟩ := ih
    obtain ⟨c, hbc, hc⟩ := next _ _ _ hb hst
    exact ⟨c, .tail hab hbc, hc⟩

/-- A measure that falls with every step from the states of an invariant bounds their runs. -/
theorem terminates_of_measure {I : S → Prop} (m : S → ℕ) (next : ∀ s t, I s → R s t → I t ∧ m t < m s) {s : S}
    (hs : I s) : Terminates R s := by
  induction hn : m s using Nat.strong_induction_on generalizing s with
  | _ n ih =>
    subst hn
    constructor
    intro t hst
    obtain ⟨ht, hlt⟩ := next s t hs hst
    exact ih _ hlt ht rfl

/-- A state with only finite runs reaches a stuck state. -/
theorem Terminates.exists_stuck {s : S} (h : Terminates R s) : ∃ t, Relation.ReflTransGen R s t ∧ Stuck R t := by
  induction h with
  | intro s _ ih =>
    by_cases hs : Stuck R s
    · exact ⟨s, .refl, hs⟩
    · simp only [Stuck, not_forall, not_not] at hs
      obtain ⟨t, hst⟩ := hs
      obtain ⟨u, htu, hu⟩ := ih t hst
      exact ⟨u, .head hst htu, hu⟩

/-- A system simulated by one with only finite runs has only finite runs. -/
theorem Terminates.of_simulation {T : Type*} {Q : T → T → Prop} (Sim : T → S → Prop)
    (next : ∀ a s t, Sim a s → R s t → ∃ b, Q a b ∧ Sim b t) {a : T} {s : S} (ha : Terminates Q a) (hs : Sim a s) :
    Terminates R s := by
  induction ha generalizing s with
  | intro a _ ih =>
    constructor
    intro t hst
    obtain ⟨b, hab, hb⟩ := next a s t hs hst
    exact ih b hab hb

end CodingExercises.Lib
