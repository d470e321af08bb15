import Mathlib.Data.List.Basic

/-!
# Programs that ask

A program that asks a source for answers, one after another, and goes on with each of them. `run` is its history with a
source that may fail, and `fed` the source that hands out the elements of a list and then nothing.

- When two sources agree on the next `n` answers, programs notice no difference before that (`run_take`,
  `run_eq_of_length_le`);
- a fed program sees the elements in order (`fed_answers`) and leaves the rest of the list (`fed_rest`).
-/

namespace CodingExercises.Lib

/-- A program that ends with a result or asks a question and goes on with the answer. -/
inductive Asking (Q A R : Type)
  | done (r : R)
  | ask (q : Q) (next : A → Asking Q A R)

namespace Asking

variable {Q A R R' S T : Type}

/-- One program and then another. -/
def bind : Asking Q A R → (R → Asking Q A R') → Asking Q A R'
  | done r, f => f r
  | ask q next, f => ask q fun a => (next a).bind f

/-- The questions and answers of a program, and its result unless the source fails. -/
def run (answer : S → Option (A × S)) : Asking Q A R → S → List (Q × A) × Option (R × S)
  | done r, s => ([], some (r, s))
  | ask q next, s =>
    match answer s with
    | none => ([], none)
    | some (a, s') => ((q, a) :: (run answer (next a) s').1, (run answer (next a) s').2)

/-- All questions and the result are of some kind. -/
def Only (P : Q → Prop) (E : R → Prop) : Asking Q A R → Prop
  | done r => E r
  | ask q next => P q ∧ ∀ a, (next a).Only P E

section Run

variable {answer : S → Option (A × S)} {s : S}

theorem run_ask_none (q : Q) (next : A → Asking Q A R) (h : answer s = none) :
    (ask q next).run answer s = ([], none) := by
  simp only [run, h]

theorem run_ask_some (q : Q) (next : A → Asking Q A R) {a : A} {s' : S} (h : answer s = some (a, s')) :
    (ask q next).run answer s = ((q, a) :: ((next a).run answer s').1, ((next a).run answer s').2) := by
  simp only [run, h]

theorem run_bind (p : Asking Q A R) (f : R → Asking Q A R') {log : List (Q × A)} {r : R} {s' : S}
    (h : p.run answer s = (log, some (r, s'))) :
    (p.bind f).run answer s = (log ++ ((f r).run answer s').1, ((f r).run answer s').2) := by
  induction p generalizing s log with
  | done r' => cases h; rfl
  | ask q next ih =>
    cases ha : answer s with
    | none => rw [run_ask_none q next ha] at h; cases h
    | some x =>
      rw [run_ask_some q next ha] at h
      obtain ⟨rfl, hr⟩ := Prod.mk.inj h
      rw [bind, run_ask_some q _ ha, ih x.1 (Prod.ext rfl hr)]
      rfl

theorem only_run {P : Q → Prop} {E : R → Prop} {p : Asking Q A R} (h : p.Only P E) :
    (∀ c ∈ (p.run answer s).1, P c.1) ∧ ∀ r s', (p.run answer s).2 = some (r, s') → E r := by
  induction p generalizing s with
  | done r =>
    constructor
    · intro c hc; cases hc
    · intro r' s' hr; cases hr; exact h
  | ask q next ih =>
    cases ha : answer s with
    | none =>
      rw [run_ask_none q next ha]
      constructor
      · intro c hc; cases hc
      · intro r' s' hr; cases hr
    | some x =>
      rw [run_ask_some q next ha]
      obtain ⟨hq, hr⟩ := ih x.1 (s := x.2) (h.2 x.1)
      refine ⟨?_, hr⟩
      intro c hc
      rcases List.mem_cons.1 hc with rfl | hc
      · exact h.1
      · exact hq c hc

end Run

/-! ## Two sources -/

section Agree

variable {answer : S → Option (A × S)} {answer' : T → A × T}

/-- The sources give the same answer, and keep a relation that counts the answers left. -/
def Agrees (answer : S → Option (A × S)) (answer' : T → A × T) (Rel : ℕ → S → T → Prop) : Prop :=
  ∀ n s t, Rel (n + 1) s t → ∃ s', answer s = some ((answer' t).1, s') ∧ Rel n s' (answer' t).2

variable {Rel : ℕ → S → T → Prop} {n : ℕ} {s : S} {t : T}

/-- The first `n` questions and answers are the same. -/
theorem run_take (next : Agrees answer answer' Rel) (p : Asking Q A R) (h : Rel n s t) :
    (p.run answer s).1.take n = (p.run (some ∘ answer') t).1.take n := by
  induction p generalizing n s t with
  | done r => rfl
  | ask q k ih =>
    cases n with
    | zero => rfl
    | succ n =>
      obtain ⟨s', ha, hrel⟩ := next n s t h
      simp only [run, ha, Function.comp_apply, List.take_succ_cons]
      rw [ih _ hrel]

/-- A program that asks at most `n` questions runs the same way. -/
theorem run_eq_of_length_le (next : Agrees answer answer' Rel) (p : Asking Q A R) (h : Rel n s t)
    (hle : (p.run (some ∘ answer') t).1.length ≤ n) :
    (p.run answer s).1 = (p.run (some ∘ answer') t).1 ∧
      (p.run answer s).2.map Prod.fst = (p.run (some ∘ answer') t).2.map Prod.fst := by
  induction p generalizing n s t with
  | done r => exact ⟨rfl, rfl⟩
  | ask q k ih =>
    cases n with
    | zero => cases hle
    | succ n =>
      obtain ⟨s', ha, hrel⟩ := next n s t h
      obtain ⟨hlog, hres⟩ := ih _ hrel (Nat.le_of_succ_le_succ hle)
      simp only [run, ha, Function.comp_apply]
      exact ⟨by rw [hlog], hres⟩

/-- A program that has ended after at most `n` questions has run the same way. -/
theorem run_eq_of_ended (next : Agrees answer answer' Rel) (p : Asking Q A R) (h : Rel n s t) {r : R} {s' : S}
    (hle : (p.run answer s).1.length ≤ n) (hr : (p.run answer s).2 = some (r, s')) :
    (p.run answer s).1 = (p.run (some ∘ answer') t).1 ∧
      (p.run (some ∘ answer') t).2.map Prod.fst = some r := by
  induction p generalizing n s t with
  | done r => cases hr; exact ⟨rfl, rfl⟩
  | ask q k ih =>
    cases n with
    | zero =>
      cases ha : answer s with
      | none => rw [run_ask_none q k ha] at hr; cases hr
      | some x => rw [run_ask_some q k ha] at hle; cases hle
    | succ n =>
      obtain ⟨s₁, ha, hrel⟩ := next n s t h
      simp only [run, ha, Function.comp_apply, List.length_cons] at hle hr ⊢
      obtain ⟨hlog, hres⟩ := ih _ hrel (by omega) hr
      exact ⟨by rw [hlog], hres⟩

end Agree

/-! ## A list as the source -/

section Fed

variable {W : Type}

/-- The next element of a list, if there is one. -/
def feed (ws : List W) : Option W × List W := (ws.head?, ws.tail)

/-- A program that is fed a list. -/
def fed (p : Asking Q (Option W) R) (ws : List W) : List (Q × Option W) × Option (R × List W) :=
  p.run (some ∘ feed) ws

variable {p : Asking Q (Option W) R} {ws : List W}

@[simp] theorem fed_done (r : R) : (done r : Asking Q (Option W) R).fed ws = ([], some (r, ws)) := rfl

@[simp] theorem fed_ask (q : Q) (next : Option W → Asking Q (Option W) R) : (ask q next).fed ws =
    ((q, ws.head?) :: ((next ws.head?).fed ws.tail).1, ((next ws.head?).fed ws.tail).2) := rfl

theorem fed_bind (p : Asking Q (Option W) R) (f : R → Asking Q (Option W) R') {log : List (Q × Option W)} {r : R}
    {rest : List W} (h : p.fed ws = (log, some (r, rest))) :
    (p.bind f).fed ws = (log ++ ((f r).fed rest).1, ((f r).fed rest).2) := run_bind p f h

theorem only_fed {P : Q → Prop} {E : R → Prop} (h : p.Only P E) (ws : List W) :
    (∀ c ∈ (p.fed ws).1, P c.1) ∧ ∀ r rest, (p.fed ws).2 = some (r, rest) → E r := only_run h

/-- The list never fails. -/
theorem fed_ends (p : Asking Q (Option W) R) (ws : List W) : ∃ log r rest, p.fed ws = (log, some (r, rest)) := by
  induction p generalizing ws with
  | done r => exact ⟨[], r, ws, rfl⟩
  | ask q next ih =>
    obtain ⟨log, r, rest, h⟩ := ih ws.head? ws.tail
    exact ⟨(q, ws.head?) :: log, r, rest, by rw [fed_ask, h]⟩

/-- The answers are the elements in order, and then nothing. -/
theorem fed_answers (p : Asking Q (Option W) R) (ws : List W) {i : ℕ} {c : Q × Option W}
    (h : (p.fed ws).1[i]? = some c) : c.2 = ws[i]? := by
  induction p generalizing ws i with
  | done r => cases h
  | ask q next ih =>
    rw [fed_ask] at h
    cases i with
    | zero =>
      cases h
      exact List.head?_eq_getElem?
    | succ i =>
      rw [ih _ _ h, List.getElem?_tail]

/-- What has been handed out and what is left make up the list. -/
theorem fed_rest (p : Asking Q (Option W) R) (ws : List W) {log : List (Q × Option W)} {r : R} {rest : List W}
    (h : p.fed ws = (log, some (r, rest))) : log.filterMap Prod.snd ++ rest = ws := by
  induction p generalizing ws log with
  | done r' => cases h; rfl
  | ask q next ih =>
    rw [fed_ask] at h
    obtain ⟨rfl, hr⟩ := Prod.mk.inj h
    have hrest := ih _ _ (Prod.ext rfl hr)
    cases ws with
    | nil => exact hrest
    | cons w ws => exact congrArg (List.cons w) hrest

end Fed

end Asking

end CodingExercises.Lib
