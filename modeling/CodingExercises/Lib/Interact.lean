import Mathlib.Logic.Relation

/-!
# Programs among others

A program (`Prog`) makes calls and goes on with the replies. It runs in a world that others change between any two of its
calls (`Setting.others`); a call is served in the state the world has then (`Setting.serve`). The record of a run has each
call with that state and with the reply.

`Prog.Sure` is what a program guarantees of every such run, by recursion on the program: a property of the record at any
time, and a property of the record and the result at the end (`Prog.Sure.runs`).
-/

namespace CodingExercises.Lib

/-- A program that calls `c : C`, gets a reply in `R c`, and ends with a result in `α`. -/
inductive Prog (C : Type) (R : C → Type) (α : Type)
  | ret (a : α)
  | call (c : C) (k : R c → Prog C R α)

/-- The result of a program that gets its replies from `reply`, and its calls. -/
def Prog.answered {C α : Type} {R : C → Type} (reply : (c : C) → R c) : Prog C R α → α × List C
  | .ret a => (a, [])
  | .call c k => (((k (reply c)).answered reply).1, c :: ((k (reply c)).answered reply).2)

/-- A call that was served: the state of the world at the call, the call and the reply. -/
structure Served (W C : Type) (R : C → Type) where
  state : W
  call : C
  reply : R call

/-- A world: how a call is served, and what the others can do at any time. -/
structure Setting (W C : Type) (R : C → Type) where
  serve : W → (c : C) → R c → W → Prop
  others : W → W → Prop

variable {W C α : Type} {R : C → Type}

/-- A program in its world, with the record of its calls. -/
structure Running (W C : Type) (R : C → Type) (α : Type) where
  state : W
  prog : Prog C R α
  log : List (Served W C R)

namespace Setting

variable (S : Setting W C R)

/-- The others do something, or a call of the program is served. -/
inductive Step : Running W C R α → Running W C R α → Prop
  | others {w w' : W} {p : Prog C R α} {log : List (Served W C R)} : S.others w w' → Step ⟨w, p, log⟩ ⟨w', p, log⟩
  | served {w w' : W} {c : C} {k : R c → Prog C R α} {r : R c} {log : List (Served W C R)} :
    S.serve w c r w' → Step ⟨w, .call c k, log⟩ ⟨w', k r, log ++ [⟨w, c, r⟩]⟩

/-- Any number of steps, in any order. -/
def Runs : Running W C R α → Running W C R α → Prop := Relation.ReflTransGen S.Step

variable {S} in
/-- A run begins with a call. -/
theorem Runs.serve {w w' : W} {c : C} {k : R c → Prog C R α} {log : List (Served W C R)} {y : Running W C R α} (r : R c)
    (h : S.serve w c r w') (hr : S.Runs ⟨w', k r, log ++ [⟨w, c, r⟩]⟩ y) : S.Runs ⟨w, .call c k, log⟩ y :=
  .head (.served h) hr

end Setting

/-- From the record `log` on, whatever the world is at its calls, `p` keeps `Q` of the record, and ends with `E` of the
record and its result. -/
def Prog.Sure (S : Setting W C R) (Q : List (Served W C R) → Prop) (E : List (Served W C R) → α → Prop) :
    Prog C R α → List (Served W C R) → Prop
  | .ret a, log => E log a
  | .call c k, log => ∀ w r w', S.serve w c r w' → Q (log ++ [⟨w, c, r⟩]) ∧ (k r).Sure S Q E (log ++ [⟨w, c, r⟩])

variable {S : Setting W C R} {Q : List (Served W C R) → Prop} {E : List (Served W C R) → α → Prop}

/-- A step keeps what is sure. -/
theorem Prog.Sure.step {x y : Running W C R α} (h : S.Step x y) (hq : Q x.log) (hs : x.prog.Sure S Q E x.log) :
    Q y.log ∧ y.prog.Sure S Q E y.log := by
  cases h with
  | others _ => exact ⟨hq, hs⟩
  | served h => exact hs _ _ _ h

/-- So it is sure in every interleaving. -/
theorem Prog.Sure.runs {x y : Running W C R α} (h : S.Runs x y) (hq : Q x.log) (hs : x.prog.Sure S Q E x.log) :
    Q y.log ∧ y.prog.Sure S Q E y.log := by
  induction h with
  | refl => exact ⟨hq, hs⟩
  | tail _ h ih => exact Prog.Sure.step h ih.1 ih.2

end CodingExercises.Lib
