import Mathlib.Data.Set.Finite.Basic
import Mathlib.Order.WellFounded
import Mathlib.Data.Fintype.Card
import Mathlib.Logic.Relation

/-!
# Lists whose elements are replaced

A list is worked off from its front: an element is done with, or replaced with the elements it expands to.

- The list drains if and only if each of its elements is accessible in the relation of what stands within what
  (`drains_iff`).
- Where finitely many elements expand at all, an element is accessible if and only if it does not reach a cycle
  (`acc_iff_not_reachesCycle`).
- A list that drains leaves one list behind (`Expands.unique`). Where the elements expand to less, less is left behind unless no
  element that is reached is concerned (`Expands.length_le`, `Expands.congr`).
-/

namespace CodingExercises.Lib

open Relation

variable {α : Type*} (expand : α → Option (List α))

/-- Work on the list comes to an end. -/
inductive Drains : List α → Prop
  | nil : Drains []
  | plain {x todo} : expand x = none → Drains todo → Drains (x :: todo)
  | replaced {x l todo} : expand x = some l → Drains (l ++ todo) → Drains (x :: todo)

/-- `y` is one of the elements that replace `x`. -/
def Within (y x : α) : Prop := ∃ l, expand x = some l ∧ y ∈ l

/-- Some element can be reached that is reached from itself. -/
def ReachesCycle (x : α) : Prop := ∃ y, ReflTransGen (fun a b => Within expand b a) x y ∧
  TransGen (fun a b => Within expand b a) y y

variable {expand}

theorem Drains.append {l todo : List α} (h : ∀ x ∈ l, Acc (Within expand) x) (htodo : Drains expand todo) :
    Drains expand (l ++ todo) := by
  induction l with
  | nil => exact htodo
  | cons x l ih =>
    have hl : Drains expand (l ++ todo) := ih fun y hy => h y (List.mem_cons_of_mem _ hy)
    have hx := h x List.mem_cons_self
    rw [List.cons_append]
    clear h ih
    generalize l ++ todo = rest at hl
    induction hx generalizing rest with
    | intro x _ ihx =>
      cases hexp : expand x with
      | none => exact .plain hexp hl
      | some l' =>
        refine .replaced hexp ?_
        have hin : ∀ y ∈ l', Within expand y x := fun y hy => ⟨l', hexp, hy⟩
        clear hexp
        induction l' with
        | nil => exact hl
        | cons y l' ih =>
          have hy := hin y List.mem_cons_self
          exact ihx y hy _ (ih fun z hz => hin z (List.mem_cons_of_mem _ hz))

/-- A list drains just if nothing in it can be replaced for ever. -/
theorem drains_iff {todo : List α} : Drains expand todo ↔ ∀ x ∈ todo, Acc (Within expand) x := by
  constructor
  · intro h
    induction h with
    | nil => exact fun x hx => (List.not_mem_nil hx).elim
    | plain hexp _ ih =>
      refine List.forall_mem_cons.mpr ⟨⟨_, ?_⟩, ih⟩
      rintro y ⟨l, hl, -⟩
      rw [hexp] at hl
      cases hl
    | replaced hexp _ ih =>
      refine List.forall_mem_cons.mpr ⟨⟨_, ?_⟩, fun x hx => ih x (List.mem_append_right _ hx)⟩
      rintro y ⟨l', hl, hy⟩
      rw [hexp] at hl
      obtain rfl := Option.some.inj hl
      exact ih y (List.mem_append_left _ hy)
  · intro h
    have := Drains.append h .nil
    rwa [List.append_nil] at this

/-- What is accessible reaches no cycle. -/
theorem not_reachesCycle_of_acc {x : α} (h : Acc (Within expand) x) : ¬ReachesCycle expand x := by
  rintro ⟨y, hxy, hyy⟩
  have hy : Acc (TransGen (Within expand)) y := by
    have hsteps : ReflTransGen (Within expand) y x := reflTransGen_swap.mp hxy
    rcases reflTransGen_iff_eq_or_transGen.mp hsteps with rfl | ht
    · exact h.transGen
    · exact h.transGen.inv ht
  exact hy.rec (fun a _ ih haa => ih a haa haa) (transGen_swap.mp hyy)

theorem acc_of_not_reachesCycle {x : α} (hfin : {y | (expand y).isSome}.Finite) (h : ¬ReachesCycle expand x) :
    Acc (Within expand) x := by
  -- the elements behind `x` that expand are a finite order
  let Reached := {y // ReflTransGen (fun a b => Within expand b a) x y ∧ (expand y).isSome}
  let r : Reached → Reached → Prop := fun a b => TransGen (Within expand) a.1 b.1
  have hfinite : Finite Reached := Set.Finite.subset hfin fun y hy => hy.2
  have htrans : IsTrans Reached r := ⟨fun _ _ _ => TransGen.trans⟩
  have hirrefl : Std.Irrefl r := ⟨fun y hy => h ⟨y.1, y.2.1, transGen_swap.mp hy⟩⟩
  have hwf : WellFounded r := Finite.wellFounded_of_trans_of_irrefl r
  have hplain : ∀ y, (expand y).isSome = false → Acc (Within expand) y := by
    intro y hy
    refine ⟨_, ?_⟩
    rintro z ⟨l, hl, -⟩
    rw [hl] at hy
    cases hy
  have hreached : ∀ y : Reached, Acc (Within expand) y.1 := by
    intro y
    induction y using hwf.induction with
    | _ y ih =>
      refine ⟨_, fun z hz => ?_⟩
      cases hexp : (expand z).isSome with
      | false => exact hplain z hexp
      | true => exact ih ⟨z, y.2.1.tail hz, hexp⟩ (.single hz)
  cases hexp : (expand x).isSome with
  | false => exact hplain x hexp
  | true => exact hreached ⟨x, .refl, hexp⟩

theorem acc_iff_not_reachesCycle {x : α} (hfin : {y | (expand y).isSome}.Finite) :
    Acc (Within expand) x ↔ ¬ReachesCycle expand x :=
  ⟨not_reachesCycle_of_acc, acc_of_not_reachesCycle hfin⟩

/-! ## What is left behind -/

/-- Work on the list leaves the last list behind; what is done with and what is still to be done are never more than the number. -/
inductive Expands (expand : α → Option (List α)) : ℕ → List α → List α → Prop
  | nil : Expands expand 0 [] []
  | plain {x n todo out} : expand x = none → Expands expand n todo out → Expands expand (n + 1) (x :: todo) (x :: out)
  | replaced {x l n todo out} : expand x = some l → Expands expand n (l ++ todo) out →
      Expands expand (max (todo.length + 1) n) (x :: todo) out

/-- The elements that are come to. -/
def Reached (expand : α → Option (List α)) (todo : List α) (y : α) : Prop :=
  ∃ x ∈ todo, ReflTransGen (fun a b => Within expand b a) x y

section

variable {f g : α → Option (List α)} {x y : α} {l todo out out' : List α} {n m : ℕ}

theorem Reached.of_mem (h : x ∈ todo) : Reached g todo x := ⟨x, h, .refl⟩

theorem Reached.tail (h : Reached g todo y) : Reached g (x :: todo) y := by
  obtain ⟨z, hz, hzy⟩ := h
  exact ⟨z, List.mem_cons_of_mem _ hz, hzy⟩

theorem Reached.replaced (hx : g x = some l) (h : Reached g (l ++ todo) y) : Reached g (x :: todo) y := by
  obtain ⟨z, hz, hzy⟩ := h
  rcases List.mem_append.mp hz with hz | hz
  · exact ⟨x, List.mem_cons_self, .head ⟨l, hx, hz⟩ hzy⟩
  · exact ⟨z, List.mem_cons_of_mem _ hz, hzy⟩

/-- What is reached from the head is the head, or is reached from what replaces it. -/
theorem reached_cons (h : Reached g (x :: todo) y) : y = x ∨ (∃ l, g x = some l ∧ Reached g l y) ∨ Reached g todo y := by
  obtain ⟨z, hz, hzy⟩ := h
  rcases List.mem_cons.mp hz with rfl | hz
  · rcases ReflTransGen.cases_head hzy with rfl | ⟨w, ⟨l, hl, hw⟩, hwy⟩
    · exact .inl rfl
    · exact .inr (.inl ⟨l, hl, w, hw, hwy⟩)
  · exact .inr (.inr ⟨z, hz, hzy⟩)

namespace Expands

theorem length_todo_le (h : Expands f n todo out) : todo.length ≤ n := by
  induction h with
  | nil => exact le_rfl
  | plain _ _ ih => exact Nat.succ_le_succ ih
  | replaced _ _ _ => exact le_max_left _ _

theorem length_out_le (h : Expands f n todo out) : out.length ≤ n := by
  induction h with
  | nil => exact le_rfl
  | plain _ _ ih => exact Nat.succ_le_succ ih
  | replaced _ _ ih => exact ih.trans (le_max_right _ _)

theorem unique (h : Expands f n todo out) (h' : Expands f m todo out') : n = m ∧ out = out' := by
  induction h generalizing m out' with
  | nil =>
    cases h'
    exact ⟨rfl, rfl⟩
  | plain hx _ ih =>
    cases h' with
    | plain _ h' =>
      obtain ⟨rfl, rfl⟩ := ih h'
      exact ⟨rfl, rfl⟩
    | replaced hx' => cases hx.symm.trans hx'
  | replaced hx _ ih =>
    cases h' with
    | plain hx' => cases hx.symm.trans hx'
    | replaced hx' h' =>
      obtain rfl := Option.some.inj (hx.symm.trans hx')
      obtain ⟨rfl, rfl⟩ := ih h'
      exact ⟨rfl, rfl⟩

theorem append (h : Expands g n l out) (h' : Expands g m todo out') : ∃ k, Expands g k (l ++ todo) (out ++ out') := by
  induction h with
  | nil => exact ⟨m, h'⟩
  | plain hx _ ih =>
    obtain ⟨k, hk⟩ := ih
    exact ⟨_, .plain hx hk⟩
  | replaced hx _ ih =>
    obtain ⟨k, hk⟩ := ih
    rw [List.append_assoc] at hk
    exact ⟨_, .replaced hx hk⟩

/-- The parts of a list leave the parts of the result behind. -/
theorem split {k : ℕ} {both : List α} (h : Expands g k (l ++ todo) both) :
    ∃ n m out out', both = out ++ out' ∧ Expands g n l out ∧ Expands g m todo out' := by
  generalize hboth : l ++ todo = all at h
  induction h generalizing l with
  | nil =>
    obtain ⟨rfl, rfl⟩ := List.append_eq_nil_iff.mp hboth
    exact ⟨0, 0, [], [], rfl, .nil, .nil⟩
  | @plain x k all both hx hall ih =>
    cases l with
    | nil =>
      obtain rfl : todo = x :: all := hboth
      exact ⟨0, _, [], _, rfl, .nil, .plain hx hall⟩
    | cons z l =>
      obtain ⟨rfl, hrest⟩ := List.cons.inj hboth
      obtain ⟨n, m, out, out', rfl, hl, htodo⟩ := ih hrest
      exact ⟨_, m, _, out', rfl, .plain hx hl, htodo⟩
  | @replaced x r k all both hx hall ih =>
    cases l with
    | nil =>
      obtain rfl : todo = x :: all := hboth
      exact ⟨0, _, [], _, rfl, .nil, .replaced hx hall⟩
    | cons z l =>
      obtain ⟨rfl, hrest⟩ := List.cons.inj hboth
      have hall : l ++ todo = all := hrest
      obtain ⟨n, m, out, out', rfl, hl, htodo⟩ := ih (by rw [List.append_assoc, hall])
      exact ⟨_, m, _, out', rfl, .replaced hx hl, htodo⟩

/-- An element that does not expand is left behind. -/
theorem mem_out (h : Expands g n todo out) (hy : g y = none) (hmem : y ∈ todo) : y ∈ out := by
  induction h with
  | nil => exact hmem
  | plain _ _ ih =>
    rcases List.mem_cons.mp hmem with rfl | hmem
    · exact List.mem_cons_self
    · exact List.mem_cons_of_mem _ (ih hmem)
  | replaced hx _ ih =>
    rcases List.mem_cons.mp hmem with rfl | hmem
    · cases hy.symm.trans hx
    · exact ih (List.mem_append_right _ hmem)

/-- Only the elements that are reached matter. -/
theorem congr (h : Expands f n todo out) (heq : ∀ y, Reached f todo y → f y = g y) : Expands g n todo out := by
  induction h with
  | nil => exact .nil
  | plain hx _ ih =>
    exact .plain ((heq _ (.of_mem List.mem_cons_self)).symm.trans hx) (ih fun y hy => heq y hy.tail)
  | replaced hx _ ih =>
    exact .replaced ((heq _ (.of_mem List.mem_cons_self)).symm.trans hx) (ih fun y hy => heq y (hy.replaced hx))

/-- Where `f` lets go of the end of what `g` puts in, and this end leaves something behind, `f` leaves less behind than `g`, unless
the two agree on all that is reached. -/
theorem length_le (hplain : ∀ x, f x = none → g x = none)
    (hless : ∀ x l, f x = some l → ∃ r, g x = some (l ++ r) ∧ (r = [] ∨ ∃ y ∈ r, g y = none))
    (h : Expands f n todo out) (h' : Expands g m todo out') :
    out.length ≤ out'.length ∧ (out.length = out'.length → ∀ y, Reached g todo y → f y = g y) := by
  induction h generalizing m out' with
  | nil =>
    refine ⟨Nat.zero_le _, ?_⟩
    rintro - y ⟨x, hx, -⟩
    cases hx
  | @plain x n todo out hx _ ih =>
    have hgx := hplain x hx
    cases h' with
    | replaced hx' => cases hgx.symm.trans hx'
    | plain _ h' =>
      obtain ⟨hle, heq⟩ := ih h'
      refine ⟨Nat.succ_le_succ hle, fun hlen y hy => ?_⟩
      rcases reached_cons hy with rfl | ⟨l, hl, -⟩ | hy
      · exact hx.trans hgx.symm
      · cases hgx.symm.trans hl
      · exact heq (Nat.succ.inj hlen) y hy
  | @replaced x l n todo out hx _ ih =>
    obtain ⟨r, hgx, hr⟩ := hless x l hx
    cases h' with
    | plain hx' => cases hgx.symm.trans hx'
    | replaced hx' h' =>
      obtain rfl := Option.some.inj (hgx.symm.trans hx')
      rw [List.append_assoc] at h'
      obtain ⟨_, _, outL, outRest, rfl, hl, hrest⟩ := h'.split
      obtain ⟨_, _, outR, outTodo, rfl, hr', htodo⟩ := hrest.split
      obtain ⟨_, hkept⟩ := hl.append htodo
      obtain ⟨hle, heq⟩ := ih hkept
      rw [List.length_append] at hle heq
      rw [List.length_append, List.length_append]
      refine ⟨by omega, fun hlen y hy => ?_⟩
      have hnil : r = [] := by
        refine hr.resolve_right ?_
        rintro ⟨z, hz, hgz⟩
        have := List.length_pos_of_mem (hr'.mem_out hgz hz)
        omega
      subst hnil
      have hlen' : out.length = outL.length + outTodo.length := by omega
      rw [List.append_nil] at hgx
      rcases reached_cons hy with rfl | ⟨l', hl', z, hz, hzy⟩ | ⟨z, hz, hzy⟩
      · exact hx.trans hgx.symm
      · obtain rfl := Option.some.inj (hgx.symm.trans hl')
        exact heq hlen' y ⟨z, List.mem_append_left _ hz, hzy⟩
      · exact heq hlen' y ⟨z, List.mem_append_right _ hz, hzy⟩

end Expands

end

end CodingExercises.Lib
