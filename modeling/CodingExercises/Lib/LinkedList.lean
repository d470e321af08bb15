import Mathlib.Data.List.Basic

/-!
# Linked lists

A type of linked lists as a program uses it: elements are gone through from the head by `next`, an element is inserted in front, and the
element behind a given one is removed. Which elements a list has in which order is `elements`, their data `values`. A type is correct
if its functions agree with these (`Correct`); one is `suffixes`, where an element is the rest of the list from itself on.
-/

namespace CodingExercises.Lib

/-- A type of linked lists, and its functions. -/
structure LinkedList (α : Type) where
  Carrier : Type
  Element : Type
  /-- Of a list, the elements in their order. -/
  elements : Carrier → List Element
  data : Carrier → Element → α
  init : Carrier
  head : Carrier → Option Element
  next : Carrier → Element → Option Element
  /-- A new element behind another one or, for `none`, in front; the first argument says whether there is memory for it. -/
  insNext : Bool → Carrier → Option Element → α → Option Carrier
  /-- The element behind another one or, for `none`, the first one is taken out. -/
  remNext : Carrier → Option Element → Option (α × Carrier)

namespace LinkedList

variable {α : Type}

/-- The data in the order of the elements. -/
def values (lists : LinkedList α) (l : lists.Carrier) : List α := (lists.elements l).map (lists.data l)

/-- The functions do what they are for. -/
structure Correct (lists : LinkedList α) : Prop where
  init : lists.values lists.init = []
  head : ∀ l, lists.head l = (lists.elements l).head?
  next : ∀ {l before e behind}, lists.elements l = before ++ e :: behind → lists.next l e = behind.head?
  insert : ∀ l x, ∃ l', lists.insNext true l none x = some l' ∧ lists.values l' = x :: lists.values l
  noMemory : ∀ l x, lists.insNext false l none x = none
  remove : ∀ {l before e behind}, lists.elements l = before ++ e :: behind →
    ∃ l', lists.remNext l before.getLast? = some (lists.data l e, l') ∧ lists.values l' = (before ++ behind).map (lists.data l)

/-! ## Lists whose elements are the rests -/

/-- The rests of a list that are not empty. -/
def rests : List α → List (α × List α)
  | [] => []
  | x :: l => (x, l) :: rests l

/-- The element behind another one, or the first one, is taken out. -/
def takeNext (l : List α) : Option (α × List α) → Option (α × List α)
  | none => l.head?.map fun x => (x, l.tail)
  | some p => p.2.head?.map fun x => (x, l.take (l.length - p.2.length) ++ p.2.tail)

/-- An element is a value with the rest behind it. -/
def suffixes (α : Type) : LinkedList α where
  Carrier := List α
  Element := α × List α
  elements := rests
  data _ e := e.1
  init := []
  head l := (rests l).head?
  next _ e := (rests e.2).head?
  insNext memory l _ x := if memory then some (x :: l) else none
  remNext := takeNext

theorem rests_map (l : List α) : (rests l).map Prod.fst = l := by
  induction l with
  | nil => rfl
  | cons x l ih => rw [rests, List.map_cons, ih]

/-- Behind an element are the rests of its rest. -/
theorem rests_split {l : List α} {before behind : List (α × List α)} {e : α × List α} (h : rests l = before ++ e :: behind) :
    behind = rests e.2 ∧ l = before.map Prod.fst ++ e.1 :: e.2 := by
  induction before generalizing l with
  | nil =>
    cases l with
    | nil => cases h
    | cons x l =>
      obtain ⟨rfl, rfl⟩ := List.cons.inj h
      exact ⟨rfl, rfl⟩
  | cons b before ih =>
    cases l with
    | nil => cases h
    | cons x l =>
      obtain ⟨rfl, hrest⟩ := List.cons.inj h
      obtain ⟨hbehind, hl⟩ := ih hrest
      exact ⟨hbehind, by rw [List.map_cons, List.cons_append, ← hl]⟩

theorem takeNext_split {l : List α} {before behind : List (α × List α)} {e : α × List α} (h : rests l = before ++ e :: behind) :
    takeNext l before.getLast? = some (e.1, before.map Prod.fst ++ e.2) := by
  rcases List.eq_nil_or_concat before with rfl | ⟨before, p, rfl⟩
  · obtain ⟨-, rfl⟩ := rests_split h
    rfl
  · rw [List.concat_eq_append, List.append_assoc] at h
    obtain ⟨hp, hl⟩ := rests_split h
    obtain ⟨-, hp⟩ := @rests_split α p.2 [] _ _ hp.symm
    have hsplit : l = (before.map Prod.fst ++ [p.1]) ++ p.2 := by rw [hl, List.append_assoc, List.singleton_append]
    have htake : l.take (l.length - p.2.length) = before.map Prod.fst ++ [p.1] := by
      rw [hsplit, List.length_append, Nat.add_sub_cancel, List.take_left]
    have hlast : (before.concat p).getLast? = some p := by rw [List.concat_eq_append, List.getLast?_concat]
    calc takeNext l (before.concat p).getLast?
      _ = p.2.head?.map fun x => (x, l.take (l.length - p.2.length) ++ p.2.tail) := by
        rw [hlast]
        rfl
      _ = some (e.1, (before.concat p).map Prod.fst ++ e.2) := by
        rw [htake, hp, List.concat_eq_append, List.map_append]
        rfl

/-- Taking out an element leaves those before and behind it. -/
theorem rests_takeNext {l : List α} {before behind : List (α × List α)} {e : α × List α} (h : rests l = before ++ e :: behind) :
    (rests (before.map Prod.fst ++ e.2)).map Prod.fst = (before ++ behind).map Prod.fst := by
  rw [rests_map, List.map_append, (rests_split h).1, rests_map]

theorem suffixes_correct (α : Type) : (suffixes α).Correct where
  init := rfl
  head _ := rfl
  next h := congrArg List.head? (rests_split h).1.symm
  insert _ _ := ⟨_, rfl, rfl⟩
  noMemory _ _ := rfl
  remove h := ⟨_, takeNext_split h, rests_takeNext h⟩

end LinkedList

end CodingExercises.Lib
