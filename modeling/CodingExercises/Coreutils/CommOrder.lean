import CodingExercises.Coreutils.Comm

/-!
# comm: the check of the order

`compare_files` of `src/comm.c` once more, where `readlinebuffer` delivers the lines, with the diagnostics that it gives.

- `next_check`: the buffers in use hold the lines that the check is about, wherever the file is;
- `pass_spec`: so a pass names a file only if a line is smaller than the one before it;
- `run_checked`, `run_last`, `run_same`: what is checked in a run of the loop, at its end, and of two equal files;
- `compareOrder_checks`: with `--check-order` this is found, and without it if an unpairable line was seen before the end.
-/

namespace CodingExercises.Coreutils

open Lib

/-! ## The program -/

/-- What `readlinebuffer` leaves of a line. -/
def Linebuffer.ofLine (v : List Byte) : Linebuffer := ⟨v.length + 1, v.length + 1, v ++ [10]⟩

/-- One of the files: the four line buffers, the buffers that are in use, the lines that are left, and whether `thisline` is the
buffer `alt[0]` or null. -/
structure Source where
  lba : Fin 4 → Linebuffer
  alt0 : Fin 4
  alt1 : Fin 4
  alt2 : Fin 4
  rest : List (List Byte)
  thisline : Bool

/-- A file with its first line read. -/
def Source.ofLines : List (List Byte) → Source
  | [] => ⟨fun _ => initbuffer, 0, 0, 0, [], false⟩
  | v :: rest => ⟨Function.update (fun _ => initbuffer) 0 (Linebuffer.ofLine v), 0, 0, 0, rest, true⟩

/-- The buffers are rotated, and the next line is read. -/
def Source.next (s : Source) : Source :=
  match s.rest with
  | [] => ⟨s.lba, s.alt0 + 1, s.alt0, s.alt1, [], false⟩
  | v :: rest => ⟨Function.update s.lba (s.alt0 + 1) (Linebuffer.ofLine v), s.alt0 + 1, s.alt0, s.alt1, rest, true⟩

section Program

variable (o : Settings)

/-- The check of the order after a call of `readlinebuffer`. -/
def Source.check (seenUnpairable issued : Bool) (s : Source) : Option Bool :=
  if s.thisline then checkOrder o seenUnpairable issued (s.lba s.alt1) (s.lba s.alt0)
  else if !(s.lba s.alt2).buffer.isEmpty then checkOrder o seenUnpairable issued (s.lba s.alt2) (s.lba s.alt1)
  else some issued

/-- The variables of `compare_files`, with the files that the diagnostics have named. -/
structure OrderCheck where
  files : Fin 2 → Source
  seenUnpairable : Bool
  issued : Fin 2 → Bool
  named : List (Fin 2)

variable (st : OrderCheck)

/-- The order of the next lines; a file without a line comes last. -/
def OrderCheck.order : ℤ :=
  if !(st.files 0).thisline then 1
  else if !(st.files 1).thisline then -1
  else lineOrder o ((st.files 0).lba (st.files 0).alt0) ((st.files 1).lba (st.files 1).alt0)

/-- The class of the line in the call of `writeline`. -/
def OrderCheck.found : Found := if st.order o = 0 then .both else if st.order o ≤ 0 then .first else .second

/-- The file `i` is filled up. Without a state the program has exited, and has named some files. -/
def OrderCheck.fillUp (i : Fin 2) : Except (List (Fin 2)) OrderCheck :=
  let s := (st.files i).next
  match s.check o st.seenUnpairable (st.issued i) with
  | none => .error (st.named ++ [i])
  | some issued => .ok {
      files := Function.update st.files i s
      seenUnpairable := st.seenUnpairable
      issued := Function.update st.issued i issued
      named := if issued && !st.issued i then st.named ++ [i] else st.named }

/-- A pass of the loop. -/
def OrderCheck.step : Except (List (Fin 2)) OrderCheck :=
  let order := st.order o
  let st := { st with seenUnpairable := st.seenUnpairable || order ≠ 0 }
  match if order ≤ 0 then st.fillUp o 0 else .ok st with
  | .error named => .error named
  | .ok st => if order ≥ 0 then st.fillUp o 1 else .ok st

/-- The loop, with `fuel` passes at most: the classes of the lines, and how it ends. -/
def orderLoop : ℕ → OrderCheck → Option (List Found × Except (List (Fin 2)) OrderCheck)
  | 0, _ => none
  | fuel + 1, st =>
    if (st.files 0).thisline || (st.files 1).thisline then
      match st.step o with
      | .error named => some ([st.found o], .error named)
      | .ok st' => (orderLoop fuel st').map fun r => (st.found o :: r.1, r.2)
    else some ([], .ok st)

/-- `compare_files` on two files with some lines. -/
def compareOrder (fuel : ℕ) (lines : Fin 2 → List (List Byte)) : Option (List Found × Except (List (Fin 2)) OrderCheck) :=
  orderLoop o fuel ⟨fun i => Source.ofLines (lines i), false, fun _ => false, []⟩

end Program

/-! ## What is expected -/

/-- A line is smaller than the one before it. -/
def Descends (lines : List (List Byte)) : Prop := ∃ before a b after, lines = before ++ a :: b :: after ∧ b < a

/-- The last line is smaller than the one before it. -/
def DescendsLast (lines : List (List Byte)) : Prop := ∃ before a b, lines = before ++ [a, b] ∧ b < a

/-- A line of the file is taken. -/
def Takes (i : Fin 2) (c : Found) : Prop := c = .both ∨ c = if i = 0 then .first else .second

/-- An unpairable line is seen, and a line of the file is taken then or later. -/
def SeenBeforeEnd (i : Fin 2) (calls : List Found) : Prop :=
  ∃ before c after, calls = before ++ c :: after ∧ Takes i c ∧ ∃ x ∈ before ++ [c], x ≠ .both

/-- With `--check-order`: the program has exited and named a file that descends, or it has named none and none descends. -/
def ChecksAll (lines : Fin 2 → List (List Byte)) : Except (List (Fin 2)) OrderCheck → Prop
  | .error named => ∃ i, named = [i] ∧ Descends (lines i)
  | .ok st => st.named = [] ∧ ∀ i, ¬Descends (lines i)

/-- Without it: the program has not exited, and the files that it has named are these. -/
structure ChecksUnpairable (lines : Fin 2 → List (List Byte)) (calls : List Found) (named : List (Fin 2)) : Prop where
  same : lines 0 = lines 1 → named = []
  once : named.Nodup
  descends : ∀ i ∈ named, Descends (lines i)
  last : ∀ i, SeenBeforeEnd i calls → DescendsLast (lines i) → i ∈ named

/-! ## Two lines that are checked -/

/-- The order of the lines is checked. -/
def Alert (o : Settings) (seenUnpairable : Bool) : Prop :=
  o.checkInputOrder ≠ .disabled ∧ (o.checkInputOrder = .enabled ∨ seenUnpairable = true)

instance (o : Settings) (seen : Bool) : Decidable (Alert o seen) := inferInstanceAs (Decidable (_ ∧ _))

theorem ofLine_value (v : List Byte) : (Linebuffer.ofLine v).value = v := by
  simp [Linebuffer.value, Linebuffer.ofLine]

/-- `memcmp2` is positive on two delivered lines if the second one is smaller. -/
theorem memcmp2_ofLine (a b : List Byte) :
    memcmp2 (Linebuffer.ofLine a).buffer ((Linebuffer.ofLine a).length - 1) (Linebuffer.ofLine b).buffer ((Linebuffer.ofLine b).length - 1) > 0 ↔ b < a := by
  have ha : (Linebuffer.ofLine a).length - 1 ≤ (Linebuffer.ofLine a).buffer.length := by simp [Linebuffer.ofLine]
  have hb : (Linebuffer.ofLine b).length - 1 ≤ (Linebuffer.ofLine b).buffer.length := by simp [Linebuffer.ofLine]
  obtain ⟨hlt, heq⟩ := memcmp2_spec ha hb
  rw [← Linebuffer.value, ← Linebuffer.value, ofLine_value, ofLine_value] at hlt heq
  constructor
  · intro h
    rcases lt_trichotomy a b with hab | hab | hab
    · have := hlt.mpr hab
      omega
    · have := heq.mpr hab
      omega
    · exact hab
  · intro h
    by_contra hle
    rcases Int.lt_or_eq_of_le (Int.not_lt.mp hle) with hn | hn
    · exact lt_asymm h (hlt.mp hn)
    · exact h.ne' (heq.mp hn)

/-- `check_order` on two delivered lines. -/
theorem checkOrder_ofLine (o : Settings) (seen issued : Bool) (a b : List Byte) :
    checkOrder o seen issued (Linebuffer.ofLine a) (Linebuffer.ofLine b) =
      if Alert o seen ∧ issued = false ∧ b < a then if o.checkInputOrder = .enabled then none else some true
      else some issued := by
  simp only [checkOrder, memcoll_eq, ite_self, memcmp2_ofLine, Alert]
  by_cases hc : o.checkInputOrder ≠ .disabled ∧ (o.checkInputOrder = .enabled ∨ seen = true)
  · cases issued <;> by_cases h : b < a <;> simp [hc, h]
  · simp [hc]

/-- The order of two delivered lines. -/
theorem lineOrder_ofLine (o : Settings) (a b : List Byte) : lineOrder o (Linebuffer.ofLine a) (Linebuffer.ofLine b) = 0 ↔ a = b := by
  have ha : (Linebuffer.ofLine a).length - 1 ≤ (Linebuffer.ofLine a).buffer.length := by simp [Linebuffer.ofLine]
  have hb : (Linebuffer.ofLine b).length - 1 ≤ (Linebuffer.ofLine b).buffer.length := by simp [Linebuffer.ofLine]
  have h := (memcmp2_spec ha hb).2
  rw [← Linebuffer.value, ← Linebuffer.value, ofLine_value, ofLine_value] at h
  rw [lineOrder_eq o (by simp [Linebuffer.ofLine]) (by simp [Linebuffer.ofLine]), h]

/-- A file descends where it has a line and then a smaller one. -/
theorem descends_of_getElem? {lines : List (List Byte)} {j : ℕ} {a b : List Byte} (ha : lines[j]? = some a)
    (hb : lines[j + 1]? = some b) (h : b < a) : Descends lines := by
  obtain ⟨hja, rfl⟩ := List.getElem?_eq_some_iff.mp ha
  obtain ⟨hjb, rfl⟩ := List.getElem?_eq_some_iff.mp hb
  refine ⟨lines.take j, _, _, lines.drop (j + 1 + 1), ?_, h⟩
  rw [← List.drop_eq_getElem_cons hjb, ← List.drop_eq_getElem_cons hja, List.take_append_drop]

/-- After the line `m` has been taken, the check is about `a` and `b`: that line and the next one, or at the end of the file the
last two lines. The only line of a file is compared with itself. -/
def Compared (lines : List (List Byte)) (m : ℕ) (a b : List Byte) : Prop :=
  m + 1 < lines.length ∧ lines[m]? = some a ∧ lines[m + 1]? = some b ∨
    m + 1 = lines.length ∧ lines[m - 1]? = some a ∧ lines[m]? = some b

theorem Compared.descends {lines : List (List Byte)} {m : ℕ} {a b : List Byte} (h : Compared lines m a b) (hlt : b < a) :
    Descends lines := by
  rcases h with ⟨-, ha, hb⟩ | ⟨-, ha, hb⟩
  · exact descends_of_getElem? ha hb hlt
  · cases m with
    | zero =>
      rw [ha, Option.some.injEq] at hb
      exact absurd hb.symm hlt.ne
    | succ m => exact descends_of_getElem? ha hb hlt

/-- Every two lines are compared at some time. -/
theorem Descends.compared {lines : List (List Byte)} (h : Descends lines) : ∃ m a b, Compared lines m a b ∧ b < a := by
  obtain ⟨before, a, b, after, rfl, hlt⟩ := h
  exact ⟨before.length, a, b, .inl (by simp), hlt⟩

/-- The last two lines are compared at the end. -/
theorem DescendsLast.compared {lines : List (List Byte)} (h : DescendsLast lines) :
    ∃ a b, Compared lines (lines.length - 1) a b ∧ b < a := by
  obtain ⟨before, a, b, rfl, hlt⟩ := h
  exact ⟨a, b, .inr (by simp), hlt⟩

/-! ## Where a file is -/

/-- The lines before the `n`-th have been taken, and the buffers in use hold that line and the two before it. -/
structure Holds (lines : List (List Byte)) (n : ℕ) (s : Source) : Prop where
  le : n ≤ lines.length
  thisline : s.thisline = true ↔ n < lines.length
  rest : s.rest = lines.drop (n + 1)
  alt0 : s.alt0 = Fin.ofNat 4 n
  alt1 : s.alt1 = Fin.ofNat 4 (n - 1)
  alt2 : s.alt2 = Fin.ofNat 4 (n - 2)
  lba : ∀ j v, j ≤ n → n < j + 4 → lines[j]? = some v → s.lba (Fin.ofNat 4 j) = Linebuffer.ofLine v

theorem Holds.ofLines (lines : List (List Byte)) : Holds lines 0 (Source.ofLines lines) := by
  cases lines with
  | nil => exact ⟨le_refl _, by simp [Source.ofLines], rfl, rfl, rfl, rfl, by simp⟩
  | cons v rest =>
    refine ⟨Nat.zero_le _, by simp [Source.ofLines], by simp [Source.ofLines], rfl, rfl, rfl, ?_⟩
    intro j w hj _ hw
    obtain rfl : j = 0 := by omega
    simp only [List.getElem?_cons_zero, Option.some.injEq] at hw
    simp [Source.ofLines, hw]

/-- The next line is read. -/
theorem Holds.next {lines : List (List Byte)} {n : ℕ} {s : Source} (h : Holds lines n s) (hn : n < lines.length) :
    Holds lines (n + 1) s.next := by
  have halt0 : s.alt0 + 1 = Fin.ofNat 4 (n + 1) := by
    rw [h.alt0]
    apply Fin.ext
    simp [Fin.ofNat, Fin.val_add]
  have hrest := h.rest
  unfold Source.next
  cases hs : s.rest with
  | nil =>
    -- the end of the file
    rw [hs] at hrest
    have hlen : lines.length ≤ n + 1 := List.drop_eq_nil_iff.mp hrest.symm
    refine ⟨hn, by simp; omega, ?_, halt0, h.alt0, by rw [h.alt1]; congr 1, ?_⟩
    · rw [List.drop_eq_nil_of_le (by omega)]
    · intro j v hj hj4 hv
      have hjl : j < lines.length := (List.getElem?_eq_some_iff.mp hv).1
      exact h.lba j v (by omega) (by omega) hv
  | cons w rest =>
    rw [hs] at hrest
    have hlen : n + 1 < lines.length := by
      by_contra hc
      rw [List.drop_eq_nil_of_le (by omega)] at hrest
      cases hrest
    rw [List.drop_eq_getElem_cons hlen, List.cons.injEq] at hrest
    refine ⟨hn, by simpa using hlen, hrest.2, halt0, h.alt0, by rw [h.alt1]; congr 1, ?_⟩
    intro j v hj hj4 hv
    simp only [halt0]
    rcases Nat.lt_or_eq_of_le hj with hj | rfl
    · have hne : Fin.ofNat 4 j ≠ Fin.ofNat 4 (n + 1) := by
        intro he
        have := congrArg Fin.val he
        simp only [Fin.ofNat] at this
        omega
      rw [Function.update_of_ne hne]
      exact h.lba j v (by omega) (by omega) hv
    · rw [Function.update_self, hrest.1]
      rw [List.getElem?_eq_getElem hlen, Option.some.injEq] at hv
      rw [hv]

section Program

variable {o : Settings}

/-- The check after a line is about the two lines that are compared then. -/
theorem next_check {lines : List (List Byte)} {n : ℕ} {s : Source} (h : Holds lines n s) (hn : n < lines.length) :
    ∃ a b, Compared lines n a b ∧ ∀ seen issued, s.next.check o seen issued =
      if Alert o seen ∧ issued = false ∧ b < a then if o.checkInputOrder = .enabled then none else some true
      else some issued := by
  have hnext := h.next hn
  have ha := List.getElem?_eq_getElem hn
  by_cases hlen : n + 1 < lines.length
  · have hb := List.getElem?_eq_getElem hlen
    refine ⟨_, _, .inl ⟨hlen, ha, hb⟩, fun seen issued => ?_⟩
    have hlba := hnext.lba n _ (by omega) (by omega) ha
    have hlba' := hnext.lba (n + 1) _ (by omega) (by omega) hb
    rw [Source.check, if_pos (hnext.thisline.mpr hlen), hnext.alt1, hnext.alt0, Nat.add_sub_cancel, hlba, hlba',
      checkOrder_ofLine]
  · have hb := List.getElem?_eq_getElem (Nat.lt_of_le_of_lt (Nat.sub_le n 1) hn)
    refine ⟨_, _, .inr ⟨by omega, hb, ha⟩, fun seen issued => ?_⟩
    have hlba := hnext.lba n _ (by omega) (by omega) ha
    have hlba' := hnext.lba (n - 1) _ (by omega) (by omega) hb
    have halt2 : s.next.alt2 = Fin.ofNat 4 (n - 1) := by rw [hnext.alt2]; congr 1
    have hfull : (!(Linebuffer.ofLine lines[n - 1]).buffer.isEmpty) = true := by simp [Linebuffer.ofLine]
    rw [Source.check, if_neg (fun ht => hlen (hnext.thisline.mp ht)), hnext.alt1, halt2, Nat.add_sub_cancel, hlba, hlba',
      if_pos hfull, checkOrder_ofLine]

/-! ## The state -/

/-- The files are at `n`, and what the diagnostics say of them is right. -/
structure Stands (o : Settings) (lines : Fin 2 → List (List Byte)) (n : Fin 2 → ℕ) (st : OrderCheck) : Prop where
  holds : ∀ i, Holds (lines i) (n i) (st.files i)
  nodup : st.named.Nodup
  issued : ∀ i, st.issued i = true ↔ i ∈ st.named
  descends : ∀ i ∈ st.named, Descends (lines i)
  enabled : o.checkInputOrder = .enabled → st.named = []

variable {lines : Fin 2 → List (List Byte)} {n : Fin 2 → ℕ} {st st' : OrderCheck} {i : Fin 2}

/-- What filling up the file `i` does, if it is filled up at all. -/
structure Filled (o : Settings) (lines : Fin 2 → List (List Byte)) (n : Fin 2 → ℕ) (i : Fin 2) (c : Prop) [Decidable c]
    (st st' : OrderCheck) : Prop where
  stands : Stands o lines (if c then Function.update n i (n i + 1) else n) st'
  seen : st'.seenUnpairable = st.seenUnpairable
  kept : ∀ j, st.issued j = true → st'.issued j = true
  checked : c → Alert o st.seenUnpairable → ∀ a b, Compared (lines i) (n i) a b → b < a → st'.issued i = true
  quiet : ¬Alert o st.seenUnpairable → st'.named = st.named

theorem Compared.unique {lines : List (List Byte)} {m : ℕ} {a b a' b' : List Byte} (h : Compared lines m a b)
    (h' : Compared lines m a' b') : a = a' ∧ b = b' := by
  rcases h with ⟨hm, ha, hb⟩ | ⟨hm, ha, hb⟩ <;> rcases h' with ⟨hm', ha', hb'⟩ | ⟨hm', ha', hb'⟩
  · exact ⟨Option.some.inj (ha.symm.trans ha'), Option.some.inj (hb.symm.trans hb')⟩
  · omega
  · omega
  · exact ⟨Option.some.inj (ha.symm.trans ha'), Option.some.inj (hb.symm.trans hb')⟩

/-- A call of `fillUp` exits only with `--check-order` and names a file that descends. -/
theorem fillUp_spec (h : Stands o lines n st) (hi : n i < (lines i).length) :
    match st.fillUp o i with
    | .error named => o.checkInputOrder = .enabled ∧ named = [i] ∧ Descends (lines i)
    | .ok st' => Filled o lines n i True st st' := by
  obtain ⟨a, b, hab, hcheck⟩ := next_check (o := o) (h.holds i) hi
  have hholds : ∀ j, Holds (lines j) (Function.update n i (n i + 1) j) (Function.update st.files i (st.files i).next j) := by
    intro j
    by_cases hj : j = i
    · subst hj
      simpa using (h.holds j).next hi
    · simpa [hj] using h.holds j
  simp only [OrderCheck.fillUp, hcheck]
  by_cases hc : Alert o st.seenUnpairable ∧ st.issued i = false ∧ b < a
  · obtain ⟨halert, hissued, hlt⟩ := hc
    have hnot : i ∉ st.named := fun hm => by simp [(h.issued i).mpr hm] at hissued
    by_cases he : o.checkInputOrder = .enabled
    · simp only [halert, hissued, hlt, he, h.enabled he, and_self, if_true, List.nil_append]
      exact ⟨trivial, trivial, hab.descends hlt⟩
    · simp only [halert, hissued, hlt, he, and_self, if_true, if_false, Bool.not_false, Bool.and_true]
      refine ⟨⟨by simpa using hholds, ?_, ?_, ?_, fun h => absurd h he⟩, rfl, ?_, ?_, fun hq => absurd halert hq⟩
      · refine List.nodup_append.mpr ⟨h.nodup, by simp, ?_⟩
        rintro x hx y hy rfl
        exact hnot (List.mem_singleton.mp hy ▸ hx)
      · intro j
        by_cases hj : j = i
        · simp [hj]
        · simp [hj, h.issued j]
      · intro j hj
        rcases List.mem_append.mp hj with hj | hj
        · exact h.descends j hj
        · rw [List.mem_singleton.mp hj]
          exact hab.descends hlt
      · intro j hj
        by_cases hji : j = i
        · simp [hji]
        · simpa [hji] using hj
      · simp
  · have hsame : (if (st.issued i && !st.issued i) = true then st.named ++ [i] else st.named) = st.named := by simp
    simp only [if_neg hc, Function.update_eq_self, hsame]
    refine ⟨⟨by simpa using hholds, h.nodup, h.issued, h.descends, h.enabled⟩, rfl, fun j hj => hj, ?_, fun _ => rfl⟩
    intro _ halert a' b' hab' hlt
    obtain ⟨rfl, rfl⟩ := hab.unique hab'
    by_contra hn
    exact hc ⟨halert, by simpa using hn, hlt⟩

/-- The same for a file that may be filled up. -/
theorem fill_spec (h : Stands o lines n st) {c : Prop} [Decidable c] (hi : c → n i < (lines i).length) :
    match if c then st.fillUp o i else .ok st with
    | .error named => o.checkInputOrder = .enabled ∧ named = [i] ∧ Descends (lines i)
    | .ok st' => Filled o lines n i c st st' := by
  by_cases hc : c
  · have hf := fillUp_spec (o := o) h (hi hc)
    simp only [if_pos hc]
    revert hf
    cases st.fillUp o i with
    | error named => exact id
    | ok st' =>
      intro hf
      exact ⟨by simpa [hc] using hf.stands, hf.seen, hf.kept, fun _ => hf.checked trivial, hf.quiet⟩
  · simp only [if_neg hc]
    exact ⟨by simpa [hc] using h, rfl, fun j hj => hj, fun h => absurd h hc, fun _ => rfl⟩

/-! ## A pass -/

theorem takes_zero : Takes 0 (st.found o) ↔ st.order o ≤ 0 := by
  unfold Takes OrderCheck.found
  by_cases h : st.order o = 0
  · simp [h]
  · by_cases hle : st.order o ≤ 0 <;> simp [h, hle]

theorem takes_one : Takes 1 (st.found o) ↔ st.order o ≥ 0 := by
  unfold Takes OrderCheck.found
  by_cases h : st.order o = 0
  · simp [h]
  · by_cases hle : st.order o ≤ 0
    · simp [h, hle, show ¬st.order o ≥ 0 by omega]
    · simp [h, hle, show st.order o ≥ 0 by omega]

theorem found_eq_both : st.found o = .both ↔ st.order o = 0 := by
  unfold OrderCheck.found
  by_cases h : st.order o = 0
  · simp [h]
  · by_cases hle : st.order o ≤ 0 <;> simp [h, hle]

/-- While the loop runs, a file from which a line is taken has one. -/
theorem Stands.lt_of_takes (h : Stands o lines n st) (hrun : (st.files 0).thisline || (st.files 1).thisline)
    (hi : Takes i (st.found o)) : n i < (lines i).length := by
  have h0 := (h.holds 0).thisline
  have h1 := (h.holds 1).thisline
  have hall : i = 0 ∨ i = 1 := by omega
  rcases hall with rfl | rfl
  · rw [takes_zero, OrderCheck.order] at hi
    by_contra hn
    simp [← h0] at hn
    simp [hn] at hi
  · rw [takes_one, OrderCheck.order] at hi
    by_contra hn
    simp [← h1] at hn
    simp only [hn, Bool.or_false] at hrun
    simp [hrun, hn] at hi

/-- What a pass of the loop does. -/
structure Passes (o : Settings) (lines : Fin 2 → List (List Byte)) (n n' : Fin 2 → ℕ) (st st' : OrderCheck) : Prop where
  stands : Stands o lines n' st'
  moved : ∀ i, Takes i (st.found o) → n' i = n i + 1
  stayed : ∀ i, ¬Takes i (st.found o) → n' i = n i
  seen : st'.seenUnpairable = (st.seenUnpairable || st.found o ≠ .both)
  kept : ∀ i, st.issued i = true → st'.issued i = true
  checked : ∀ i, Takes i (st.found o) → Alert o st'.seenUnpairable →
    ∀ a b, Compared (lines i) (n i) a b → b < a → st'.issued i = true
  quiet : ¬Alert o st'.seenUnpairable → st'.named = st.named

/-- A pass exits only with `--check-order`, and names a file that descends. -/
theorem pass_spec (h : Stands o lines n st) (hrun : (st.files 0).thisline || (st.files 1).thisline) :
    match st.step o with
    | .error named => o.checkInputOrder = .enabled ∧ ∃ i, named = [i] ∧ Descends (lines i)
    | .ok st' => ∃ n', Passes o lines n n' st st' := by
  have hseen : (st.seenUnpairable || decide (st.order o ≠ 0)) = (st.seenUnpairable || decide (st.found o ≠ .both)) := by
    congr 2
    exact propext (not_congr found_eq_both.symm)
  have hstart : Stands o lines n { st with seenUnpairable := st.seenUnpairable || st.order o ≠ 0 } :=
    ⟨h.holds, h.nodup, h.issued, h.descends, h.enabled⟩
  have hfirst := fill_spec (i := 0) (c := st.order o ≤ 0) hstart fun hc => h.lt_of_takes hrun (takes_zero.mpr hc)
  simp only [OrderCheck.step]
  revert hfirst
  cases (if st.order o ≤ 0 then
    OrderCheck.fillUp o { st with seenUnpairable := st.seenUnpairable || st.order o ≠ 0 } 0
    else .ok { st with seenUnpairable := st.seenUnpairable || st.order o ≠ 0 } : Except (List (Fin 2)) OrderCheck) with
  | error named => exact fun hfirst => ⟨hfirst.1, 0, hfirst.2⟩
  | ok st1 =>
    intro hfirst
    have hn1 : (if st.order o ≤ 0 then Function.update n 0 (n 0 + 1) else n) 1 = n 1 := by
      split <;> simp
    have hsecond := fill_spec (i := 1) (c := st.order o ≥ 0) hfirst.stands fun hc => by
      rw [hn1]
      exact h.lt_of_takes hrun (takes_one.mpr hc)
    simp only
    revert hsecond
    cases (if st.order o ≥ 0 then st1.fillUp o 1 else .ok st1 : Except (List (Fin 2)) OrderCheck) with
    | error named => exact fun hsecond => ⟨hsecond.1, 1, hsecond.2⟩
    | ok st2 =>
      intro hsecond
      have hseen2 := hsecond.seen.trans hfirst.seen
      refine ⟨_, hsecond.stands, ?_, ?_, hseen2.trans hseen, fun i hi => hsecond.kept i (hfirst.kept i hi), ?_, ?_⟩
      · rw [Fin.forall_fin_two, takes_zero, takes_one]
        refine ⟨fun hc => ?_, fun hc => ?_⟩
        · rw [if_pos hc]
          split <;> simp
        · rw [if_pos hc, Function.update_self, hn1]
      · rw [Fin.forall_fin_two, takes_zero, takes_one]
        refine ⟨fun hc => ?_, fun hc => ?_⟩
        · rw [if_neg hc]
          split <;> simp
        · rw [if_neg hc, hn1]
      · rw [Fin.forall_fin_two, takes_zero, takes_one, hseen2]
        refine ⟨fun hc halert a b hab hlt => ?_, fun hc halert a b hab hlt => ?_⟩
        · exact hsecond.kept 0 (hfirst.checked hc halert a b hab hlt)
        · exact hsecond.checked hc (hfirst.seen ▸ halert) a b (hn1.symm ▸ hab) hlt
      · rw [hseen2]
        intro hq
        exact (hsecond.quiet (hfirst.seen ▸ hq)).trans (hfirst.quiet hq)

/-! ## A run -/

/-- A run of the loop: the classes of its lines, and how it ends. -/
inductive OrderRun (o : Settings) : OrderCheck → List Found → Except (List (Fin 2)) OrderCheck → Prop
  | done {st : OrderCheck} (h : ¬((st.files 0).thisline || (st.files 1).thisline)) : OrderRun o st [] (.ok st)
  | stop {st : OrderCheck} {named : List (Fin 2)} (h : (st.files 0).thisline || (st.files 1).thisline)
      (hstep : st.step o = .error named) : OrderRun o st [st.found o] (.error named)
  | more {st st' : OrderCheck} {calls : List Found} {r : Except (List (Fin 2)) OrderCheck}
      (h : (st.files 0).thisline || (st.files 1).thisline) (hstep : st.step o = .ok st') (run : OrderRun o st' calls r) :
      OrderRun o st (st.found o :: calls) r

/-- What is passed is shorter then. -/
theorem Passes.shorter {n' : Fin 2 → ℕ} (h : Passes o lines n n' st st') (hst : Stands o lines n st)
    (hrun : (st.files 0).thisline || (st.files 1).thisline) :
    (lines 0).length - n' 0 + ((lines 1).length - n' 1) < (lines 0).length - n 0 + ((lines 1).length - n 1) := by
  have htakes : Takes 0 (st.found o) ∨ Takes 1 (st.found o) := by
    rw [takes_zero, takes_one]
    omega
  by_cases h0 : Takes 0 (st.found o)
  · have hlt := hst.lt_of_takes hrun h0
    have hmoved := h.moved 0 h0
    by_cases h1 : Takes 1 (st.found o)
    · have hmoved' := h.moved 1 h1
      omega
    · have hstayed := h.stayed 1 h1
      omega
  · have h1 := htakes.resolve_left h0
    have hlt := hst.lt_of_takes hrun h1
    have hmoved := h.moved 1 h1
    have hstayed := h.stayed 0 h0
    omega

/-- With fuel for all lines the loop ends. -/
theorem orderLoop_run (fuel : ℕ) (hst : Stands o lines n st)
    (hfuel : (lines 0).length - n 0 + ((lines 1).length - n 1) < fuel) :
    ∃ calls r, orderLoop o fuel st = some (calls, r) ∧ OrderRun o st calls r := by
  induction fuel generalizing n st with
  | zero => omega
  | succ fuel ih =>
    rw [orderLoop]
    by_cases hrun : (st.files 0).thisline || (st.files 1).thisline
    · rw [if_pos hrun]
      have hspec := pass_spec hst hrun
      cases hstep : st.step o with
      | error named => exact ⟨_, _, rfl, .stop hrun hstep⟩
      | ok st' =>
        rw [hstep] at hspec
        obtain ⟨n', hpass⟩ := hspec
        have hshorter := hpass.shorter hst hrun
        obtain ⟨calls, r, hloop, run⟩ := ih hpass.stands (by omega)
        exact ⟨st.found o :: calls, r, by simp only [hloop, Option.map_some], .more hrun hstep run⟩
    · rw [if_neg hrun]
      exact ⟨_, _, rfl, .done hrun⟩

variable {calls : List Found} {r : Except (List (Fin 2)) OrderCheck}

/-- A pass that does not exit. -/
theorem step_ok (hst : Stands o lines n st) (hrun : (st.files 0).thisline || (st.files 1).thisline)
    (hstep : st.step o = .ok st') : ∃ n', Passes o lines n n' st st' := by
  have hspec := pass_spec hst hrun
  rw [hstep] at hspec
  exact hspec

/-- The program exits only with `--check-order`, and names one file, which descends. -/
theorem run_error {named : List (Fin 2)} (run : OrderRun o st calls (.error named)) (hst : Stands o lines n st) :
    o.checkInputOrder = .enabled ∧ ∃ i, named = [i] ∧ Descends (lines i) := by
  generalize hr : (Except.error named : Except (List (Fin 2)) OrderCheck) = r at run
  induction run generalizing n with
  | done h => cases hr
  | stop hrun hstep =>
    cases hr
    have hspec := pass_spec hst hrun
    rw [hstep] at hspec
    exact hspec
  | more hrun hstep run ih =>
    obtain ⟨n', hpass⟩ := step_ok hst hrun hstep
    exact ih hpass.stands hr

/-- The state at the end of a run: both files have been read, and what has been issued still is. -/
theorem run_stands (run : OrderRun o st calls (.ok st')) (hst : Stands o lines n st) :
    Stands o lines (fun i => (lines i).length) st' ∧ ∀ i, st.issued i = true → st'.issued i = true := by
  generalize hr : (Except.ok st' : Except (List (Fin 2)) OrderCheck) = r at run
  induction run generalizing n with
  | @done st h =>
    cases hr
    simp only [Bool.or_eq_true, not_or] at h
    have hn : n = fun i => (lines i).length := by
      funext i
      have hle := (hst.holds i).le
      have hnot : ¬n i < (lines i).length := by
        rw [← (hst.holds i).thisline]
        revert i
        rw [Fin.forall_fin_two]
        exact ⟨fun _ => h.1, fun _ => h.2⟩
      omega
    subst hn
    exact ⟨hst, fun i hi => hi⟩
  | stop hrun hstep => cases hr
  | more hrun hstep run ih =>
    obtain ⟨n', hpass⟩ := step_ok hst hrun hstep
    obtain ⟨hend, hkept⟩ := ih hpass.stands hr
    exact ⟨hend, fun i hi => hkept i (hpass.kept i hi)⟩

/-- Where the order is checked after this pass, it is checked of all lines that are left. -/
theorem run_checked (run : OrderRun o st calls (.ok st')) (hst : Stands o lines n st)
    (halert : Alert o (st.seenUnpairable || st.found o ≠ .both)) {m : ℕ} {a b : List Byte} (hm : n i ≤ m)
    (hab : Compared (lines i) m a b) (hlt : b < a) : st'.issued i = true := by
  generalize hr : (Except.ok st' : Except (List (Fin 2)) OrderCheck) = r at run
  induction run generalizing n with
  | @done st h =>
    cases hr
    obtain ⟨hend, -⟩ := run_stands (.done h) hst
    have hlen : m < (lines i).length := by
      rcases hab with hab | hab <;> omega
    have hthis := (hst.holds i).thisline.mpr (by omega)
    have := (hend.holds i).thisline.mp hthis
    omega
  | stop hrun hstep => cases hr
  | @more st st1 calls r hrun hstep run ih =>
    obtain ⟨n', hpass⟩ := step_ok hst hrun hstep
    rw [← hpass.seen] at halert
    by_cases hnow : Takes i (st.found o) ∧ m = n i
    · obtain ⟨htakes, rfl⟩ := hnow
      subst hr
      exact (run_stands run hpass.stands).2 i (hpass.checked i htakes halert a b hab hlt)
    · have hm' : n' i ≤ m := by
        by_cases htakes : Takes i (st.found o)
        · have := hpass.moved i htakes
          have : m ≠ n i := fun h => hnow ⟨htakes, h⟩
          omega
        · have := hpass.stayed i htakes
          omega
      refine ih hpass.stands ⟨halert.1, halert.2.imp_right fun h => ?_⟩ hm' hr
      rw [h, Bool.true_or]

/-- The last two lines are checked if an unpairable line has been seen by then. -/
theorem run_last (run : OrderRun o st calls (.ok st')) (hst : Stands o lines n st) (ho : o.checkInputOrder ≠ .disabled)
    (hseen : ∃ before c after, calls = before ++ c :: after ∧ Takes i c ∧
      (st.seenUnpairable = true ∨ ∃ x ∈ before ++ [c], x ≠ Found.both))
    (hlast : DescendsLast (lines i)) : st'.issued i = true := by
  generalize hr : (Except.ok st' : Except (List (Fin 2)) OrderCheck) = r at run
  induction run generalizing n with
  | done h =>
    obtain ⟨before, c, after, hcalls, -⟩ := hseen
    simp at hcalls
  | stop hrun hstep => cases hr
  | @more st st1 calls r hrun hstep run ih =>
    obtain ⟨n', hpass⟩ := step_ok hst hrun hstep
    obtain ⟨before, c, after, hcalls, htakes, hseen⟩ := hseen
    cases before with
    | nil =>
      rw [List.nil_append, List.cons.injEq] at hcalls
      obtain ⟨rfl, rfl⟩ := hcalls
      obtain ⟨a, b, hab, hlt⟩ := hlast.compared
      have hlen := hst.lt_of_takes hrun htakes
      subst hr
      refine run_checked (.more hrun hstep run) hst ⟨ho, .inr ?_⟩ (by omega) hab hlt
      simpa using hseen
    | cons x before =>
      rw [List.cons_append, List.cons.injEq] at hcalls
      obtain ⟨rfl, rfl⟩ := hcalls
      refine ih hpass.stands ⟨before, c, after, rfl, htakes, ?_⟩ hr
      rw [hpass.seen]
      simpa [or_assoc] using hseen

/-- The lines of two equal files are paired. -/
theorem Stands.found_both (h : Stands o lines n st) (hrun : (st.files 0).thisline || (st.files 1).thisline)
    (hlines : lines 0 = lines 1) (hn : n 0 = n 1) : st.found o = .both := by
  have h0 := (h.holds 0).thisline
  have h1 := (h.holds 1).thisline
  rw [← hlines, ← hn] at h1
  have hthis : (st.files 0).thisline = (st.files 1).thisline := Bool.eq_iff_iff.mpr (h0.trans h1.symm)
  rw [← hthis, Bool.or_self] at hrun
  have hlen := h0.mp hrun
  have hv := List.getElem?_eq_getElem hlen
  have hv' : (lines 1)[n 1]? = some (lines 0)[n 0] := by rw [← hlines, ← hn, hv]
  have hl0 := (h.holds 0).lba _ _ (le_refl _) (by omega) hv
  have hl1 := (h.holds 1).lba _ _ (le_refl _) (by omega) hv'
  rw [found_eq_both, OrderCheck.order, ← hthis, if_neg (by simp [hrun]), if_neg (by simp [hrun]), (h.holds 0).alt0,
    (h.holds 1).alt0, hl0, hl1]
  exact (lineOrder_ofLine o _ _).mpr rfl

/-- Without `--check-order` nothing is said of two equal files. -/
theorem run_same (run : OrderRun o st calls (.ok st')) (hst : Stands o lines n st) (ho : o.checkInputOrder ≠ .enabled)
    (hlines : lines 0 = lines 1) (hn : n 0 = n 1) (hseen : st.seenUnpairable = false) : st'.named = st.named := by
  generalize hr : (Except.ok st' : Except (List (Fin 2)) OrderCheck) = r at run
  induction run generalizing n with
  | done h =>
    cases hr
    rfl
  | stop hrun hstep => cases hr
  | @more st st1 calls r hrun hstep run ih =>
    obtain ⟨n', hpass⟩ := step_ok hst hrun hstep
    have hboth := hst.found_both hrun hlines hn
    have hseen1 : st1.seenUnpairable = false := by
      rw [hpass.seen, hseen, hboth]
      rfl
    have hquiet : ¬Alert o st1.seenUnpairable := fun h => h.2.elim ho (by simp [hseen1])
    rw [← hpass.quiet hquiet]
    refine ih hpass.stands ?_ hseen1 hr
    rw [hpass.moved 0 (.inl hboth), hpass.moved 1 (.inl hboth), hn]

/-! ## The check -/

/-- `compare_files` ends; with `--check-order` it exits for a file that descends and only for such a file, and without it the
diagnostics are as expected. -/
theorem compareOrder_checks (o : Settings) (lines : Fin 2 → List (List Byte)) (fuel : ℕ)
    (hfuel : (lines 0).length + (lines 1).length < fuel) :
    ∃ calls r, compareOrder o fuel lines = some (calls, r) ∧
      (o.checkInputOrder = .enabled → ChecksAll lines r) ∧
        (o.checkInputOrder = .default → ∃ st, r = .ok st ∧ ChecksUnpairable lines calls st.named) := by
  have hst : Stands o lines (fun _ => 0) ⟨fun i => Source.ofLines (lines i), false, fun _ => false, []⟩ :=
    ⟨fun i => Holds.ofLines (lines i), List.nodup_nil, by simp, by simp, fun _ => rfl⟩
  obtain ⟨calls, r, hloop, run⟩ := orderLoop_run fuel hst (by simpa using hfuel)
  refine ⟨calls, r, hloop, fun he => ?_, fun hd => ?_⟩
  · cases r with
    | error named => exact (run_error run hst).2
    | ok st' =>
      obtain ⟨hend, -⟩ := run_stands run hst
      have hnone := hend.enabled he
      refine ⟨hnone, fun i hi => ?_⟩
      obtain ⟨m, a, b, hab, hlt⟩ := hi.compared
      have hissued := run_checked run hst ⟨by simp [he], .inl he⟩ (Nat.zero_le m) hab hlt
      rw [hend.issued i, hnone] at hissued
      cases hissued
  · have he : o.checkInputOrder ≠ .enabled := by simp [hd]
    cases r with
    | error named => exact absurd (run_error run hst).1 he
    | ok st' =>
      obtain ⟨hend, -⟩ := run_stands run hst
      refine ⟨st', rfl, ?_, hend.nodup, hend.descends, ?_⟩
      · exact fun hlines => run_same run hst he hlines rfl rfl
      · rintro i ⟨before, c, after, hcalls, htakes, hseen⟩ hlast
        exact (hend.issued i).mp
          (run_last run hst (by simp [hd]) ⟨before, c, after, hcalls, htakes, .inr hseen⟩ hlast)

/-- The lines `b` and `a`, and the line `c`. -/
theorem compareOrder_descends :
    ∃ calls r, compareOrder ⟨false, .enabled⟩ 4 (fun i => if i = 0 then [[98], [97]] else [[99]]) = some (calls, r) ∧
      ChecksAll (fun i => if i = 0 then [[98], [97]] else [[99]]) r := by
  obtain ⟨calls, r, hrun, hall, -⟩ :=
    compareOrder_checks ⟨false, .enabled⟩ (fun i => if i = 0 then [[98], [97]] else [[99]]) 4 (by decide)
  exact ⟨calls, r, hrun, hall rfl⟩

end Program

end CodingExercises.Coreutils
