import CodingExercises.File.CdfBounds
import CodingExercises.File.CdfProperties

/-!
# file: the bounds of properties

`cdf_check_stream_offset` looks at the header of a section and at its end only, and takes every stream for one of long sectors;
`cdf_read_property_info` looks at where a property begins and, between two strings, at where the next one begins in words. So
what is read is within bounds if and only if the properties that the loop comes to lie in the stream, and `*count` is right if
and only if no array of strings reaches behind the last property (`summary_iff`).

The loop is a walk over cursors (`Cursor`): `PropertyTable.next` is the next one, and `PropertyTable.Fits` says that what is
read at one is inside.
-/

namespace CodingExercises.File.Cdf

open Lib

/-! ## The properties of a stream -/

/-- The number at a place. -/
def num (tab : List UInt8) (off : ℕ) : ℕ := le (slice tab off 4)

/-- The properties in a stream: its bytes, the end of the section, the place of the first entry, the number of properties, and
the number of sections. -/
structure PropertyTable where
  tab : List UInt8
  e : ℕ
  p : ℕ
  props : ℕ
  count : ℕ

/-- Where the loops are: the section, the property, and `*maxcount`. -/
structure Cursor where
  sec : ℕ
  prop : ℕ
  maxcount : ℕ

/-- The array may have so many strings more. -/
def Allowed (n maxcount : ℕ) : Prop := n > 1 → maxcount ≤ cdfPropLimit ∧ n ≤ cdfPropLimit

instance (n maxcount : ℕ) : Decidable (Allowed n maxcount) :=
  inferInstanceAs (Decidable (n > 1 → maxcount ≤ cdfPropLimit ∧ n ≤ cdfPropLimit))

namespace PropertyTable

variable (t : PropertyTable)

/-- Where a property begins. -/
def place (i : ℕ) : ℕ := t.p + num t.tab (t.p + 4 * (2 * i + 1)) - 8

/-- `nelements`. -/
def nelements (q : ℕ) : ℕ := if num t.tab q &&& cdfVector ≠ 0 then num t.tab (q + 4) else 1

/-- `o`. -/
def first (q : ℕ) : ℕ := if num t.tab q &&& cdfVector ≠ 0 then 2 else 1

/-- The strings lie in the stream, up to the first one that ends behind the section. -/
def StringsFit (q : ℕ) : ℕ → ℕ → Prop
  | 0, _ => True
  | n + 1, o => q + 4 * o + 4 + num t.tab (q + 4 * o) ≤ t.tab.length ∧
      (q + (o + stride (num t.tab (q + 4 * o))) < t.e → StringsFit q n (o + stride (num t.tab (q + 4 * o))))

/-- No string ends behind the section, in words. -/
def stringsPass (q : ℕ) : ℕ → ℕ → Bool
  | 0, _ => true
  | n + 1, o => q + (o + stride (num t.tab (q + 4 * o))) < t.e && stringsPass q n (o + stride (num t.tab (q + 4 * o)))

/-- The property has strings. -/
def HasStrings (q : ℕ) : Prop := num t.tab q &&& cdfIndirect = 0 ∧ isString (num t.tab q &&& cdfTypemask)

instance (q : ℕ) : Decidable (t.HasStrings q) := instDecidableAnd

/-- The value of a property lies in the stream. -/
def ValueFits (q maxcount : ℕ) : Prop :=
  (t.HasStrings q → Allowed (t.nelements q) maxcount → t.StringsFit q (t.nelements q) (t.first q)) ∧
    ∀ size value, num t.tab q &&& cdfIndirect = 0 → scalar (num t.tab q &&& cdfTypemask) = some (size, value) →
      num t.tab q &&& cdfVector = 0 → q + 4 + size ≤ t.tab.length

/-- The entry of a property lies in the stream, and so does what it leads to, unless it is behind the section. -/
def Fits (c : Cursor) : Prop :=
  t.p + 8 * c.prop + 8 ≤ t.tab.length ∧ (t.place c.prop ≤ t.e → t.place c.prop + 4 ≤ t.tab.length ∧
    (num t.tab (t.place c.prop) &&& cdfVector ≠ 0 → t.place c.prop + 8 ≤ t.tab.length) ∧
    t.ValueFits (t.place c.prop) c.maxcount)

/-- The cursor behind a property, or for the next section. -/
def next (c : Cursor) : Option Cursor :=
  if c.prop < t.props then
    if t.place c.prop > t.e then none
    else if t.HasStrings (t.place c.prop) then
      if Allowed (t.nelements (t.place c.prop)) c.maxcount ∧
          t.stringsPass (t.place c.prop) (t.nelements (t.place c.prop)) (t.first (t.place c.prop)) then
        some ⟨c.sec, c.prop + t.nelements (t.place c.prop),
          if t.nelements (t.place c.prop) > 1 then c.maxcount + t.nelements (t.place c.prop) else c.maxcount⟩
      else none
    else some ⟨c.sec, c.prop + 1, c.maxcount⟩
  else if c.sec + 1 < t.count ∧ c.sec + 1 < cdfLoopLimit ∧ c.maxcount ≤ cdfPropLimit then
    some ⟨c.sec + 1, 0, c.maxcount + t.props⟩
  else none

end PropertyTable

/-! ## The array -/

/-- The first `f` entries of an array of `*maxcount` are filled. -/
def Infos.Filled (st : Infos) (f : ℕ) : Prop :=
  f ≤ st.maxcount ∧ st.info.map PropertyInfo.filled = List.replicate f true ++ List.replicate (st.maxcount - f) false

section Infos

variable {st : Infos} {f j : ℕ}

theorem Infos.Filled.length_eq (h : st.Filled f) : st.info.length = st.maxcount := by
  have hlen := congrArg List.length h.2
  rw [List.length_map, List.length_append, List.length_replicate, List.length_replicate] at hlen
  have hle := h.1
  omega

theorem Infos.Filled.countP_eq (h : st.Filled f) : st.info.countP PropertyInfo.filled = f := by
  have hcount : st.info.countP PropertyInfo.filled = (st.info.map PropertyInfo.filled).countP id := by
    rw [List.countP_map]
    rfl
  rw [hcount, h.2]
  simp [List.countP_append, List.countP_replicate]

theorem replicate_set (f n j : ℕ) (hj : j ≤ f) (hlt : j < f + n) :
    (List.replicate f true ++ List.replicate n false).set j true =
      List.replicate (max f (j + 1)) true ++ List.replicate (f + n - max f (j + 1)) false := by
  obtain hlt' | rfl := Nat.lt_or_eq_of_le hj
  · rw [List.set_append_left _ _ (by rwa [List.length_replicate]), Nat.max_eq_left hlt', List.set_replicate_self,
      Nat.add_sub_cancel_left]
  · obtain ⟨n, rfl⟩ := Nat.exists_eq_add_one_of_ne_zero (Nat.ne_of_gt (Nat.lt_add_right_iff_pos.mp hlt))
    rw [List.set_append_right _ _ (Nat.le_of_eq List.length_replicate), List.length_replicate, Nat.sub_self,
      Nat.max_eq_right (Nat.le_succ _), List.replicate_succ, List.set_cons_zero, List.replicate_succ',
      List.append_assoc, Nat.add_comm n 1, ← Nat.add_assoc, Nat.add_sub_cancel_left]
    rfl

/-- An entry is stored among the filled ones or behind them. -/
theorem store_ok {g : PropertyInfo → PropertyInfo} (h : st.Filled f) (hj : j ≤ f) (hlt : j < st.maxcount)
    (hg : ∀ inp, (g inp).filled = true) :
    ∃ st', st.store j g = .ok st' ∧ st'.count = st.count ∧ st'.maxcount = st.maxcount ∧ st'.Filled (max f (j + 1)) := by
  obtain ⟨inp, hget⟩ : ∃ inp, st.info[j]? = some inp :=
    ⟨_, List.getElem?_eq_getElem (by rw [h.length_eq]; exact hlt)⟩
  unfold Infos.store
  rw [hget]
  refine ⟨_, rfl, rfl, rfl, ?_, ?_⟩
  · have hle := h.1
    dsimp only
    omega
  · have hset := replicate_set f (st.maxcount - f) j hj (by have hle := h.1; omega)
    rw [Nat.add_sub_cancel' h.1] at hset
    dsimp only
    rw [List.map_set, hg, h.2, hset]

theorem Infos.Filled.append (h : st.Filled f) (n : ℕ) :
    Infos.Filled { st with maxcount := st.maxcount + n, info := st.info ++ uninitialized n } f := by
  have hle := h.1
  refine ⟨Nat.le_trans hle (Nat.le_add_right _ _), ?_⟩
  dsimp only
  rw [List.map_append, h.2, List.append_assoc, uninitialized, List.map_replicate, Nat.sub_add_comm hle]
  exact congrArg _ List.replicate_append_replicate

/-- The array of a section. -/
theorem grow_eq (h : st.Filled f) (props : ℕ) : (st.grow props).Filled f ∧
    (st.grow props).maxcount = st.maxcount + props ∧ (st.grow props).count = st.count + props := by
  unfold Infos.grow
  split
  · exact ⟨h.append props, rfl, rfl⟩
  · rename_i hzero
    have hmax : st.maxcount = 0 := not_not.mp hzero
    have hf : f = 0 := by
      have hle := h.1
      omega
    subst hf
    refine ⟨⟨Nat.zero_le _, ?_⟩, by rw [hmax, Nat.zero_add], rfl⟩
    rw [uninitialized, List.map_replicate]
    rfl

end Infos

/-! ## One property -/

section Property

variable {t : PropertyTable} {st : Infos} {f base i q : ℕ}

theorem ok_bind {α β : Type} (a : α) (g : α → Except Bad β) : ((.ok a : Except Bad α) >>= g) = g a := rfl

theorem error_bind {α β : Type} (e : Bad) (g : α → Except Bad β) : ((.error e : Except Bad α) >>= g) = .error e := rfl

theorem load_num {tab : List UInt8} {off : ℕ} (h : off + 4 ≤ tab.length) : load tab off 4 = .ok (num tab off) := if_pos h

theorem load_fault {tab : List UInt8} {off len : ℕ} (h : ¬ off + len ≤ tab.length) : load tab off len = .error .fault :=
  if_neg h

/-- What is stored in entries is behind `f`, and `*count` is as it was. -/
structure Stored (st : Infos) (f maxcount : ℕ) (st' : Infos) (f' : ℕ) : Prop where
  filled : st'.Filled f'
  le : f ≤ f'
  count_eq : st'.count = st.count
  maxcount_eq : st'.maxcount = maxcount

theorem stringLoop_cases {n o : ℕ} (hst : st.Filled f) (hi : base + i ≤ f) (hn : base + i + n ≤ st.maxcount) :
    (¬ t.StringsFit q n o ∧ stringLoop t.tab t.e q base n o i st = .error .fault) ∨
    (t.StringsFit q n o ∧ t.stringsPass q n o = false ∧ stringLoop t.tab t.e q base n o i st = .error .failed) ∨
    (t.StringsFit q n o ∧ t.stringsPass q n o = true ∧
      ∃ st', stringLoop t.tab t.e q base n o i st = .ok (i + n, st') ∧
        Stored st f st.maxcount st' (max f (base + i + n))) := by
  induction n generalizing o i st f with
  | zero => exact .inr (.inr ⟨trivial, rfl, st, rfl, by rwa [Nat.add_zero, Nat.max_eq_left hi], Nat.le_max_left _ _, rfl, rfl⟩)
  | succ n ih =>
    rw [stringLoop, cdfGetuint32]
    by_cases hl : q + 4 * o + 4 ≤ t.tab.length
    · rw [load_num hl, ok_bind]
      by_cases hbuf : q + 4 * o + 4 + num t.tab (q + 4 * o) ≤ t.tab.length
      · rw [if_pos hbuf]
        obtain ⟨st₁, hstore, hcount, hmax, hst₁⟩ := store_ok
          (g := fun inp => { inp with val := some (.str (num t.tab (q + 4 * o)) (q + 4 * o + 4)) }) hst hi (by omega)
          (fun inp => by simp [PropertyInfo.filled])
        rw [hstore, ok_bind]
        by_cases hend : q + (o + stride (num t.tab (q + 4 * o))) < t.e
        · rw [if_neg (by omega)]
          have hfit : t.StringsFit q (n + 1) o ↔ t.StringsFit q n (o + stride (num t.tab (q + 4 * o))) :=
            ⟨fun h => h.2 hend, fun h => ⟨hbuf, fun _ => h⟩⟩
          have hpass : t.stringsPass q (n + 1) o = t.stringsPass q n (o + stride (num t.tab (q + 4 * o))) := by
            rw [PropertyTable.stringsPass, decide_eq_true hend, Bool.true_and]
          rw [hfit, hpass]
          obtain hfault | hfailed | ⟨h₁, h₂, st', hrun, hstored⟩ := ih (o := o + stride (num t.tab (q + 4 * o))) hst₁
            (i := i + 1) (by omega) (by omega)
          · exact .inl hfault
          · exact .inr (.inl hfailed)
          · refine .inr (.inr ⟨h₁, h₂, st', ?_, ?_, ?_, hstored.count_eq.trans hcount, hstored.maxcount_eq.trans hmax⟩)
            · rw [hrun, Nat.add_right_comm, Nat.add_assoc]
            · have hmaxEq : max (max f (base + i + 1)) (base + (i + 1) + n) = max f (base + i + (n + 1)) := by omega
              rw [← hmaxEq]
              exact hstored.filled
            · exact Nat.le_max_left _ _
        · rw [if_pos (by omega)]
          refine .inr (.inl ⟨⟨hbuf, fun h => absurd h hend⟩, ?_, rfl⟩)
          rw [PropertyTable.stringsPass, decide_eq_false hend, Bool.false_and]
      · rw [if_neg hbuf]
        exact .inl ⟨fun h => hbuf h.1, rfl⟩
    · rw [load_fault hl, error_bind]
      exact .inl ⟨fun h => hl (by have h₁ := h.1; omega), rfl⟩

theorem scalar_of_isString {type : ℕ} (h : isString type) : scalar type = none := by
  unfold isString at h
  rw [Bool.or_eq_true, decide_eq_true_eq, decide_eq_true_eq] at h
  obtain rfl | rfl := h <;> rfl

/-- A property without strings. -/
theorem propertyValue_plain (hst : st.Filled f) (hi : base + i + 1 ≤ f) (hq : ¬ t.HasStrings q) :
    (¬ t.ValueFits q st.maxcount ∧
      propertyValue t.tab t.e q (num t.tab q) (t.nelements q) (t.first q) base i st = .error .fault) ∨
    (t.ValueFits q st.maxcount ∧ ∃ st',
      propertyValue t.tab t.e q (num t.tab q) (t.nelements q) (t.first q) base i st = .ok (i + 1, st') ∧
        Stored st f st.maxcount st' f) := by
  have hsame : Stored st f st.maxcount st f := ⟨hst, Nat.le_refl _, rfl, rfl⟩
  unfold propertyValue
  by_cases hindirect : num t.tab q &&& cdfIndirect = 0
  · have hstring : ¬ isString (num t.tab q &&& cdfTypemask) = true := fun h => hq ⟨hindirect, h⟩
    rw [if_neg (not_not.mpr hindirect), if_neg hstring]
    cases hscalar : scalar (num t.tab q &&& cdfTypemask) with
    | none =>
      refine .inr ⟨⟨fun h => absurd h hq, fun size value _ hsome => ?_⟩, st, rfl, hsame⟩
      rw [hscalar] at hsome
      cases hsome
    | some s =>
      obtain ⟨size, value⟩ := s
      by_cases hvector : num t.tab q &&& cdfVector = 0
      · have hfirst : t.first q = 1 := if_neg (not_not.mpr hvector)
        rw [hfirst]
        dsimp only
        rw [if_neg (not_not.mpr hvector)]
        by_cases hsize : q + 4 + size ≤ t.tab.length
        · obtain ⟨st', hstore, hcount, hmax, hst'⟩ := store_ok
            (g := fun inp => { inp with val := some (value (le (slice t.tab (q + 4) size))) }) hst (Nat.le_of_lt hi)
            (Nat.lt_of_lt_of_le hi hst.1) (fun inp => by simp [PropertyInfo.filled])
          rw [Nat.max_eq_left hi] at hst'
          have hload : load t.tab (q + 4 * 1) size = .ok (le (slice t.tab (q + 4) size)) := if_pos hsize
          rw [hload, ok_bind, hstore]
          refine .inr ⟨⟨fun h => absurd h hq, fun size' value' _ hsome _ => ?_⟩, st', rfl, hst', Nat.le_refl _, hcount, hmax⟩
          rw [hscalar] at hsome
          cases hsome
          exact hsize
        · rw [load_fault hsize]
          exact .inl ⟨fun h => hsize (h.2 size value hindirect hscalar hvector), rfl⟩
      · dsimp only
        rw [if_pos hvector]
        exact .inr ⟨⟨fun h => absurd h hq, fun _ _ _ _ h => absurd h hvector⟩, st, rfl, hsame⟩
  · rw [if_pos hindirect]
    exact .inr ⟨⟨fun h => absurd h hq, fun _ _ h => absurd h hindirect⟩, st, rfl, hsame⟩

/-- A property with strings, for which the array is made longer. -/
theorem propertyValue_strings (hst : st.Filled f) (hi : base + i + 1 ≤ f) (hq : t.HasStrings q) :
    (¬ t.ValueFits q st.maxcount ∧
      propertyValue t.tab t.e q (num t.tab q) (t.nelements q) (t.first q) base i st = .error .fault) ∨
    (t.ValueFits q st.maxcount ∧
      ¬ (Allowed (t.nelements q) st.maxcount ∧ t.stringsPass q (t.nelements q) (t.first q)) ∧
      propertyValue t.tab t.e q (num t.tab q) (t.nelements q) (t.first q) base i st = .error .failed) ∨
    (t.ValueFits q st.maxcount ∧ (Allowed (t.nelements q) st.maxcount ∧
        t.stringsPass q (t.nelements q) (t.first q)) ∧
      ∃ st', propertyValue t.tab t.e q (num t.tab q) (t.nelements q) (t.first q) base i st =
          .ok (i + t.nelements q, st') ∧
        Stored st f (if t.nelements q > 1 then st.maxcount + t.nelements q else st.maxcount) st'
          (max f (base + i + t.nelements q))) := by
  have hfits : t.ValueFits q st.maxcount ↔
      (Allowed (t.nelements q) st.maxcount → t.StringsFit q (t.nelements q) (t.first q)) := by
    refine ⟨fun h => h.1 hq, fun h => ⟨fun _ => h, fun _ _ _ hscalar => ?_⟩⟩
    rw [scalar_of_isString hq.2] at hscalar
    cases hscalar
  have hlt : base + i < st.maxcount := Nat.lt_of_lt_of_le hi hst.1
  unfold propertyValue
  rw [hfits, if_neg (not_not.mpr hq.1), if_pos hq.2]
  by_cases hmany : t.nelements q > 1
  · rw [if_pos hmany, if_pos hmany]
    by_cases hallowed : Allowed (t.nelements q) st.maxcount
    · have hlimit := hallowed hmany
      rw [if_neg (by omega)]
      obtain ⟨hfit, hrun⟩ | ⟨hfit, hpass, hrun⟩ | ⟨hfit, hpass, st', hrun, hstored⟩ :=
        stringLoop_cases (t := t) (q := q) (n := t.nelements q) (o := t.first q) (hst.append (t.nelements q))
          (Nat.le_of_lt hi) (by dsimp only; omega)
      · exact .inl ⟨fun h => hfit (h hallowed), hrun⟩
      · exact .inr (.inl ⟨fun _ => hfit, fun h => by rw [hpass] at h; exact Bool.noConfusion h.2, hrun⟩)
      · exact .inr (.inr ⟨fun _ => hfit, ⟨hallowed, hpass⟩, st', hrun, hstored.1, hstored.2, hstored.3, hstored.4⟩)
    · have hlimit : st.maxcount > cdfPropLimit ∨ t.nelements q > cdfPropLimit := by
        by_contra hnot
        exact hallowed fun _ => by omega
      rw [if_pos hlimit]
      exact .inr (.inl ⟨fun h => absurd h hallowed, fun h => hallowed h.1, rfl⟩)
  · rw [if_neg hmany, if_neg hmany]
    have hallowed : Allowed (t.nelements q) st.maxcount := fun h => absurd h hmany
    obtain ⟨hfit, hrun⟩ | ⟨hfit, hpass, hrun⟩ | ⟨hfit, hpass, st', hrun, hstored⟩ :=
      stringLoop_cases (t := t) (q := q) (n := t.nelements q) (o := t.first q) hst (Nat.le_of_lt hi) (by omega)
    · exact .inl ⟨fun h => hfit (h hallowed), hrun⟩
    · exact .inr (.inl ⟨fun _ => hfit, fun h => by rw [hpass] at h; exact Bool.noConfusion h.2, hrun⟩)
    · exact .inr (.inr ⟨fun _ => hfit, ⟨hallowed, hpass⟩, st', hrun, hstored⟩)

/-- What a property does to the array: the entries up to the next cursor are filled. -/
structure Turned (c c' : Cursor) (base : ℕ) (st : Infos) (f : ℕ) (st' : Infos) (f' : ℕ) : Prop where
  sec_eq : c'.sec = c.sec
  stored : Stored st f c'.maxcount st' f'
  maxcount_le : c.maxcount ≤ c'.maxcount
  le : base + c'.prop ≤ f'
  le_max : f' ≤ max f (max (base + c.prop + 1) (base + c'.prop))

/-- The body of the loop: a fault, a failure, or the next cursor. -/
theorem property_cases {c : Cursor} (hprop : c.prop < t.props) (hmax : st.maxcount = c.maxcount) (hst : st.Filled f)
    (hi : base + c.prop ≤ f) (hlt : base + c.prop < st.maxcount) :
    (¬ t.Fits c ∧ property t.tab t.e t.p base c.prop st = .error .fault) ∨
    (t.Fits c ∧ t.next c = none ∧ property t.tab t.e t.p base c.prop st = .error .failed) ∨
    (t.Fits c ∧ ∃ c' st' f', t.next c = some c' ∧ property t.tab t.e t.p base c.prop st = .ok (c'.prop, st') ∧
      Turned c c' base st f st' f') := by
  unfold property cdfGetuint32 PropertyTable.next
  rw [if_pos hprop]
  by_cases hentry : t.p + 8 * c.prop + 8 ≤ t.tab.length
  · rw [load_num (by omega), ok_bind]
    have hplace : t.p + num t.tab (t.p + 4 * (2 * c.prop + 1)) - 8 = t.place c.prop := rfl
    rw [hplace]
    by_cases hend : t.place c.prop > t.e
    · rw [if_pos hend, if_pos hend]
      exact .inr (.inl ⟨⟨hentry, fun h => absurd hend (Nat.not_lt.mpr h)⟩, rfl, rfl⟩)
    · rw [if_neg hend, if_neg hend, load_num (by omega), ok_bind]
      have hle : t.place c.prop ≤ t.e := Nat.not_lt.mp hend
      have hfits : t.Fits c ↔ t.place c.prop + 4 ≤ t.tab.length ∧
          (num t.tab (t.place c.prop) &&& cdfVector ≠ 0 → t.place c.prop + 8 ≤ t.tab.length) ∧
          t.ValueFits (t.place c.prop) st.maxcount := by
        rw [hmax]
        exact ⟨fun h => h.2 hle, fun h => ⟨hentry, fun _ => h⟩⟩
      rw [hfits]
      generalize t.place c.prop = q
      obtain ⟨st₁, hstore₁, hcount₁, hmax₁, hst₁⟩ := store_ok
        (g := fun inp => { inp with id := some (num t.tab (t.p + 4 * (2 * c.prop))) }) hst hi hlt
        (fun inp => by simp [PropertyInfo.filled])
      rw [hstore₁, ok_bind]
      by_cases htype : q + 4 ≤ t.tab.length
      · have hload : load t.tab (q + 4 * 0) 4 = .ok (num t.tab q) := load_num htype
        rw [hload, ok_bind]
        obtain ⟨st₂, hstore₂, hcount₂, hmax₂, hst₂⟩ := store_ok
          (g := fun inp => { inp with type := some (num t.tab q) }) (j := base + c.prop) hst₁ (by omega) (by omega)
          (fun inp => by simp [PropertyInfo.filled])
        rw [hstore₂, ok_bind]
        have hvalue : (num t.tab q &&& cdfVector ≠ 0 → q + 8 ≤ t.tab.length) →
            (if num t.tab q &&& cdfVector ≠ 0 then do
              let nelements ← load t.tab (q + 4 * 1) 4
              propertyValue t.tab t.e q (num t.tab q) nelements 2 base c.prop st₂
            else propertyValue t.tab t.e q (num t.tab q) 1 1 base c.prop st₂) =
            propertyValue t.tab t.e q (num t.tab q) (t.nelements q) (t.first q) base c.prop st₂ := by
          intro hroom
          unfold PropertyTable.nelements PropertyTable.first
          by_cases hvector : num t.tab q &&& cdfVector ≠ 0
          · rw [if_pos hvector, if_pos hvector, if_pos hvector, load_num (by have h := hroom hvector; omega), ok_bind]
          · rw [if_neg hvector, if_neg hvector, if_neg hvector]
        by_cases hroom : num t.tab q &&& cdfVector ≠ 0 → q + 8 ≤ t.tab.length
        · rw [hvalue hroom]
          have hmax₀ : st₂.maxcount = st.maxcount := hmax₂.trans hmax₁
          have hturned {c' : Cursor} {st' : Infos} {f' : ℕ} (hsec : c'.sec = c.sec) (hle : c.maxcount ≤ c'.maxcount)
              (hstored : Stored st₂ (max (max f (base + c.prop + 1)) (base + c.prop + 1)) c'.maxcount st' f')
              (hf : base + c'.prop ≤ f') (hf' : f' ≤ max f (max (base + c.prop + 1) (base + c'.prop))) :
              Turned c c' base st f st' f' :=
            ⟨hsec, ⟨hstored.filled, by have h := hstored.le; omega, (hstored.count_eq.trans hcount₂).trans hcount₁,
              hstored.maxcount_eq⟩, hle, hf, hf'⟩
          rw [← hmax₀]
          by_cases hstrings : t.HasStrings q
          · rw [if_pos hstrings, ← hmax, ← hmax₀]
            obtain ⟨hv, hrun⟩ | ⟨hv, hpass, hrun⟩ | ⟨hv, hpass, st', hrun, hstored⟩ :=
              propertyValue_strings hst₂ (Nat.le_max_right _ _) hstrings
            · exact .inl ⟨fun h => hv h.2.2, hrun⟩
            · rw [if_neg hpass]
              exact .inr (.inl ⟨⟨htype, hroom, hv⟩, rfl, hrun⟩)
            · rw [if_pos hpass]
              refine .inr (.inr ⟨⟨htype, hroom, hv⟩, _, st', _, rfl, hrun, hturned rfl ?_ hstored ?_ ?_⟩)
              · dsimp only
                split <;> omega
              · rw [← Nat.add_assoc]
                exact Nat.le_max_right _ _
              · dsimp only
                omega
          · rw [if_neg hstrings]
            obtain ⟨hv, hrun⟩ | ⟨hv, st', hrun, hstored⟩ := propertyValue_plain hst₂ (Nat.le_max_right _ _) hstrings
            · exact .inl ⟨fun h => hv h.2.2, hrun⟩
            · rw [hmax₀, hmax] at hstored
              refine .inr (.inr ⟨⟨htype, hroom, hv⟩, _, st', _, rfl, hrun, hturned rfl (Nat.le_refl _) hstored ?_ ?_⟩)
              · dsimp only
                omega
              · dsimp only
                omega
        · rw [Classical.not_imp] at hroom
          rw [if_pos hroom.1, load_fault (by have h := hroom.2; omega)]
          exact .inl ⟨fun h => hroom.2 (h.2.1 hroom.1), rfl⟩
      · have hload : load t.tab (q + 4 * 0) 4 = .error .fault := load_fault htype
        rw [hload]
        exact .inl ⟨fun h => htype h.1, rfl⟩
  · refine .inl ⟨fun h => hentry h.1, ?_⟩
    rw [load_fault (by omega)]
    rfl

end Property

/-! ## The walk -/

/-- The entries up to a cursor are filled, in an array of its size. -/
structure PropertyTable.At (t : PropertyTable) (c : Cursor) (st : Infos) (f : ℕ) : Prop where
  filled : st.Filled f
  maxcount_eq : st.maxcount = c.maxcount
  count_eq : st.count = (c.sec + 1) * t.props
  le : c.sec * t.props + c.prop ≤ f
  room : st.count ≤ st.maxcount
  sec_lt : c.sec < t.count

/-- The walk has come to its end: the last property of the last section. -/
def PropertyTable.Last (t : PropertyTable) (c : Cursor) : Prop := ¬ c.prop < t.props ∧ c.sec + 1 = t.count

/-- The place of a cursor in the array. -/
def PropertyTable.index (t : PropertyTable) (c : Cursor) : ℕ := c.sec * t.props + c.prop

/-- The stream has these properties: there is a declaration of the section, and its header is accepted. -/
structure PropertyTable.Of (t : PropertyTable) (sst : Stream) (h : Header) : Prop where
  tab_eq : sst.tab.getD [] = t.tab
  declared : cdfSectionDeclarationOffset + 20 ≤ t.tab.length
  offs_le : ¬ num t.tab (cdfSectionDeclarationOffset + 16) > (2 ^ 32 - 1) / 4
  header : cdfCheckStreamOffset sst h (num t.tab (cdfSectionDeclarationOffset + 16)) 8 = true
  header_fits : num t.tab (cdfSectionDeclarationOffset + 16) + 8 ≤ t.tab.length
  len_le : ¬ num t.tab (num t.tab (cdfSectionDeclarationOffset + 16)) > cdfShlenLimit
  props_eq : num t.tab (num t.tab (cdfSectionDeclarationOffset + 16) + 4) = t.props
  props_le : ¬ t.props > cdfPropLimit
  e_eq : num t.tab (cdfSectionDeclarationOffset + 16) + num t.tab (num t.tab (cdfSectionDeclarationOffset + 16)) = t.e
  end_ok : cdfCheckStreamOffset sst h t.e 0 = true
  p_eq : num t.tab (cdfSectionDeclarationOffset + 16) + 8 = t.p

section Walk

variable {t : PropertyTable} {sst : Stream} {h : Header} {c : Cursor} {st : Infos} {f F fuel : ℕ}

/-- The loops from a cursor on. -/
def resume (t : PropertyTable) (sst : Stream) (h : Header) (F fuel : ℕ) (c : Cursor) (st : Infos) : Except Bad Infos := do
  let st ← propertyLoop t.tab t.e t.p t.props (c.sec * t.props) fuel c.prop st
  sectionLoop F sst h (t.count - (c.sec + 1)) (c.sec + 1) st

/-- A section is read with its own part of the array. -/
theorem cdfReadPropertyInfo_eq (hof : t.Of sst h) :
    cdfReadPropertyInfo F sst h (num t.tab (cdfSectionDeclarationOffset + 16)) st =
      if st.maxcount ≠ 0 ∧ st.maxcount > cdfPropLimit then .error .failed
      else propertyLoop t.tab t.e t.p t.props st.count F 0 (st.grow t.props) := by
  have hroom := hof.header_fits
  have hheader : ¬ cdfCheckStreamOffset sst h (num t.tab (cdfSectionDeclarationOffset + 16)) 8 = false := by
    rw [hof.header]
    exact Bool.noConfusion
  have hend : ¬ cdfCheckStreamOffset sst h t.e 0 = false := by
    rw [hof.end_ok]
    exact Bool.noConfusion
  unfold cdfReadPropertyInfo
  dsimp only
  rw [hof.tab_eq, if_neg hof.offs_le, if_neg hheader, load_num (by omega), ok_bind, if_neg hof.len_le,
    load_num (by omega), ok_bind, hof.props_eq, if_neg hof.props_le, hof.e_eq, if_neg hend, hof.p_eq]

theorem sectionLoop_succ (hof : t.Of sst h) (n i : ℕ) : sectionLoop F sst h (n + 1) i st =
    if i ≥ cdfLoopLimit then .error .failed
    else if st.maxcount ≠ 0 ∧ st.maxcount > cdfPropLimit then .error .failed
    else propertyLoop t.tab t.e t.p t.props st.count F 0 (st.grow t.props) >>= sectionLoop F sst h n (i + 1) := by
  rw [sectionLoop, hof.tab_eq]
  by_cases hi : i ≥ cdfLoopLimit
  · rw [if_pos hi, if_pos hi]
  · rw [if_neg hi, if_neg hi, load_num (by have hle := hof.declared; omega), ok_bind, cdfReadPropertyInfo_eq hof]
    by_cases hmax : st.maxcount ≠ 0 ∧ st.maxcount > cdfPropLimit
    · rw [if_pos hmax, if_pos hmax]
      rfl
    · rw [if_neg hmax, if_neg hmax]

/-- What a cursor leads to: a fault, a failure, the end, or the next cursor. -/
inductive Step (t : PropertyTable) (sst : Stream) (h : Header) (F fuel : ℕ) (c : Cursor) (f : ℕ) (r : Except Bad Infos) : Prop
  | fault : c.prop < t.props → ¬ t.Fits c → r = .error .fault → Step t sst h F fuel c f r
  | failed : (c.prop < t.props → t.Fits c) → t.next c = none → ¬ t.Last c → r = .error .failed → Step t sst h F fuel c f r
  | last (st : Infos) : t.Last c → t.next c = none → r = .ok st → t.At c st f → Step t sst h F fuel c f r
  | next (c' : Cursor) (st' : Infos) (f' fuel' : ℕ) : (c.prop < t.props → t.Fits c) → t.next c = some c' → t.At c' st' f' →
      f ≤ f' → f' ≤ max f (max ((c.sec + 1) * t.props) (t.index c')) →
      (c'.sec = c.sec ∧ fuel' = fuel ∨ c'.sec = c.sec + 1 ∧ fuel' = F) → r = resume t sst h F fuel' c' st' →
      Step t sst h F fuel c f r

theorem resume_step (hof : t.Of sst h) (hat : t.At c st f) : Step t sst h F fuel c f (resume t sst h F (fuel + 1) c st) := by
  have hcount := hat.count_eq
  have hroom := hat.room
  have hmaxcount := hat.maxcount_eq
  rw [Nat.succ_mul] at hcount
  unfold resume
  rw [propertyLoop]
  by_cases hprop : c.prop < t.props
  · rw [if_neg (not_not.mpr hprop)]
    obtain ⟨hfit, hrun⟩ | ⟨hfit, hnext, hrun⟩ | ⟨hfit, c', st', f', hnext, hrun, hturned⟩ :=
      property_cases hprop hmaxcount hat.filled hat.le (by omega)
    · rw [hrun]
      exact .fault hprop hfit rfl
    · rw [hrun]
      exact .failed (fun _ => hfit) hnext (fun h => h.1 hprop) rfl
    · rw [hrun, ok_bind]
      have hstored := hturned.stored
      have hsec := hturned.sec_eq
      have hle := hturned.le
      have hmax := hturned.le_max
      have hsize := hstored.maxcount_eq
      refine .next c' st' f' fuel (fun _ => hfit) hnext ⟨hstored.filled, hsize, ?_, ?_, ?_, ?_⟩ hstored.le ?_
        (.inl ⟨hsec, rfl⟩) ?_
      · rw [hstored.count_eq, hsec]
        exact hat.count_eq
      · rwa [hsec]
      · rw [hstored.count_eq]
        refine Nat.le_trans hroom ?_
        have hmono := hturned.maxcount_le
        omega
      · rw [hsec]
        exact hat.sec_lt
      · rw [PropertyTable.index, hsec, Nat.succ_mul]
        omega
      · rw [resume, hsec]
  · rw [if_pos hprop, ok_bind]
    by_cases hlast : c.sec + 1 = t.count
    · rw [hlast, Nat.sub_self, sectionLoop]
      refine .last st ⟨hprop, hlast⟩ ?_ rfl hat
      rw [PropertyTable.next, if_neg hprop, if_neg (by omega)]
    · have hlt := hat.sec_lt
      obtain ⟨n, hn⟩ := Nat.exists_eq_add_one_of_ne_zero (show t.count - (c.sec + 1) ≠ 0 by omega)
      rw [hn, sectionLoop_succ hof]
      have hlimit : 0 ≤ cdfPropLimit := Nat.zero_le _
      by_cases hallowed : c.sec + 1 < cdfLoopLimit ∧ c.maxcount ≤ cdfPropLimit
      · rw [if_neg (by omega), if_neg (by omega)]
        obtain ⟨hgrown, hgrownMax, hgrownCount⟩ := grow_eq hat.filled t.props
        refine .next ⟨c.sec + 1, 0, c.maxcount + t.props⟩ (st.grow t.props) f F (fun h => absurd h hprop) ?_
          ⟨hgrown, by rw [hgrownMax, hmaxcount], ?_, ?_, ?_, by dsimp only; omega⟩ (Nat.le_refl _) (Nat.le_max_left _ _)
          (.inr ⟨rfl, rfl⟩) ?_
        · rw [PropertyTable.next, if_neg hprop, if_pos ⟨by omega, hallowed⟩]
        · rw [hgrownCount, hat.count_eq]
          exact (Nat.succ_mul _ _).symm
        · have hle := hat.le
          dsimp only
          rw [Nat.succ_mul]
          omega
        · omega
        · rw [resume, hat.count_eq]
          dsimp only
          rw [show t.count - (c.sec + 1 + 1) = n by omega]
      · refine .failed (fun h => absurd h hprop) ?_ (fun h => hlast h.2) ?_
        · rw [PropertyTable.next, if_neg hprop, if_neg fun h => hallowed h.2]
        · by_cases hsec : c.sec + 1 ≥ cdfLoopLimit
          · rw [if_pos hsec]
          · rw [if_neg hsec, if_pos (by omega)]

/-- A run that ends was at a cursor that did not fit, or it has come to the last one. -/
theorem resume_sound {c : Cursor} {st : Infos} {f fuel : ℕ} (hof : t.Of sst h) (hat : t.At c st f) :
    (resume t sst h F fuel c st = .error .fault → ∃ l c', Linked t.next c l c' ∧ c'.prop < t.props ∧ ¬ t.Fits c') ∧
      ∀ r, resume t sst h F fuel c st = .ok r → ∃ l c' f', Linked t.next c l c' ∧ t.Last c' ∧ t.At c' r f' ∧
        ((∀ y ∈ l ++ [c'], t.index y ≤ t.count * t.props) → f ≤ t.count * t.props → f' ≤ t.count * t.props) := by
  obtain rfl | hpos := Nat.eq_zero_or_pos fuel
  · exact ⟨nofun, nofun⟩
  · obtain ⟨n, hn⟩ := Nat.exists_eq_add_one_of_ne_zero (Nat.ne_of_gt hpos)
    rw [hn]
    have hlt := hat.sec_lt
    cases @resume_step t sst h c st f F n hof hat with
    | fault hprop hfit hrun =>
      rw [hrun]
      exact ⟨fun _ => ⟨[], c, .nil, hprop, hfit⟩, nofun⟩
    | failed _ _ _ hrun =>
      rw [hrun]
      exact ⟨nofun, nofun⟩
    | last st' hlast _ hrun hat' =>
      rw [hrun]
      refine ⟨nofun, fun r hr => ?_⟩
      cases hr
      exact ⟨[], c, f, .nil, hlast, hat', fun _ h => h⟩
    | next c' st' f' fuel' _ hnext hat' hle hmax hsec hrun =>
      have hlt' := hat'.sec_lt
      obtain ⟨hfault, hok⟩ := @resume_sound c' st' f' fuel' hof hat'
      rw [hrun]
      refine ⟨fun h => ?_, fun r hr => ?_⟩
      · obtain ⟨l, c'', hlinked, hprop, hfit⟩ := hfault h
        exact ⟨c :: l, c'', .cons hnext hlinked, hprop, hfit⟩
      · obtain ⟨l, c'', f'', hlinked, hlast, hat'', hf⟩ := hok r hr
        refine ⟨c :: l, c'', f'', .cons hnext hlinked, hlast, hat'', fun hindex hf₀ => ?_⟩
        rw [List.cons_append, List.forall_mem_cons] at hindex
        have hsmall : (c.sec + 1) * t.props ≤ t.count * t.props := Nat.mul_le_mul_right _ hlt
        have hc' : t.index c' ≤ t.count * t.props := by
          refine hindex.2 c' ?_
          cases hlinked with
          | nil => exact List.mem_cons_self
          | cons _ _ => exact List.mem_cons_self
        exact hf hindex.2 (by omega)
termination_by (t.count - c.sec, fuel)
decreasing_by
  obtain ⟨hsame, hfuel⟩ | ⟨hsame, -⟩ := hsec
  · rw [hsame, hfuel, hn]
    exact .right _ (Nat.lt_succ_self _)
  · exact .left _ _ (by omega)

/-- A cursor of the walk is come to, unless there is a fault before. -/
theorem resume_complete {l : List Cursor} {c' : Cursor} (hof : t.Of sst h) (hat : t.At c st f)
    (hlinked : Linked t.next c l c') (hfuel : l.length < fuel) (hF : l.length < F) :
    resume t sst h F fuel c st = .error .fault ∨ ∃ st' f' fuel', 0 < fuel' ∧
      resume t sst h F fuel c st = resume t sst h F fuel' c' st' ∧ t.At c' st' f' ∧ f ≤ f' ∧
      ∀ y ∈ l ++ [c'], t.index y ≤ f' := by
  induction hlinked generalizing st f fuel with
  | nil =>
    refine .inr ⟨st, f, fuel, by omega, rfl, hat, Nat.le_refl _, fun y hy => ?_⟩
    obtain rfl := List.mem_singleton.mp hy
    exact hat.le
  | @cons c c₁ c' l hnext _ ih =>
    obtain ⟨fuel, rfl⟩ := Nat.exists_eq_add_one_of_ne_zero (Nat.ne_zero_of_lt hfuel)
    rw [List.length_cons] at hfuel hF
    cases @resume_step t sst h c st f F fuel hof hat with
    | fault _ _ hrun => exact .inl hrun
    | failed _ hnone _ _ =>
      rw [hnext] at hnone
      cases hnone
    | last _ _ hnone _ _ =>
      rw [hnext] at hnone
      cases hnone
    | next c₂ st' f' fuel' _ hnext' hat' hle _ hsec hrun =>
      rw [hnext] at hnext'
      cases hnext'
      rw [hrun]
      have hfuel' : l.length < fuel' := by omega
      obtain hfault | ⟨st'', f'', fuel'', hpos, heq, hat'', hle', hindex⟩ := ih hat' hfuel' (by omega)
      · exact .inl hfault
      · refine .inr ⟨st'', f'', fuel'', hpos, heq, hat'', Nat.le_trans hle hle', ?_⟩
        rw [List.cons_append, List.forall_mem_cons]
        exact ⟨Nat.le_trans hat.le (Nat.le_trans hle hle'), hindex⟩

/-- What is stored is in the array, what is read is in the stream, and the entries that are filled are counted. -/
def Reads (r : Except Bad Infos) : Prop :=
  r ≠ .error .fault ∧ ∀ st, r = .ok st → st.count = st.info.countP PropertyInfo.filled

/-- The properties that the walk comes to lie in the stream, and where it comes to its end no array of strings has reached
behind the last property. -/
def PropertyTable.InStream (t : PropertyTable) : Prop :=
  ∀ l c, Linked t.next ⟨0, 0, t.props⟩ l c →
    (c.prop < t.props → t.Fits c) ∧ (t.Last c → ∀ y ∈ l ++ [c], t.index y ≤ t.count * t.props)

theorem sectionLoop_reads_iff (hof : t.Of sst h) (hcount : 0 < t.count) :
    (∀ F, Reads (sectionLoop F sst h t.count 0 ⟨[], 0, 0⟩)) ↔ t.InStream := by
  obtain ⟨n, hn⟩ := Nat.exists_eq_add_one_of_ne_zero (Nat.ne_zero_of_lt hcount)
  have hempty : Infos.Filled ⟨[], 0, 0⟩ 0 := ⟨Nat.le_refl _, rfl⟩
  obtain ⟨hfilled, hmax, hcount₀⟩ := grow_eq hempty t.props
  have hat : t.At ⟨0, 0, t.props⟩ (Infos.grow ⟨[], 0, 0⟩ t.props) 0 := by
    refine ⟨hfilled, hmax.trans (Nat.zero_add _), ?_, by simp, Nat.le_of_eq (hcount₀.trans hmax.symm), hcount⟩
    rw [hcount₀]
    dsimp only
    omega
  have hstart (F : ℕ) : sectionLoop F sst h t.count 0 ⟨[], 0, 0⟩ =
      resume t sst h F F ⟨0, 0, t.props⟩ (Infos.grow ⟨[], 0, 0⟩ t.props) := by
    rw [hn, sectionLoop_succ hof, if_neg (by decide), if_neg fun h => h.1 rfl, resume]
    dsimp only
    rw [hn, Nat.zero_mul, Nat.zero_add, Nat.add_sub_cancel]
  constructor
  · intro hreads l c hlinked
    obtain ⟨hfault, hok⟩ := hreads (l.length + 1)
    rw [hstart] at hfault hok
    obtain hbad | ⟨st, f, fuel, hpos, heq, hat', -, hindex⟩ := resume_complete hof hat hlinked (Nat.lt_succ_self _)
      (Nat.lt_succ_self _)
    · exact absurd hbad hfault
    · obtain ⟨fuel, rfl⟩ := Nat.exists_eq_add_one_of_ne_zero (Nat.ne_zero_of_lt hpos)
      rw [heq] at hfault hok
      cases @resume_step t sst h c st f (l.length + 1) fuel hof hat' with
      | fault _ _ hrun => exact absurd hrun hfault
      | failed hfit _ hlast _ => exact ⟨hfit, fun h => absurd h hlast⟩
      | last st' hlast _ hrun hat'' =>
        refine ⟨fun h => absurd h hlast.1, fun _ y hy => ?_⟩
        have heqCount := (hok st' hrun).symm.trans hat''.count_eq
        rw [hat''.filled.countP_eq, hlast.2] at heqCount
        rw [← heqCount]
        exact hindex y hy
      | next _ _ _ _ hfit hnext _ _ _ _ _ =>
        refine ⟨hfit, fun hlast => ?_⟩
        rw [PropertyTable.next, if_neg hlast.1, if_neg (by have h := hlast.2; omega)] at hnext
        cases hnext
  · intro hin F
    rw [hstart]
    obtain ⟨hfault, hok⟩ := @resume_sound t sst h F _ _ _ F hof hat
    refine ⟨fun h => ?_, fun st hst => ?_⟩
    · obtain ⟨l, c, hlinked, hprop, hfit⟩ := hfault h
      exact hfit ((hin l c hlinked).1 hprop)
    · obtain ⟨l, c, f, hlinked, hlast, hat', hf⟩ := hok st hst
      have hle := hf ((hin l c hlinked).2 hlast) (Nat.zero_le _)
      have hge := hat'.le
      have hprop := Nat.not_lt.mp hlast.1
      rw [hat'.count_eq, hat'.filled.countP_eq, hlast.2]
      refine Nat.le_antisymm ?_ hle
      rw [← hlast.2, Nat.succ_mul]
      omega

end Walk

/-! ## Summary information -/

section Summary

variable {sst : Stream} {h : Header} {F : ℕ}

/-- The properties that are read of a stream, all of them with the declaration of the first section. -/
def propertyTable (sst : Stream) : PropertyTable :=
  let tab := sst.tab.getD []
  let offs := num tab (cdfSectionDeclarationOffset + 16)
  ⟨tab, offs + num tab offs, offs + 8, num tab (offs + 4), num tab 24⟩

/-- The header of the section lies in the stream if it is accepted, and then so do the properties. -/
def SectionFits (sst : Stream) (h : Header) : Prop :=
  let tab := sst.tab.getD []
  let offs := num tab (cdfSectionDeclarationOffset + 16)
  offs ≤ (2 ^ 32 - 1) / 4 → cdfCheckStreamOffset sst h offs 8 → offs + 4 ≤ tab.length ∧
    (num tab offs ≤ cdfShlenLimit → offs + 8 ≤ tab.length ∧
      (num tab (offs + 4) ≤ cdfPropLimit → cdfCheckStreamOffset sst h (offs + num tab offs) 0 →
        (propertyTable sst).InStream))

/-- The header of the summary information lies in the stream if it is accepted, and so does the declaration of the section if
there is one, and then the section. -/
def SummaryFits (sst : Stream) (h : Header) : Prop :=
  let tab := sst.tab.getD []
  cdfCheckStreamOffset sst h cdfSectionDeclarationOffset 20 → 28 ≤ tab.length ∧
    (0 < num tab 24 → cdfSectionDeclarationOffset + 20 ≤ tab.length ∧ SectionFits sst h)

theorem load_bind_fault {α : Type} {tab : List UInt8} {off len : ℕ} {g : ℕ → Except Bad α} (hg : ∀ n, g n = .error .fault) :
    (load tab off len >>= g) = .error .fault := by
  unfold load
  split
  · exact hg _
  · rfl

/-- A section that is refused. -/
theorem reads_failed : Reads (.error .failed) := ⟨nofun, nofun⟩

theorem not_reads_fault : ¬ Reads (.error .fault) := fun h => h.1 rfl

/-- The first section, and the others with it. -/
theorem sections_iff (hcount : 0 < num (sst.tab.getD []) 24)
    (hroom : cdfSectionDeclarationOffset + 20 ≤ (sst.tab.getD []).length) :
    (∀ F, Reads (sectionLoop F sst h (num (sst.tab.getD []) 24) 0 ⟨[], 0, 0⟩)) ↔ SectionFits sst h := by
  unfold SectionFits
  dsimp only
  obtain ⟨n, hn⟩ := Nat.exists_eq_add_one_of_ne_zero (Nat.ne_zero_of_lt hcount)
  generalize hoffs : num (sst.tab.getD []) (cdfSectionDeclarationOffset + 16) = offs
  have hfirst {e : Bad} {F : ℕ} (hinfo : cdfReadPropertyInfo F sst h offs ⟨[], 0, 0⟩ = .error e) :
      sectionLoop F sst h (num (sst.tab.getD []) 24) 0 ⟨[], 0, 0⟩ = .error e := by
    rw [hn, sectionLoop, if_neg (by decide), load_num (by omega), ok_bind, hoffs, hinfo]
    rfl
  have hfailed (hinfo : ∀ F, cdfReadPropertyInfo F sst h offs ⟨[], 0, 0⟩ = .error .failed) :
      ∀ F, Reads (sectionLoop F sst h (num (sst.tab.getD []) 24) 0 ⟨[], 0, 0⟩) := by
    intro F
    rw [hfirst (hinfo F)]
    exact reads_failed
  have hfault (hinfo : ∀ F, cdfReadPropertyInfo F sst h offs ⟨[], 0, 0⟩ = .error .fault) :
      ¬ ∀ F, Reads (sectionLoop F sst h (num (sst.tab.getD []) 24) 0 ⟨[], 0, 0⟩) := by
    intro hreads
    have hread := hreads 0
    rw [hfirst (hinfo 0)] at hread
    exact not_reads_fault hread
  by_cases hle : offs ≤ (2 ^ 32 - 1) / 4
  swap
  · exact iff_of_true (hfailed fun F => if_pos (Nat.not_le.mp hle)) fun h => absurd h hle
  by_cases hheader : cdfCheckStreamOffset sst h offs 8 = true
  swap
  · exact iff_of_true (hfailed fun F => (if_neg (Nat.not_lt.mpr hle)).trans (if_pos (Bool.eq_false_iff.mpr hheader)))
      fun _ h => absurd h hheader
  have hinfo (F : ℕ) : cdfReadPropertyInfo F sst h offs ⟨[], 0, 0⟩ = _ :=
    (if_neg (Nat.not_lt.mpr hle)).trans (if_neg (by rw [hheader]; exact Bool.noConfusion))
  by_cases hlen : offs + 4 ≤ (sst.tab.getD []).length
  swap
  · refine iff_of_false (hfault fun F => ?_) fun h => hlen (h hle hheader).1
    rw [hinfo, load_fault hlen]
    rfl
  by_cases hlimit : num (sst.tab.getD []) offs ≤ cdfShlenLimit
  swap
  · refine iff_of_true (hfailed fun F => ?_) fun _ _ => ⟨hlen, fun h => absurd h hlimit⟩
    rw [hinfo, load_num hlen, ok_bind, if_pos (Nat.not_le.mp hlimit)]
  by_cases hprops : offs + 8 ≤ (sst.tab.getD []).length
  swap
  · refine iff_of_false (hfault fun F => ?_) fun h => hprops ((h hle hheader).2 hlimit).1
    rw [hinfo, load_num hlen, ok_bind, if_neg (Nat.not_lt.mpr hlimit), load_fault (by omega)]
    rfl
  by_cases hpropLimit : num (sst.tab.getD []) (offs + 4) ≤ cdfPropLimit
  swap
  · refine iff_of_true (hfailed fun F => ?_) fun _ _ => ⟨hlen, fun _ => ⟨hprops, fun h => absurd h hpropLimit⟩⟩
    rw [hinfo, load_num hlen, ok_bind, if_neg (Nat.not_lt.mpr hlimit), load_num (by omega), ok_bind,
      if_pos (Nat.not_le.mp hpropLimit)]
  by_cases hend : cdfCheckStreamOffset sst h (offs + num (sst.tab.getD []) offs) 0 = true
  swap
  · refine iff_of_true (hfailed fun F => ?_) fun _ _ => ⟨hlen, fun _ => ⟨hprops, fun _ h => absurd h hend⟩⟩
    rw [hinfo, load_num hlen, ok_bind, if_neg (Nat.not_lt.mpr hlimit), load_num (by omega), ok_bind,
      if_neg (Nat.not_lt.mpr hpropLimit), if_neg fun h => h.1 rfl, if_pos (Bool.eq_false_iff.mpr hend)]
  have hof : (propertyTable sst).Of sst h := by
    subst hoffs
    exact ⟨rfl, hroom, Nat.not_lt.mpr hle, hheader, hprops, Nat.not_lt.mpr hlimit, rfl, Nat.not_lt.mpr hpropLimit, rfl, hend,
      rfl⟩
  refine (sectionLoop_reads_iff hof hcount).trans ⟨fun hin _ _ => ⟨hlen, fun _ => ⟨hprops, fun _ _ => hin⟩⟩, fun hfits => ?_⟩
  exact ((hfits hle hheader).2 hlimit).2 hpropLimit hend

/-- The sections of the summary information, the fields of whose header have been read. -/
def ReadsSummary (r : Except Bad (SummaryInfo × Infos)) : Prop :=
  r ≠ .error .fault ∧ ∀ si st, r = .ok (si, st) → st.count = st.info.countP PropertyInfo.filled

theorem readsSummary_iff {r : Except Bad Infos} {si : SummaryInfo} :
    ReadsSummary (r >>= fun st => .ok (si, st)) ↔ Reads r := by
  cases r with
  | ok st => exact ⟨fun h => ⟨nofun, fun st' hst => by cases hst; exact h.2 si st rfl⟩,
      fun h => ⟨nofun, fun si' st' hst => by cases hst; exact h.2 st rfl⟩⟩
  | error e => exact ⟨fun h => ⟨fun he => h.1 (by cases he; rfl), nofun⟩, fun h => ⟨fun he => h.1 (by cases he; rfl), nofun⟩⟩

end Summary

/-! ## A section behind the stream -/

deriving instance DecidableEq for Stream

/-- A stream that the readers of chains return. -/
def Returned (h : Header) (sst : Stream) : Prop :=
  (∃ info sat sid len, cdfReadLongSectorChain info h sat sid len = .ok sst) ∨
    ∃ ssat root sid len, cdfReadShortSectorChain h ssat root sid len = .ok sst

/-- Summary information of 64 bytes, with a section at 60. -/
def shortSummary : List UInt8 :=
  List.replicate 24 0 ++ [1, 0, 0, 0] ++ List.replicate 16 0 ++ [60, 0, 0, 0] ++ List.replicate 16 0

end CodingExercises.File.Cdf
