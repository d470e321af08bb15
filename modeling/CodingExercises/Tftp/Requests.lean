import CodingExercises.Tftp.GetPut

/-!
# TFTP: requests of any form

What `recv_xRQ` makes of a datagram: the bytes behind the opcode (`payload`), and behind them in `recvbuff` what was there before
(`stale`). The loop that looks for the end of the mode looks at one stale byte (`parseRq_one`).
-/

namespace CodingExercises.Tftp

/-- Two strings, each with its null, begin `s`. -/
def TwoStrings (s f m : List Byte) : Prop :=
  ∃ rest, s = f ++ 0 :: (m ++ 0 :: rest) ∧ (0 : Byte) ∉ f ∧ (0 : Byte) ∉ m

variable {s stale f f' m m' r : List Byte}

/-! ## The two loops -/

theorem scanNull_missing (missing : Exit) (h : (0 : Byte) ∉ f) (rest : List Byte) :
    scanNull missing (f ++ rest) f.length = .error missing := by
  induction f with
  | nil => cases rest <;> rfl
  | cons c f ih =>
    simp only [List.mem_cons, not_or] at h
    have hc : c ≠ 0 := fun he => h.1 he.symm
    rw [List.cons_append, List.length_cons, scanNull, if_neg hc, ih h.2]
    rfl

/-- One byte behind the string is looked at. -/
theorem scanNull_behind (missing : Exit) (h : (0 : Byte) ∉ r) :
    scanNull missing (r ++ stale) (r.length + 1) =
      match stale with
      | [] => .error .overrun
      | c :: _ => if c = 0 then .ok r.length else .error missing := by
  induction r with
  | nil =>
    cases stale with
    | nil => rfl
    | cons c stale => by_cases hc : c = 0 <;> simp [scanNull, hc, Except.map]
  | cons b r ih =>
    simp only [List.mem_cons, not_or] at h
    have hb : b ≠ 0 := fun he => h.1 he.symm
    rw [List.cons_append, List.length_cons, scanNull, if_neg hb, ih h.2]
    cases stale with
    | nil => rfl
    | cons c stale => by_cases hc : c = 0 <;> simp [hc, Except.map]

theorem strcpy_eq (h : (0 : Byte) ∉ f) (rest : List Byte) :
    strcpy (f ++ 0 :: rest) = if f.length < maxFilename then .ok f else .error .overrun := by
  rw [strcpy, cstr_append f rest h]

theorem strlccpy_eq (h : (0 : Byte) ∉ m) (rest : List Byte) :
    strlccpy (m ++ 0 :: rest) = if m.length < maxFilename then .ok (m.map tolower) else .error .overrun := by
  rw [strlccpy, cstr_append m rest h]

/-! ## The strings of a request -/

/-- There is no null at all. -/
theorem parseRq_none (h : (0 : Byte) ∉ s) (stale : List Byte) :
    parseRq (s ++ stale) s.length = .error .rqFilename := by
  rw [parseRq, scanNull_missing .rqFilename h]
  rfl

theorem parseRq_first (hf : (0 : Byte) ∉ f) (r stale : List Byte) :
    parseRq (f ++ 0 :: r ++ stale) (f ++ 0 :: r).length =
      if f.length < maxFilename then do
        let _ ← scanNull .rqMode (r ++ stale) (r.length + 1)
        let mode ← strlccpy (r ++ stale)
        return (f, mode)
      else .error .overrun := by
  have hlen : (f ++ 0 :: r).length = f.length + (r.length + 1) := by rw [List.length_append, List.length_cons]
  have hassoc : f ++ 0 :: r ++ stale = f ++ 0 :: (r ++ stale) := by simp
  have hscan := scanNull_append .rqFilename f (r ++ stale) hf (n := f.length + (r.length + 1)) (by omega)
  have hdrop : (f ++ 0 :: (r ++ stale)).drop (f.length + 1) = r ++ stale := by simp [List.drop_append]
  rw [parseRq, hlen, hassoc, hscan, strcpy_eq hf]
  by_cases hfits : f.length < maxFilename
  · rw [if_pos hfits, if_pos hfits]
    dsimp only [bind, Except.bind]
    rw [hdrop, Nat.add_sub_cancel_left]
  · rw [if_neg hfits, if_neg hfits]
    rfl

/-- There are two. -/
theorem parseRq_two (h : TwoStrings s f m) (stale : List Byte) :
    parseRq (s ++ stale) s.length =
      if f.length < maxFilename ∧ m.length < maxFilename then .ok (f, m.map tolower) else .error .overrun := by
  obtain ⟨rest, rfl, hf, hm⟩ := h
  rw [parseRq_first hf]
  have hassoc : m ++ 0 :: rest ++ stale = m ++ 0 :: (rest ++ stale) := by simp
  have hscan := scanNull_append .rqMode m (rest ++ stale) hm (n := (m ++ 0 :: rest).length + 1)
    (by rw [List.length_append, List.length_cons]; omega)
  rw [hassoc, hscan, strlccpy_eq hm]
  by_cases hfits : f.length < maxFilename
  · by_cases hmode : m.length < maxFilename
    · rw [if_pos hfits, if_pos hmode, if_pos ⟨hfits, hmode⟩]
      rfl
    · rw [if_pos hfits, if_neg hmode, if_neg fun h => hmode h.2]
      rfl
  · rw [if_neg hfits, if_neg fun h => hfits h.1]

/-- There is one: whether the mode ends, a stale byte says. -/
theorem parseRq_one (hf : (0 : Byte) ∉ f) (hr : (0 : Byte) ∉ r) (stale : List Byte) :
    parseRq (f ++ 0 :: r ++ stale) (f ++ 0 :: r).length =
      if f.length < maxFilename then
        match stale with
        | [] => .error .overrun
        | c :: _ =>
          if c = 0 then if r.length < maxFilename then .ok (f, r.map tolower) else .error .overrun
          else .error .rqMode
      else .error .overrun := by
  rw [parseRq_first hf, scanNull_behind .rqMode hr]
  cases stale with
  | nil => rfl
  | cons c stale =>
    by_cases hc : c = 0
    · subst hc
      rw [strlccpy_eq hr]
      by_cases hmode : r.length < maxFilename <;> simp [hmode, bind, Except.bind, pure, Except.pure]
    · simp [hc, bind, Except.bind]

/-- There are none, one, or two. -/
theorem strings_cases (s : List Byte) : (0 : Byte) ∉ s ∨
    (∃ f r, s = f ++ 0 :: r ∧ (0 : Byte) ∉ f ∧ (0 : Byte) ∉ r) ∨ ∃ f m, TwoStrings s f m := by
  by_cases h : (0 : Byte) ∈ s
  · obtain ⟨f, r, rfl, hf⟩ := List.eq_append_cons_of_mem h
    by_cases hr : (0 : Byte) ∈ r
    · obtain ⟨m, rest, rfl, hm⟩ := List.eq_append_cons_of_mem hr
      exact .inr (.inr ⟨f, m, rest, rfl, hf, hm⟩)
    · exact .inr (.inl ⟨f, r, rfl, hf, hr⟩)
  · exact .inl h

theorem TwoStrings.mem (h : TwoStrings s f m) : (0 : Byte) ∈ s := by
  obtain ⟨rest, rfl, -, -⟩ := h
  simp

/-- The first null ends the file name. -/
theorem TwoStrings.split (h : TwoStrings (f ++ 0 :: r) f' m) (hf : (0 : Byte) ∉ f) :
    f' = f ∧ ∃ rest, r = m ++ 0 :: rest := by
  obtain ⟨rest, heq, hf', -⟩ := h
  have hname : f' = f := by rw [← cstr_append f' (m ++ 0 :: rest) hf', ← heq, cstr_append f r hf]
  subst hname
  exact ⟨rfl, rest, by simpa using heq⟩

theorem not_twoStrings (hf : (0 : Byte) ∉ f) (hr : (0 : Byte) ∉ r) : ¬TwoStrings (f ++ 0 :: r) f' m := by
  intro h
  obtain ⟨-, rest, rfl⟩ := h.split hf
  simp at hr

theorem TwoStrings.unique (h : TwoStrings s f m) (h' : TwoStrings s f' m') : f' = f ∧ m' = m := by
  obtain ⟨rest, rfl, hf, hm⟩ := h
  obtain ⟨hname, rest', hmode⟩ := h'.split hf
  obtain ⟨-, -, -, hm'⟩ := h'
  exact ⟨hname, by rw [← cstr_append m rest hm, hmode, cstr_append m' rest' hm']⟩

/-! ## A datagram -/

/-- The bytes received behind the opcode. -/
def payload (buff : List Byte) : List Byte := (buff.take maxBuff).drop 2

/-- What `recv_xRQ` takes for the file name and the mode, when the datagram has been received into `recvbuff`. -/
def requestOf (buff : List Byte) (g : Globals) : Except Exit (List Byte × List Byte) :=
  parseRq ((recvfrom buff g).recvbuff.drop 2) ((buff.take maxBuff).length - 2)

/-- `recv_xRQ` goes on exactly with a request of two strings, with these, and whatever was in `recvbuff`. -/
structure RqRight (buff : List Byte) (g : Globals) : Prop where
  defined : requestOf buff g ≠ .error .overrun
  goesOn : (∃ r, requestOf buff g = .ok r) ↔ ∃ f m, TwoStrings (payload buff) f m
  names : ∀ f mode, requestOf buff g = .ok (f, mode) → ∃ m, TwoStrings (payload buff) f m ∧ mode = m.map tolower
  alone : ∀ g', g'.recvbuff.length = maxBuff → requestOf buff g' = requestOf buff g

theorem requestOf_eq {buff : List Byte} (h : 2 ≤ (buff.take maxBuff).length) (g : Globals) :
    requestOf buff g =
      parseRq (payload buff ++ g.recvbuff.drop (buff.take maxBuff).length) (payload buff).length := by
  rw [requestOf, recvfrom, payload, List.drop_append_of_le_length h, List.length_drop]

/-- The mode would end with a stale null, and not with another byte. -/
theorem not_rqRight_one {buff : List Byte} {g : Globals} (h : 2 ≤ (buff.take maxBuff).length)
    (hbuff : g.recvbuff.length = maxBuff) (hone : payload buff = f ++ 0 :: r) (hf : (0 : Byte) ∉ f) (hr : (0 : Byte) ∉ r) :
    ¬RqRight buff g := by
  intro hright
  have hrq (g' : Globals) : requestOf buff g' = _ := (requestOf_eq h g').trans (hone ▸ parseRq_one hf hr _)
  by_cases hfits : f.length < maxFilename
  · simp only [if_pos hfits] at hrq
    have hg := hrq g
    cases hstale : g.recvbuff.drop (buff.take maxBuff).length with
    | nil =>
      rw [hstale] at hg
      exact hright.defined hg
    | cons c stale =>
      have hlt : (buff.take maxBuff).length < maxBuff := by
        have := congrArg List.length hstale
        rw [List.length_drop, List.length_cons, hbuff] at this
        omega
      obtain ⟨k, hk⟩ : ∃ k, maxBuff - (buff.take maxBuff).length = k + 1 := ⟨_, (Nat.sub_add_cancel (by omega)).symm⟩
      have hzero := hrq { g with recvbuff := List.replicate maxBuff 0 }
      rw [hright.alone _ (List.length_replicate ..), List.drop_replicate, hk, List.replicate_succ] at hzero
      dsimp only at hzero
      rw [if_pos rfl] at hzero
      by_cases hmode : r.length < maxFilename
      · rw [if_pos hmode] at hzero
        obtain ⟨f', m, htwo⟩ := hright.goesOn.mp ⟨_, hzero⟩
        rw [hone] at htwo
        exact not_twoStrings hf hr htwo
      · rw [if_neg hmode] at hzero
        exact hright.defined hzero
  · simp only [if_neg hfits] at hrq
    exact hright.defined (hrq g)

/-- `recv_xRQ` is right about a datagram without a null, and about one with both strings, if they fit. -/
theorem rqRight_iff {buff : List Byte} {g : Globals} (h : 2 ≤ (buff.take maxBuff).length)
    (hbuff : g.recvbuff.length = maxBuff) : RqRight buff g ↔ (0 : Byte) ∉ payload buff ∨
      ∃ f m, TwoStrings (payload buff) f m ∧ f.length < maxFilename ∧ m.length < maxFilename := by
  have heq := requestOf_eq h
  rcases strings_cases (payload buff) with hnone | ⟨f, r, hone, hf, hr⟩ | ⟨f, m, htwo⟩
  · have hrq (g' : Globals) : requestOf buff g' = .error .rqFilename := by rw [heq, parseRq_none hnone]
    refine ⟨fun _ => .inl hnone, fun _ => ⟨?_, ⟨?_, ?_⟩, ?_, ?_⟩⟩
    · rw [hrq]
      exact fun h => by cases h
    · rw [hrq]
      exact fun ⟨r, h⟩ => by cases h
    · exact fun ⟨f, m, h⟩ => absurd h.mem hnone
    · rw [hrq]
      exact fun f mode h => by cases h
    · intro g' _
      rw [hrq, hrq]
  · have hnot : ¬∃ f m, TwoStrings (payload buff) f m := by
      rw [hone]
      exact fun ⟨f', m, h⟩ => not_twoStrings hf hr h
    constructor
    · exact fun hright => absurd hright (not_rqRight_one h hbuff hone hf hr)
    · rintro (hnone | ⟨f', m, htwo, -⟩)
      · exact absurd (by rw [hone]; simp) hnone
      · exact absurd ⟨f', m, htwo⟩ hnot
  · have hrq (g' : Globals) := (heq g').trans (parseRq_two htwo _)
    by_cases hfits : f.length < maxFilename ∧ m.length < maxFilename
    · simp only [if_pos hfits] at hrq
      refine ⟨fun _ => .inr ⟨f, m, htwo, hfits⟩, fun _ => ⟨?_, ⟨?_, ?_⟩, ?_, ?_⟩⟩
      · rw [hrq]
        exact fun h => by cases h
      · exact fun _ => ⟨f, m, htwo⟩
      · exact fun _ => ⟨_, hrq g⟩
      · rw [hrq]
        intro f' mode h
        cases h
        exact ⟨m, htwo, rfl⟩
      · intro g' _
        rw [hrq, hrq]
    · simp only [if_neg hfits] at hrq
      constructor
      · exact fun hright => absurd (hrq g) hright.defined
      · rintro (hnone | ⟨f', m', htwo', hfits'⟩)
        · exact absurd htwo.mem hnone
        · obtain ⟨rfl, rfl⟩ := htwo.unique htwo'
          exact absurd hfits' hfits

/-- `/a` and `octet`, with both nulls. -/
theorem rqRight_iff_octet :
    RqRight (stshort opRrq ++ bytes "/a" ++ [0] ++ bytes "octet" ++ [0]) initvars ↔
      (0 : Byte) ∉ payload (stshort opRrq ++ bytes "/a" ++ [0] ++ bytes "octet" ++ [0]) ∨
        ∃ f m, TwoStrings (payload (stshort opRrq ++ bytes "/a" ++ [0] ++ bytes "octet" ++ [0])) f m ∧
          f.length < maxFilename ∧ m.length < maxFilename :=
  rqRight_iff (by decide) (List.length_replicate ..)

/-- Without the second null: `recv_xRQ` takes the one that lies behind the datagram. -/
theorem not_rqRight_cut : ¬RqRight (stshort opRrq ++ bytes "/a" ++ [0] ++ bytes "octet") initvars := by
  intro h
  obtain ⟨f, m, htwo⟩ := h.goesOn.mp ⟨(bytes "/a", bytes "octet"), by decide⟩
  have hpayload : payload (stshort opRrq ++ bytes "/a" ++ [0] ++ bytes "octet") = bytes "/a" ++ 0 :: bytes "octet" := by
    decide
  rw [hpayload] at htwo
  exact not_twoStrings (by decide) (by decide) htwo

end CodingExercises.Tftp
