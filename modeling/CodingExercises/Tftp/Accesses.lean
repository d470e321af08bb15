import CodingExercises.Tftp.Requests

/-!
# TFTP: the arrays of the handlers

Where the handlers of the state tables read and store, for a datagram of `nbytes` bytes in `recvbuff` (`accesses`), and what
`recv_DATA` hands to `file_write` (`handed`).

- `xrqAccesses_inBounds_iff`: the model of `recv_xRQ` ends with `overrun` exactly when it leaves an array;
- `safe_iff`: when a handler stays within its arrays, and the data within the datagram and `MAXDATA`.
-/

namespace CodingExercises.Tftp

/-- The arrays: those of the process, those of `recv_xRQ`, and that of `recv_RRQ`. -/
inductive Arr
  | recvbuff
  | sendbuff
  | filename
  | dirname
  | mode
  | ackbuff
deriving DecidableEq, Repr

def Arr.size : Arr → Nat
  | .recvbuff | .sendbuff => maxBuff
  | .filename | .dirname | .mode => maxFilename
  | .ackbuff => 2

/-- Some bytes of an array are read or stored. -/
structure Access where
  arr : Arr
  start : Nat
  count : Nat
deriving DecidableEq, Repr

def Access.InBounds (a : Access) : Prop := a.start + a.count ≤ a.arr.size

/-! ## Where the handlers read and store -/

/-- How many bytes the loop of `scanNull` looks at. -/
def scanned : List Byte → Nat → Nat
  | _, 0 => 0
  | [], _ + 1 => 1
  | c :: p, n + 1 => if c = 0 then 1 else scanned p n + 1

/-- `strcpy` or `strlccpy` from `recvbuff + start` into an array. -/
def copyAccesses (arr : Arr) (start : Nat) (src : List Byte) : List Access :=
  [⟨.recvbuff, start, (cstr src).length + 1⟩, ⟨arr, 0, (cstr src).length + 1⟩]

/-- `strcpy(dirname, filename)`, and the null behind its last slash. -/
def dirAccesses (filename : List Byte) : List Access :=
  [⟨.dirname, 0, filename.length + 1⟩, ⟨.dirname, (dirname filename).length, 1⟩]

/-- `recv_xRQ`. -/
def xrqAccesses (opcode : Nat) (ptr : List Byte) (nbytes : Nat) : List Access :=
  ⟨.recvbuff, 2, scanned ptr nbytes⟩ ::
    match scanNull .rqFilename ptr nbytes with
    | .error _ => []
    | .ok i =>
      let saveptr := ptr.drop (i + 1)
      copyAccesses .filename 2 ptr ++ ⟨.recvbuff, i + 3, scanned saveptr (nbytes - i)⟩ ::
        match scanNull .rqMode saveptr (nbytes - i) with
        | .error _ => []
        | .ok _ =>
          copyAccesses .mode (i + 3) saveptr ++
            if opcode = opWrq ∧ (cstr ptr).head? = some 47 then dirAccesses (cstr ptr) else []

/-- The bytes of `recvbuff` that `recv_DATA` gives to `file_write`, from where and how many. -/
def handed (side : Side) (ptr : List Byte) (nbytes : Nat) (g : Globals) : Option (Nat × Nat) :=
  let nbytes := nbytes - 2
  if side = .server ∧ maxData < nbytes then none
  else if (ldshort ptr : Int) = g.nextblknum ∧ 0 < nbytes then some (4, nbytes)
  else none

/-- What a handler has put in `sendbuff`, to be sent. -/
def sent (r : Result (Int × Globals)) : Access :=
  match r with
  | .ok (_, g) | .error (_, g) => ⟨.sendbuff, 0, g.sendbuff.length⟩

/-- The accesses of a handler, called with `recvbuff + 2` and the number of bytes from there on. -/
def accesses (side : Side) (fs : FileSys) (nbytes : Nat) (g : Globals) (f : Handler) : List Access :=
  let ptr := g.recvbuff.drop 2
  sent (callHandler side fs ptr nbytes g f) ::
    match f with
    | .fsmInvalid | .fsmError => []
    | .recvRrq => xrqAccesses opRrq ptr nbytes ++ [⟨.ackbuff, 0, 2⟩]
    | .recvWrq => xrqAccesses opWrq ptr nbytes
    | .recvData => ⟨.recvbuff, 2, 2⟩ :: (handed side ptr nbytes g).toList.map fun r => ⟨.recvbuff, r.1, r.2⟩
    | .recvAck => [⟨.recvbuff, 2, 2⟩]
    | .recvRqerr =>
      [⟨.recvbuff, 2, 2⟩, ⟨.recvbuff, nbytes + 2, 1⟩,
        ⟨.recvbuff, 4, (cstr ((g.recvbuff.set (nbytes + 2) 0).drop 4)).length + 1⟩]

variable {side : Side} {fs : FileSys} {g g' : Globals} {ptr : List Byte} {nbytes n : Nat}

/-- `recv_DATA` writes what is handed, and nothing else. -/
theorem recvData_written {ret : Int} (h : recvData side ptr nbytes g = .ok (ret, g')) :
    match handed side ptr nbytes g with
    | none => g'.localfp = g.localfp
    | some (start, count) => fileWrite g.localfp ((ptr.drop (start - 2)).take count) g.modetype = .ok g'.localfp := by
  unfold recvData at h
  unfold handed
  dsimp only at h ⊢
  split at h
  case isTrue => cases h
  case isFalse hlen =>
    rw [if_neg hlen]
    split at h
    case isTrue hnum =>
      split at h
      case h_1 => cases h
      case h_2 g₁ hstore =>
        cases h
        unfold storeData at hstore
        split at hstore
        case h_1 => cases hstore
        case h_2 fp hwrite =>
          have hfp : g₁.localfp = fp := by
            split at hstore
            · cases hstore
            · cases hstore
              rfl
          by_cases hpos : 0 < nbytes - 2
          · rw [if_pos ⟨hnum, hpos⟩]
            rw [if_pos hpos] at hwrite
            exact hwrite.trans (congrArg _ hfp.symm)
          · rw [if_neg fun h => hpos h.2]
            rw [if_neg hpos] at hwrite
            cases hwrite
            exact hfp
    case isFalse hnum =>
      rw [if_neg fun h => hnum h.1]
      split at h
      · cases h
      · split at h
        · cases h
        · cases h
          rfl

/-! ## `recv_xRQ` -/

/-- The loop finds a null among the bytes, or comes to the end of the datagram, or to the end of the memory. -/
theorem scanNull_spec (missing : Exit) (p : List Byte) (n : Nat) :
    (∃ i, scanNull missing p n = .ok i ∧ (cstr p).length = i ∧ i < p.length ∧ scanned p n = i + 1) ∨
      (scanNull missing p n = .error missing ∧ scanned p n = n ∧ n ≤ p.length) ∨
      scanNull missing p n = .error .overrun ∧ p.length < scanned p n := by
  induction n generalizing p with
  | zero => exact .inr (.inl ⟨by cases p <;> rfl, by cases p <;> rfl, Nat.zero_le _⟩)
  | succ n ih =>
    cases p with
    | nil => exact .inr (.inr ⟨rfl, Nat.one_pos⟩)
    | cons c p =>
      rw [scanNull, scanned]
      by_cases hc : c = 0
      · rw [if_pos hc, if_pos hc]
        exact .inl ⟨0, rfl, by simp [cstr, hc], Nat.succ_pos _, rfl⟩
      · have hcstr : (cstr (c :: p)).length = (cstr p).length + 1 := by simp [cstr, hc]
        rw [if_neg hc, if_neg hc, List.length_cons]
        rcases ih p with ⟨i, hscan, hlen, hi, hcount⟩ | ⟨hscan, hcount, hn⟩ | ⟨hscan, hcount⟩
        · exact .inl ⟨i + 1, by rw [hscan]; rfl, by omega, by omega, by omega⟩
        · exact .inr (.inl ⟨by rw [hscan]; rfl, by omega, by omega⟩)
        · exact .inr (.inr ⟨by rw [hscan]; rfl, by omega⟩)

theorem length_dirname_le (filename : List Byte) : (dirname filename).length ≤ filename.length := by
  rw [dirname, List.length_reverse, ← @List.length_reverse _ filename]
  exact (List.dropWhile_sublist _).length_le

theorem recvbuff_inBounds {start count : Nat} : (⟨.recvbuff, start, count⟩ : Access).InBounds ↔ start + count ≤ maxBuff := .rfl

/-- A string that fits leaves neither `recvbuff` nor the array. -/
theorem copyAccesses_inBounds {arr : Arr} {start : Nat} {src : List Byte} (hsize : arr.size = maxFilename)
    (hstart : start + src.length = maxBuff) (hnull : (cstr src).length < src.length) :
    (∀ a ∈ copyAccesses arr start src, a.InBounds) ↔ (cstr src).length < maxFilename := by
  have harr : (⟨arr, 0, (cstr src).length + 1⟩ : Access).InBounds ↔ (cstr src).length < maxFilename := by
    rw [← hsize]
    show 0 + ((cstr src).length + 1) ≤ arr.size ↔ (cstr src).length < arr.size
    omega
  rw [copyAccesses, List.forall_mem_cons, List.forall_mem_cons, recvbuff_inBounds, harr]
  exact ⟨fun h => h.2.1, fun h => ⟨by omega, h, List.forall_mem_nil _⟩⟩

theorem dirAccesses_inBounds {filename : List Byte} (h : filename.length < maxFilename) :
    ∀ a ∈ dirAccesses filename, a.InBounds := by
  have hdir := length_dirname_le filename
  simp only [dirAccesses, List.forall_mem_cons, Access.InBounds]
  exact ⟨show 0 + (filename.length + 1) ≤ maxFilename by omega, show (dirname filename).length + 1 ≤ maxFilename by omega,
    List.forall_mem_nil _⟩

/-- The loop over the mode, and its copy. -/
theorem modeAccesses_inBounds_iff {start n : Nat} {src : List Byte} {rest : List Access} (hstart : start + src.length = maxBuff)
    (hrest : ∀ a ∈ rest, a.InBounds) (filename : List Byte) :
    (∀ a ∈ (⟨.recvbuff, start, scanned src n⟩ : Access) ::
        match scanNull .rqMode src n with
        | .error _ => []
        | .ok _ => copyAccesses .mode start src ++ rest, a.InBounds) ↔
      (do
        let _ ← scanNull .rqMode src n
        let mode ← strlccpy src
        return (filename, mode) : Except Exit (List Byte × List Byte)) ≠ .error .overrun := by
  rw [List.forall_mem_cons, recvbuff_inBounds]
  rcases scanNull_spec .rqMode src n with ⟨i, hscan, hlen, hi, hcount⟩ | ⟨hscan, hcount, hn⟩ | ⟨hscan, hcount⟩
  · rw [hscan, hcount]
    dsimp only
    rw [List.forall_mem_append, copyAccesses_inBounds rfl hstart (hlen ▸ hi)]
    dsimp only [bind, Except.bind]
    rw [strlccpy]
    by_cases hfits : (cstr src).length < maxFilename
    · rw [if_pos hfits]
      exact ⟨fun _ h => (by cases h), fun _ => ⟨by omega, hfits, hrest⟩⟩
    · rw [if_neg hfits]
      exact ⟨fun h => absurd h.2.1 hfits, fun h => absurd rfl h⟩
  · rw [hscan, hcount]
    exact ⟨fun _ h => (by cases h), fun _ => ⟨by omega, List.forall_mem_nil _⟩⟩
  · rw [hscan]
    exact ⟨fun h => by omega, fun h => absurd rfl h⟩

/-- `recv_xRQ` overruns where it leaves an array. -/
theorem xrqAccesses_inBounds_iff (opcode : Nat) (hptr : 2 + ptr.length = maxBuff) :
    (∀ a ∈ xrqAccesses opcode ptr nbytes, a.InBounds) ↔ parseRq ptr nbytes ≠ .error .overrun := by
  unfold xrqAccesses parseRq
  rw [List.forall_mem_cons, recvbuff_inBounds]
  rcases scanNull_spec .rqFilename ptr nbytes with ⟨i, hscan, hlen, hi, hcount⟩ | ⟨hscan, hcount, hn⟩ | ⟨hscan, hcount⟩
  · rw [hscan, hcount]
    dsimp only [bind, Except.bind]
    rw [List.forall_mem_append, copyAccesses_inBounds rfl hptr (hlen ▸ hi), strcpy]
    by_cases hfits : (cstr ptr).length < maxFilename
    · have hrest : ∀ a ∈ if opcode = opWrq ∧ (cstr ptr).head? = some 47 then dirAccesses (cstr ptr) else [],
          a.InBounds := by
        split
        · exact dirAccesses_inBounds hfits
        · exact List.forall_mem_nil _
      have hmode := @modeAccesses_inBounds_iff (i + 3) (nbytes - i) (ptr.drop (i + 1)) _
        (by rw [List.length_drop]; omega) hrest (cstr ptr)
      rw [if_pos hfits]
      exact ⟨fun h => hmode.mp h.2.2, fun h => ⟨by omega, hfits, hmode.mpr h⟩⟩
    · rw [if_neg hfits]
      exact ⟨fun h => absurd h.2.1 hfits, fun h => absurd rfl h⟩
  · rw [hscan, hcount]
    exact ⟨fun _ h => (by cases h), fun _ => ⟨by omega, List.forall_mem_nil _⟩⟩
  · rw [hscan]
    exact ⟨fun h => by omega, fun h => absurd rfl h⟩

/-- The strings of a request fit: the file name; and the mode, where it ends in the datagram or with the byte behind it, which
there must be in `recvbuff`. -/
def RqFits (payload stale : List Byte) : Prop :=
  ∀ f r, payload = f ++ 0 :: r → (0 : Byte) ∉ f → f.length < maxFilename ∧ ((0 : Byte) ∈ r ∨ stale ≠ []) ∧
    ∀ m rest, r ++ stale.take 1 = m ++ 0 :: rest → (0 : Byte) ∉ m → m.length < maxFilename

theorem eq_of_first_null {f f' r r' : List Byte} (hf : (0 : Byte) ∉ f) (hf' : (0 : Byte) ∉ f')
    (h : f ++ 0 :: r = f' ++ 0 :: r') : f = f' ∧ r = r' := by
  have hname : f = f' := by rw [← cstr_append f r hf, h, cstr_append f' r' hf']
  subst hname
  exact ⟨rfl, by simpa using h⟩

/-- `recv_xRQ` does not overrun when the strings fit. -/
theorem parseRq_overrun_iff (payload stale : List Byte) :
    parseRq (payload ++ stale) payload.length ≠ .error .overrun ↔ RqFits payload stale := by
  rcases strings_cases payload with hnone | ⟨f, r, rfl, hf, hr⟩ | ⟨f, m, htwo⟩
  · rw [parseRq_none hnone]
    refine ⟨fun _ f r heq _ => absurd ?_ hnone, fun _ h => by cases h⟩
    rw [heq]
    simp
  · have hfits : RqFits (f ++ 0 :: r) stale ↔ f.length < maxFilename ∧ stale ≠ [] ∧
        ∀ m rest, r ++ stale.take 1 = m ++ 0 :: rest → (0 : Byte) ∉ m → m.length < maxFilename := by
      constructor
      · intro h
        obtain ⟨hname, hstale, hmode⟩ := h f r rfl hf
        exact ⟨hname, hstale.resolve_left hr, hmode⟩
      · rintro ⟨hname, hstale, hmode⟩ f' r' heq hf'
        obtain ⟨rfl, rfl⟩ := eq_of_first_null hf hf' heq
        exact ⟨hname, .inr hstale, hmode⟩
    rw [parseRq_one hf hr, hfits]
    by_cases hname : f.length < maxFilename
    · rw [if_pos hname]
      cases stale with
      | nil => exact ⟨fun h => absurd rfl h, fun h => absurd rfl h.2.1⟩
      | cons c stale =>
        rw [List.take_succ_cons, List.take_zero]
        dsimp only
        by_cases hc : c = 0
        · subst hc
          rw [if_pos rfl]
          by_cases hlen : r.length < maxFilename
          · rw [if_pos hlen]
            refine ⟨fun _ => ⟨hname, List.cons_ne_nil _ _, fun m rest heq hm => ?_⟩, fun _ h => by cases h⟩
            obtain ⟨rfl, -⟩ := eq_of_first_null hr hm heq
            exact hlen
          · rw [if_neg hlen]
            exact ⟨fun h => absurd rfl h, fun h => absurd (h.2.2 r [] rfl hr) hlen⟩
        · rw [if_neg hc]
          refine ⟨fun _ => ⟨hname, List.cons_ne_nil _ _, fun m rest heq _ => ?_⟩, fun _ h => by cases h⟩
          have hmem : (0 : Byte) ∈ r ++ [c] := by rw [heq]; simp
          simp only [List.mem_append, List.mem_singleton] at hmem
          exact absurd hmem (not_or.mpr ⟨hr, fun h => hc h.symm⟩)
    · rw [if_neg hname]
      exact ⟨fun h => absurd rfl h, fun h => absurd h.1 hname⟩
  · rw [parseRq_two htwo]
    obtain ⟨rest, rfl, hf, hm⟩ := htwo
    have hfits : RqFits (f ++ 0 :: (m ++ 0 :: rest)) stale ↔ f.length < maxFilename ∧ m.length < maxFilename := by
      constructor
      · intro h
        obtain ⟨hname, -, hmode⟩ := h f _ rfl hf
        exact ⟨hname, hmode m (rest ++ stale.take 1) (by simp) hm⟩
      · rintro ⟨hname, hmode⟩ f' r' heq hf'
        obtain ⟨rfl, rfl⟩ := eq_of_first_null hf hf' heq
        refine ⟨hname, .inl (by simp), fun m' rest' heq' hm' => ?_⟩
        obtain ⟨rfl, -⟩ := eq_of_first_null (r := rest ++ stale.take 1) hm hm' (by rw [← heq']; simp)
        exact hmode
    rw [hfits]
    by_cases hlen : f.length < maxFilename ∧ m.length < maxFilename
    · rw [if_pos hlen]
      exact ⟨fun _ => hlen, fun _ h => by cases h⟩
    · rw [if_neg hlen]
      exact ⟨fun h => absurd rfl h, fun h => absurd h hlen⟩

/-! ## All handlers -/

/-- What the table says to call for the datagram in `recvbuff`. -/
def handlerOf (side : Side) (g : Globals) : Handler := fsmPtr side g.opSent (ldshort g.recvbuff)

/-- The handler stays within its arrays, and what is handed to `file_write` in the datagram of `n` bytes and in `MAXDATA`. -/
structure Safe (side : Side) (fs : FileSys) (n : Nat) (g : Globals) : Prop where
  arrays : ∀ a ∈ accesses side fs (n - 2) g (handlerOf side g), a.InBounds
  data : handlerOf side g = .recvData → ∀ start count,
    handed side (g.recvbuff.drop 2) (n - 2) g = some (start, count) → start + count ≤ n ∧ count ≤ maxData

/-- Requests whose strings fit, error packets that leave a byte of `recvbuff`, and in the client data that is no longer than
`MAXDATA`. -/
def Fits (side : Side) (n : Nat) (g : Globals) : Prop :=
  match handlerOf side g with
  | .recvRrq | .recvWrq => RqFits ((g.recvbuff.take n).drop 2) (g.recvbuff.drop n)
  | .recvRqerr => n < maxBuff
  | .recvData => side = .client → (ldshort (g.recvbuff.drop 2) : Int) = g.nextblknum → n - 4 ≤ maxData
  | .recvAck | .fsmInvalid | .fsmError => True

/-- What has been put in `sendbuff` fits, however a function ends. -/
def SendsWithin {α : Type} (state : α → Globals) (r : Result α) : Prop :=
  match r with
  | .ok a => (state a).sendbuff.length ≤ maxBuff
  | .error e => e.2.sendbuff.length ≤ maxBuff

theorem SendsWithin.bind {α β : Type} {v : α → Globals} {v' : β → Globals} {r : Result α} {f : α → Result β}
    (h : SendsWithin v r) (hf : ∀ a, (v a).sendbuff.length ≤ maxBuff → SendsWithin v' (f a)) : SendsWithin v' (r >>= f) := by
  cases r with
  | error e => exact h
  | ok a => exact hf a h

theorem sendError_within {α : Type} (v : α → Globals) (ecode : Nat) {errstring : String} (g : Globals)
    (h : (bytes errstring).length ≤ 64) : SendsWithin v (sendError ecode errstring g) := by
  show (stshort opError ++ stshort ecode ++ bytes errstring ++ [0]).length ≤ maxBuff
  simp only [List.length_append, length_stshort, List.length_singleton]
  have : maxBuff = 2048 := rfl
  omega

theorem rqMode_within (mode : List Byte) (h : g.sendbuff.length ≤ maxBuff) : SendsWithin id (rqMode mode g) := by
  unfold rqMode
  split
  · exact h
  · split
    · exact h
    · exact sendError_within _ _ _ (by decide)

theorem rqAccess_within (fs : FileSys) (opcode : Nat) (filename : List Byte) (h : g.sendbuff.length ≤ maxBuff) :
    SendsWithin (fun _ => g) (rqAccess fs opcode filename g) := by
  have hok : SendsWithin (fun _ => g) (.ok ()) := h
  unfold rqAccess
  split
  · exact sendError_within _ _ _ (by decide)
  · split
    · split
      · exact sendError_within _ _ _ (by decide)
      · split
        · exact sendError_within _ _ _ (by decide)
        · exact hok
    · split
      · split
        · exact sendError_within _ _ _ (by decide)
        · split
          · exact sendError_within _ _ _ (by decide)
          · exact hok
      · exact h

theorem recvXrq_within (fs : FileSys) (opcode : Nat) (ptr : List Byte) (nbytes : Nat) (h : g.sendbuff.length ≤ maxBuff) :
    SendsWithin id (recvXrq fs opcode ptr nbytes g) := by
  unfold recvXrq
  refine SendsWithin.bind (v := fun _ => g) ?_ fun r _ => ?_
  · cases parseRq ptr nbytes <;> exact h
  · refine SendsWithin.bind (rqMode_within r.2 h) fun g₁ h₁ => ?_
    refine SendsWithin.bind (rqAccess_within fs opcode r.1 h₁) fun _ _ => ?_
    split
    · exact sendError_within _ _ _ (by decide)
    · exact h₁

theorem recvAck_within (ptr : List Byte) (nbytes : Nat) (h : g.sendbuff.length ≤ maxBuff) :
    SendsWithin Prod.snd (recvAck ptr nbytes g) := by
  rcases recvAck_cases ptr nbytes g with ⟨why, heq⟩ | heq | heq | ⟨-, -, heq⟩
  · rw [heq]
    exact h
  · rw [heq]
    exact h
  · rw [heq]
    exact h
  · rw [heq]
    show (dataPacket _ _).length ≤ maxBuff
    rw [fileRead_fst, dataPacket, List.length_append, List.length_append, length_stshort, length_stshort, List.length_take]
    have : maxBuff = 2048 := rfl
    have : maxData = 512 := rfl
    omega

theorem recvData_within (side : Side) (ptr : List Byte) (nbytes : Nat) (h : g.sendbuff.length ≤ maxBuff) :
    SendsWithin Prod.snd (recvData side ptr nbytes g) := by
  have hack (k : Int) (n : Nat) (g : Globals) : SendsWithin Prod.snd (.ok (ackData k n g)) := by
    show (ackPacket k).length ≤ maxBuff
    rw [ackPacket, List.length_append, length_stshort, length_stshort]
    decide
  have hstore (data : List Byte) (n : Nat) (g : Globals) (h : g.sendbuff.length ≤ maxBuff) :
      SendsWithin id (storeData side data n g) := by
    unfold storeData
    split
    · exact h
    · split <;> exact h
  unfold recvData
  dsimp only
  split
  · exact h
  · split
    · have hs := hstore ((ptr.drop 2).take (nbytes - 2)) (nbytes - 2)
        { g with nextblknum := g.nextblknum + 1, totnbytes := g.totnbytes + (nbytes - 2 : Nat) } h
      split
      · rename_i e heq
        rw [heq] at hs
        exact hs
      · exact hack _ _ _
    · split
      · exact h
      · split
        · exact h
        · exact hack _ _ _

theorem sent_inBounds (side : Side) (fs : FileSys) (ptr : List Byte) (nbytes : Nat) (f : Handler)
    (h : g.sendbuff.length ≤ maxBuff) : (sent (callHandler side fs ptr nbytes g f)).InBounds := by
  have hwithin {r : Result (Int × Globals)} (hr : SendsWithin Prod.snd r) : (sent r).InBounds := by
    cases r <;> exact (Nat.zero_add _).trans_le hr
  refine hwithin ?_
  cases f with
  | fsmInvalid => exact h
  | fsmError => exact h
  | recvRrq =>
    refine SendsWithin.bind (recvXrq_within fs opRrq ptr nbytes h) fun g₁ h₁ => ?_
    refine SendsWithin.bind (recvAck_within (g := { g₁ with lastsend := maxData }) (stshort 0) 2 h₁) fun r hr => ?_
    exact hr
  | recvWrq =>
    refine SendsWithin.bind (recvXrq_within fs opWrq ptr nbytes h) fun g₁ h₁ => ?_
    show (ackPacket 0).length ≤ maxBuff
    decide
  | recvData => exact recvData_within side ptr nbytes h
  | recvAck => exact recvAck_within ptr nbytes h
  | recvRqerr =>
    show SendsWithin Prod.snd (recvRqerr ptr nbytes g)
    unfold recvRqerr
    dsimp only
    split <;> exact h

/-- What is handed begins behind the header. -/
theorem handed_eq_some {start count : Nat} (h : handed side ptr nbytes g = some (start, count)) :
    start = 4 ∧ count = nbytes - 2 ∧ 0 < count ∧ (ldshort ptr : Int) = g.nextblknum ∧ (side = .server → count ≤ maxData) := by
  unfold handed at h
  dsimp only at h
  split at h
  case isTrue => cases h
  case isFalse hlen =>
    split at h
    case isTrue hnum =>
      cases h
      exact ⟨rfl, rfl, hnum.2, hnum.1, fun hside => not_lt.mp fun hlt => hlen ⟨hside, hlt⟩⟩
    case isFalse => cases h

theorem handed_client (hnum : (ldshort ptr : Int) = g.nextblknum) (hpos : 0 < nbytes - 2) :
    handed .client ptr nbytes g = some (4, nbytes - 2) := by
  unfold handed
  dsimp only
  rw [if_neg fun h => (by cases h.1), if_pos ⟨hnum, hpos⟩]

theorem length_cstr_append_le (s rest : List Byte) : (cstr (s ++ 0 :: rest)).length ≤ s.length := by
  induction s with
  | nil => exact Nat.zero_le _
  | cons c s ih =>
    by_cases hc : c = 0
    · simp [cstr, hc]
    · simpa [cstr, hc] using ih

/-- The message of an error packet ends with the null that `recv_RQERR` stores. -/
theorem length_cstr_set {buf : List Byte} {n : Nat} (h4 : 4 ≤ n) (hn : n < buf.length) :
    4 + (cstr ((buf.set n 0).drop 4)).length ≤ n := by
  have hsplit : (buf.set n 0).drop 4 = (buf.drop 4).take (n - 4) ++ 0 :: buf.drop (n + 1) := by
    rw [List.drop_set, if_neg (by omega), List.set_eq_take_append_cons_drop, if_pos (by rw [List.length_drop]; omega),
      List.drop_drop, show 4 + (n - 4 + 1) = n + 1 by omega]
  have hlen := length_cstr_append_le ((buf.drop 4).take (n - 4)) (buf.drop (n + 1))
  rw [List.length_take, List.length_drop] at hlen
  rw [hsplit]
  omega

/-- A handler is safe exactly when what it works on fits. -/
theorem safe_iff (side : Side) (fs : FileSys) {n : Nat} {g : Globals} (h4 : 4 ≤ n) (hn : n ≤ maxBuff)
    (hrecv : g.recvbuff.length = maxBuff) (hsend : g.sendbuff.length ≤ maxBuff) :
    Safe side fs n g ↔ Fits side n g := by
  have hbig : 5 < maxBuff := by decide
  have hsent := sent_inBounds side fs (g.recvbuff.drop 2) (n - 2) (handlerOf side g) hsend
  have hptr : 2 + (g.recvbuff.drop 2).length = maxBuff := by rw [List.length_drop]; omega
  have hrq (opcode : Nat) : (∀ a ∈ xrqAccesses opcode (g.recvbuff.drop 2) (n - 2), a.InBounds) ↔
      RqFits ((g.recvbuff.take n).drop 2) (g.recvbuff.drop n) := by
    have hsplit : g.recvbuff.drop 2 = (g.recvbuff.take n).drop 2 ++ g.recvbuff.drop n := by
      rw [← List.drop_append_of_le_length (by rw [List.length_take]; omega), List.take_append_drop]
    have hlen : ((g.recvbuff.take n).drop 2).length = n - 2 := by rw [List.length_drop, List.length_take]; omega
    rw [xrqAccesses_inBounds_iff opcode hptr, hsplit, ← hlen, parseRq_overrun_iff]
  have hsafe : Safe side fs n g ↔ (∀ a ∈ accesses side fs (n - 2) g (handlerOf side g), a.InBounds) ∧
      (handlerOf side g = .recvData → ∀ start count,
        handed side (g.recvbuff.drop 2) (n - 2) g = some (start, count) → start + count ≤ n ∧ count ≤ maxData) :=
    ⟨fun h => ⟨h.arrays, h.data⟩, fun h => ⟨h.1, h.2⟩⟩
  rw [hsafe]
  unfold Fits accesses
  rw [List.forall_mem_cons]
  cases hf : handlerOf side g with
  | fsmInvalid => exact ⟨fun _ => trivial, fun _ => ⟨⟨hf ▸ hsent, List.forall_mem_nil _⟩, fun h => by cases h⟩⟩
  | fsmError => exact ⟨fun _ => trivial, fun _ => ⟨⟨hf ▸ hsent, List.forall_mem_nil _⟩, fun h => by cases h⟩⟩
  | recvRrq =>
    have hack : ∀ a ∈ [(⟨.ackbuff, 0, 2⟩ : Access)], a.InBounds := List.forall_mem_singleton.mpr le_rfl
    dsimp only
    rw [List.forall_mem_append, hrq]
    exact ⟨fun h => h.1.2.1, fun h => ⟨⟨hf ▸ hsent, h, hack⟩, fun h => by cases h⟩⟩
  | recvWrq =>
    dsimp only
    rw [hrq]
    exact ⟨fun h => h.1.2, fun h => ⟨⟨hf ▸ hsent, h⟩, fun h => by cases h⟩⟩
  | recvAck =>
    have hnum : ∀ a ∈ [(⟨.recvbuff, 2, 2⟩ : Access)], a.InBounds :=
      List.forall_mem_singleton.mpr (recvbuff_inBounds.mpr (by omega))
    exact ⟨fun _ => trivial, fun _ => ⟨⟨hf ▸ hsent, hnum⟩, fun h => by cases h⟩⟩
  | recvData =>
    have hdata : (∀ start count, handed side (g.recvbuff.drop 2) (n - 2) g = some (start, count) → count ≤ maxData) ↔
        (side = .client → (ldshort (g.recvbuff.drop 2) : Int) = g.nextblknum → n - 4 ≤ maxData) := by
      constructor
      · intro h hside hnum
        subst hside
        by_cases hpos : 0 < n - 2 - 2
        · have := h _ _ (handed_client hnum hpos)
          omega
        · have : maxData = 512 := rfl
          omega
      · intro h start count hsome
        obtain ⟨-, hcount, -, hnum, hserver⟩ := handed_eq_some hsome
        cases side with
        | server => exact hserver rfl
        | client =>
          have := h rfl hnum
          omega
    have hread : ∀ a ∈ (⟨.recvbuff, 2, 2⟩ : Access) ::
        (handed side (g.recvbuff.drop 2) (n - 2) g).toList.map (fun r => (⟨.recvbuff, r.1, r.2⟩ : Access)), a.InBounds := by
      refine List.forall_mem_cons.mpr ⟨recvbuff_inBounds.mpr (by omega), ?_⟩
      cases hsome : handed side (g.recvbuff.drop 2) (n - 2) g with
      | none => exact List.forall_mem_nil _
      | some r =>
        obtain ⟨hstart, hcount, -⟩ := handed_eq_some hsome
        exact List.forall_mem_singleton.mpr (recvbuff_inBounds.mpr (by omega))
    rw [← hdata]
    refine ⟨fun h start count hsome => (h.2 rfl start count hsome).2, fun h => ⟨⟨hf ▸ hsent, hread⟩, fun _ start count hsome => ?_⟩⟩
    obtain ⟨hstart, hcount, -⟩ := handed_eq_some hsome
    exact ⟨by omega, h start count hsome⟩
  | recvRqerr =>
    have herr : (∀ a ∈ [(⟨.recvbuff, 2, 2⟩ : Access), ⟨.recvbuff, n - 2 + 2, 1⟩,
        ⟨.recvbuff, 4, (cstr ((g.recvbuff.set (n - 2 + 2) 0).drop 4)).length + 1⟩], a.InBounds) ↔ n < maxBuff := by
      rw [List.forall_mem_cons, List.forall_mem_cons, List.forall_mem_singleton, recvbuff_inBounds, recvbuff_inBounds,
        recvbuff_inBounds, show n - 2 + 2 = n by omega]
      refine ⟨fun h => by omega, fun h => ?_⟩
      have := @length_cstr_set g.recvbuff _ h4 (by omega)
      omega
    dsimp only
    rw [herr]
    exact ⟨fun h => h.1.2, fun h => ⟨⟨hf ▸ hsent, h⟩, fun h => by cases h⟩⟩

/-- A client that has sent a read request, with block 1 in `recvbuff`. -/
def blockOne : Globals :=
  { initvars with
    nextblknum := 1, opSent := opRrq
    recvbuff := stshort opData ++ stshort 1 ++ List.replicate (maxBuff - 4) 7 }

/-- A file system without files. -/
def noFiles : FileSys := ⟨fun _ => none, fun _ _ => none, []⟩

theorem blockOne_recvbuff : blockOne.recvbuff.length = maxBuff := by
  show (stshort opData ++ stshort 1 ++ List.replicate (maxBuff - 4) 7).length = maxBuff
  rw [List.length_append, List.length_append, length_stshort, length_stshort, List.length_replicate]
  decide

/-- Block 1 has two bytes. -/
theorem safe_two_bytes : Safe .client noFiles 6 blockOne ↔ Fits .client 6 blockOne :=
  safe_iff .client noFiles (by decide) (by decide) blockOne_recvbuff (Nat.zero_le maxBuff)

/-- Block 1 has 513 bytes, and the client writes them all. -/
theorem not_safe_long : ¬Safe .client noFiles 517 blockOne := by
  intro h
  obtain ⟨-, hcount⟩ := h.data rfl 4 513 (handed_client rfl (by decide))
  exact absurd hcount (by decide)

end CodingExercises.Tftp
