import Mathlib.Data.PNat.Basic

/-!
# Peotrix: records on a stream

`ptrx_net_send` and `ptrx_net_recv` of `tcp_connection/ptrx_tcp_connection.c`. Each record is written behind its length, two
bytes in network order; the receiver reads the length into a `short`, and then the record.

- The answers of `read` are arbitrary: it is interrupted, it fails, or it delivers some of the bytes.
- Each call takes one `read` for the length and one for the record: the records are received just if all of them are shorter
  than 32768 bytes and each `read` delivers all it asks for (`received_iff`).
- A length from 32768 on is negative in a `short`; the `read` of the record then has no limit (`stored_iff`).
-/

namespace CodingExercises.Peotrix

abbrev Byte := UInt8

/-! ## Sending -/

/-- `htons`, in the order of the bytes in memory. -/
def htons (len : ℕ) : List Byte := [UInt8.ofNat (len / 256), UInt8.ofNat len]

/-- `write`: the bytes that are taken, and the result (`none` for an error). -/
def write (answer : Option ℕ) (bytes : List Byte) : List Byte × ℤ :=
  match answer with
  | none => ([], -1)
  | some n => (bytes.take n, (min n bytes.length : ℕ))

/-- A record, and what its two calls of `write` are answered. -/
structure Sending where
  buff : List Byte
  lengthAnswer : Option ℕ
  bodyAnswer : Option ℕ

/-- `ptrx_net_send`: what is on the stream then, and whether nothing went wrong. -/
def netSend (s : Sending) : List Byte × Bool :=
  let (sent, rc) := write s.lengthAnswer (htons s.buff.length)
  if rc ≠ 2 then (sent, false)
  else
    let (sent', rc) := write s.bodyAnswer s.buff
    if rc ≠ s.buff.length then (sent ++ sent', false) else (sent ++ sent', true)

/-! ## Receiving -/

/-- What `read` does: it is interrupted, it fails, or it delivers up to so many bytes. -/
inductive Answer
  | interrupted
  | failed
  | upto (n : ℕ+)
deriving DecidableEq

/-- The largest number of bytes that one `read` delivers, whatever it is asked for. -/
def maxRead : ℕ := 0x7ffff000

/-- `read`, again and again while it is interrupted: the bytes, or an error; and what is left of the answers and of the
stream. Without an answer it is waiting. -/
def readAgain (count : ℕ) : List Answer → List Byte → Option (Option (List Byte) × List Answer × List Byte)
  | [], _ => none
  | .interrupted :: answers, stream => readAgain count answers stream
  | .failed :: answers, stream => some (none, answers, stream)
  | .upto n :: answers, stream =>
    let k := min (n : ℕ) (min count maxRead)
    some (some (stream.take k), answers, stream.drop k)

/-- `ntohs` into a `short`. -/
def ntohs (templen : List Byte) : ℤ :=
  match templen with
  | [hi, lo] =>
    let n : ℤ := 256 * hi.toNat + lo.toNat
    if n < 32768 then n else n - 65536
  | _ => 0

/-- An `int` as a `size_t`. -/
def sizeT (n : ℤ) : ℕ := if n < 0 then (n + 18446744073709551616).toNat else n.toNat

/-- The result of a call, the bytes that were stored to `buff`, and what is left. -/
structure Call where
  ret : ℤ
  buff : List Byte
  answers : List Answer
  stream : List Byte
deriving DecidableEq

/-- `PTRX_ERROR`. -/
def ptrxError : ℤ := -1

/-- `ptrx_net_recv`. -/
def netRecv (maxlen : ℕ) (answers : List Answer) (stream : List Byte) : Option Call :=
  match readAgain 2 answers stream with
  | none => none
  | some (none, answers, stream) => some ⟨ptrxError, [], answers, stream⟩
  | some (some templen, answers, stream) =>
    if templen.length ≠ 2 then some ⟨ptrxError, [], answers, stream⟩
    else
      let templen := ntohs templen
      if templen > maxlen then some ⟨ptrxError, [], answers, stream⟩
      else
        match readAgain (sizeT templen) answers stream with
        | none => none
        | some (none, answers, stream) => some ⟨ptrxError, [], answers, stream⟩
        | some (some buff, answers, stream) =>
          if (buff.length : ℤ) ≠ templen then some ⟨ptrxError, buff, answers, stream⟩
          else some ⟨buff.length, buff, answers, stream⟩

/-- So many calls one after another: their results and what they stored. -/
def recvAll (maxlen : ℕ) : ℕ → List Answer → List Byte → Option (List (ℤ × List Byte))
  | 0, _, _ => some []
  | n + 1, answers, stream =>
    match netRecv maxlen answers stream with
    | none => none
    | some c => (recvAll maxlen n c.answers c.stream).map ((c.ret, c.buff) :: ·)

/-- The calls return the records with their lengths, in order. -/
def Received (maxlen : ℕ) (records : List (List Byte)) (answers : List Answer) (stream : List Byte) : Prop :=
  recvAll maxlen records.length answers stream = some (records.map fun r => ((r.length : ℤ), r))

/-! ## What is delivered -/

/-- The numbers of bytes that the reads deliver at most. -/
def limits (answers : List Answer) : List ℕ :=
  answers.filterMap fun
    | .upto n => some n
    | _ => none

/-- Every `read` for a record delivers all it asks for: the length, and then the body. -/
def Whole : List (List Byte) → List ℕ → Prop
  | [], _ => True
  | r :: records, l :: b :: limits => 2 ≤ l ∧ r.length ≤ b ∧ Whole records limits
  | _ :: _, _ => False

theorem ntohs_htons {n : ℕ} (h : n < 65536) : ntohs (htons n) = if n < 32768 then (n : ℤ) else n - 65536 := by
  have hhi : (UInt8.ofNat (n / 256)).toNat = n / 256 := by
    rw [UInt8.toNat_ofNat']
    omega
  have hlo : (UInt8.ofNat n).toNat = n % 256 := UInt8.toNat_ofNat'
  unfold ntohs htons
  dsimp only
  rw [hhi, hlo]
  split <;> split <;> omega

theorem length_htons (n : ℕ) : (htons n).length = 2 := rfl

/-- A `write` that takes everything. -/
theorem write_all {answer : Option ℕ} {bytes : List Byte} (h : (write answer bytes).2 = bytes.length) :
    (write answer bytes).1 = bytes := by
  cases answer with
  | none =>
    simp only [write] at h
    omega
  | some n =>
    simp only [write] at h ⊢
    exact List.take_of_length_le (by omega)

/-- What a successful call has sent. -/
theorem netSend_success {s : Sending} (h : (netSend s).2 = true) : (netSend s).1 = htons s.buff.length ++ s.buff := by
  unfold netSend at h ⊢
  dsimp only at h ⊢
  split at h
  case isTrue => cases h
  case isFalse hlen =>
    rw [if_neg hlen]
    split at h
    case isTrue => cases h
    case isFalse hbody =>
      rw [if_neg hbody]
      rw [write_all (not_not.mp hbody), write_all (by simpa [length_htons] using hlen)]

/-- With no failure and an answer that delivers, `read` delivers. -/
theorem readAgain_delivers {count : ℕ} {answers : List Answer} {stream : List Byte} {l : ℕ} {ls : List ℕ}
    (hok : Answer.failed ∉ answers) (hl : limits answers = l :: ls) :
    ∃ rest, readAgain count answers stream =
        some (some (stream.take (min l (min count maxRead))), rest, stream.drop (min l (min count maxRead))) ∧
      Answer.failed ∉ rest ∧ limits rest = ls ∧ 0 < l := by
  induction answers with
  | nil => cases hl
  | cons a answers ih =>
    have hok' : Answer.failed ∉ answers := fun h => hok (List.mem_cons_of_mem _ h)
    cases a with
    | interrupted => exact ih hok' hl
    | failed => exact absurd List.mem_cons_self hok
    | upto n =>
      cases hl
      exact ⟨answers, rfl, hok', rfl, n.pos⟩

/-! ## A call -/

theorem maxRead_eq : maxRead = 2147479552 := rfl

/-- The length is delivered in one piece. -/
theorem netRecv_length {maxlen : ℕ} {answers : List Answer} {r s : List Byte} {l : ℕ} {ls : List ℕ}
    (hok : Answer.failed ∉ answers) (hl : limits answers = l :: ls) (h2 : 2 ≤ l) (hmax : r.length ≤ maxlen)
    (h65535 : maxlen ≤ 65535) :
    ∃ rest, Answer.failed ∉ rest ∧ limits rest = ls ∧
      netRecv maxlen answers (htons r.length ++ (r ++ s)) =
        match readAgain (sizeT (ntohs (htons r.length))) rest (r ++ s) with
        | none => none
        | some (none, answers, stream) => some ⟨ptrxError, [], answers, stream⟩
        | some (some buff, answers, stream) =>
          if (buff.length : ℤ) ≠ ntohs (htons r.length) then some ⟨ptrxError, buff, answers, stream⟩
          else some ⟨buff.length, buff, answers, stream⟩ := by
  obtain ⟨rest, hread, hok', hl', -⟩ := @readAgain_delivers 2 answers (htons r.length ++ (r ++ s)) _ _ hok hl
  have hmin : min l (min 2 maxRead) = 2 := by
    rw [maxRead_eq]
    omega
  rw [hmin, List.take_left' (length_htons _), List.drop_left' (length_htons _)] at hread
  refine ⟨rest, hok', hl', ?_⟩
  have hle : ¬ntohs (htons r.length) > maxlen := by
    rw [ntohs_htons (by omega)]
    split <;> omega
  simp only [netRecv, hread]
  rw [if_neg (by simp [length_htons]), if_neg hle]

/-- A record is received. -/
theorem netRecv_record {maxlen : ℕ} {answers : List Answer} {r s : List Byte} {l b : ℕ} {ls : List ℕ}
    (hok : Answer.failed ∉ answers) (hl : limits answers = l :: b :: ls) (h2 : 2 ≤ l) (hb : r.length ≤ b)
    (hmax : r.length ≤ maxlen) (h65535 : maxlen ≤ 65535) (hshort : r.length < 32768) :
    ∃ rest, Answer.failed ∉ rest ∧ limits rest = ls ∧
      netRecv maxlen answers (htons r.length ++ (r ++ s)) = some ⟨r.length, r, rest, s⟩ := by
  obtain ⟨rest, hok', hl', hrecv⟩ := @netRecv_length maxlen answers r s l _ hok hl h2 hmax h65535
  have hn : ntohs (htons r.length) = r.length := by
    rw [ntohs_htons (by omega), if_pos hshort]
  have hsize : sizeT (r.length : ℤ) = r.length := by
    unfold sizeT
    rw [if_neg (by omega)]
    exact Int.toNat_natCast _
  rw [hn, hsize] at hrecv
  obtain ⟨rest', hread, hok'', hl'', -⟩ := @readAgain_delivers r.length rest (r ++ s) _ _ hok' hl'
  have hmin : min b (min r.length maxRead) = r.length := by
    rw [maxRead_eq]
    omega
  rw [hmin, List.take_left' rfl, List.drop_left' rfl] at hread
  refine ⟨rest', hok'', hl'', ?_⟩
  rw [hrecv, hread]
  simp

/-- A record is not received when it is too long for a `short`, or when something of it is still on its way. -/
theorem netRecv_error {maxlen : ℕ} {answers : List Answer} {r s : List Byte} {l b : ℕ} {ls : List ℕ}
    (hok : Answer.failed ∉ answers) (hl : limits answers = l :: b :: ls) (hmax : r.length ≤ maxlen)
    (h65535 : maxlen ≤ 65535) (h : ¬(r.length < 32768 ∧ 2 ≤ l ∧ r.length ≤ b)) :
    ∃ c, netRecv maxlen answers (htons r.length ++ (r ++ s)) = some c ∧ c.ret = ptrxError := by
  rcases Nat.lt_or_ge l 2 with hlt | h2
  · obtain ⟨rest, hread, -, -, hpos⟩ := @readAgain_delivers 2 answers (htons r.length ++ (r ++ s)) _ _ hok hl
    have hlen : ((htons r.length ++ (r ++ s)).take (min l (min 2 maxRead))).length ≠ 2 := by
      rw [List.length_take, maxRead_eq]
      omega
    rw [netRecv, hread]
    dsimp only
    rw [if_pos hlen]
    exact ⟨_, rfl, rfl⟩
  · obtain ⟨rest, hok', hl', hrecv⟩ := @netRecv_length maxlen answers r s l _ hok hl h2 hmax h65535
    obtain ⟨rest', hread, -, -, -⟩ := @readAgain_delivers (sizeT (ntohs (htons r.length))) rest (r ++ s) _ _ hok' hl'
    have hne : (((r ++ s).take (min b (min (sizeT (ntohs (htons r.length))) maxRead))).length : ℤ) ≠
        ntohs (htons r.length) := by
      rw [ntohs_htons (by omega)]
      split
      case isTrue hshort =>
        have hb : b < r.length := by omega
        rw [List.length_take]
        omega
      case isFalse => omega
    rw [hrecv, hread]
    dsimp only
    rw [if_pos hne]
    exact ⟨_, rfl, rfl⟩

/-! ## All calls -/

/-- The records, each behind its length. -/
def encode (records : List (List Byte)) : List Byte := records.flatMap fun r => htons r.length ++ r

/-- The calls of `ptrx_net_send` that all succeed put the records on the stream. -/
theorem sent_encode {sendings : List Sending} (h : ∀ s ∈ sendings, (netSend s).2 = true) :
    sendings.flatMap (fun s => (netSend s).1) = encode (sendings.map Sending.buff) := by
  induction sendings with
  | nil => rfl
  | cons s sendings ih =>
    rw [List.flatMap_cons, ih fun x hx => h x (List.mem_cons_of_mem _ hx), netSend_success (h s List.mem_cons_self)]
    rfl

/-- The records on the stream are received just if they are short and delivered whole. -/
theorem received_encode {maxlen : ℕ} (h65535 : maxlen ≤ 65535) {records : List (List Byte)} {answers : List Answer}
    (hmax : ∀ r ∈ records, r.length ≤ maxlen) (hok : Answer.failed ∉ answers)
    (henough : 2 * records.length ≤ (limits answers).length) :
    Received maxlen records answers (encode records) ↔
      (∀ r ∈ records, r.length < 32768) ∧ Whole records (limits answers) := by
  induction records generalizing answers with
  | nil => simp [Received, recvAll, Whole]
  | cons r records ih =>
    rw [List.length_cons] at henough
    obtain ⟨l, b, ls, hl⟩ : ∃ l b ls, limits answers = l :: b :: ls := by
      match hl : limits answers with
      | [] => simp [hl] at henough
      | [_] =>
        simp only [hl, List.length_singleton] at henough
        omega
      | l :: b :: ls => exact ⟨l, b, ls, rfl⟩
    obtain ⟨hr, hmax'⟩ := List.forall_mem_cons.mp hmax
    have hstream : encode (r :: records) = htons r.length ++ (r ++ encode records) := by
      rw [encode, List.flatMap_cons, List.append_assoc]
      rfl
    rw [Received, hstream, List.length_cons, recvAll, List.map_cons, List.forall_mem_cons, hl, Whole]
    by_cases hcond : r.length < 32768 ∧ 2 ≤ l ∧ r.length ≤ b
    · obtain ⟨hshort, h2, hb⟩ := hcond
      obtain ⟨rest, hok', hl', hrecv⟩ := @netRecv_record maxlen answers r (encode records) l b ls hok hl h2 hb hr
        h65535 hshort
      have henough' : 2 * records.length ≤ (limits rest).length := by
        rw [hl] at henough
        rw [hl']
        simp only [List.length_cons] at henough
        omega
      have hrest := ih hmax' hok' henough'
      rw [hl', Received] at hrest
      rw [hrecv]
      simp only [Option.map_eq_some_iff, List.cons.injEq, true_and, exists_eq_right]
      rw [hrest]
      simp [hshort, h2, hb]
    · obtain ⟨c, hrecv, hret⟩ := @netRecv_error maxlen answers r (encode records) l b ls hok hl hr h65535 hcond
      rw [hrecv]
      constructor
      · intro h
        obtain ⟨results, -, hres⟩ := Option.map_eq_some_iff.mp h
        have hhead := (List.cons.inj hres).1
        have hfst := congrArg Prod.fst hhead
        rw [hret, ptrxError] at hfst
        dsimp only at hfst
        omega
      · rintro ⟨⟨hshort, -⟩, h2, hb, -⟩
        exact absurd ⟨hshort, h2, hb⟩ hcond

/-! ## What is stored -/

/-- The answers behind the interruptions. -/
def pending (answers : List Answer) : List Answer := answers.dropWhile (· = .interrupted)

theorem readAgain_upto {count : ℕ} {answers as : List Answer} {n : ℕ+} (h : pending answers = .upto n :: as)
    (stream : List Byte) :
    readAgain count answers stream = some (some (stream.take (min (n : ℕ) (min count maxRead))), as,
      stream.drop (min (n : ℕ) (min count maxRead))) := by
  induction answers with
  | nil => cases h
  | cons a answers ih =>
    cases a with
    | interrupted => exact ih h
    | failed => cases h
    | upto m =>
      cases h
      rfl

/-- What a `read` that delivers was answered. -/
theorem readAgain_some {count : ℕ} {answers as : List Answer} {stream bytes s : List Byte}
    (h : readAgain count answers stream = some (some bytes, as, s)) :
    ∃ n : ℕ+, pending answers = .upto n :: as ∧ bytes = stream.take (min (n : ℕ) (min count maxRead)) ∧
      s = stream.drop (min (n : ℕ) (min count maxRead)) := by
  induction answers with
  | nil => cases h
  | cons a answers ih =>
    cases a with
    | interrupted => exact ih h
    | failed => cases h
    | upto n =>
      cases h
      exact ⟨n, rfl, rfl, rfl⟩

/-- A length from 32768 on is delivered, and behind it more than `maxlen` bytes at once. -/
def Floods (maxlen : ℕ) (answers : List Answer) (stream : List Byte) : Prop :=
  ∃ (n m : ℕ+) (as bs : List Answer) (hi lo : Byte) (s : List Byte), pending answers = .upto n :: as ∧
    pending as = .upto m :: bs ∧ 2 ≤ (n : ℕ) ∧ stream = hi :: lo :: s ∧ 128 ≤ hi.toNat ∧
    maxlen < min (m : ℕ) (min maxRead s.length)

theorem ntohs_pair (hi lo : Byte) :
    ntohs [hi, lo] = if hi.toNat < 128 then 256 * (hi.toNat : ℤ) + lo.toNat else 256 * (hi.toNat : ℤ) + lo.toNat - 65536 := by
  have := lo.toNat_lt
  unfold ntohs
  dsimp only
  split <;> split <;> omega

theorem sizeT_of_neg {n : ℤ} (h : n < 0) (hn : -65536 ≤ n) : maxRead ≤ sizeT n := by
  rw [maxRead_eq, sizeT, if_pos h]
  omega

/-- Two bytes of a stream, out of at most two. -/
theorem two_bytes {stream : List Byte} {k : ℕ} (h : (stream.take k).length = 2) (hk : k ≤ 2) :
    ∃ hi lo s, stream = hi :: lo :: s ∧ k = 2 := by
  rw [List.length_take] at h
  match stream with
  | [] => simp at h
  | [_] =>
    rw [List.length_singleton] at h
    omega
  | hi :: lo :: s => exact ⟨hi, lo, s, rfl, by omega⟩

/-- Only a negative length asks for more than `maxlen` bytes. -/
theorem high_of_long {maxlen k n : ℕ} {hi lo : Byte} (hle : ¬ntohs [hi, lo] > maxlen)
    (hlong : ¬min (min k (min (sizeT (ntohs [hi, lo])) maxRead)) n ≤ maxlen) :
    128 ≤ hi.toNat ∧ maxlen < min k (min maxRead n) := by
  refine ⟨?_, by omega⟩
  by_contra hhi
  have hpair : ntohs [hi, lo] = 256 * (hi.toNat : ℤ) + lo.toNat := by
    rw [ntohs_pair, if_pos (Nat.lt_of_not_le hhi)]
  have hsize : sizeT (ntohs [hi, lo]) ≤ maxlen := by
    rw [sizeT, if_neg (by omega)]
    omega
  omega

/-- A call stores more than `maxlen` bytes just if it is flooded. -/
theorem stored_iff {maxlen : ℕ} {answers : List Answer} {stream : List Byte} :
    (∀ c, netRecv maxlen answers stream = some c → c.buff.length ≤ maxlen) ↔ ¬Floods maxlen answers stream := by
  constructor
  · rintro h ⟨n, m, as, bs, hi, lo, s, has, hbs, hn, rfl, hhi, hlong⟩
    have hmin : min (n : ℕ) (min 2 maxRead) = 2 := by
      rw [maxRead_eq]
      omega
    have hread := @readAgain_upto 2 answers as n has (hi :: lo :: s)
    rw [hmin] at hread
    have hneg : ntohs [hi, lo] < 0 ∧ -65536 ≤ ntohs [hi, lo] := by
      have := hi.toNat_lt
      have := lo.toNat_lt
      rw [ntohs_pair, if_neg (by omega)]
      omega
    have hsize := sizeT_of_neg hneg.1 hneg.2
    have hread' := @readAgain_upto (sizeT (ntohs [hi, lo])) as bs m hbs s
    have hmin' : min (sizeT (ntohs [hi, lo])) maxRead = maxRead := by omega
    rw [hmin'] at hread'
    have hle : ¬ntohs [hi, lo] > maxlen := by omega
    have hne : ((s.take (min (m : ℕ) maxRead)).length : ℤ) ≠ ntohs [hi, lo] := by omega
    have hrecv : netRecv maxlen answers (hi :: lo :: s) =
        some ⟨ptrxError, s.take (min (m : ℕ) maxRead), bs, s.drop (min (m : ℕ) maxRead)⟩ := by
      simp only [netRecv, hread, List.take_succ_cons, List.take_zero, List.drop_succ_cons, List.drop_zero]
      rw [if_neg (by simp), if_neg hle, hread']
      dsimp only
      rw [if_pos hne]
    have hlen := h _ hrecv
    rw [List.length_take] at hlen
    omega
  · intro h c hc
    rw [netRecv] at hc
    match hread : readAgain 2 answers stream with
    | none => rw [hread] at hc; cases hc
    | some (none, as, s) =>
      rw [hread] at hc
      cases hc
      exact Nat.zero_le _
    | some (some templen, as, s) =>
      rw [hread] at hc
      dsimp only at hc
      split at hc
      case isTrue =>
        cases hc
        exact Nat.zero_le _
      case isFalse hlen =>
        split at hc
        case isTrue =>
          cases hc
          exact Nat.zero_le _
        case isFalse hle =>
          match hread' : readAgain (sizeT (ntohs templen)) as s with
          | none => rw [hread'] at hc; cases hc
          | some (none, bs, s') =>
            rw [hread'] at hc
            cases hc
            exact Nat.zero_le _
          | some (some buff, bs, s') =>
            have hbuff : c.buff = buff := by
              rw [hread'] at hc
              dsimp only at hc
              split at hc <;> cases hc <;> rfl
            obtain ⟨n, has, rfl, rfl⟩ := readAgain_some hread
            obtain ⟨m, hbs, rfl, rfl⟩ := readAgain_some hread'
            rw [hbuff]
            by_contra hlong
            obtain ⟨hi, lo, t, rfl, hk⟩ := two_bytes (not_not.mp hlen) (by omega)
            rw [hk, List.take_succ_cons, List.take_succ_cons, List.take_zero] at hle hlong
            rw [List.drop_succ_cons, List.drop_succ_cons, List.drop_zero, List.length_take] at hlong
            obtain ⟨hhi, hmore⟩ := high_of_long hle hlong
            exact h ⟨n, m, _, bs, hi, lo, t, has, hbs, hk.symm.le.trans (Nat.min_le_left _ _), rfl, hhi, hmore⟩

/-! ## Both together -/

/-- The records of successful calls are received just if they are shorter than 32768 bytes and delivered whole; and a call
stores at most `maxlen` bytes just if it is not flooded. -/
theorem records_iff {maxlen : ℕ} (h65535 : maxlen ≤ 65535) :
    (∀ (sendings : List Sending) (answers : List Answer),
      (∀ s ∈ sendings, s.buff.length ≤ maxlen ∧ (netSend s).2 = true) → Answer.failed ∉ answers →
      2 * sendings.length ≤ (limits answers).length →
      (Received maxlen (sendings.map Sending.buff) answers (sendings.flatMap fun s => (netSend s).1) ↔
        (∀ s ∈ sendings, s.buff.length < 32768) ∧ Whole (sendings.map Sending.buff) (limits answers))) ∧
    ∀ (answers : List Answer) (stream : List Byte),
      (∀ c, netRecv maxlen answers stream = some c → c.buff.length ≤ maxlen) ↔ ¬Floods maxlen answers stream := by
  refine ⟨?_, fun answers stream => stored_iff⟩
  intro sendings answers hsend hok henough
  have hmax : ∀ r ∈ sendings.map Sending.buff, r.length ≤ maxlen := by
    intro r hr
    obtain ⟨s, hs, rfl⟩ := List.mem_map.mp hr
    exact (hsend s hs).1
  rw [sent_encode fun s hs => (hsend s hs).2, received_encode h65535 hmax hok (by simpa using henough)]
  simp

/-- A record of one byte, delivered whole after an interruption. -/
theorem records_one :
    Received 4 [[97]] [.interrupted, .upto 2, .upto 1] (netSend ⟨[97], some 2, some 1⟩).1 :=
  ((records_iff (by decide)).1 [⟨[97], some 2, some 1⟩] [.interrupted, .upto 2, .upto 1] (by decide) (by decide)
    (by decide)).mpr ⟨by decide, by decide, by decide, trivial⟩

/-- The length is delivered byte by byte. -/
theorem not_received_bytewise :
    ¬((∀ (maxlen : ℕ) (sendings : List Sending) (answers : List Answer), maxlen ≤ 65535 →
      (∀ s ∈ sendings, s.buff.length ≤ maxlen ∧ (netSend s).2 = true) → Answer.failed ∉ answers →
      2 * sendings.length ≤ (limits answers).length →
      Received maxlen (sendings.map Sending.buff) answers (sendings.flatMap fun s => (netSend s).1)) ∧
    ∀ (maxlen : ℕ) (answers : List Answer) (stream : List Byte) (c : Call), netRecv maxlen answers stream = some c →
      c.buff.length ≤ maxlen) := by
  rintro ⟨h, -⟩
  have hrecv := h 4 [⟨[97], some 2, some 1⟩] [.upto 1, .upto 1, .upto 1] (by decide) (by decide) (by decide) (by decide)
  revert hrecv
  unfold Received
  decide

end CodingExercises.Peotrix
