import CodingExercises.Tftp.State

/-!
# TFTP: round-trip timing

`server/rtt.c` and `client/rtt_cli.c`, which are the same code: the retransmission timeout is estimated from the
round-trip times of packets that were sent once, and backed off while packets are sent again.

- `rttStart_fresh` and `rttStart_backoff` say what `rtt_start` returns before and after the first timeout;
- `rttTimeout_fst` says when `rtt_timeout` gives up.
-/

namespace CodingExercises.Tftp

/-- `RTT_RXTMIN`: least timeout, in seconds. -/
def rttRxtmin : Int := 2

/-- `RTT_RXTMAX`: greatest timeout, in seconds. -/
def rttRxtmax : Int := 120

/-- `RTT_MAXNREXMT`: how often a packet is sent again. -/
def rttMaxnrexmt : Int := 4

/-- `exp_backoff[]`, indexed by `rtt_nrexmt`. -/
def expBackoff : List Int := [1, 2, 4, 8, 16]

/-- The conversion of a `float` to an `int`, towards zero. -/
def truncate (q : ℚ) : Int := q.num.tdiv q.den

/-- `rtt_init`: the first timeout is `srtt + 2 * rttdev`, three seconds. -/
def rttInit (ptr : RttStruct) : RttStruct := { ptr with rtt := 0, srtt := 0, rttdev := 3 / 2, nxtrto := 0 }

/-- `rtt_newpack`. -/
def rttNewpack (ptr : RttStruct) : RttStruct := { ptr with nrexmt := 0 }

/-- The timeout that the estimators give, between the two limits. -/
def estimate (ptr : RttStruct) : Int :=
  let rexmt := truncate (ptr.srtt + 2 * ptr.rttdev + 1 / 2)
  if rexmt < rttRxtmin then rttRxtmin else if rttRxtmax < rexmt then rttRxtmax else rexmt

/-- `rtt_start`: the value for `alarm()`, when the clock shows `now`. -/
def rttStart (now : Int) (ptr : RttStruct) : Int × RttStruct :=
  if 0 < ptr.nrexmt then
    let currto := toShort (ptr.currto * expBackoff.getD ptr.nrexmt.toNat 0)
    (currto, { ptr with currto := currto })
  else if 0 < ptr.nxtrto then (ptr.nxtrto, { ptr with timeStart := now, currto := ptr.nxtrto, nxtrto := 0 })
  else (estimate ptr, { ptr with timeStart := now, currto := estimate ptr })

/-- `rtt_stop`, when the clock shows `now`. -/
def rttStop (now : Int) (ptr : RttStruct) : RttStruct :=
  if 0 < ptr.nrexmt then { ptr with nxtrto := ptr.currto }
  else
    let rtt : ℚ := ((now - ptr.timeStart : Int) : ℚ) / 1000000
    let err := rtt - ptr.srtt
    let size := if err < 0 then -err else err
    { ptr with
      nxtrto := 0
      timeStop := now
      rtt := rtt
      srtt := ptr.srtt + err / 8
      rttdev := ptr.rttdev + (size - ptr.rttdev) / 4 }

/-- `rtt_timeout`: `-1` to give up, else 0. -/
def rttTimeout (now : Int) (ptr : RttStruct) : Int × RttStruct :=
  let ptr := rttStop now ptr
  let nrexmt := toShort (ptr.nrexmt + 1)
  (if rttMaxnrexmt < nrexmt then -1 else 0, { ptr with nrexmt := nrexmt })

@[simp] theorem rttStart_nrexmt (now : Int) (ptr : RttStruct) : (rttStart now ptr).2.nrexmt = ptr.nrexmt := by
  unfold rttStart; split
  · rfl
  · split <;> rfl

@[simp] theorem rttStop_nrexmt (now : Int) (ptr : RttStruct) : (rttStop now ptr).nrexmt = ptr.nrexmt := by
  unfold rttStop; split <;> rfl

@[simp] theorem rttStop_currto (now : Int) (ptr : RttStruct) : (rttStop now ptr).currto = ptr.currto := by
  unfold rttStop; split <;> rfl

/-- What `rtt_start` returns is the timeout it stores. -/
theorem rttStart_fst (now : Int) (ptr : RttStruct) : (rttStart now ptr).1 = (rttStart now ptr).2.currto := by
  unfold rttStart; split
  · rfl
  · split <;> rfl

/-- The estimate lies between the limits. -/
theorem estimate_bounds (ptr : RttStruct) : 2 ≤ estimate ptr ∧ estimate ptr ≤ 120 := by
  unfold estimate rttRxtmin rttRxtmax
  dsimp only
  split
  · omega
  · split <;> omega

/-- Before a timeout `rtt_start` returns a positive value. -/
theorem rttStart_fresh (now : Int) (ptr : RttStruct) (h : ptr.nrexmt ≤ 0) : 0 < (rttStart now ptr).1 := by
  have hb := (estimate_bounds ptr).1
  unfold rttStart
  split
  · omega
  · split <;> dsimp only <;> omega

/-- A power of two for each number of timeouts. -/
theorem expBackoff_getD {n : Nat} (h : n ≤ 4) : expBackoff.getD n 0 = 2 ^ n :=
  (by decide : ∀ m < 5, expBackoff.getD m 0 = 2 ^ m) n (by omega)

/-- After `n` timeouts `rtt_start` multiplies the timeout by `2 ^ n`, in 16 bits. -/
theorem rttStart_backoff (now : Int) (ptr : RttStruct) {n : Nat} (hn : ptr.nrexmt = n) (h0 : 0 < n) (h4 : n ≤ 4) :
    (rttStart now ptr).1 = toShort (ptr.currto * 2 ^ n) := by
  have hp : 0 < ptr.nrexmt := by omega
  have hi : ptr.nrexmt.toNat = n := by omega
  simp only [rttStart, hp, if_true, hi, expBackoff_getD h4]

/-- `rtt_timeout` counts the timeout, -/
theorem rttTimeout_nrexmt (now : Int) (ptr : RttStruct) {n : Nat} (hn : ptr.nrexmt = n) (h4 : n ≤ 4) :
    (rttTimeout now ptr).2.nrexmt = (n + 1 : Nat) := by
  simp only [rttTimeout, rttStop_nrexmt, hn, toShort]
  rw [Int.bmod_eq_of_le] <;> omega

/-- and gives up at the fifth. -/
theorem rttTimeout_fst (now : Int) (ptr : RttStruct) {n : Nat} (hn : ptr.nrexmt = n) (h4 : n ≤ 4) :
    (rttTimeout now ptr).1 = if n = 4 then -1 else 0 := by
  have h := rttTimeout_nrexmt now ptr hn h4
  simp only [rttTimeout] at h ⊢
  rw [h]
  by_cases hlast : n = 4
  · subst hlast; rfl
  · have hle : ¬ rttMaxnrexmt < ((n + 1 : Nat) : Int) := by unfold rttMaxnrexmt; omega
    rw [if_neg hlast, if_neg hle]

theorem rttTimeout_currto (now : Int) (ptr : RttStruct) : (rttTimeout now ptr).2.currto = ptr.currto := by
  simp [rttTimeout]

end CodingExercises.Tftp
