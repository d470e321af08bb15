import CodingExercises.PeotrixNginx.Gmtime
import CodingExercises.PeotrixNginx.Vslprintf

/-!
# Peotrix on nginx: cached times

`ptrx_time_init` and `ptrx_time_update` of `core/ptrx_times.c`. The names that the file uses and does not declare are those of the
arrays of strings behind the slots (`PTRX_TIMES_SLOTS` is `PTRX_TIME_SLOT`); the strings are fields of their slot here.

`ptrx_sprintf`, `week`, `months` and `localtime` are not part of the program (`Env`).
-/

namespace CodingExercises.PeotrixNginx

open Lib

/-! ## Texts -/

def chars (s : List Char) : List Byte := s.map ch

/-- `"%s, %02d %s %4d %02d:%02d:%02d GMT"`. -/
def httpFormat : List Byte :=
  chars ['%', 's', ',', ' ', '%', '0', '2', 'd', ' ', '%', 's', ' ', '%', '4', 'd', ' ', '%', '0', '2', 'd', ':', '%', '0', '2',
    'd', ':', '%', '0', '2', 'd', ' ', 'G', 'M', 'T']

/-- `"%4d/%02d/%02d %02d:%02d:%02d"`. -/
def errLogFormat : List Byte :=
  chars ['%', '4', 'd', '/', '%', '0', '2', 'd', '/', '%', '0', '2', 'd', ' ', '%', '0', '2', 'd', ':', '%', '0', '2', 'd', ':',
    '%', '0', '2', 'd']

/-- `"%02d/%s/%d:%02d:%02d:%02d %c%02d%02d"`. -/
def httpLogFormat : List Byte :=
  chars ['%', '0', '2', 'd', '/', '%', 's', '/', '%', 'd', ':', '%', '0', '2', 'd', ':', '%', '0', '2', 'd', ':', '%', '0', '2',
    'd', ' ', '%', 'c', '%', '0', '2', 'd', '%', '0', '2', 'd']

/-- `"%4d-%02d-%02dT%02d:%02d:%02d%c%02d:%02d"`. -/
def iso8601Format : List Byte :=
  chars ['%', '4', 'd', '-', '%', '0', '2', 'd', '-', '%', '0', '2', 'd', 'T', '%', '0', '2', 'd', ':', '%', '0', '2', 'd', ':',
    '%', '0', '2', 'd', '%', 'c', '%', '0', '2', 'd', ':', '%', '0', '2', 'd']

/-! ## The slots -/

/-- A `ptrx_time_t` and the strings of its slot. -/
structure Slot where
  sec : ℤ
  msec : ℕ
  gmtoff : ℤ
  http : List Byte
  errLog : List Byte
  httpLog : List Byte
  iso8601 : List Byte
deriving DecidableEq

/-- The variables of the file; a pointer is the slot that it points into. -/
structure Times where
  slot : Fin 64
  cachedTime : Fin 64 → Slot
  currentMsec : ℕ
  ptrxCachedTime : Option (Fin 64)
  cachedHttpTime : Option (Fin 64)
  cachedErrLogTime : Option (Fin 64)
  cachedHttpLogTime : Option (Fin 64)
  cachedHttpLogIso8601 : Option (Fin 64)

/-- What is not part of the program. The months of `localtime` are counted from 0, and its years from 1900. -/
structure Env where
  sprintf : List Byte → List Arg → List Byte
  week : ℕ → List Byte
  months : ℕ → List Byte
  localtime : ℤ → Tm

/-- An update: whether it obtains the lock, and the clock. -/
structure Update where
  locked : Bool
  sec : ℤ
  usec : ℕ

/-- An `int` as an argument. -/
def int (x : ℤ) : Arg := .int (BitVec.ofInt 32 x)

/-- A string as an argument. -/
def str (s : List Byte) : Arg := .chars (s ++ [0])

namespace Env

variable (env : Env)

/-- `ptrx_localtime`. -/
def ptrxLocaltime (s : ℤ) : Tm :=
  let t := env.localtime s
  { t with mon := t.mon + 1, year := t.year + 1900 }

/-- The strings for a second, in a slot with this offset. -/
def fill (c : Slot) : Slot :=
  let gmt := gmtime c.sec
  let tm := env.ptrxLocaltime c.sec
  let sign := if c.gmtoff < 0 then '-' else '+'
  { c with
    http := env.sprintf httpFormat
      [str (env.week gmt.wday.toNat), int gmt.mday, str (env.months (gmt.mon - 1).toNat), int gmt.year, int gmt.hour, int gmt.min,
        int gmt.sec]
    errLog := env.sprintf errLogFormat [int tm.year, int tm.mon, int tm.mday, int tm.hour, int tm.min, int tm.sec]
    httpLog := env.sprintf httpLogFormat
      [int tm.mday, str (env.months (tm.mon - 1).toNat), int tm.year, int tm.hour, int tm.min, int tm.sec, int sign.toNat,
        int |c.gmtoff.tdiv 60|, int |c.gmtoff.tmod 60|]
    iso8601 := env.sprintf iso8601Format
      [int tm.year, int tm.mon, int tm.mday, int tm.hour, int tm.min, int tm.sec, int sign.toNat, int |c.gmtoff.tdiv 60|,
        int |c.gmtoff.tmod 60|] }

/-- `ptrx_time_update`. -/
def timeUpdate (st : Times) (u : Update) : Times :=
  if u.locked then
    let msec := u.usec / 1000
    let st := { st with currentMsec := ((u.sec % 2 ^ 32).toNat * 1000 + msec) % 2 ^ 32 }
    let tp := st.cachedTime st.slot
    if tp.sec = u.sec then { st with cachedTime := Function.update st.cachedTime st.slot { tp with msec := msec } }
    else
      let slot := if st.slot = 63 then 0 else st.slot + 1
      let tp := st.cachedTime slot
      { st with
        slot := slot
        cachedTime := Function.update st.cachedTime slot (env.fill { tp with sec := u.sec, msec := msec })
        ptrxCachedTime := some slot
        cachedHttpTime := some slot
        cachedErrLogTime := some slot
        cachedHttpLogTime := some slot
        cachedHttpLogIso8601 := some slot }
  else st

/-- Updates one behind the other. -/
def run (st : Times) (us : List Update) : Times := us.foldl env.timeUpdate st

end Env

/-- What `ptrx_time_init` leaves to its update. -/
def Times.start : Times :=
  ⟨0, fun _ => ⟨0, 0, 0, [], [], [], []⟩, 0, some 0, none, none, none, none⟩

end CodingExercises.PeotrixNginx
