import CodingExercises.Coreutils.Xstrtol

/-!
# coreutils: user and group

`parse_with_separator` and `parse_user_spec` of `lib/userspec.c`. `uid_t` and `gid_t` have 32 bits, `unsigned long` has 64, and
`MAXUID` and `MAXGID` are the largest ids.

`numericId_eq_some` says which strings are numbers for it. A specification is parsed with a separator or without one, and each
way succeeds just with what is documented of its parts (`parseWithSeparator_spec`).
-/

namespace CodingExercises.Coreutils.UserSpec

/-- An entry of the user database. -/
structure Passwd where
  uid : UInt32
  gid : UInt32
deriving DecidableEq

/-- The databases: a user by name, a group by name, and the name of a group. -/
structure Database where
  getpwnam : List Byte → Option Passwd
  getgrnam : List Byte → Option UInt32
  getgrgid : UInt32 → Option (List Byte)

inductive SpecError
  | invalidUser
  | invalidGroup
  | badSpec
deriving DecidableEq

/-- `*uid`, `*gid`, `*username` and `*groupname`. -/
structure Out where
  uid : UInt32
  gid : UInt32
  username : Option (List Byte)
  groupname : Option (List Byte)
deriving DecidableEq

/-- `(uid_t) -1` and `(gid_t) -1`. -/
def noId : UInt32 := 0xffffffff

/-- `MAXUID` and `MAXGID`. -/
def maxId : ℤ := 2 ^ 32 - 1

/-- `umaxtostr`. -/
def umaxtostr (n : UInt32) : List Byte := (Nat.toDigits 10 n.toNat).map byte

/-- The id of a string that is not in the database. -/
def numericId (s : List Byte) : Option UInt32 :=
  let x := xstrtol .ulong s 10 (some [])
  if x.err = longintOk then
    x.val.bind fun tmp =>
      if tmp ≤ maxId ∧ UInt32.ofNat tmp.toNat ≠ noId then some (UInt32.ofNat tmp.toNat) else none
  else none

/-- A string that begins with `+` is not looked up. -/
def lookup {α : Type} (get : List Byte → Option α) (s : List Byte) : Option α :=
  if s.head? = some (byte '+') then none else get s

section

variable (db : Database)

/-- The user part, with `g` and `separator != NULL`: `unum`, `gnum` and `gname`. -/
def parseUser (out : Out) (u : Option (List Byte)) (g : Option (List Byte)) (separated : Bool) :
    Except SpecError (UInt32 × UInt32 × Option (List Byte)) :=
  match u with
  | none => .ok (out.uid, out.gid, none)
  | some u =>
    match lookup db.getpwnam u with
    | none =>
      if separated && g.isNone then .error .badSpec
      else
        match numericId u with
        | some id => .ok (id, out.gid, none)
        | none => .error .invalidUser
    | some pwd =>
      if g.isNone && separated then .ok (pwd.uid, pwd.gid, some ((db.getgrgid pwd.gid).getD (umaxtostr pwd.gid)))
      else .ok (pwd.uid, out.gid, none)

/-- The group part: `gnum` and `gname`. -/
def parseGroup (gnum : UInt32) (gname : Option (List Byte)) (g : Option (List Byte)) :
    Except SpecError (UInt32 × Option (List Byte)) :=
  match g with
  | none => .ok (gnum, gname)
  | some g =>
    match lookup db.getgrnam g with
    | none =>
      match numericId g with
      | some id => .ok (id, some g)
      | none => .error .invalidGroup
    | some gid => .ok (gid, some g)

/-- `U`: the user part. -/
def userPart (spec : List Byte) (separator : Option ℕ) : Option (List Byte) :=
  match separator with
  | none => if spec ≠ [] then some spec else none
  | some ulen => if ulen ≠ 0 then some (spec.take ulen) else none

/-- `G`: the group part. -/
def groupPart (spec : List Byte) (separator : Option ℕ) : Option (List Byte) :=
  match separator with
  | none => none
  | some ulen => if spec.drop (ulen + 1) = [] then none else some (spec.drop (ulen + 1))

/-- `parse_with_separator`: the message and the out-parameters. -/
def parseWithSeparator (spec : List Byte) (separator : Option ℕ) (out : Out) : Option SpecError × Out :=
  let u := userPart spec separator
  let g := groupPart spec separator
  match parseUser db out u g separator.isSome with
  | .error e => (some e, { out with username := none, groupname := none })
  | .ok (unum, gnum, gname) =>
    match parseGroup db gnum gname g with
    | .error e => (some e, { out with username := none, groupname := none })
    | .ok (gnum, gname) => (none, ⟨unum, gnum, u, gname⟩)

/-- `strchr`: where the character is. -/
def strchr (s : List Byte) (c : Byte) : Option ℕ := s.findIdx? (· = c)

/-- `parse_user_spec`. -/
def parseUserSpec (spec : List Byte) (out : Out) : Option SpecError × Out :=
  let colon := strchr spec (byte ':')
  let (errorMsg, out) := parseWithSeparator db spec colon out
  if colon.isNone ∧ errorMsg.isSome then
    match strchr spec (byte '.') with
    | none => (errorMsg, out)
    | some dot =>
      let (e, out) := parseWithSeparator db spec (some dot) out
      (if e.isNone then none else errorMsg, out)
  else (errorMsg, out)

end

/-! ## What is documented -/

/-- The string is a decimal number, which may have blanks and a plus sign in front, and it is an id. -/
def IsNumber (s : List Byte) (id : UInt32) : Prop :=
  ∃ d : Decimal .ulong, d.bytes = s ∧ d.rest.bytes = [] ∧ d.number = id.toNat ∧ id ≠ noId

/-- The id of a part: that of the entry in the database, if the part is to be looked up and has one, and else a number. -/
def PartId (get : List Byte → Option UInt32) (s : List Byte) (id : UInt32) : Prop :=
  if s.head? ≠ some (byte '+') ∧ (get s).isSome then get s = some id else IsNumber s id

/-- The user of a name. -/
def Database.uid (db : Database) (name : List Byte) : Option UInt32 := (db.getpwnam name).map Passwd.uid

/-- The id and the name of the login group of a known user. -/
def LoginGroup (db : Database) (u : List Byte) (gid : UInt32) (groupname : Option (List Byte)) : Prop :=
  ∃ pwd, u.head? ≠ some (byte '+') ∧ db.getpwnam u = some pwd ∧ gid = pwd.gid ∧
    groupname = some ((db.getgrgid pwd.gid).getD (umaxtostr pwd.gid))

/-- What `*uid` becomes for a user part. -/
def UserId (db : Database) (out : Out) : Option (List Byte) → UInt32 → Prop
  | none, uid => uid = out.uid
  | some u, uid => PartId db.uid u uid

/-- What `*gid` and `*groupname` become for a user part, a group part and with or without a separator. -/
def GroupId (db : Database) (out : Out) : Option (List Byte) → Option (List Byte) → Bool → UInt32 → Option (List Byte) → Prop
  | _, some g, _, gid, groupname => PartId db.getgrnam g gid ∧ groupname = some g
  | some u, none, true, gid, groupname => LoginGroup db u gid groupname
  | _, none, _, gid, groupname => gid = out.gid ∧ groupname = none

/-- What the ids and the names become for a specification with these parts. -/
structure Documented (db : Database) (out : Out) (user group : Option (List Byte)) (separated : Bool) (r : Out) : Prop where
  username : r.username = user
  uid : UserId db out user r.uid
  gid : GroupId db out user group separated r.gid r.groupname

/-- The whole specification is a user, or it is empty. -/
def ValidUser (db : Database) (spec : List Byte) : Prop := spec = [] ∨ ∃ id, PartId db.uid spec id

/-- The separator: a colon if there is one, and else a dot, if the whole specification is not a user. -/
inductive Separator (db : Database) (spec : List Byte) : Option ℕ → Prop
  | colon {i} : strchr spec (byte ':') = some i → Separator db spec (some i)
  | whole : strchr spec (byte ':') = none → ValidUser db spec → Separator db spec none
  | dot {i} : strchr spec (byte ':') = none → ¬ValidUser db spec → strchr spec (byte '.') = some i →
      Separator db spec (some i)

/-! ## Numbers -/

/-- Without suffixes, nothing may follow the number. -/
theorem xstrtolSuffix_ok {t : StrtolT} {p : List Byte} {tmp : ℤ} {err : StrtolError}
    (h : (xstrtolSuffix t (some []) p tmp err).err = longintOk) : p = [] := by
  cases p with
  | nil => rfl
  | cons c rest =>
    rw [xstrtolSuffix, if_pos List.not_mem_nil] at h
    exact absurd (UInt32.or_eq_zero_iff.1 h).2 (by decide)

/-- A string that is read as a number is one. -/
theorem exists_decimal {s : List Byte} (h : (xstrtol .ulong s 10 (some [])).err = longintOk) :
    ∃ d : Decimal .ulong, d.bytes = s ∧ d.rest.bytes = [] := by
  rw [xstrtol] at h
  split at h
  · exact absurd h (by decide)
  next hminus =>
  have hminus' : (s.dropWhile isspace).head? ≠ some (byte '-') := fun hm => hminus ⟨rfl, hm⟩
  have hend : (strtol .ulong s 10).2.1 = [] ∧ (strtol .ulong s 10).2.1 ≠ s := by
    dsimp only at h
    split at h
    · split at h
      · next hc =>
        obtain ⟨c, -, hc⟩ := hc
        cases hc
      · exact absurd h (show longintInvalid ≠ longintOk by decide)
    · next hne => exact ⟨xstrtolSuffix_ok h, hne⟩
  obtain ⟨digits, sign, hsubject, hsign, hread⟩ : ∃ digits sign, s.dropWhile isspace = Sign.bytes sign ++ digits ∧
      sign ≠ .minus ∧ (if (s.dropWhile isspace).head? = some (byte '-') ∨ (s.dropWhile isspace).head? = some (byte '+') then
        (s.dropWhile isspace).tail else s.dropWhile isspace) = digits := by
    cases hs : s.dropWhile isspace with
    | nil => exact ⟨[], .none, rfl, by decide, rfl⟩
    | cons c subject =>
      by_cases hplus : c = byte '+'
      · exact ⟨subject, .plus, by rw [hplus]; rfl, by decide, if_pos (.inr (congrArg some hplus))⟩
      · refine ⟨c :: subject, .none, rfl, by decide, if_neg ?_⟩
        rintro (hc | hc)
        · exact hminus' (hs ▸ hc)
        · exact hplus (Option.some.inj hc)
  have hstrtol : (strtol .ulong s 10).2.1 =
      if digits.head?.any (isDigit 10) then digits.dropWhile (isDigit 10) else s := by
    unfold strtol
    simp only [hread, Decimal.prefixed_ten]
    split
    · split
      · next hf => cases hf
      · split <;> rfl
    · rfl
  rw [hstrtol] at hend
  split at hend
  · next hdigit =>
    obtain ⟨ds, hds⟩ := exists_digits (List.dropWhile_eq_nil_iff.1 hend.1)
    have hne : ds ≠ [] := by
      rintro rfl
      rw [← hds] at hdigit
      cases hdigit
    refine ⟨⟨s.takeWhile isspace, fun c hc => List.mem_takeWhile_imp hc, sign, fun h => absurd h hsign, ds, hne,
      ⟨[], List.not_mem_nil⟩, fun c hc => by cases hc⟩, ?_, rfl⟩
    rw [Decimal.bytes, List.append_nil, hds, ← hsubject, List.takeWhile_append_dropWhile]
  · exact absurd rfl hend.2

/-- An unsigned number has no minus sign. -/
theorem number_nonneg (d : Decimal .ulong) : 0 ≤ d.number := by
  have hplus : d.sign ≠ .minus := fun h => absurd (d.sign_signed h) (by decide)
  rw [Decimal.number, if_neg hplus]
  exact Int.natCast_nonneg _

theorem numericId_decimal (d : Decimal .ulong) (hrest : d.rest.bytes = []) (id : UInt32) :
    numericId d.bytes = some id ↔ d.number = id.toNat ∧ id ≠ noId := by
  have hx : xstrtol .ulong d.bytes 10 (some []) = ⟨(scaled .ulong d.number).2, some [], some (scaled .ulong d.number).1⟩ := by
    rw [d.xstrtol_bytes, hrest]
    rfl
  have hmin : StrtolT.minimum .ulong = 0 := rfl
  have hmax : StrtolT.maximum .ulong = 2 ^ 64 - 1 := rfl
  have hnonneg := number_nonneg d
  have hid := UInt32.toNat_lt_size id
  unfold numericId
  rw [hx]
  by_cases hout : Lib.Outside (StrtolT.minimum .ulong) (StrtolT.maximum .ulong) d.number
  · have hover : (scaled .ulong d.number).2 ≠ longintOk := by
      rw [scaled, if_pos hout]
      exact show longintOverflow ≠ longintOk by decide
    rw [if_neg hover]
    refine iff_of_false (by simp) ?_
    rintro ⟨hn, -⟩
    rw [Lib.Outside, hmin, hmax, hn] at hout
    have : UInt32.size = 2 ^ 32 := rfl
    omega
  · rw [scaled, if_neg hout, Lib.clamp_of_not_outside hout]
    obtain ⟨n, hn⟩ := Int.eq_ofNat_of_zero_le hnonneg
    simp only [if_true, Option.bind_some, hn, Int.toNat_natCast]
    constructor
    · intro h
      split at h
      · next hle =>
        obtain rfl := Option.some.inj h
        refine ⟨?_, hle.2⟩
        have hlt : n < UInt32.size := by
          have hmaxId : (n : ℤ) ≤ 2 ^ 32 - 1 := hle.1
          have : UInt32.size = 2 ^ 32 := rfl
          omega
        rw [UInt32.toNat_ofNat_of_lt' hlt]
      · cases h
    · rintro ⟨heq, hne⟩
      obtain rfl : n = id.toNat := by
        have : (n : ℤ) = (id.toNat : ℤ) := heq
        omega
      have hofNat : UInt32.ofNat id.toNat = id := UInt32.ofNat_toNat
      have hle : ((id.toNat : ℕ) : ℤ) ≤ maxId := by
        have : UInt32.size = 2 ^ 32 := rfl
        unfold maxId
        omega
      have hle' : Int.ofNat id.toNat ≤ maxId := hle
      rw [hofNat, if_pos ⟨hle', hne⟩]

/-- The numbers for `numericId`. -/
theorem numericId_eq_some {s : List Byte} {id : UInt32} : numericId s = some id ↔ IsNumber s id := by
  constructor
  · intro h
    have hok : (xstrtol .ulong s 10 (some [])).err = longintOk := by
      by_contra hne
      rw [numericId, if_neg hne] at h
      cases h
    obtain ⟨d, rfl, hrest⟩ := exists_decimal hok
    exact ⟨d, rfl, hrest, (numericId_decimal d hrest id).1 h⟩
  · rintro ⟨d, rfl, hrest, hnumber⟩
    exact (numericId_decimal d hrest id).2 hnumber

/-- The id of a part is the one that is looked up, or a number. -/
theorem partId_iff (get : List Byte → Option UInt32) (s : List Byte) (id : UInt32) :
    PartId get s id ↔ (match lookup get s with
      | some id' => id' = id
      | none => numericId s = some id) := by
  rw [PartId, lookup]
  by_cases hplus : s.head? = some (byte '+')
  · rw [if_neg (by simp [hplus]), if_pos hplus, numericId_eq_some]
  · rw [if_neg hplus]
    cases hget : get s with
    | none => rw [if_neg (by simp), numericId_eq_some]
    | some id' => rw [if_pos ⟨hplus, rfl⟩, Option.some_inj]

/-! ## Each way to parse -/

variable {db : Database} {spec : List Byte} {out : Out}

theorem lookup_uid (u : List Byte) : lookup db.uid u = (lookup db.getpwnam u).map Passwd.uid := by
  unfold lookup
  split <;> rfl

theorem parseUser_none (g : Option (List Byte)) (separated : Bool) (r : UInt32 × UInt32 × Option (List Byte)) :
    parseUser db out none g separated = .ok r ↔ r = (out.uid, out.gid, none) :=
  ⟨fun h => (Except.ok.inj h).symm, fun h => congrArg Except.ok h.symm⟩

/-- The user part, when the login group is not asked for. -/
theorem parseUser_plain {u : List Byte} {g : Option (List Byte)} {separated : Bool} (h : (g.isNone && separated) = false)
    (r : UInt32 × UInt32 × Option (List Byte)) :
    parseUser db out (some u) g separated = .ok r ↔ PartId db.uid u r.1 ∧ r.2 = (out.gid, none) := by
  obtain ⟨unum, gnum, gname⟩ := r
  have h' : (separated && g.isNone) = false := by rwa [Bool.and_comm]
  rw [partId_iff, lookup_uid]
  simp only [parseUser, h, h']
  cases lookup db.getpwnam u with
  | none =>
    cases numericId u with
    | none => simp
    | some id => simp [eq_comm]
  | some pwd => simp [eq_comm]

/-- The user part, when it is. -/
theorem parseUser_login {u : List Byte} (r : UInt32 × UInt32 × Option (List Byte)) :
    parseUser db out (some u) none true = .ok r ↔ PartId db.uid u r.1 ∧ LoginGroup db u r.2.1 r.2.2 := by
  obtain ⟨unum, gnum, gname⟩ := r
  rw [partId_iff, lookup_uid, LoginGroup, parseUser, lookup]
  by_cases hplus : u.head? = some (byte '+')
  · simp [hplus]
  · rw [if_neg hplus]
    cases db.getpwnam u with
    | none => simp
    | some pwd => simp [hplus, eq_comm]

theorem parseGroup_none (gnum : UInt32) (gname : Option (List Byte)) (r : UInt32 × Option (List Byte)) :
    parseGroup db gnum gname none = .ok r ↔ r = (gnum, gname) :=
  ⟨fun h => (Except.ok.inj h).symm, fun h => congrArg Except.ok h.symm⟩

theorem parseGroup_some {gnum : UInt32} {gname : Option (List Byte)} {g : List Byte} (r : UInt32 × Option (List Byte)) :
    parseGroup db gnum gname (some g) = .ok r ↔ PartId db.getgrnam g r.1 ∧ r.2 = some g := by
  obtain ⟨gid, name⟩ := r
  rw [partId_iff, parseGroup]
  cases lookup db.getgrnam g with
  | none =>
    cases numericId g with
    | none => simp
    | some id => simp [eq_comm]
  | some gid' => simp [eq_comm]

/-- Parsing the two parts succeeds just with what is documented of them. -/
theorem parts_iff (u g : Option (List Byte)) (separated : Bool) (uid gid : UInt32) (groupname : Option (List Byte)) :
    (∃ gnum gname, parseUser db out u g separated = .ok (uid, gnum, gname) ∧ parseGroup db gnum gname g = .ok (gid, groupname)) ↔
      UserId db out u uid ∧ GroupId db out u g separated gid groupname := by
  cases u with
  | none =>
    cases g with
    | none => cases separated <;> simp [parseUser_none, parseGroup_none, UserId, GroupId]
    | some g => simp [parseUser_none, parseGroup_some, UserId, GroupId]
  | some u =>
    cases g with
    | none =>
      cases separated with
      | false =>
        have hplain : ((none : Option (List Byte)).isNone && false) = false := rfl
        simp [parseUser_plain hplain, parseGroup_none, UserId, GroupId, and_assoc]
      | true => simp [parseUser_login, parseGroup_none, UserId, GroupId]
    | some g =>
      have hplain : ((some g).isNone && separated) = false := rfl
      simp [parseUser_plain hplain, parseGroup_some, UserId, GroupId]

/-- Parsing fails without leaving anything behind, and it succeeds just with what is documented. -/
theorem parseWithSeparator_spec (db : Database) (spec : List Byte) (out : Out) (separator : Option ℕ) (r : Out) :
    (∀ e, parseWithSeparator db spec separator out = (some e, r) →
      r = { out with username := none, groupname := none }) ∧
    (parseWithSeparator db spec separator out = (none, r) ↔
      Documented db out (userPart spec separator) (groupPart spec separator) separator.isSome r) := by
  have hdocumented : Documented db out (userPart spec separator) (groupPart spec separator) separator.isSome r ↔
      r.username = userPart spec separator ∧ ∃ gnum gname,
        parseUser db out (userPart spec separator) (groupPart spec separator) separator.isSome = .ok (r.uid, gnum, gname) ∧
          parseGroup db gnum gname (groupPart spec separator) = .ok (r.gid, r.groupname) := by
    rw [parts_iff]
    exact ⟨fun h => ⟨h.username, h.uid, h.gid⟩, fun h => ⟨h.1, h.2.1, h.2.2⟩⟩
  rw [hdocumented, parseWithSeparator]
  cases parseUser db out (userPart spec separator) (groupPart spec separator) separator.isSome with
  | error e =>
    refine ⟨fun _ h => (Prod.mk.inj h).2.symm, iff_of_false (fun h => by cases h) ?_⟩
    rintro ⟨-, gnum, gname, h, -⟩
    cases h
  | ok v =>
    obtain ⟨unum, gnum, gname⟩ := v
    dsimp only
    cases hgroup : parseGroup db gnum gname (groupPart spec separator) with
    | error e =>
      refine ⟨fun _ h => (Prod.mk.inj h).2.symm, iff_of_false (fun h => by cases h) ?_⟩
      rintro ⟨-, gnum', gname', h, h'⟩
      cases h
      rw [hgroup] at h'
      cases h'
    | ok w =>
      obtain ⟨gid, groupname⟩ := w
      refine ⟨fun _ h => (by cases h), ?_⟩
      constructor
      · intro h
        cases h
        exact ⟨rfl, gnum, gname, rfl, hgroup⟩
      · rintro ⟨hu, gnum', gname', h, h'⟩
        obtain ⟨uid', gid', username', groupname'⟩ := r
        cases h
        rw [hgroup] at h'
        cases h'
        rw [show username' = userPart spec separator from hu]

/-- The whole specification is a user when it parses without a separator. -/
theorem validUser_iff (db : Database) (spec : List Byte) (out : Out) :
    ValidUser db spec ↔ ∃ r, parseWithSeparator db spec none out = (none, r) := by
  have hspec := fun r => (parseWithSeparator_spec db spec out none r).2
  constructor
  · intro h
    by_cases hnil : spec = []
    · have huser : userPart spec none = none := by rw [userPart, if_neg (not_not.2 hnil)]
      refine ⟨{ out with username := none, groupname := none }, (hspec _).2 ?_⟩
      rw [huser]
      exact ⟨rfl, rfl, rfl, rfl⟩
    · have huser : userPart spec none = some spec := by rw [userPart, if_pos hnil]
      obtain ⟨id, hid⟩ := h.resolve_left hnil
      refine ⟨⟨id, out.gid, some spec, none⟩, (hspec _).2 ?_⟩
      rw [huser]
      exact ⟨rfl, hid, rfl, rfl⟩
  · rintro ⟨r, hr⟩
    by_cases hnil : spec = []
    · exact .inl hnil
    · have huser : userPart spec none = some spec := by rw [userPart, if_pos hnil]
      have hdoc := (hspec r).1 hr
      rw [huser] at hdoc
      exact .inr ⟨r.uid, hdoc.uid⟩

/-- What is documented does not depend on the names before. -/
theorem documented_names {user group : Option (List Byte)} {separated : Bool} {r : Out} :
    Documented db { out with username := none, groupname := none } user group separated r ↔
      Documented db out user group separated r := by
  have huser : UserId db { out with username := none, groupname := none } user r.uid ↔ UserId db out user r.uid := by
    cases user <;> rfl
  have hgroup : GroupId db { out with username := none, groupname := none } user group separated r.gid r.groupname ↔
      GroupId db out user group separated r.gid r.groupname := by
    cases user <;> cases group <;> cases separated <;> rfl
  exact ⟨fun h => ⟨h.username, huser.1 h.uid, hgroup.1 h.gid⟩, fun h => ⟨h.username, huser.2 h.uid, hgroup.2 h.gid⟩⟩

theorem parseUserSpec_colon {i : ℕ} (h : strchr spec (byte ':') = some i) :
    parseUserSpec db spec out = parseWithSeparator db spec (some i) out := by
  simp [parseUserSpec, h]

theorem parseUserSpec_whole (h : strchr spec (byte ':') = none) {o : Out}
    (hp : parseWithSeparator db spec none out = (none, o)) : parseUserSpec db spec out = (none, o) := by
  simp [parseUserSpec, h, hp]

theorem parseUserSpec_noDot (h : strchr spec (byte ':') = none) (hdot : strchr spec (byte '.') = none) {e : SpecError} {o : Out}
    (hp : parseWithSeparator db spec none out = (some e, o)) : parseUserSpec db spec out = (some e, o) := by
  simp [parseUserSpec, h, hdot, hp]

theorem parseUserSpec_dot (h : strchr spec (byte ':') = none) {i : ℕ} (hdot : strchr spec (byte '.') = some i) {e : SpecError}
    {o : Out} (hp : parseWithSeparator db spec none out = (some e, o)) :
    parseUserSpec db spec out = (if (parseWithSeparator db spec (some i) o).1.isNone then none else some e,
      (parseWithSeparator db spec (some i) o).2) := by
  simp [parseUserSpec, h, hdot, hp]

/-- When there is an error, the ids are as they were and both names are `NULL`; and there is none just when the ids and the
names are as documented, for the separator that is. -/
theorem parseUserSpec_spec (db : Database) (spec : List Byte) (out r : Out) :
    (∀ e, parseUserSpec db spec out = (some e, r) → r = { out with username := none, groupname := none }) ∧
    (parseUserSpec db spec out = (none, r) ↔ ∃ separator, Separator db spec separator ∧
      Documented db out (userPart spec separator) (groupPart spec separator) separator.isSome r) := by
  cases hcolon : strchr spec (byte ':') with
  | some i =>
    -- there is a colon: one way to parse
    obtain ⟨herror, hok⟩ := parseWithSeparator_spec db spec out (some i) r
    rw [parseUserSpec_colon hcolon]
    refine ⟨herror, hok.trans ⟨fun h => ⟨some i, .colon hcolon, h⟩, ?_⟩⟩
    rintro ⟨separator, hsep, h⟩
    cases hsep with
    | colon hi =>
      obtain rfl := Option.some.inj (hcolon.symm.trans hi)
      exact h
    | whole hno => rw [hcolon] at hno; cases hno
    | dot hno => rw [hcolon] at hno; cases hno
  | none =>
    have hvalid := validUser_iff db spec out
    have hfirst := fun r => parseWithSeparator_spec db spec out none r
    cases hp : parseWithSeparator db spec none out with
    | mk e₁ out₁ =>
    cases e₁ with
    | none =>
      have hv : ValidUser db spec := hvalid.2 ⟨out₁, hp⟩
      rw [parseUserSpec_whole hcolon hp, ← hp]
      refine ⟨(hfirst r).1, (hfirst r).2.trans ⟨fun h => ⟨none, .whole hcolon hv, h⟩, ?_⟩⟩
      rintro ⟨separator, hsep, h⟩
      cases hsep with
      | colon hi => rw [hcolon] at hi; cases hi
      | whole => exact h
      | dot _ hno => exact absurd hv hno
    | some e =>
      -- the whole is no user: a dot may be the separator
      obtain rfl := (hfirst out₁).1 e hp
      have hno : ¬ValidUser db spec := by
        intro h
        obtain ⟨r', hr'⟩ := hvalid.1 h
        rw [hp] at hr'
        cases hr'
      cases hdot : strchr spec (byte '.') with
      | none =>
        rw [parseUserSpec_noDot hcolon hdot hp]
        refine ⟨fun e' h => (Prod.mk.inj h).2.symm, iff_of_false (fun h => by cases h) ?_⟩
        rintro ⟨separator, hsep, -⟩
        cases hsep with
        | colon hi => rw [hcolon] at hi; cases hi
        | whole _ hv => exact hno hv
        | dot _ _ hi => rw [hdot] at hi; cases hi
      | some i =>
        have hsecond := fun r => parseWithSeparator_spec db spec
          { out with username := none, groupname := none } (some i) r
        have honly : (∃ separator, Separator db spec separator ∧
            Documented db out (userPart spec separator) (groupPart spec separator) separator.isSome r) ↔
            Documented db out (userPart spec (some i)) (groupPart spec (some i)) true r := by
          refine ⟨?_, fun h => ⟨some i, .dot hcolon hno hdot, h⟩⟩
          rintro ⟨separator, hsep, h⟩
          cases hsep with
          | colon hi => rw [hcolon] at hi; cases hi
          | whole _ hv => exact absurd hv hno
          | dot _ _ hi =>
            obtain rfl := Option.some.inj (hdot.symm.trans hi)
            exact h
        rw [parseUserSpec_dot hcolon hdot hp, honly, ← documented_names]
        cases hp₂ : parseWithSeparator db spec (some i) { out with username := none, groupname := none } with
        | mk e₂ out₂ =>
        cases e₂ with
        | none => exact ⟨fun e' h => (by cases h), hp₂ ▸ (hsecond r).2⟩
        | some e₂ =>
          refine ⟨fun e' h => ?_, iff_of_false (fun h => by cases h) fun h => ?_⟩
          · obtain rfl := (Prod.mk.inj h).2
            exact (hsecond out₂).1 e₂ hp₂
          · have hr := (hsecond r).2.2 h
            rw [hp₂] at hr
            cases hr

end CodingExercises.Coreutils.UserSpec
