import CodingExercises.File.CdfBounds

/-!
# file: the chains of compound documents

A compound document is a file of sectors: the sector allocation table links them, and the table, the directory, the table of
the short sectors and the stream with the short sectors lie in sectors, too. Here the parts of a document are said without
the code (`WellFormed`), and the code reads them as they are (`reads_document`): the sectors of a chain one after another. A
document with a master table that `CDF_SEC_LIMIT` does not allow is refused.
-/

namespace CodingExercises.File.Cdf

open Lib

/-! ## Documents -/

/-- The bytes of a sector. -/
def sectorAt (f : List UInt8) (h : Header) (id : ℤ) : List UInt8 := slice f ((id.toNat + 1) * h.secSize) h.secSize

/-- A sector that is in the file as a whole. -/
def Present (f : List UInt8) (h : Header) (id : ℤ) : Prop :=
  0 ≤ id ∧ id < 2 ^ 31 ∧ (id.toNat + 2) * h.secSize ≤ f.length

/-- The sector behind a sector, if the table has an entry for it. -/
def link (tab : List UInt8) (id : ℤ) : Option ℤ := (entry tab id).toOption

/-- A chain in a table, with its first sector and all of them. -/
def Chain (tab : List UInt8) (sid : ℤ) (ids : List ℤ) : Prop :=
  ids.length < cdfLoopLimit ∧ ∃ e, Linked (link tab) sid ids e ∧ e < 0

/-- The sectors of the master table, of the directory, of the table of the short sectors and of the stream of the root. -/
structure Layout where
  masters : List ℤ
  dirs : List ℤ
  shorts : List ℤ
  roots : List ℤ

/-- The numbers in a table, `n` of them from the `k`th on. -/
def numbers (tab : List UInt8) (k n : ℕ) : List ℤ := (List.range' k n).map fun k => int32 (le (slice tab (4 * k) 4))

/-- What the sectors of the master table list, up to the first negative entry. -/
def listed (f : List UInt8) (h : Header) (masters : List ℤ) : List ℤ :=
  (masters.flatMap fun mid => numbers (sectorAt f h mid) 0 h.nsatpersec).takeWhile (0 ≤ ·)

section Parts

variable (f : List UInt8) (h : Header) (l : Layout)

/-- The sectors of the sector allocation table: those in the header, and then those in the master table. -/
def satSectors : List ℤ := h.masterSat.takeWhile (0 ≤ ·) ++ listed f h l.masters

/-- The sector allocation table. -/
def satTable : List UInt8 := (satSectors f h l).flatMap (sectorAt f h)

/-- The entries of the directory in a sector. -/
def dirEntries (s : List UInt8) : List Directory :=
  (List.range' 0 (h.secSize / cdfDirectorySize)).map fun j =>
    cdfUnpackDir (slice s (j * cdfDirectorySize) cdfDirectorySize)

/-- The directory. -/
def directory : List Directory := l.dirs.flatMap fun id => dirEntries h (sectorAt f h id)

/-- The table of the short sectors. -/
def shortTable : List UInt8 := l.shorts.flatMap (sectorAt f h)

/-- The first sector of the stream of the root. -/
def rootFirst : ℤ := ((directory f h l).find? (·.type = rootStorage)).elim (-2) (·.streamFirstSector)

/-- The stream of the root, with the short sectors. -/
def rootStream : List UInt8 := l.roots.flatMap (sectorAt f h)

/-- A compound document with these parts. -/
structure WellFormed : Prop where
  le_secSizeP2 : 7 ≤ h.secSizeP2
  shortSecSizeP2_le_secSizeP2 : h.shortSecSizeP2 ≤ h.secSizeP2
  length_masters : l.masters.length = h.numSectorsInMasterSat
  masters_lt : l.masters.length < cdfLoopLimit
  masters : ∃ e, Linked (fun mid => link (sectorAt f h mid) h.nsatpersec) h.secidFirstSectorInMasterSat l.masters e ∧ e < 0
  masters_present : ∀ id ∈ l.masters, Present f h id
  sat_present : ∀ id ∈ satSectors f h l, Present f h id
  dirs : Chain (satTable f h l) h.secidFirstDirectory l.dirs
  dirs_present : ∀ id ∈ l.dirs, Present f h id
  shorts : Chain (satTable f h l) h.secidFirstSectorInShortSat l.shorts
  shorts_present : ∀ id ∈ l.shorts, Present f h id
  roots : Chain (satTable f h l) (rootFirst f h l) l.roots
  roots_present : ∀ id ∈ l.roots, Present f h id

/-- A stream that is in the document: its first sector, its length and the sectors on its chain. -/
def IsStream (sid : ℤ) (len : ℕ) (ids : List ℤ) : Prop :=
  if len < h.minSizeStandardStream then
    Chain (shortTable f h l) sid ids ∧ ∀ id ∈ ids, (id.toNat + 1) * h.shortSecSize ≤ (rootStream f h l).length
  else Chain (satTable f h l) sid ids ∧ ∀ id ∈ ids, Present f h id

/-- The bytes of the sectors of a stream. -/
def streamBytes (len : ℕ) (ids : List ℤ) : List UInt8 :=
  if len < h.minSizeStandardStream then
    ids.flatMap fun id => slice (rootStream f h l) (id.toNat * h.shortSecSize) h.shortSecSize
  else ids.flatMap (sectorAt f h)

end Parts

/-- The file is read: what is in memory is its beginning, and it is open or in memory as a whole. -/
def Source (info : Info) (f : List UInt8) : Prop :=
  (∀ buf, info.buf = some buf → buf <+: f) ∧ (info.fd = some f ∨ info.buf = some f)

/-- The tables, the directory and the streams are read as they are in the document. -/
def ReadsAs (info : Info) (f : List UInt8) (h : Header) (l : Layout) (streams : ℤ → ℕ → List ℤ → Prop) : Prop :=
  ∃ sat ssat sst, (cdfReadSat info h = .ok sat ∧ sat.len = (satSectors f h l).length ∧
      sat.tab.take (sat.len * h.secSize) = satTable f h l) ∧
    cdfReadDir info h sat = .ok (directory f h l) ∧
    (cdfReadSsat info h sat = .ok ssat ∧ ssat = ⟨shortTable f h l, l.shorts.length⟩) ∧
    cdfReadShortStream info h sat (directory f h l) = .ok sst ∧
    ∀ sid len ids, streams sid len ids →
      cdfReadSectorChain info h sat ssat sst sid len = .ok ⟨some (streamBytes f h l len ids), ids.length, len⟩

/-! ## What is given -/

/-- A value in `P` is returned. -/
def Gives {α : Type} (P : α → Prop) (r : Except Bad α) : Prop := ∃ a, r = .ok a ∧ P a

theorem Gives.bind {α β : Type} {P : α → Prop} {Q : β → Prop} {r : Except Bad α} {g : α → Except Bad β} (hr : Gives P r)
    (hg : ∀ a, P a → Gives Q (g a)) : Gives Q (r >>= g) := by
  obtain ⟨a, rfl, ha⟩ := hr
  exact hg a ha

theorem slice_eq_of_isPrefix {b tab : List UInt8} {off len : ℕ} (hb : b <+: tab) (hlen : off + len ≤ b.length) :
    slice tab off len = slice b off len := by
  obtain ⟨t, rfl⟩ := hb
  unfold slice
  rw [List.drop_append_of_le_length (by omega), List.take_append_of_le_length (by rw [List.length_drop]; omega)]

theorem entry_of_isPrefix {b tab : List UInt8} {id id' : ℤ} (hb : b <+: tab) (hentry : entry b id = .ok id') :
    entry tab id = .ok id' := by
  unfold entry at hentry ⊢
  split at hentry
  · rename_i hid
    rw [if_pos ⟨hid.1, Nat.le_trans hid.2 hb.length_le⟩, slice_eq_of_isPrefix hb hid.2]
    exact hentry
  · cases hentry

/-- The first `i` sectors of a block of `N` bytes are these bytes. -/
structure Filled (size N : ℕ) (tab : List UInt8) (i : ℕ) (b : List UInt8) : Prop where
  isPrefix : b <+: tab
  length_eq : b.length = i * size
  length_tab : tab.length = N

section Filled

variable {size N i : ℕ} {tab b s : List UInt8}

theorem Filled.nil (htab : tab.length = N) : Filled size N tab 0 [] := ⟨List.nil_prefix, by simp, htab⟩

/-- A block that is filled up. -/
theorem Filled.eq (hfilled : Filled size N tab i b) (hN : N = i * size) : tab = b :=
  (hfilled.isPrefix.eq_of_length (by rw [hfilled.length_eq, hfilled.length_tab, hN])).symm

theorem store_gives (hfilled : Filled size N tab i b) (hs : s.length = size) (hroom : i * size + size ≤ N) :
    Gives (fun tab' => Filled size N tab' (i + 1) (b ++ s)) (store tab (i * size) s) := by
  have hstore := store_eq tab (i * size) s (by rw [hs, hfilled.length_tab]; exact hroom)
  refine ⟨_, hstore, ?_, ?_, (length_store hstore).trans hfilled.length_tab⟩
  · rw [← hfilled.length_eq, List.prefix_iff_eq_take.mp hfilled.isPrefix, List.length_take,
      Nat.min_eq_left hfilled.isPrefix.length_le]
    exact List.prefix_append _ _
  · rw [List.length_append, hfilled.length_eq, hs, Nat.succ_mul]

end Filled

/-! ## Sectors of the file -/

section Sectors

variable {info : Info} {f : List UInt8} {h : Header} {id : ℤ}

theorem secPos_of_present (hid : Present f h id) : h.secPos id = (id.toNat + 1) * h.secSize := by
  obtain ⟨h0, hlt, -⟩ := hid
  obtain ⟨n, rfl⟩ := Int.eq_ofNat_of_zero_le h0
  have hsmall : (n + 1) * h.secSize ≤ 2 ^ 31 * 2 ^ 20 := Nat.mul_le_mul (by omega) (secSize_le h)
  have hpos : (h.secSize + n * h.secSize : ℤ) = ((n + 1) * h.secSize : ℕ) := by
    rw [Nat.succ_mul, Nat.add_comm]
    rfl
  unfold Header.secPos sizeT
  rw [Int.toNat_natCast, hpos]
  omega

theorem length_sectorAt (hid : Present f h id) : (sectorAt f h id).length = h.secSize := by
  refine length_slice (Nat.le_trans (Nat.le_of_eq ?_) hid.2.2)
  rw [← Nat.succ_mul]

theorem cdfRead_eq (hsource : Source info f) {off len : ℕ} (hlen : off + len ≤ f.length) :
    cdfRead info off len = some (slice f off len) := by
  obtain ⟨hbuf, hopen⟩ := hsource
  have hpread (hfd : info.fd = some f) : pread info.fd off len = some (slice f off len) := by
    rw [hfd]
    exact if_pos hlen
  unfold cdfRead
  split
  · rename_i buf hb
    split
    · rename_i hle
      rw [slice_eq_of_isPrefix (hbuf buf hb) hle]
    · rename_i hle
      obtain hfd | hwhole := hopen
      · exact hpread hfd
      · rw [hb] at hwhole
        cases hwhole
        exact absurd hlen hle
  · rename_i hb
    obtain hfd | hwhole := hopen
    · exact hpread hfd
    · rw [hb] at hwhole
      cases hwhole

/-- A sector is read behind those that are there. -/
theorem cdfReadSector_gives {N i : ℕ} {tab b : List UInt8} (hsource : Source info f) (hid : Present f h id)
    (hfilled : Filled h.secSize N tab i b) (hroom : i * h.secSize + h.secSize ≤ N) :
    Gives (fun tab' => Filled h.secSize N tab' (i + 1) (b ++ sectorAt f h id))
      (cdfReadSector info tab (i * h.secSize) h id) := by
  have hread : cdfRead info (h.secPos id) h.secSize = some (sectorAt f h id) := by
    rw [secPos_of_present hid]
    refine cdfRead_eq hsource (Nat.le_trans (Nat.le_of_eq ?_) hid.2.2)
    rw [← Nat.succ_mul]
  unfold cdfReadSector
  rw [if_pos (by rw [hfilled.length_tab]; exact hroom), hread]
  exact store_gives hfilled (length_sectorAt hid) hroom

/-- A sector is read into a block of its size. -/
theorem cdfReadSector_eq {buf : List UInt8} (hsource : Source info f) (hid : Present f h id)
    (hbuf : buf.length = h.secSize) : cdfReadSector info buf 0 h id = .ok (sectorAt f h id) := by
  obtain ⟨buf', hread, hfilled⟩ := cdfReadSector_gives hsource hid (Filled.nil hbuf) (by omega)
  rw [Nat.zero_mul] at hread
  rw [hread, hfilled.eq (by omega)]
  rfl

theorem length_flatMap_sectorAt {ids : List ℤ} (hids : ∀ id ∈ ids, Present f h id) :
    (ids.flatMap (sectorAt f h)).length = ids.length * h.secSize := by
  induction ids with
  | nil => simp
  | cons id ids ih =>
    rw [List.forall_mem_cons] at hids
    rw [List.flatMap_cons, List.length_append, ih hids.2, length_sectorAt hids.1, List.length_cons, Nat.succ_mul,
      Nat.add_comm]

end Sectors

/-! ## The sector allocation table -/

section Sat

variable {info : Info} {f : List UInt8} {h : Header}

theorem headerLoop_gives {N i : ℕ} {sids : List ℤ} {tab b : List UInt8} (hsource : Source info f)
    (hids : ∀ id ∈ sids.takeWhile (0 ≤ ·), Present f h id) (hfilled : Filled h.secSize N tab i b)
    (hroom : (i + (sids.takeWhile (0 ≤ ·)).length) * h.secSize ≤ N) :
    Gives (fun r => r.1 = i + (sids.takeWhile (0 ≤ ·)).length ∧
        Filled h.secSize N r.2 r.1 (b ++ (sids.takeWhile (0 ≤ ·)).flatMap (sectorAt f h)))
      (headerLoop info h sids i tab) := by
  induction sids generalizing i tab b with
  | nil => exact ⟨_, rfl, rfl, by simpa using hfilled⟩
  | cons sid sids ih =>
    rw [headerLoop]
    split
    · rename_i hneg
      rw [List.takeWhile_cons_of_neg (by simpa using hneg)]
      exact ⟨_, rfl, rfl, by simpa using hfilled⟩
    · rename_i hneg
      rw [List.takeWhile_cons_of_pos (by simpa using hneg)] at hids hroom ⊢
      rw [List.forall_mem_cons] at hids
      rw [List.length_cons] at hroom ⊢
      have hroom' : i * h.secSize + h.secSize ≤ N := by
        rw [← Nat.succ_mul]
        exact Nat.le_trans (Nat.mul_le_mul_right _ (by omega)) hroom
      rw [Nat.mul_comm]
      refine (cdfReadSector_gives hsource hids.1 hfilled hroom').bind fun tab' hfilled' => ?_
      obtain ⟨r, hr, hi, hfilled''⟩ := ih hids.2 hfilled' (by rwa [Nat.add_right_comm, Nat.add_assoc])
      refine ⟨r, hr, by omega, ?_⟩
      rwa [List.flatMap_cons, ← List.append_assoc]

theorem entry_eq {tab : List UInt8} {k : ℕ} (hk : 4 * (k + 1) ≤ tab.length) :
    entry tab k = .ok (int32 (le (slice tab (4 * k) 4))) := if_pos ⟨Int.natCast_nonneg k, by rw [Int.toNat_natCast]; omega⟩

theorem numbers_succ (tab : List UInt8) (k n : ℕ) :
    numbers tab k (n + 1) = int32 (le (slice tab (4 * k) 4)) :: numbers tab (k + 1) n := rfl

theorem length_numbers (tab : List UInt8) (k n : ℕ) : (numbers tab k n).length = n := by simp [numbers]

/-- The loop ends with the first negative entry, or with the last one. -/
theorem msaLoop_gives {N n k i satLen : ℕ} {msa tab b : List UInt8} (hsource : Source info f)
    (hmsa : 4 * (k + n) ≤ msa.length) (hids : ∀ id ∈ (numbers msa k n).takeWhile (0 ≤ ·), Present f h id)
    (hfilled : Filled h.secSize N tab i b) (hsat : i + n ≤ satLen) (hroom : satLen * h.secSize ≤ N) :
    Gives (fun r => (r.1 = true ↔ ((numbers msa k n).takeWhile (0 ≤ ·)).length ≠ n) ∧
        r.2.1 = i + ((numbers msa k n).takeWhile (0 ≤ ·)).length ∧
        Filled h.secSize N r.2.2 r.2.1 (b ++ ((numbers msa k n).takeWhile (0 ≤ ·)).flatMap (sectorAt f h)))
      (msaLoop info h satLen msa n k i tab) := by
  induction n generalizing k i tab b with
  | zero => exact ⟨_, rfl, by simp [numbers], rfl, by simpa [numbers] using hfilled⟩
  | succ n ih =>
    rw [msaLoop, entry_eq (by omega)]
    rw [numbers_succ] at hids ⊢
    generalize int32 (le (slice msa (4 * k) 4)) = sec at hids ⊢
    by_cases hneg : sec < 0
    · rw [List.takeWhile_cons_of_neg (by simpa using hneg)]
      exact ⟨_, if_pos hneg, by simp, rfl, by simpa using hfilled⟩
    · rw [List.takeWhile_cons_of_pos (by simpa using hneg)] at hids ⊢
      rw [List.forall_mem_cons] at hids
      show Gives _ (if sec < 0 then _ else _)
      rw [if_neg hneg, if_neg (by omega), Nat.mul_comm]
      have hroom' : i * h.secSize + h.secSize ≤ N := by
        rw [← Nat.succ_mul]
        exact Nat.le_trans (Nat.mul_le_mul_right _ (by omega)) hroom
      refine (cdfReadSector_gives hsource hids.1 hfilled hroom').bind fun tab' hfilled' => ?_
      obtain ⟨r, hr, hout, hi, hfilled''⟩ := ih (by omega) hids.2 hfilled' (by omega)
      refine ⟨r, hr, ?_, by rw [List.length_cons]; omega, ?_⟩
      · rw [hout, List.length_cons]
        omega
      · rwa [List.flatMap_cons, ← List.append_assoc]

theorem listed_cons (mid : ℤ) (masters : List ℤ) : listed f h (mid :: masters) =
    if ((numbers (sectorAt f h mid) 0 h.nsatpersec).takeWhile (0 ≤ ·)).length = h.nsatpersec then
      (numbers (sectorAt f h mid) 0 h.nsatpersec).takeWhile (0 ≤ ·) ++ listed f h masters
    else (numbers (sectorAt f h mid) 0 h.nsatpersec).takeWhile (0 ≤ ·) := by
  have hall (hlen : ((numbers (sectorAt f h mid) 0 h.nsatpersec).takeWhile (0 ≤ ·)).length = h.nsatpersec) :
      (numbers (sectorAt f h mid) 0 h.nsatpersec).takeWhile (0 ≤ ·) = numbers (sectorAt f h mid) 0 h.nsatpersec :=
    (List.takeWhile_prefix _).eq_of_length (hlen.trans (length_numbers _ _ _).symm)
  unfold listed
  rw [List.flatMap_cons, List.takeWhile_append, length_numbers]
  split
  · rename_i hlen
    rw [hall hlen]
  · rfl

theorem masterLoop_gives {N fuel j i satLen : ℕ} {mid e : ℤ} {masters : List ℤ} {msa tab b : List UInt8}
    (hsource : Source info f) (hsize : 4 ≤ h.secSize)
    (hlinked : Linked (fun mid => link (sectorAt f h mid) h.nsatpersec) mid masters e)
    (hmasters : ∀ id ∈ masters, Present f h id) (hids : ∀ id ∈ listed f h masters, Present f h id)
    (hn : j + masters.length = h.numSectorsInMasterSat) (hle : h.numSectorsInMasterSat ≤ cdfLoopLimit)
    (hfuel : masters.length < fuel) (hmsa : msa.length = h.secSize) (hfilled : Filled h.secSize N tab i b)
    (hsat : i + masters.length * h.nsatpersec ≤ satLen) (hroom : satLen * h.secSize ≤ N) :
    Gives (fun r => r.1 = i + (listed f h masters).length ∧
        Filled h.secSize N r.2 r.1 (b ++ (listed f h masters).flatMap (sectorAt f h)))
      (masterLoop info h satLen fuel j mid i msa tab) := by
  induction hlinked generalizing fuel j i msa tab b with
  | nil =>
    obtain ⟨fuel, rfl⟩ := Nat.exists_eq_add_one_of_ne_zero (Nat.ne_zero_of_lt hfuel)
    rw [masterLoop, if_pos (by rw [← hn]; simp)]
    exact ⟨_, rfl, rfl, by simpa [listed] using hfilled⟩
  | @cons mid next _ masters hnext _ ih =>
    obtain ⟨fuel, rfl⟩ := Nat.exists_eq_add_one_of_ne_zero (Nat.ne_zero_of_lt hfuel)
    rw [List.length_cons] at hn hfuel hsat
    rw [Nat.succ_mul] at hsat
    rw [List.forall_mem_cons] at hmasters
    have hlen := length_sectorAt hmasters.1
    have hnsat := nsatpersec_spec hsize
    rw [masterLoop, if_neg (by omega), if_neg (by have := hmasters.1.1; omega), if_neg (by omega),
      cdfReadSector_eq hsource hmasters.1 hmsa]
    rw [listed_cons] at hids ⊢
    have hfirst : ∀ id ∈ (numbers (sectorAt f h mid) 0 h.nsatpersec).takeWhile (0 ≤ ·), Present f h id := by
      intro id hid
      refine hids id ?_
      split
      · exact List.mem_append_left _ hid
      · exact hid
    refine (msaLoop_gives hsource (by omega) hfirst hfilled (by omega) hroom).bind ?_
    rintro ⟨out, i', tab'⟩ ⟨hout, rfl, hfilled'⟩
    dsimp only at hout hfilled' ⊢
    by_cases hlast : ((numbers (sectorAt f h mid) 0 h.nsatpersec).takeWhile (0 ≤ ·)).length = h.nsatpersec
    · rw [if_pos hlast] at hids ⊢
      have hentry : entry (sectorAt f h mid) h.nsatpersec = .ok next := by
        rw [entry_eq (by omega)]
        rw [link, entry_eq (by omega)] at hnext
        cases hnext
        rfl
      rw [if_neg (by rw [hout]; exact not_not.mpr hlast), hentry]
      have hfuel' : masters.length < fuel := by omega
      obtain ⟨r, hr, hi, hfilled''⟩ := ih hmasters.2 (fun id hid => hids id (List.mem_append_right _ hid)) (j := j + 1)
        (by omega) hfuel' hlen hfilled' (by omega)
      refine ⟨r, hr, by rw [List.length_append]; omega, ?_⟩
      rwa [List.flatMap_append, ← List.append_assoc]
    · rw [if_neg hlast] at hids ⊢
      rw [if_pos (hout.mpr hlast)]
      exact ⟨_, rfl, rfl, hfilled'⟩

end Sat

section Master

variable {info : Info} {f : List UInt8} {h : Header} {l : Layout}

theorem nsatpersec_pos (hsize : 7 ≤ h.secSizeP2) : 0 < h.nsatpersec := by
  have hpow : 2 ^ 7 ≤ h.secSize := Nat.pow_le_pow_right (by decide) hsize
  have hle := secSize_le h
  unfold Header.nsatpersec sizeT
  omega

theorem le_secLimit (h : Header) : masterSatCount ≤ h.secLimit := by
  unfold Header.secLimit masterSatCount
  have hpos : 0 < h.secSize := Nat.two_pow_pos _
  have hle := secSize_le h
  rw [Nat.le_div_iff_mul_le (by omega)]
  omega

/-- The limit on the master table is a limit on the bytes that it lists. -/
theorem limit_spec (hlimit : h.numSectorsInMasterSat ≤ h.secLimit / h.nsatpersec) :
    h.numSectorsInMasterSat * h.nsatpersec * h.secSize < 2 ^ 30 := by
  have hmaster : h.numSectorsInMasterSat * h.nsatpersec ≤ h.secLimit :=
    Nat.le_trans (Nat.mul_le_mul_right _ hlimit) (Nat.div_mul_le_self _ _)
  have hbytes : h.secLimit * (4 * h.secSize) ≤ 2 ^ 32 - 1 := Nat.div_mul_le_self _ _
  have hle : h.numSectorsInMasterSat * h.nsatpersec * h.secSize ≤ h.secLimit * h.secSize := Nat.mul_le_mul_right _ hmaster
  rw [Nat.mul_left_comm] at hbytes
  omega

theorem length_listed_le (masters : List ℤ) : (listed f h masters).length ≤ masters.length * h.nsatpersec := by
  refine Nat.le_trans (List.takeWhile_prefix _).length_le ?_
  induction masters with
  | nil => simp
  | cons mid masters ih =>
    rw [List.flatMap_cons, List.length_append, length_numbers, List.length_cons, Nat.succ_mul, Nat.add_comm]
    exact Nat.add_le_add_right ih _

theorem length_header_le (h : Header) : (h.masterSat.takeWhile (0 ≤ ·)).length ≤ masterSatCount :=
  Nat.le_trans (List.takeWhile_prefix _).length_le (Nat.le_of_eq h.length_masterSat)

/-- The sectors of the table have no number above the limit of `cdf_count_chain`. -/
theorem sat_small (hwf : WellFormed f h l) (hlimit : h.numSectorsInMasterSat ≤ h.secLimit / h.nsatpersec) :
    (satSectors f h l).length * h.secSize < 2 ^ 31 := by
  have hmaster := limit_spec hlimit
  have hlisted : (listed f h l.masters).length * h.secSize ≤ h.numSectorsInMasterSat * h.nsatpersec * h.secSize := by
    rw [← hwf.length_masters]
    exact Nat.mul_le_mul_right _ (length_listed_le _)
  have hheader : (h.masterSat.takeWhile (0 ≤ ·)).length * h.secSize ≤ masterSatCount * 2 ^ 20 :=
    Nat.mul_le_mul (length_header_le h) (secSize_le h)
  unfold masterSatCount at hheader
  unfold satSectors
  rw [List.length_append, Nat.add_mul]
  omega

/-- The sectors before the first negative one come before the first free one. -/
theorem length_takeWhile_le (sids : List ℤ) :
    (sids.takeWhile (0 ≤ ·)).length ≤ (sids.takeWhile (· ≠ cdfSecidFree)).length := by
  induction sids with
  | nil => exact Nat.le_refl _
  | cons sid sids ih =>
    by_cases hsid : 0 ≤ sid
    · have hfree : sid ≠ cdfSecidFree := by
        rintro rfl
        exact absurd hsid (by decide)
      rw [List.takeWhile_cons_of_pos (by simpa using hsid), List.takeWhile_cons_of_pos (by simpa using hfree)]
      exact Nat.succ_le_succ ih
    · rw [List.takeWhile_cons_of_neg (by simpa using hsid)]
      exact Nat.zero_le _

theorem cdfReadSat_gives (hsource : Source info f) (hwf : WellFormed f h l)
    (hlimit : h.numSectorsInMasterSat ≤ h.secLimit / h.nsatpersec) :
    Gives (fun sat => sat.len = (satSectors f h l).length ∧ satTable f h l <+: sat.tab) (cdfReadSat info h) := by
  have hfree : (h.masterSat.takeWhile (· ≠ cdfSecidFree)).length ≤ masterSatCount :=
    Nat.le_trans (List.takeWhile_prefix _).length_le (Nat.le_of_eq h.length_masterSat)
  have hsecLimit := le_secLimit h
  have hcount := length_takeWhile_le h.masterSat
  obtain ⟨e, hmasters, -⟩ := hwf.masters
  have hlen := hwf.length_masters
  have hlt := hwf.masters_lt
  have hsize : 4 ≤ h.secSize := Nat.le_trans (by decide) (Nat.pow_le_pow_right (by decide) hwf.le_secSizeP2)
  unfold cdfReadSat
  dsimp only
  rw [if_neg (by omega)]
  generalize (h.masterSat.takeWhile (· ≠ cdfSecidFree)).length = n at hfree hcount
  have hroom : (0 + (h.masterSat.takeWhile (0 ≤ ·)).length) * h.secSize ≤
      (h.numSectorsInMasterSat * h.nsatpersec + n) * h.secSize := Nat.mul_le_mul_right _ (by omega)
  have hheader := headerLoop_gives hsource (fun id hid => hwf.sat_present id (List.mem_append_left _ hid))
    (Filled.nil (length_calloc _ _)) hroom
  refine hheader.bind ?_
  rintro ⟨i, tab⟩ ⟨rfl, hfilled⟩
  have hn : 0 + l.masters.length = h.numSectorsInMasterSat := by omega
  have hfuel : l.masters.length < cdfLoopLimit + 1 := by omega
  have hmsa : (calloc 1 h.secSize).length = h.secSize := (length_calloc _ _).trans (Nat.one_mul _)
  refine (masterLoop_gives hsource hsize hmasters hwf.masters_present
    (fun id hid => hwf.sat_present id (List.mem_append_right _ hid)) hn (by omega) hfuel hmsa hfilled
    (by rw [hlen]; dsimp only; omega) (Nat.le_refl _)).bind ?_
  rintro ⟨i, tab⟩ ⟨rfl, hfilled'⟩
  refine ⟨_, rfl, ?_, ?_⟩
  · dsimp only
    rw [satSectors, List.length_append]
    omega
  · rw [satTable, satSectors, List.flatMap_append]
    exact hfilled'.isPrefix

/-- A master table above the limit is refused. -/
theorem cdfReadSat_refuses (info : Info) (hsize : 7 ≤ h.secSizeP2)
    (hlimit : h.secLimit / h.nsatpersec < h.numSectorsInMasterSat) : cdfReadSat info h = .error .failed :=
  if_pos (.inl ⟨nsatpersec_pos hsize, hlimit⟩)

end Master

/-! ## Chains -/

section Chains

variable {info : Info} {f : List UInt8} {h : Header} {sat : Sat} {table : List UInt8} {size : ℕ} {sid : ℤ} {ids : List ℤ}

theorem link_eq_some {tab : List UInt8} {id id' : ℤ} (hlink : link tab id = some id') :
    0 ≤ id ∧ 4 * id.toNat + 4 ≤ tab.length ∧ entry tab id = .ok id' := by
  unfold link at hlink
  cases hentry : entry tab id with
  | error e =>
    rw [hentry] at hlink
    cases hlink
  | ok id₁ =>
    rw [hentry] at hlink
    cases hlink
    unfold entry at hentry
    split at hentry
    · exact ⟨‹_ ∧ _›.1, ‹_ ∧ _›.2, rfl⟩
    · cases hentry

/-- Every sector with an entry is let pass. -/
theorem ends_of_chain (htable : table <+: sat.tab) (hlen : table.length = sat.len * size) (hsmall : sat.len * size < 2 ^ 31)
    (hchain : Chain table sid ids) : Ends sat size sid ids := by
  obtain ⟨hlt, e, hlinked, he⟩ := hchain
  refine ⟨Nat.le_of_lt hlt, e, hlinked.mono fun id id' hlink => ?_, he⟩
  obtain ⟨h0, hroom, hentry⟩ := link_eq_some hlink
  refine next_of_entry ⟨h0, ?_⟩ (entry_of_isPrefix htable hentry)
  unfold maxsector int32
  rw [Nat.mod_eq_of_lt (by omega), if_pos hsmall]
  omega

/-- The sectors of a chain are stored one after another. -/
theorem readLoop_gives {read : List UInt8 → ℕ → ℤ → Except Bad (List UInt8)} {bytes : ℤ → List UInt8}
    {size' n N fuel i : ℕ} {e : ℤ} {tab b : List UInt8}
    (hread : ∀ id ∈ ids, ∀ tab i b, i < n → Filled size' N tab i b →
      Gives (fun tab' => Filled size' N tab' (i + 1) (b ++ bytes id)) (read tab i id))
    (hlinked : Linked (sat.next size) sid ids e) (he : e < 0) (hn : i + ids.length = n) (hle : n ≤ cdfLoopLimit)
    (hfuel : ids.length < fuel) (hfilled : Filled size' N tab i b) :
    Gives (fun tab' => Filled size' N tab' n (b ++ ids.flatMap bytes)) (readLoop sat read n fuel i sid tab) := by
  induction hlinked generalizing i fuel tab b with
  | nil =>
    obtain ⟨fuel, rfl⟩ := Nat.exists_eq_add_one_of_ne_zero (Nat.ne_zero_of_lt hfuel)
    rw [readLoop, if_pos he]
    refine ⟨_, rfl, ?_⟩
    rw [← hn]
    simpa using hfilled
  | cons hnext _ ih =>
    obtain ⟨fuel, rfl⟩ := Nat.exists_eq_add_one_of_ne_zero (Nat.ne_zero_of_lt hfuel)
    obtain ⟨hid, -, hentry⟩ := next_eq_some hnext
    rw [List.length_cons] at hn hfuel
    rw [List.forall_mem_cons] at hread
    rw [readLoop, if_neg (by omega), if_neg (by omega), if_neg (by omega)]
    refine (hread.1 tab i b (by omega) hfilled).bind fun tab' hfilled' => ?_
    rw [hentry, List.flatMap_cons, ← List.append_assoc]
    exact ih hread.2 he (by omega) (by omega) hfilled'

/-- A chain is read from its beginning to its end. -/
theorem readLoop_eq {read : List UInt8 → ℕ → ℤ → Except Bad (List UInt8)} {bytes : ℤ → List UInt8} {size' : ℕ}
    (hread : ∀ id ∈ ids, ∀ tab i b, i < ids.length → Filled size' (ids.length * size') tab i b →
      Gives (fun tab' => Filled size' (ids.length * size') tab' (i + 1) (b ++ bytes id)) (read tab i id))
    (hends : Ends sat size sid ids) :
    readLoop sat read ids.length (cdfLoopLimit + 1) 0 sid (calloc ids.length size') = .ok (ids.flatMap bytes) := by
  obtain ⟨hle, e, hlinked, he⟩ := hends
  obtain ⟨tab, hrun, hfilled⟩ := readLoop_gives hread hlinked he (Nat.zero_add _) hle (Nat.lt_succ_of_le hle)
    (Filled.nil (length_calloc _ _))
  rw [hrun, hfilled.eq rfl]
  rfl

/-- A chain of long sectors. -/
theorem longLoop_eq (hsource : Source info f) (hends : Ends sat size sid ids) (hids : ∀ id ∈ ids, Present f h id) :
    readLoop sat (fun tab i sid => cdfReadSector info tab (i * h.secSize) h sid) ids.length (cdfLoopLimit + 1) 0 sid
      (calloc ids.length h.secSize) = .ok (ids.flatMap (sectorAt f h)) := by
  refine readLoop_eq (fun id hid tab i b hi hfilled => ?_) hends
  refine cdfReadSector_gives hsource (hids id hid) hfilled ?_
  rw [← Nat.succ_mul]
  exact Nat.mul_le_mul_right _ hi

theorem cdfReadLongSectorChain_eq {len : ℕ} (hsource : Source info f) (hends : Ends sat h.secSize sid ids)
    (hids : ∀ id ∈ ids, Present f h id) :
    cdfReadLongSectorChain info h sat sid len = .ok ⟨some (ids.flatMap (sectorAt f h)), ids.length, len⟩ := by
  unfold cdfReadLongSectorChain
  rw [cdfCountChain_of_ends hends]
  show (readLoop _ _ _ _ _ _ _ >>= _) = _
  rw [longLoop_eq hsource hends hids]
  rfl

theorem cdfReadSsat_eq (hsource : Source info f) (hends : Ends sat h.secSize h.secidFirstSectorInShortSat ids)
    (hids : ∀ id ∈ ids, Present f h id) :
    cdfReadSsat info h sat = .ok ⟨ids.flatMap (sectorAt f h), ids.length⟩ := by
  unfold cdfReadSsat
  dsimp only
  rw [cdfCountChain_of_ends hends]
  show (readLoop _ _ _ _ _ _ _ >>= _) = _
  rw [longLoop_eq hsource hends hids]
  rfl

end Chains

/-! ## The directory -/

section Dir

variable {info : Info} {f : List UInt8} {h : Header} {sat : Sat} {sid : ℤ} {ids : List ℤ}

theorem isPrefix_set {done tab : List Directory} {d : Directory} (hdone : done <+: tab) (hroom : done.length < tab.length) :
    done ++ [d] <+: tab.set done.length d := by
  obtain ⟨t, rfl⟩ := hdone
  cases t with
  | nil => simp at hroom
  | cons d' t =>
    rw [List.set_append_right _ _ (Nat.le_refl _), Nat.sub_self, List.set_cons_zero]
    exact ⟨t, (List.append_cons _ _ _).symm⟩

theorem unpackLoop_gives {buf : List UInt8} {base n j N : ℕ} {dirTab done : List Directory}
    (hbuf : (j + n) * cdfDirectorySize ≤ buf.length) (hbase : base + (j + n) ≤ N) (hlen : dirTab.length = N)
    (hdone : done <+: dirTab) (hj : done.length = base + j) :
    Gives (fun dirTab' => dirTab'.length = N ∧ done ++ ((List.range' j n).map fun k =>
        cdfUnpackDir (slice buf (k * cdfDirectorySize) cdfDirectorySize)) <+: dirTab')
      (unpackLoop buf base n j dirTab) := by
  induction n generalizing j dirTab done with
  | zero => exact ⟨_, rfl, hlen, by simpa using hdone⟩
  | succ n ih =>
    have hroom : j * cdfDirectorySize + cdfDirectorySize ≤ buf.length := by
      rw [← Nat.succ_mul]
      exact Nat.le_trans (Nat.mul_le_mul_right _ (by omega)) hbuf
    rw [unpackLoop, if_pos ⟨hroom, by omega⟩, ← hj, List.range'_succ, List.map_cons, List.append_cons]
    have hnext := isPrefix_set (d := cdfUnpackDir (slice buf (j * cdfDirectorySize) cdfDirectorySize)) hdone (by omega)
    refine ih ?_ (by omega) (by rw [List.length_set, hlen]) hnext ?_
    · rwa [Nat.add_right_comm, Nat.add_assoc]
    · rw [List.length_append, hj]
      rfl

theorem length_dirEntries (h : Header) (s : List UInt8) : (dirEntries h s).length = h.secSize / cdfDirectorySize := by
  simp [dirEntries]

theorem dirLoop_gives {ns fuel i j N : ℕ} {e : ℤ} {buf : List UInt8} {dirTab done : List Directory} (hsource : Source info f)
    (hlinked : Linked (sat.next h.secSize) sid ids e) (hids : ∀ id ∈ ids, Present f h id) (hn : i + ids.length = ns)
    (hfuel : ids.length < fuel) (hj : j < cdfLoopLimit) (hnd : h.secSize / cdfDirectorySize + 1 < cdfLoopLimit)
    (hbuf : buf.length = h.secSize) (hlen : dirTab.length = N) (hN : ns * (h.secSize / cdfDirectorySize) = N)
    (hdone : done <+: dirTab) (hi : done.length = i * (h.secSize / cdfDirectorySize)) :
    Gives (fun dirTab' => dirTab'.length = N ∧ done ++ ids.flatMap (fun id => dirEntries h (sectorAt f h id)) <+: dirTab')
      (dirLoop info h sat ns (h.secSize / cdfDirectorySize) fuel i j sid buf dirTab) := by
  induction hlinked generalizing i j fuel buf dirTab done with
  | nil =>
    obtain ⟨fuel, rfl⟩ := Nat.exists_eq_add_one_of_ne_zero (Nat.ne_zero_of_lt hfuel)
    rw [dirLoop, if_pos (by rw [← hn]; simp)]
    exact ⟨_, rfl, hlen, by simpa using hdone⟩
  | @cons id _ _ ids hnext _ ih =>
    obtain ⟨fuel, rfl⟩ := Nat.exists_eq_add_one_of_ne_zero (Nat.ne_zero_of_lt hfuel)
    obtain ⟨hid, -, hentry⟩ := next_eq_some hnext
    rw [List.length_cons] at hn hfuel
    rw [List.forall_mem_cons] at hids
    have hsector := length_sectorAt hids.1
    have hroom : (0 + h.secSize / cdfDirectorySize) * cdfDirectorySize ≤ (sectorAt f h id).length := by
      rw [Nat.zero_add, hsector]
      exact Nat.div_mul_le_self _ _
    have hbase : i * (h.secSize / cdfDirectorySize) + (0 + h.secSize / cdfDirectorySize) ≤ N := by
      rw [Nat.zero_add, ← Nat.succ_mul, ← hN]
      exact Nat.mul_le_mul_right _ (by omega)
    rw [dirLoop, if_neg (by omega), if_neg (by omega), cdfReadSector_eq hsource hids.1 hbuf, List.flatMap_cons,
      ← List.append_assoc]
    refine (unpackLoop_gives hroom hbase hlen hdone hi).bind fun dirTab₁ h₁ => ?_
    obtain ⟨hlen₁, hdone₁⟩ := h₁
    rw [hentry]
    refine ih hids.2 (by omega) (by omega) hnd hsector hlen₁ hdone₁ ?_
    rw [List.length_append, hi, Nat.succ_mul]
    exact congrArg _ (length_dirEntries h (sectorAt f h id))

/-- The entries of the sectors one after another. -/
theorem cdfReadDir_eq (hsource : Source info f) (hends : Ends sat h.secSize h.secidFirstDirectory ids)
    (hids : ∀ id ∈ ids, Present f h id) :
    cdfReadDir info h sat = .ok (ids.flatMap fun id => dirEntries h (sectorAt f h id)) := by
  have hnd : h.secSize / cdfDirectorySize ≤ 2 ^ 20 / cdfDirectorySize := Nat.div_le_div_right (secSize_le h)
  have hlimit : 2 ^ 20 / cdfDirectorySize + 1 < cdfLoopLimit := by decide
  have hlen : (ids.flatMap fun id => dirEntries h (sectorAt f h id)).length =
      ids.length * (h.secSize / cdfDirectorySize) := by
    simp [List.length_flatMap, length_dirEntries]
  have hcount := cdfCountChain_of_ends hends
  obtain ⟨hle, e, hlinked, he⟩ := hends
  have hbuf : (calloc 1 h.secSize).length = h.secSize := (length_calloc _ _).trans (Nat.one_mul _)
  obtain ⟨dirTab, hrun, hlenTab, hdone⟩ := dirLoop_gives (j := 0) hsource hlinked hids (Nat.zero_add _)
    (Nat.lt_succ_of_le hle) (by decide) (by omega) hbuf List.length_replicate rfl List.nil_prefix (Nat.zero_mul _).symm
  unfold cdfReadDir
  dsimp only
  rw [hcount]
  refine hrun.trans (congrArg _ ?_)
  exact (hdone.eq_of_length (hlen.trans hlenTab.symm)).symm

end Dir

/-! ## Streams -/

section Streams

variable {info : Info} {f : List UInt8} {h : Header} {l : Layout} {sat ssat : Sat} {sst : Stream} {sid : ℤ} {len : ℕ}
  {ids : List ℤ}

theorem cdfReadShortStream_eq (hsource : Source info f) (hends : Ends sat h.secSize (rootFirst f h l) l.roots)
    (hroots : ∀ id ∈ l.roots, Present f h id) :
    ∃ sst, cdfReadShortStream info h sat (directory f h l) = .ok sst ∧
      (sst.tab = none ∧ l.roots = [] ∨ sst.tab = some (rootStream f h l) ∧ sst.len = l.roots.length) := by
  unfold rootFirst at hends
  unfold cdfReadShortStream
  have hnone {sid : ℤ} (hneg : sid < 0) (hends : Ends sat h.secSize sid l.roots) : l.roots = [] := by
    obtain ⟨-, e, hlinked, -⟩ := hends
    exact (linked_of_none (next_of_not fun h => absurd h.1 (by omega)) hlinked).1
  cases hroot : (directory f h l).find? (·.type = rootStorage) with
  | none =>
    rw [hroot] at hends
    exact ⟨_, rfl, .inl ⟨rfl, hnone (by decide) hends⟩⟩
  | some d =>
    rw [hroot] at hends
    dsimp only [Option.elim_some] at hends ⊢
    split
    · rename_i hneg
      exact ⟨_, rfl, .inl ⟨rfl, hnone hneg hends⟩⟩
    · exact ⟨_, cdfReadLongSectorChain_eq hsource hends hroots, .inr ⟨rfl, rfl⟩⟩

theorem mem_of_linked {next : ℤ → Option ℤ} {e id : ℤ} (hlinked : Linked next sid ids e) (hid : id ∈ ids) :
    ∃ id', next id = some id' := by
  induction hlinked with
  | nil => cases hid
  | cons hnext _ ih =>
    cases hid with
    | head => exact ⟨_, hnext⟩
    | tail _ hid => exact ih hid

theorem shortSecPos_eq {id : ℤ} (h0 : 0 ≤ id) (hend : (id.toNat + 1) * h.shortSecSize < 2 ^ 64) :
    h.shortSecPos id = id.toNat * h.shortSecSize := by
  obtain ⟨n, rfl⟩ := Int.eq_ofNat_of_zero_le h0
  rw [Int.toNat_natCast, Nat.succ_mul] at hend
  have hpos : (n * h.shortSecSize : ℤ) = (n * h.shortSecSize : ℕ) := rfl
  unfold Header.shortSecPos sizeT
  rw [Int.toNat_natCast, hpos]
  omega

/-- The short sectors of a chain one after another. -/
theorem cdfReadShortSectorChain_eq {root : List UInt8} (htab : sst.tab = some root)
    (hroot : root.length = sst.len * h.secSize) (hsmall : root.length < 2 ^ 64) (hends : Ends ssat h.secSize sid ids)
    (hids : ∀ id ∈ ids, (id.toNat + 1) * h.shortSecSize ≤ root.length) :
    cdfReadShortSectorChain h ssat sst sid len =
      .ok ⟨some (ids.flatMap fun id => slice root (id.toNat * h.shortSecSize) h.shortSecSize), ids.length, len⟩ := by
  obtain ⟨-, e, hlinked, -⟩ := id hends
  have hread : ∀ id ∈ ids, ∀ tab i b, i < ids.length → Filled h.shortSecSize (ids.length * h.shortSecSize) tab i b →
      Gives (fun tab' => Filled h.shortSecSize (ids.length * h.shortSecSize) tab' (i + 1)
          (b ++ slice root (id.toNat * h.shortSecSize) h.shortSecSize))
        (cdfReadShortSector h sst root tab (i * h.shortSecSize) id) := by
    intro id hid tab i b hi hfilled
    obtain ⟨id', hnext⟩ := mem_of_linked hlinked hid
    have hend := hids id hid
    have hpos := shortSecPos_eq (next_eq_some hnext).1 (Nat.lt_of_le_of_lt hend hsmall)
    rw [Nat.succ_mul] at hend
    unfold cdfReadShortSector
    dsimp only
    rw [hpos, if_neg (by rw [Nat.mul_comm h.secSize]; omega), if_pos hend]
    refine store_gives hfilled (length_slice hend) ?_
    rw [← Nat.succ_mul]
    exact Nat.mul_le_mul_right _ hi
  unfold cdfReadShortSectorChain
  rw [cdfCountChain_of_ends hends, htab]
  show (readLoop _ _ _ _ _ _ _ >>= _) = _
  rw [readLoop_eq hread hends]
  rfl

/-- The streams of a document with a short table that `cdf_count_chain` can take for its number of bytes. -/
def SmallStream (f : List UInt8) (h : Header) (l : Layout) (sid : ℤ) (len : ℕ) (ids : List ℤ) : Prop :=
  IsStream f h l sid len ids ∧ (len < h.minSizeStandardStream → l.shorts.length * h.secSize < 2 ^ 31)

theorem cdfReadSectorChain_eq (hsource : Source info f) (hwf : WellFormed f h l) (htable : satTable f h l <+: sat.tab)
    (hlen : (satTable f h l).length = sat.len * h.secSize) (hsmall : sat.len * h.secSize < 2 ^ 31)
    (htab : sst.tab = none ∧ l.roots = [] ∨ sst.tab = some (rootStream f h l) ∧ sst.len = l.roots.length)
    (hstream : SmallStream f h l sid len ids) :
    cdfReadSectorChain info h sat ⟨shortTable f h l, l.shorts.length⟩ sst sid len =
      .ok ⟨some (streamBytes f h l len ids), ids.length, len⟩ := by
  obtain ⟨hstream, hshorts⟩ := hstream
  unfold IsStream at hstream
  unfold cdfReadSectorChain streamBytes
  by_cases hmin : len < h.minSizeStandardStream
  · rw [if_pos hmin] at hstream ⊢
    have hends : Ends ⟨shortTable f h l, l.shorts.length⟩ h.secSize sid ids :=
      ends_of_chain List.prefix_rfl (length_flatMap_sectorAt hwf.shorts_present) (hshorts hmin) hstream.1
    obtain ⟨hnone, hroots⟩ | ⟨hsome, hroots⟩ := htab
    · -- there is no short sector, so that the chain ends where it begins
      have hids : ids = [] := by
        rw [List.eq_nil_iff_forall_not_mem]
        intro id hid
        have hend := hstream.2 id hid
        rw [rootStream, hroots, List.flatMap_nil, List.length_nil, Nat.le_zero, Nat.mul_eq_zero] at hend
        have hpos : 0 < h.shortSecSize := Nat.two_pow_pos _
        omega
      subst hids
      obtain ⟨-, e, hlinked, he⟩ := hends
      cases hlinked
      rw [if_neg (by rw [hnone]; exact fun h => Bool.noConfusion h.2)]
      exact cdfReadLongSectorChain_eq hsource ⟨Nat.zero_le _, _, .nil, he⟩ (fun _ h => absurd h List.not_mem_nil)
    · have hroot : (rootStream f h l).length = sst.len * h.secSize := by
        rw [hroots]
        exact length_flatMap_sectorAt hwf.roots_present
      have hle : sst.len * h.secSize ≤ cdfLoopLimit * 2 ^ 20 := by
        rw [hroots]
        exact Nat.mul_le_mul (Nat.le_of_lt hwf.roots.1) (secSize_le h)
      have hlimit : cdfLoopLimit * 2 ^ 20 < 2 ^ 64 := by decide
      rw [if_pos ⟨hmin, by rw [hsome]; rfl⟩]
      exact cdfReadShortSectorChain_eq hsome hroot (by omega) hends hstream.2
  · rw [if_neg hmin] at hstream ⊢
    rw [if_neg fun h => hmin h.1]
    exact cdfReadLongSectorChain_eq hsource (ends_of_chain htable hlen hsmall hstream.1) hstream.2

end Streams

/-- A document is read as it is, if `CDF_SEC_LIMIT` allows its master table, and refused otherwise. -/
theorem reads_document {info : Info} {f : List UInt8} {h : Header} {l : Layout} (hsource : Source info f)
    (hwf : WellFormed f h l) :
    (h.numSectorsInMasterSat ≤ h.secLimit / h.nsatpersec → ReadsAs info f h l (SmallStream f h l)) ∧
      (h.secLimit / h.nsatpersec < h.numSectorsInMasterSat → cdfReadSat info h = .error .failed) := by
  refine ⟨fun hlimit => ?_, cdfReadSat_refuses info hwf.le_secSizeP2⟩
  obtain ⟨sat, hsat, hlen, htable⟩ := cdfReadSat_gives hsource hwf hlimit
  have hbytes : (satTable f h l).length = sat.len * h.secSize := by
    rw [hlen]
    exact length_flatMap_sectorAt hwf.sat_present
  have hsmall : sat.len * h.secSize < 2 ^ 31 := by
    rw [hlen]
    exact sat_small hwf hlimit
  have hends {sid : ℤ} {ids : List ℤ} (hchain : Chain (satTable f h l) sid ids) : Ends sat h.secSize sid ids :=
    ends_of_chain htable hbytes hsmall hchain
  obtain ⟨sst, hsst, htab⟩ := cdfReadShortStream_eq hsource (hends hwf.roots) hwf.roots_present
  refine ⟨sat, ⟨shortTable f h l, l.shorts.length⟩, sst, ⟨hsat, hlen, ?_⟩, ?_, ⟨?_, rfl⟩, hsst, ?_⟩
  · rw [← hbytes]
    exact (List.prefix_iff_eq_take.mp htable).symm
  · exact cdfReadDir_eq hsource (hends hwf.dirs) hwf.dirs_present
  · exact cdfReadSsat_eq hsource (hends hwf.shorts) hwf.shorts_present
  · intro sid len ids hstream
    exact cdfReadSectorChain_eq hsource hwf htable hbytes hsmall htab hstream

/-! ## A document with a master table -/

section Document

/-- The bytes of a small negative number. -/
def negative (b : UInt8) : List UInt8 := [b, 255, 255, 255]

/-- The entries of the directory, the master table and the 110 sectors of the table. -/
def satHead : List UInt8 := negative 254 ++ negative 252 ++ (List.replicate 110 (negative 253)).flatten

/-- The root of a directory, without a stream. -/
def rootBytes : List UInt8 := List.replicate 66 0 ++ [5] ++ List.replicate 49 0 ++ negative 254 ++ List.replicate 8 0

/-- A directory, a master table with the number of one sector, and 110 sectors of a table, of which the first is not empty. -/
def documentBytes (size : ℕ) : List UInt8 :=
  List.replicate size 0 ++ (rootBytes ++ List.replicate (size - 128) 0) ++
    ([111, 0, 0, 0] ++ List.replicate (size - 8) 255 ++ negative 254) ++ (satHead ++ List.replicate (size - 448) 255) ++
    List.replicate (109 * size) 255

theorem shortSize_le : 6 ≤ 20 := by decide

/-- Its header, with 109 sectors of the table. -/
def documentHeader (p : ℕ) (hp : p ≤ 20) : Header where
  secSizeP2 := p
  shortSecSizeP2 := 6
  secidFirstDirectory := 0
  minSizeStandardStream := 4096
  secidFirstSectorInShortSat := -2
  secidFirstSectorInMasterSat := 1
  numSectorsInMasterSat := 1
  masterSat := (List.range' 2 109).map Int.ofNat
  secSizeP2_le := hp
  shortSecSizeP2_le := shortSize_le
  length_masterSat := by decide

/-- Its parts. -/
def documentLayout : Layout := ⟨[1], [0], [], []⟩

variable {p : ℕ}

theorem source_open (f : List UInt8) : Source ⟨none, some f⟩ f := ⟨(by rintro _ ⟨⟩), .inl rfl⟩

theorem length_rootBytes : rootBytes.length = 128 := by simp [rootBytes, negative]

theorem length_satHead : satHead.length = 448 := by
  simp only [satHead, negative, List.length_append, List.length_flatten, List.map_replicate, List.sum_replicate_nat,
    List.length_cons, List.length_nil]

theorem nine_le (hsize : 512 ≤ 2 ^ p) : 9 ≤ p :=
  (Nat.pow_le_pow_iff_right (by decide)).mp (show 2 ^ 9 ≤ 2 ^ p from hsize)

theorem slice_middle {a b c : List UInt8} {off len : ℕ} (ha : a.length = off) (hb : b.length = len) :
    slice (a ++ b ++ c) off len = b := by
  subst ha hb
  simp [slice]

theorem length_document {size : ℕ} (hsize : 512 ≤ size) : (documentBytes size).length = 113 * size := by
  simp only [documentBytes, negative, List.length_append, List.length_replicate, List.length_cons, List.length_nil,
    length_rootBytes, length_satHead]
  omega

theorem document_sector {hp : p ≤ 20} {a b c : List UInt8} {n : ℕ} (hbytes : documentBytes (2 ^ p) = a ++ b ++ c)
    (ha : a.length = (n + 1) * 2 ^ p) (hb : b.length = 2 ^ p) :
    sectorAt (documentBytes (2 ^ p)) (documentHeader p hp) n = b := by
  unfold sectorAt
  rw [hbytes]
  exact slice_middle ha hb

theorem document_dir (hp : p ≤ 20) (hsize : 512 ≤ 2 ^ p) :
    sectorAt (documentBytes (2 ^ p)) (documentHeader p hp) 0 = rootBytes ++ List.replicate (2 ^ p - 128) 0 := by
  refine document_sector (n := 0) (a := List.replicate (2 ^ p) 0)
    (c := ([111, 0, 0, 0] ++ List.replicate (2 ^ p - 8) 255 ++ negative 254) ++
      (satHead ++ List.replicate (2 ^ p - 448) 255) ++ List.replicate (109 * 2 ^ p) 255) ?_ (by simp) ?_
  · simp only [documentBytes, List.append_assoc]
  · rw [List.length_append, length_rootBytes, List.length_replicate]
    omega

theorem document_master (hp : p ≤ 20) (hsize : 512 ≤ 2 ^ p) :
    sectorAt (documentBytes (2 ^ p)) (documentHeader p hp) 1 =
      [111, 0, 0, 0] ++ List.replicate (2 ^ p - 8) 255 ++ negative 254 := by
  refine document_sector (n := 1) (a := List.replicate (2 ^ p) 0 ++ (rootBytes ++ List.replicate (2 ^ p - 128) 0))
    (c := (satHead ++ List.replicate (2 ^ p - 448) 255) ++ List.replicate (109 * 2 ^ p) 255) ?_ ?_ ?_
  · simp only [documentBytes, List.append_assoc]
  · simp only [List.length_append, List.length_replicate, length_rootBytes]
    omega
  · simp only [List.length_append, List.length_replicate, List.length_cons, List.length_nil, negative]
    omega

theorem document_sat (hp : p ≤ 20) (hsize : 512 ≤ 2 ^ p) :
    sectorAt (documentBytes (2 ^ p)) (documentHeader p hp) 2 = satHead ++ List.replicate (2 ^ p - 448) 255 := by
  refine document_sector (n := 2) (a := List.replicate (2 ^ p) 0 ++ (rootBytes ++ List.replicate (2 ^ p - 128) 0) ++
    ([111, 0, 0, 0] ++ List.replicate (2 ^ p - 8) 255 ++ negative 254)) (c := List.replicate (109 * 2 ^ p) 255) ?_ ?_ ?_
  · simp only [documentBytes, List.append_assoc]
  · simp only [List.length_append, List.length_replicate, List.length_cons, List.length_nil, negative,
      length_rootBytes]
    omega
  · rw [List.length_append, length_satHead, List.length_replicate]
    omega

theorem document_present (hp : p ≤ 20) (hsize : 512 ≤ 2 ^ p) {id : ℤ} (hid : 0 ≤ id) (hle : id ≤ 111) :
    Present (documentBytes (2 ^ p)) (documentHeader p hp) id := by
  refine ⟨hid, by omega, ?_⟩
  rw [length_document hsize]
  exact Nat.mul_le_mul_right _ (by omega)

theorem document_nsatpersec (hp : p ≤ 20) (hsize : 512 ≤ 2 ^ p) : (documentHeader p hp).nsatpersec = 2 ^ p / 4 - 1 := by
  have hle := secSize_le (documentHeader p hp)
  have hsecSize : (documentHeader p hp).secSize = 2 ^ p := rfl
  rw [hsecSize] at hle
  unfold Header.nsatpersec sizeT
  rw [hsecSize]
  generalize 2 ^ p = size at hle hsize
  omega

theorem document_listed (hp : p ≤ 20) (hsize : 512 ≤ 2 ^ p) :
    listed (documentBytes (2 ^ p)) (documentHeader p hp) [1] = [111] := by
  have hhead : [111, 0, 0, 0] ++ negative 255 <+: [111, 0, 0, 0] ++ List.replicate (2 ^ p - 8) 255 ++ negative 254 := by
    have hsplit : List.replicate (2 ^ p - 8) (255 : UInt8) = negative 255 ++ List.replicate (2 ^ p - 12) 255 := by
      rw [show 2 ^ p - 8 = 4 + (2 ^ p - 12) by omega, List.replicate_add]
      rfl
    rw [hsplit]
    simp
  obtain ⟨n, hn⟩ : ∃ n, (documentHeader p hp).nsatpersec = n + 2 :=
    ⟨2 ^ p / 4 - 3, by rw [document_nsatpersec hp hsize]; omega⟩
  unfold listed
  rw [List.flatMap_singleton, document_master hp hsize, hn, numbers_succ, numbers_succ,
    slice_eq_of_isPrefix hhead (by decide), slice_eq_of_isPrefix hhead (by decide),
    List.takeWhile_cons_of_pos (by decide), List.takeWhile_cons_of_neg (by decide)]
  decide

theorem document_link (hp : p ≤ 20) (hsize : 512 ≤ 2 ^ p) :
    link (sectorAt (documentBytes (2 ^ p)) (documentHeader p hp) 1) (documentHeader p hp).nsatpersec = some (-2) := by
  have hdvd : 2 ^ 2 ∣ 2 ^ p := Nat.pow_dvd_pow 2 (Nat.le_trans (by decide) (nine_le hsize))
  have hmaster := document_master hp hsize
  have hlast : slice (sectorAt (documentBytes (2 ^ p)) (documentHeader p hp) 1) (4 * (2 ^ p / 4 - 1)) 4 = negative 254 := by
    rw [hmaster, ← List.append_nil (_ ++ negative 254)]
    refine slice_middle ?_ rfl
    simp only [List.length_append, List.length_replicate, List.length_cons, List.length_nil]
    omega
  have hlen : (sectorAt (documentBytes (2 ^ p)) (documentHeader p hp) 1).length = 2 ^ p := by
    rw [hmaster]
    simp only [List.length_append, List.length_replicate, List.length_cons, List.length_nil, negative]
    omega
  rw [document_nsatpersec hp hsize, link, entry_eq (by rw [hlen]; omega), hlast]
  decide

theorem document_satSectors (hp : p ≤ 20) (hsize : 512 ≤ 2 ^ p) :
    satSectors (documentBytes (2 ^ p)) (documentHeader p hp) documentLayout = (List.range' 2 110).map Int.ofNat := by
  have hheader : ((List.range' 2 109).map Int.ofNat).takeWhile (0 ≤ ·) = (List.range' 2 109).map Int.ofNat := by decide
  have hmaster := document_listed hp hsize
  unfold satSectors
  refine (congrArg₂ (· ++ ·) hheader hmaster).trans ?_
  decide

theorem document_head (hp : p ≤ 20) (hsize : 512 ≤ 2 ^ p) :
    negative 254 <+: satTable (documentBytes (2 ^ p)) (documentHeader p hp) documentLayout := by
  unfold satTable
  rw [document_satSectors hp hsize, List.range'_succ, List.map_cons, List.flatMap_cons]
  refine List.IsPrefix.trans ?_ (List.prefix_append _ _)
  show _ <+: sectorAt _ _ 2
  rw [document_sat hp hsize]
  refine List.IsPrefix.trans ?_ (List.prefix_append _ _)
  exact ⟨_, (List.append_assoc _ _ _).symm⟩

theorem document_rootFirst (hp : p ≤ 20) (hsize : 512 ≤ 2 ^ p) :
    rootFirst (documentBytes (2 ^ p)) (documentHeader p hp) documentLayout = -2 := by
  obtain ⟨n, hn⟩ : ∃ n, (documentHeader p hp).secSize / cdfDirectorySize = n + 1 := by
    refine Nat.exists_eq_add_of_le' (Nat.le_div_iff_mul_le (by decide) |>.mpr ?_)
    exact Nat.le_trans (by decide) hsize
  have hroot : slice (rootBytes ++ List.replicate (2 ^ p - 128) 0) (0 * cdfDirectorySize) cdfDirectorySize = rootBytes :=
    slice_middle (a := []) rfl length_rootBytes
  have htype : (cdfUnpackDir rootBytes).type = rootStorage := by decide
  unfold rootFirst directory
  rw [show documentLayout.dirs = [0] from rfl, List.flatMap_singleton, document_dir hp hsize, dirEntries, hn,
    List.range'_succ, List.map_cons, hroot, List.find?_cons_of_pos (by simpa using htype)]
  decide

theorem document_wellFormed (hp : p ≤ 20) (hsize : 512 ≤ 2 ^ p) :
    WellFormed (documentBytes (2 ^ p)) (documentHeader p hp) documentLayout where
  le_secSizeP2 := Nat.le_trans (by decide) (nine_le hsize)
  shortSecSizeP2_le_secSizeP2 := Nat.le_trans (show 6 ≤ 9 by decide) (nine_le hsize)
  length_masters := rfl
  masters_lt := by decide
  masters := ⟨-2, .cons (document_link hp hsize) .nil, by decide⟩
  masters_present := by
    intro id hid
    obtain rfl := List.mem_singleton.mp hid
    exact document_present hp hsize (by decide) (by decide)
  sat_present := by
    intro id hid
    rw [document_satSectors hp hsize, List.mem_map] at hid
    obtain ⟨n, hn, rfl⟩ := hid
    rw [List.mem_range'_1] at hn
    exact document_present hp hsize (Int.natCast_nonneg n) (by show (n : ℤ) ≤ 111; omega)
  dirs := by
    have hentry : entry (negative 254) 0 = .ok (-2) := by decide
    refine ⟨by decide, -2, .cons ?_ .nil, by decide⟩
    show link _ 0 = _
    rw [link, entry_of_isPrefix (document_head hp hsize) hentry]
    rfl
  dirs_present := by
    intro id hid
    obtain rfl := List.mem_singleton.mp hid
    exact document_present hp hsize (by decide) (by decide)
  shorts := ⟨by decide, -2, .nil, by decide⟩
  shorts_present := nofun
  roots := by
    rw [document_rootFirst hp hsize]
    exact ⟨by decide, -2, .nil, by decide⟩
  roots_present := nofun

/-- With sectors of 512 bytes. -/
theorem reads_document_small :
    ReadsAs ⟨none, some (documentBytes (2 ^ 9))⟩ (documentBytes (2 ^ 9)) (documentHeader 9 (by decide)) documentLayout
      (SmallStream (documentBytes (2 ^ 9)) (documentHeader 9 (by decide)) documentLayout) :=
  (reads_document (source_open _) (document_wellFormed (by decide) (by decide))).1 (by decide)

/-- With sectors of `2 ^ 17` bytes, a master table is refused. -/
theorem not_readsAs : ¬ ∀ info f h l, Source info f → WellFormed f h l → ReadsAs info f h l (IsStream f h l) := by
  intro hreads
  have hwf := document_wellFormed (p := 17) (by decide) (by decide)
  obtain ⟨sat, -, -, ⟨hsat, -⟩, -⟩ := hreads ⟨none, some (documentBytes (2 ^ 17))⟩ _ _ _ (source_open _) hwf
  have hrefused := cdfReadSat_refuses ⟨none, some (documentBytes (2 ^ 17))⟩ hwf.le_secSizeP2 (by decide)
  rw [hrefused] at hsat
  cases hsat

end Document

end CodingExercises.File.Cdf
