import RoscoEmulator.Lib.ByteFile
import RoscoEmulator.Lib.GuardedRun

/-!
# Raw hard disk files

`hard_disk_file` over a plain file: the geometry that its constructor guesses, and `read` and
`write`, which seek to `fileoffset + (lbasector * hdinfo.sectorbytes)`. All three are `uint32_t`,
so the sum is one too, although the file has a 64-bit length and the seek takes a 64-bit position.
The sectors of a disk are therefore kept apart only as long as they fit into the 32-bit positions:
either no offset wraps, or what wraps around ends before it reaches the first sector again.
-/

namespace RoscoEmulator.Util

open Nat BitVec List

abbrev Byte : Type := BitVec 8

/-! ## The source -/

/-- `hard_disk_file::info`. -/
structure HardDiskInfo where
  cylinders : BitVec 32
  heads : BitVec 32
  sectors : BitVec 32
  sectorbytes : BitVec 32
deriving DecidableEq, Repr

/-- `hard_disk_file` with a null `chd`. -/
structure HardDiskFile where
  fhandle : ByteFile Byte
  hdinfo : HardDiskInfo
  fileoffset : BitVec 32

/-- The two inner loops of the constructor: the most sectors per track, and for these the most
heads, that divide `totalsectors`. -/
def guessGeometry (totalsectors : ℕ) : Option (ℕ × ℕ × ℕ) :=
  ((range' 2 62).reverse).findSome? fun cursectors ↦
    if totalsectors % cursectors = 0 then
      ((range' 2 15).reverse).findSome? fun curheads ↦
        if totalsectors / cursectors % curheads = 0 then
          some (totalsectors / cursectors / curheads, curheads, cursectors)
        else none
    else none

/-- The outer loop of the constructor from `totalsectors` on, for at most `fuel` rounds. -/
def guessFrom : ℕ → BitVec 32 → Option (ℕ × ℕ × ℕ)
  | 0, _ => none
  | fuel + 1, totalsectors =>
      match guessGeometry totalsectors.toNat with
      | some chs => some chs
      | none => guessFrom fuel (totalsectors + 1)

/-- `(length - skipoffs) / hdinfo.sectorbytes` as the constructor converts it to `uint32_t`. -/
def initialSectors (length : ℕ) (skipoffs : BitVec 32) : BitVec 32 :=
  ((BitVec.ofNat 64 length - skipoffs.setWidth 64) / 512).setWidth 32

/-- The constructor for a raw file. Four rounds of its loop are enough, by `guessFrom_isSome`. -/
def HardDiskFile.ofFile (corefile : ByteFile Byte) (skipoffs : BitVec 32) : HardDiskFile :=
  let chs := (guessFrom 4 (initialSectors corefile.length skipoffs)).getD (0, 0, 0)
  { fhandle := corefile
    hdinfo :=
      { cylinders := BitVec.ofNat 32 chs.1
        heads := BitVec.ofNat 32 chs.2.1
        sectors := BitVec.ofNat 32 chs.2.2
        sectorbytes := 512 }
    fileoffset := skipoffs }

namespace HardDiskFile

variable (h : HardDiskFile)

/-- The position that `read` and `write` seek to. -/
def offset (lbasector : BitVec 32) : BitVec 32 :=
  h.fileoffset + lbasector * h.hdinfo.sectorbytes

/-- `read`: whether it succeeds, and the bytes that it puts into the buffer. -/
def read (lbasector : BitVec 32) : Bool × List Byte :=
  let bytes := h.fhandle.readAt (h.offset lbasector).toNat h.hdinfo.sectorbytes.toNat
  (bytes.length = h.hdinfo.sectorbytes.toNat, bytes)

/-- `write` of a buffer of `hdinfo.sectorbytes` bytes. -/
def write (lbasector : BitVec 32) (buffer : List Byte) : HardDiskFile :=
  { h with fhandle := h.fhandle.writeAt (h.offset lbasector).toNat buffer }

/-- The number of sectors of the guessed geometry. -/
def totalSectors : ℕ :=
  h.hdinfo.cylinders.toNat * h.hdinfo.heads.toNat * h.hdinfo.sectors.toNat

end HardDiskFile

/-! ## The guessed geometry -/

theorem guessGeometry_isSome {n : ℕ} (hn : n % 4 = 0) : (guessGeometry n).isSome := by
  simp only [guessGeometry, List.findSome?_isSome_iff]
  refine ⟨2, by decide, ?_⟩
  rw [if_pos (by omega), List.findSome?_isSome_iff]
  exact ⟨2, by decide, by rw [if_pos (by omega)]; rfl⟩

theorem guessGeometry_mul {n c hd s : ℕ} (h : guessGeometry n = some (c, hd, s)) :
    c * hd * s = n ∧ c ≤ n ∧ hd < 17 ∧ s < 64 := by
  obtain ⟨cursectors, hsectors, hsome⟩ := List.exists_of_findSome?_eq_some h
  split_ifs at hsome with hs
  obtain ⟨curheads, hheads, hchs⟩ := List.exists_of_findSome?_eq_some hsome
  split_ifs at hchs with hh
  obtain ⟨rfl, rfl, rfl⟩ : _ ∧ _ ∧ _ := by simpa using hchs
  simp only [mem_reverse, mem_range'_1] at hsectors hheads
  refine ⟨?_, (Nat.div_le_self _ _).trans (Nat.div_le_self _ _), by omega, by omega⟩
  rw [Nat.div_mul_cancel (dvd_of_mod_eq_zero hh),
    Nat.div_mul_cancel (dvd_of_mod_eq_zero hs)]

/-- The constructor finds a geometry: one of four consecutive numbers is a multiple of four. -/
theorem guessFrom_isSome (n : BitVec 32) : (guessFrom 4 n).isSome := by
  have hround : ∀ (k : ℕ) (m : BitVec 32), (4 - m.toNat % 4) % 4 < k → (guessFrom k m).isSome := by
    intro k
    induction k with
    | zero => intro m hm; omega
    | succ k ih =>
      intro m hm
      simp only [guessFrom]
      split
      · rfl
      · next hnone =>
        have hmod : m.toNat % 4 ≠ 0 := fun h4 ↦ by
          have := guessGeometry_isSome h4
          rw [hnone] at this
          exact absurd this (by decide)
        refine ih _ ?_
        have hsucc : (m + 1).toNat = (m.toNat + 1) % 2 ^ 32 := toNat_add m 1
        omega
  exact hround 4 n (by omega)

theorem guessFrom_mul {fuel : ℕ}
    {n : BitVec 32} {c hd s : ℕ} (h : guessFrom fuel n = some (c, hd, s)) :
    ∃ i < fuel, c * hd * s = (n + BitVec.ofNat 32 i).toNat ∧ c < 2 ^ 32 ∧ hd < 17 ∧ s < 64 := by
  induction fuel generalizing n with
  | zero => exact absurd h (by simp [guessFrom])
  | succ fuel ih =>
    simp only [guessFrom] at h
    split at h
    · next chs hchs =>
      obtain rfl : chs = (c, hd, s) := by simpa using h
      obtain ⟨hmul, hc, hhd, hs⟩ := guessGeometry_mul hchs
      refine ⟨0, by omega, ?_, by omega, hhd, hs⟩
      rw [hmul, BitVec.add_zero]
    · obtain ⟨i, hi, hmul, hbounds⟩ := ih h
      refine ⟨i + 1, by omega, ?_, hbounds⟩
      rw [hmul, BitVec.add_assoc, Nat.add_comm i 1, ofNat_add]
      rfl

/-- The geometry has as many sectors as the file, rounded up by at most three. -/
theorem HardDiskFile.totalSectors_ofFile (corefile : ByteFile Byte) (skipoffs : BitVec 32) :
    ∃ i < 4, (ofFile corefile skipoffs).totalSectors =
      (initialSectors corefile.length skipoffs + BitVec.ofNat 32 i).toNat := by
  obtain ⟨⟨c, hd, s⟩, hchs⟩ :=
    Option.isSome_iff_exists.mp (guessFrom_isSome (initialSectors corefile.length skipoffs))
  obtain ⟨i, hi, hmul, hc, hhd, hs⟩ := guessFrom_mul hchs
  refine ⟨i, hi, ?_⟩
  simp only [totalSectors, ofFile, hchs, Option.getD_some, toNat_ofNat]
  rw [mod_eq_of_lt hc, mod_eq_of_lt (by omega), mod_eq_of_lt (by omega), hmul]

/-! ## Sectors -/

namespace HardDiskFile

variable (h : HardDiskFile)

/-- The positions of the file that `read` and `write` of a sector use. -/
def sectorExtent (lba : BitVec 32) : Set ℕ :=
  ByteFile.extent (h.offset lba).toNat h.hdinfo.sectorbytes.toNat

/-- The disk after a list of writes. -/
def writeAll (ws : List (BitVec 32 × List Byte)) : HardDiskFile :=
  Run.run (fun d w ↦ d.write w.1 w.2) h ws

end HardDiskFile

/-- The data of the last write to `lba`, if there was one. -/
def lastWrite (ws : List (BitVec 32 × List Byte)) (lba : BitVec 32) : Option (List Byte) :=
  (ws.reverse.find? (·.1 = lba)).map Prod.snd

theorem lastWrite_concat (ws : List (BitVec 32 × List Byte)) (w : BitVec 32 × List Byte)
    (lba : BitVec 32) :
    lastWrite (ws ++ [w]) lba = if w.1 = lba then some w.2 else lastWrite ws lba := by
  rw [lastWrite, List.reverse_append, reverse_singleton, singleton_append,
    List.find?_cons]
  split_ifs with heq
  · simp [heq]
  · simp [heq, lastWrite]

namespace HardDiskFile

variable {h : HardDiskFile} {n : ℕ}

/-- The sectors below `n` are kept apart: their positions in the file are disjoint, and after any
writes to them each reads as it was last written. -/
def Independent (h : HardDiskFile) (n : ℕ) : Prop :=
  (∀ a b : BitVec 32, a.toNat < n → b.toNat < n → a ≠ b →
    Disjoint (h.sectorExtent a) (h.sectorExtent b)) ∧
  ∀ ws : List (BitVec 32 × List Byte),
    (∀ w ∈ ws, w.1.toNat < n ∧ w.2.length = h.hdinfo.sectorbytes.toNat) →
    ∀ lba data, lastWrite ws lba = some data → (h.writeAll ws).read lba = (true, data)

theorem toNat_offset (h : HardDiskFile) (lba : BitVec 32) :
    (h.offset lba).toNat =
      (h.fileoffset.toNat + lba.toNat * h.hdinfo.sectorbytes.toNat) % 2 ^ 32 := by
  rw [offset, toNat_add, toNat_mul, add_mod_mod]

variable (ws : List (BitVec 32 × List Byte)) {a lba b : BitVec 32} {data : List Byte}

@[simp] theorem writeAll_hdinfo : (h.writeAll ws).hdinfo = h.hdinfo := by
  refine Run.run_invariant (P := fun d : HardDiskFile ↦ d.hdinfo = h.hdinfo) ?_ rfl ws
  intro d w hd
  exact hd

@[simp] theorem writeAll_fileoffset : (h.writeAll ws).fileoffset = h.fileoffset := by
  refine Run.run_invariant (P := fun d : HardDiskFile ↦ d.fileoffset = h.fileoffset) ?_ rfl ws
  intro d w hd
  exact hd

theorem writeAll_offset (lba : BitVec 32) : (h.writeAll ws).offset lba = h.offset lba := by
  rw [offset, offset, writeAll_hdinfo, writeAll_fileoffset]

theorem read_eq_true_iff {bytes : List Byte} :
    h.read lba = (true, bytes) ↔
      h.fhandle.readAt (h.offset lba).toNat h.hdinfo.sectorbytes.toNat = bytes ∧
        bytes.length = h.hdinfo.sectorbytes.toNat := by
  simp only [read, Prod.mk.injEq, decide_eq_true_eq]
  constructor
  · rintro ⟨hlen, rfl⟩
    exact ⟨rfl, hlen⟩
  · rintro ⟨rfl, hlen⟩
    exact ⟨hlen, rfl⟩

theorem read_write_self (hlen : data.length = h.hdinfo.sectorbytes.toNat) :
    (h.write lba data).read lba = (true, data) := by
  refine read_eq_true_iff.mpr ⟨?_, hlen⟩
  show (h.fhandle.writeAt (h.offset lba).toNat data).readAt (h.offset lba).toNat
    h.hdinfo.sectorbytes.toNat = data
  rw [← hlen]
  exact h.fhandle.readAt_writeAt_self

theorem read_of_offset_eq {data' : List Byte} (hoff : h.offset a = h.offset b)
    (hlen : data'.length = h.hdinfo.sectorbytes.toNat) :
    (h.writeAll [(a, data), (b, data')]).read a = (true, data') := by
  have hread : (h.writeAll [(a, data), (b, data')]).read a =
      (h.writeAll [(a, data), (b, data')]).read b := by
    rw [read, read, writeAll_offset, writeAll_offset, hoff]
  rw [hread]
  exact read_write_self (h := h.write a data) hlen

theorem read_write_of_disjoint {bytes : List Byte} (hread : h.read a = (true, bytes))
    (hlen : data.length = h.hdinfo.sectorbytes.toNat)
    (hdisj : Disjoint (h.sectorExtent a) (h.sectorExtent b)) :
    (h.write b data).read a = (true, bytes) := by
  obtain ⟨hbytes, hlength⟩ := read_eq_true_iff.mp hread
  refine read_eq_true_iff.mpr ⟨?_, hlength⟩
  show (h.fhandle.writeAt (h.offset b).toNat data).readAt (h.offset a).toNat
    h.hdinfo.sectorbytes.toNat = bytes
  -- an empty sector reads as nothing wherever the file ends
  rcases Nat.eq_zero_or_pos h.hdinfo.sectorbytes.toNat with hzero | hpos
  · rw [← hbytes, hzero, ByteFile.readAt, ByteFile.readAt, Nat.zero_min, Nat.zero_min]
    rfl
  · have hfull := hlength
    rw [← hbytes, ByteFile.length_readAt] at hfull
    rw [h.fhandle.readAt_writeAt_of_disjoint (by omega) (by rw [hlen]; exact hdisj), hbytes]

theorem read_writeAll (hdisj : ∀ a b : BitVec 32, a.toNat < n → b.toNat < n → a ≠ b →
      Disjoint (h.sectorExtent a) (h.sectorExtent b)) {ws : List (BitVec 32 × List Byte)}
    (hws : ∀ w ∈ ws, w.1.toNat < n ∧ w.2.length = h.hdinfo.sectorbytes.toNat)
    (hlast : lastWrite ws lba = some data) :
    lba.toNat < n ∧ (h.writeAll ws).read lba = (true, data) := by
  induction ws using reverseRecOn with
  | nil => exact absurd hlast (by simp [lastWrite])
  | append_singleton ws w ih =>
    obtain ⟨hlba, hlen⟩ := hws w (by simp)
    have hstep : h.writeAll (ws ++ [w]) = (h.writeAll ws).write w.1 w.2 := Run.run_append _ _ _
    have hlen' : w.2.length = (h.writeAll ws).hdinfo.sectorbytes.toNat := by
      rw [writeAll_hdinfo, hlen]
    rw [lastWrite_concat] at hlast
    rw [hstep]
    split_ifs at hlast with heq
    · obtain rfl : w.2 = data := by simpa using hlast
      rw [← heq]
      exact ⟨hlba, read_write_self hlen'⟩
    · obtain ⟨hlt, hread⟩ := ih (fun v hv ↦ hws v (by simp [hv])) hlast
      refine ⟨hlt, read_write_of_disjoint hread hlen' ?_⟩
      rw [sectorExtent, sectorExtent, writeAll_offset, writeAll_offset, writeAll_hdinfo]
      exact hdisj _ _ hlt hlba fun h' ↦ heq h'.symm

/-! ## When sectors are kept apart -/

/-- The sectors below `n` fit: together they take at most `2 ^ 32` bytes, or the last of them
starts below that position. -/
def Fits (h : HardDiskFile) (n : ℕ) : Prop :=
  n * h.hdinfo.sectorbytes.toNat ≤ 2 ^ 32 ∨
    h.fileoffset.toNat + (n - 1) * h.hdinfo.sectorbytes.toNat < 2 ^ 32

/-- Two offsets modulo `M`, a distance of at least `m` and at most `M - m` apart. -/
theorem apart_mod {M x d m : ℕ} (hpos : 0 < M) (hm : m ≤ d) (hM : d + m ≤ M) :
    x % M + m ≤ (x + d) % M ∨ (x + d) % M + m ≤ x % M := by
  have hx : x % M < M := mod_lt _ hpos
  rcases Nat.lt_or_ge (x % M + d) M with hlt | hge
  · have hsum : (x + d) % M = x % M + d := by
      rw [← mod_add_mod, mod_eq_of_lt hlt]
    omega
  · have hsum : (x + d) % M = x % M + d - M := by
      rw [← mod_add_mod, mod_eq_sub_mod hge, mod_eq_of_lt (by omega)]
    omega

theorem disjoint_of_fits (hfits : h.Fits n) (hlt : a.toNat < b.toNat) (hb : b.toNat < n) :
    Disjoint (h.sectorExtent a) (h.sectorExtent b) := by
  refine ByteFile.disjoint_extent_of_le ?_
  rw [toNat_offset, toNat_offset]
  have hmul : b.toNat * h.hdinfo.sectorbytes.toNat = a.toNat * h.hdinfo.sectorbytes.toNat +
      (b.toNat - a.toNat) * h.hdinfo.sectorbytes.toNat := by
    rw [← Nat.add_mul]
    congr 1
    omega
  have hone : h.hdinfo.sectorbytes.toNat ≤
      (b.toNat - a.toNat) * h.hdinfo.sectorbytes.toNat := Nat.le_mul_of_pos_left _ (by omega)
  rcases hfits with hsize | hlast
  · rw [hmul, ← Nat.add_assoc]
    refine apart_mod (by omega) hone ?_
    -- the distance of the two and one sector more are at most `n` sectors
    calc (b.toNat - a.toNat) * h.hdinfo.sectorbytes.toNat + h.hdinfo.sectorbytes.toNat
        = (b.toNat - a.toNat + 1) * h.hdinfo.sectorbytes.toNat := (succ_mul _ _).symm
      _ ≤ n * h.hdinfo.sectorbytes.toNat := Nat.mul_le_mul_right _ (by omega)
      _ ≤ 2 ^ 32 := hsize
  · have hle : b.toNat * h.hdinfo.sectorbytes.toNat ≤ (n - 1) * h.hdinfo.sectorbytes.toNat :=
      Nat.mul_le_mul_right _ (by omega)
    rw [mod_eq_of_lt (by omega), mod_eq_of_lt (by omega)]
    omega

/-- Sectors that do not fit collide: the first one meets the one that comes around to it. -/
theorem exists_overlap (hn : n ≤ 2 ^ 32) (hfits : ¬ h.Fits n) :
    ∃ k : ℕ, 0 < k ∧ k < n ∧
      ¬ Disjoint (h.sectorExtent 0) (h.sectorExtent (BitVec.ofNat 32 k)) := by
  obtain ⟨hsize, hlast⟩ := not_or.mp hfits
  set m := h.hdinfo.sectorbytes.toNat with hm
  have hfo : h.fileoffset.toNat < 2 ^ 32 := h.fileoffset.isLt
  have hpos : 0 < m := by
    rcases Nat.eq_zero_or_pos m with h0 | h0
    · rw [h0] at hsize
      omega
    · exact h0
  -- `d` whole sectors are the most that fit into the 32-bit positions
  obtain ⟨d, hd⟩ : ∃ d, d = 2 ^ 32 / m := ⟨_, rfl⟩
  have hle : d * m ≤ 2 ^ 32 := hd ▸ div_mul_le_self _ _
  have hgt : 2 ^ 32 < d * m + m := by
    have := lt_div_mul_add (a := 2 ^ 32) hpos
    rwa [← hd] at this
  have hdn : d < n := by
    by_contra hge
    have := Nat.mul_le_mul_right m (Nat.le_of_not_lt hge)
    omega
  have hd0 : 0 < d := by
    rcases Nat.eq_zero_or_pos d with h0 | h0
    · rw [h0] at hgt
      omega
    · exact h0
  have hoverlap : ∀ k < n, ∀ r, h.fileoffset.toNat + k * m = 2 ^ 32 + r → r < 2 ^ 32 →
      ¬ (h.fileoffset.toNat + m ≤ r ∨ r + m ≤ h.fileoffset.toNat) →
      ¬ Disjoint (h.sectorExtent 0) (h.sectorExtent (BitVec.ofNat 32 k)) := by
    intro k hk r hr hr32 hno hdisj
    rw [sectorExtent, sectorExtent, ByteFile.disjoint_extent_iff hpos, toNat_offset, toNat_offset,
      toNat_ofNat, mod_eq_of_lt (by omega : k < 2 ^ 32), ← hm, hr, add_mod_left,
      mod_eq_of_lt hr32, show (0 : BitVec 32).toNat = 0 from rfl, Nat.zero_mul, Nat.add_zero,
      mod_eq_of_lt hfo] at hdisj
    exact hno hdisj
  rcases Nat.lt_or_ge (h.fileoffset.toNat + d * m) (2 ^ 32) with hno | hwrap
  · -- sector `d` does not wrap around, so the sector behind it is the first that does
    have hne : d ≠ n - 1 := by
      rintro rfl
      exact hlast hno
    have hsucc : (d + 1) * m = d * m + m := succ_mul d m
    refine ⟨d + 1, by omega, by omega, hoverlap (d + 1) (by omega)
      (h.fileoffset.toNat + (d + 1) * m - 2 ^ 32) (by omega) (by omega) (by omega)⟩
  · exact ⟨d, hd0, hdn, hoverlap d hdn (h.fileoffset.toNat + d * m - 2 ^ 32) (by omega) (by omega)
      (by omega)⟩

/-- The sectors below `n` of a raw hard disk file are kept apart exactly if they fit. Here `n` may
be the number of sectors of the geometry or of the file: any number of sectors that have an
LBA. -/
theorem independent_iff_fits (h : HardDiskFile) (n : ℕ) (hn : n ≤ 2 ^ 32) :
    h.Independent n ↔ h.Fits n := by
  constructor
  · rintro ⟨hdisj, -⟩
    by_contra hfits
    obtain ⟨k, hk0, hkn, hoverlap⟩ := exists_overlap hn hfits
    have hk : (BitVec.ofNat 32 k).toNat = k := by
      rw [toNat_ofNat, mod_eq_of_lt (by omega)]
    have hzero : (0 : BitVec 32).toNat = 0 := rfl
    refine hoverlap (hdisj 0 (BitVec.ofNat 32 k) (by omega) (by rw [hk]; exact hkn) fun h0 ↦ ?_)
    rw [← h0] at hk
    omega
  · intro hfits
    have hdisj : ∀ a b : BitVec 32, a.toNat < n → b.toNat < n → a ≠ b →
        Disjoint (h.sectorExtent a) (h.sectorExtent b) := by
      intro a b ha hb hne
      rcases Nat.lt_or_gt_of_ne (mt eq_of_toNat_eq hne) with hlt | hlt
      · exact disjoint_of_fits hfits hlt hb
      · exact (disjoint_of_fits hfits hlt ha).symm
    exact ⟨hdisj, fun ws hws lba data hlast ↦ (read_writeAll hdisj hws hlast).2⟩

/-- A file of 4 GiB behind a header of 512 bytes fits, with all the sectors of its geometry. -/
theorem independent_iff_fits_four_gib :
    (ofFile ⟨2 ^ 32 + 512, fun _ ↦ 0⟩ 512).Independent (2 ^ 23) :=
  (independent_iff_fits _ (2 ^ 23) (by decide)).mpr (Or.inl (by decide))

/-- In a file of 8 GiB sector `2 ^ 23`, one of the sectors of its geometry, is sector `0`. -/
theorem not_independent_eight_gib :
    let h := ofFile ⟨2 ^ 33, fun _ ↦ 0⟩ 0
    h.totalSectors = 2 ^ 24 ∧
      (h.writeAll [(0, List.replicate 512 1), (0x800000, List.replicate 512 2)]).read 0 =
        (true, List.replicate 512 2) ∧
      ¬ h.Independent h.totalSectors := by
  intro h
  have hgeometry : h.hdinfo = ⟨32768, 16, 32, 512⟩ := by
    decide +kernel
  have htotal : h.totalSectors = 2 ^ 24 := by
    rw [totalSectors, hgeometry]
    rfl
  have hwrap : h.offset 0 = h.offset 0x800000 := by
    rw [offset, offset, hgeometry]
    rfl
  have hread : ∀ ones twos : List Byte, twos.length = 512 →
      (h.writeAll [(0, ones), (0x800000, twos)]).read 0 = (true, twos) := fun ones twos hlen ↦
    read_of_offset_eq hwrap (by rw [hlen, hgeometry]; rfl)
  refine ⟨htotal, hread _ _ length_replicate, fun hind ↦ ?_⟩
  have hsame : ∀ ones twos : List Byte, ones.length = 512 → twos.length = 512 → twos = ones := by
    intro ones twos hones htwos
    have hlast := hind.2 [(0, ones), (0x800000, twos)] (by simp [htotal, hgeometry, hones, htwos])
      0 ones (by simp [lastWrite])
    rw [hread ones twos htwos] at hlast
    exact (Prod.mk.inj hlast).2
  have heq := hsame (List.replicate 512 1) (List.replicate 512 2) length_replicate
    length_replicate
  exact absurd ((replicate_right_inj (by decide)).mp heq) (by decide)

end HardDiskFile

end RoscoEmulator.Util
