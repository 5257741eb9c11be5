import RoscoEmulator.Chd.Units
import RoscoEmulator.Util.HardDisk

/-!
# The bounds of a hard disk

`hard_disk_file` over a plain file or over a CHD. Neither looks at its geometry when it reads or
writes a sector: a plain file takes every write, and a CHD every access to a unit of one of its
hunks. So a plain file never keeps to its geometry, and a CHD does exactly if the geometry has as
many sectors as the hunks have units, the CHD can be written, and, where a unit is all of a hunk,
two things that go wrong then do not happen: the last LBA of all names the hunk of an empty cache,
and zeros are not stored in a hunk without a place. -/

namespace RoscoEmulator.Util

open List Chd Pieces AccessM

/-- The sectors of a geometry. -/
def HardDiskInfo.totalSectors (i : HardDiskInfo) : ℕ :=
  i.cylinders.toNat * i.heads.toNat * i.sectors.toNat

/-- `hard_disk_file`. A plain file has a geometry that was guessed from a 32-bit number of sectors;
a CHD stands in front of its parents. -/
inductive Disk
  | raw (h : HardDiskFile) (guessed : h.totalSectors < 2 ^ 32)
  | chd (hdinfo : HardDiskInfo) (chds : List ChdFile)

namespace Disk

/-- `hard_disk_file::hard_disk_file` for a plain file. -/
def ofFile (corefile : ByteFile Byte) (skipoffs : BitVec 32) : Disk :=
  .raw (HardDiskFile.ofFile corefile skipoffs) (by
    obtain ⟨i, -, htotal⟩ := HardDiskFile.totalSectors_ofFile corefile skipoffs
    rw [htotal]
    exact BitVec.isLt _)

/-- The number of sectors of the geometry. -/
def total : Disk → ℕ
  | raw h _ => h.totalSectors
  | chd hdinfo _ => hdinfo.totalSectors

/-- The number of bytes that an access transfers. -/
def sectorSize : Disk → ℕ
  | raw h _ => h.hdinfo.sectorbytes.toNat
  | chd _ chds => (chds.head?.map ChdFile.unitbytes).getD 0

/-- Whether an access to a CHD is a success, if it comes to an end. -/
def outcome : EStateM.Result Stop Access Unit → Option Bool
  | .ok _ _ => some true
  | .error (.error _) _ => some false
  | .error _ _ => none

/-- What an access to a CHD leaves. -/
def left : EStateM.Result Stop Access Unit → Access
  | .ok _ s => s
  | .error _ s => s

section

variable (codecs : Codecs) (fuel : ℕ)

/-- `read`: whether it is a success, what is in the buffer then, and the disk after it. -/
def read : Disk → BitVec 32 → List Byte → Option Bool × List Byte × Disk
  | raw h guessed, lbasector, buffer =>
      (some (h.read lbasector).1, overlay buffer (h.read lbasector).2, raw h guessed)
  | chd hdinfo chds, lbasector, buffer =>
      let result := readUnits codecs fuel lbasector.toNat 1 ⟨buffer, chds⟩
      (outcome result, (left result).dest, chd hdinfo (left result).chds)

/-- `write`: whether it is a success, and the disk after it. -/
def write : Disk → BitVec 32 → List Byte → Option Bool × Disk
  | raw h guessed, lbasector, buffer => (some true, raw (h.write lbasector buffer) guessed)
  | chd hdinfo chds, lbasector, buffer =>
      let result := writeUnits codecs fuel lbasector.toNat 1 buffer ⟨[], chds⟩
      (outcome result, chd hdinfo (left result).chds)

/-- The disk keeps to its geometry: it refuses a sector behind the last one, and then all is as it
was, and it stores every other. -/
structure KeepsBounds (d : Disk) : Prop where
  refuses :
    ∀ lba : BitVec 32, d.total ≤ lba.toNat → ∀ buffer : List Byte, buffer.length = d.sectorSize →
    (d.read codecs fuel lba buffer).1 = some false ∧ (d.read codecs fuel lba buffer).2.2 = d ∧
      d.write codecs fuel lba buffer = (some false, d)
  stores : ∀ lba : BitVec 32, lba.toNat < d.total → ∀ data buffer : List Byte,
    data.length = d.sectorSize → buffer.length = d.sectorSize →
    (d.write codecs fuel lba data).1 = some true ∧
      ((d.write codecs fuel lba data).2.read codecs fuel lba buffer).1 = some true ∧
      ((d.write codecs fuel lba data).2.read codecs fuel lba buffer).2.1 = data

end

section

variable (codecs : Codecs)

/-- A CHD with its parents whose caches are right and whose hunks can all be read. If it can be
written, its map and its medium are in order. -/
structure Readable (c : ChdFile) (ps : List ChdFile) : Prop where
  sized : c.UnitSized
  fitting : Fitting codecs (c :: ps)
  coherent : Coherent codecs (c :: ps)
  holds : ∀ n < c.hunkcount, ∃ bytes, Holds codecs (c :: ps) n bytes
  raw : c.allowWrites = true → c.compressed = false → c.RawStore ∧ c.file.Faithful

/-- A geometry of `total` sectors has the bounds of the hunks of a CHD. -/
structure ChdBounded (total : ℕ) (c : ChdFile) (ps : List ChdFile) : Prop where
  units : ∀ lba < 2 ^ 32, lba < total ↔ lba < c.units
  writable : 0 < total → c.allowWrites = true ∧ c.compressed = false
  cached : c.unitbytes = c.hunkbytes → c.cachehunk ≠ noHunk ∨ 2 ^ 32 ≤ total
  zeros : c.unitbytes = c.hunkbytes → ∀ n < 2 ^ 32, n < total → n ≠ c.cachehunk → rawEntry c n = 0 →
    Holds codecs (c :: ps) n (List.replicate c.hunkbytes 0)

/-- The disk has a CHD that can be read, if it has one. -/
def Sound : Disk → Prop
  | raw _ _ => True
  | chd _ chds => ∃ c ps, chds = c :: ps ∧ Readable codecs c ps

/-- The disk has a CHD, and a geometry with the bounds of its hunks. -/
def Bounded : Disk → Prop
  | raw _ _ => False
  | chd hdinfo chds => ∃ c ps, chds = c :: ps ∧ ChdBounded codecs hdinfo.totalSectors c ps

end

variable {codecs : Codecs} {fuel : ℕ} {c : ChdFile} {ps : List ChdFile} {total n : ℕ}

/-! ## Plain files -/

/-- A plain file takes a write to the last LBA of all, whatever its geometry. -/
theorem not_keepsBounds_raw (h : HardDiskFile) (guessed : h.totalSectors < 2 ^ 32) :
    ¬ KeepsBounds codecs fuel (.raw h guessed) := by
  intro hkeeps
  have hlast : (Disk.raw h guessed).total ≤ (BitVec.allOnes 32).toNat := Nat.le_of_lt_succ guessed
  obtain ⟨-, -, hwrite⟩ := hkeeps.refuses _ hlast (List.replicate h.hdinfo.sectorbytes.toNat 0)
    length_replicate
  cases hwrite

/-! ## CHDs -/

theorem Readable.hunk_ne (h : Readable codecs c ps) (hn : n < 2 ^ 32) (hout : c.units ≤ n)
    (hcached : c.unitbytes = c.hunkbytes → c.cachehunk ≠ noHunk ∨ 2 ^ 32 ≤ n) :
    n / c.perHunk ≠ c.cachehunk := by
  intro heq
  have hk := h.sized.units_le_iff.mp hout
  rcases h.coherent.1 with hnone | hholds
  · have hpos := h.sized.perHunk_pos
    have hone : c.perHunk = 1 := by
      have hmul := Nat.div_mul_le_self n c.perHunk
      rw [heq, hnone, noHunk] at hmul
      by_contra hne
      omega
    rcases hcached (h.sized.perHunk_eq_one_iff.mp hone) with hne | hle
    · exact hne hnone
    · omega
  · have hlt := hholds.lt
    omega

/-- With enough references in a row, every hunk can be read. -/
theorem Readable.exists_succeeds (h : Readable codecs c ps) : ∃ fuel, ∀ fuel', fuel ≤ fuel' →
    ∀ n < c.hunkcount, Succeeds codecs (readHunk codecs fuel' n) (c :: ps) := by
  have hall : ∀ n, ∃ fuel, n < c.hunkcount →
      ∀ fuel', fuel ≤ fuel' → Succeeds codecs (readHunk codecs fuel' n) (c :: ps) := by
    intro n
    by_cases hn : n < c.hunkcount
    · obtain ⟨bytes, hholds⟩ := h.holds n hn
      obtain ⟨fuel, hfuel⟩ := hholds.exists_succeeds
      exact ⟨fuel, fun _ ↦ hfuel⟩
    · exact ⟨0, fun hlt ↦ absurd hlt hn⟩
  choose fuel hfuel using hall
  refine ⟨(Finset.range c.hunkcount).sup fuel, fun fuel' hle n hn ↦ hfuel n hn fuel' ?_⟩
  exact (Finset.le_sup (Finset.mem_range.mpr hn)).trans hle

section

variable (h : Readable codecs c ps)
  (hok : ∀ n < c.hunkcount, Succeeds codecs (readHunk codecs (fuel + 1) n) (c :: ps))

include h hok

theorem Readable.stores (hb : ChdBounded codecs total c ps) (hn : n < 2 ^ 32) (hin : n < total)
    {data buffer : List Byte} (hdata : data.length = c.unitbytes)
    (hbuffer : buffer.length = c.unitbytes) :
    ∃ c' ps' s', writeUnits codecs (fuel + 1) n 1 data ⟨[], c :: ps⟩ = .ok () ⟨[], c' :: ps'⟩ ∧
      readUnits codecs (fuel + 1) n 1 ⟨buffer, c' :: ps'⟩ = .ok () s' ∧ s'.dest = data := by
  have hunits := (hb.units n hn).mp hin
  have hk := h.sized.div_lt hunits
  have hcount := h.sized.hunkcount_lt
  obtain ⟨hwrites, hcompressed⟩ := hb.writable (by omega)
  obtain ⟨hraw, hfaithful⟩ := h.raw hwrites hcompressed
  by_cases hdirect : c.unitbytes = c.hunkbytes ∧ n / c.perHunk ≠ c.cachehunk
  swap
  · obtain ⟨c', ps', hwrite, hread⟩ := writeUnits_cached [] h.sized hraw hwrites hfaithful hn hunits
      hdirect (hok _ hk) h.fitting h.coherent hdata
    exact ⟨c', ps', _, hwrite, hread _ _ hbuffer, rfl⟩
  obtain ⟨hwhole, hcache⟩ := hdirect
  have hone : n / c.perHunk = n := by rw [h.sized.perHunk_eq_one_iff.mpr hwhole, Nat.div_one]
  rw [hone] at hk hcache
  obtain ⟨c', hwrite, hsame, hread⟩ := writeUnits_direct codecs ps fuel
    [] h.sized hraw hwrites hfaithful hk hwhole hcache (hdata.trans hwhole)
  by_cases hzero : rawEntry c n = 0 ∧ AllZero data
  · obtain rfl := hsame hzero
    obtain ⟨s', hread, hholds⟩ := readUnits_whole_ok h.sized
      (by omega) hwhole hcache h.fitting h.coherent (hok n hk) (hbuffer.trans hwhole)
    have hzeros := hb.zeros hwhole n hn hin hcache hzero.1
    have hall : AllZero (List.replicate c'.hunkbytes 0) :=
      List.all_eq_true.mpr fun b hb ↦ decide_eq_true (eq_of_mem_replicate hb)
    refine ⟨c', ps, s', hwrite, hread, (hholds.unique hzeros).trans (hall.eq hzero.2 ?_)⟩
    rw [length_replicate, hdata, hwhole]
  · exact ⟨c', ps, _, hwrite, hread hzero _ (hbuffer.trans hwhole), rfl⟩

theorem Readable.keepsBounds
    {hdinfo : HardDiskInfo} (hb : ChdBounded codecs hdinfo.totalSectors c ps) :
    KeepsBounds codecs (fuel + 1) (.chd hdinfo (c :: ps)) := by
  refine ⟨fun lba hlba buffer hlen ↦ ?_, fun lba hlba data buffer hdata hbuffer ↦ ?_⟩
  · have hlba' : hdinfo.totalSectors ≤ lba.toNat := hlba
    have hout : c.units ≤ lba.toNat :=
      Nat.le_of_not_lt fun hlt ↦ absurd ((hb.units _ lba.isLt).mpr hlt) (by omega)
    have hne := h.hunk_ne lba.isLt hout fun hwhole ↦ (hb.cached hwhole).imp_right (·.trans hlba')
    obtain ⟨dest', hread⟩ := readUnits_outOfRange codecs ps fuel buffer
      h.sized lba.isLt hout hne
    have hwrite := writeUnits_outOfRange codecs ps fuel [] h.sized
      lba.isLt hout hne hlen
    refine ⟨?_, ?_, ?_⟩
    · simp only [read, hread, outcome]
    · simp only [read, hread, left]
    · simp only [write, hwrite, outcome, left]
  · obtain ⟨c', ps', s', hwrite, hread, hdest⟩ := h.stores hok hb lba.isLt hlba hdata hbuffer
    refine ⟨?_, ?_, ?_⟩
    · simp only [write, hwrite, outcome]
    · simp only [write, hwrite, left, read, hread, outcome]
    · simp only [write, hwrite, left, read, hread, hdest]

variable {hdinfo : HardDiskInfo} (hkeeps : KeepsBounds codecs (fuel + 1) (.chd hdinfo (c :: ps)))

include hkeeps

/-- The geometry of a CHD that keeps to it has the sectors of its hunks. -/
theorem Readable.units_of_keepsBounds (hn : n < 2 ^ 32) :
    n < hdinfo.totalSectors ↔ n < c.units := by
  have hlba : (BitVec.ofNat 32 n).toNat = n := by rw [BitVec.toNat_ofNat, Nat.mod_eq_of_lt hn]
  obtain ⟨buffer, hbuffer⟩ : ∃ buffer : List Byte, buffer.length = c.unitbytes :=
    ⟨List.replicate c.unitbytes 0, length_replicate⟩
  constructor
  · intro hin
    have hwrite :=
      (hkeeps.stores (BitVec.ofNat 32 n) (by rw [hlba]; exact hin) buffer buffer hbuffer hbuffer).1
    simp only [write, hlba] at hwrite
    by_contra hout
    by_cases hcache : n / c.perHunk = c.cachehunk
    · rw [writeUnits_noHunk codecs ps _ _ h.sized hn
        (Nat.le_of_not_lt hout) hcache hbuffer] at hwrite
      cases hwrite
    · rw [writeUnits_outOfRange codecs ps _ _ h.sized hn
        (Nat.le_of_not_lt hout) hcache hbuffer] at hwrite
      cases hwrite
  · intro hin
    by_contra hout
    have hk := h.sized.div_lt hin
    have hcount := h.sized.hunkcount_lt
    have hread := (hkeeps.refuses (BitVec.ofNat 32 n)
      (by rw [hlba]; exact Nat.le_of_not_lt hout) buffer hbuffer).1
    obtain ⟨s', hread'⟩ :=
      readUnits_ok h.sized hn (by omega) (hok _ hk) h.fitting h.coherent hbuffer
    simp only [read, hlba, hread', outcome] at hread
    cases hread

/-- A CHD that keeps to its geometry can be written, if it has a sector. -/
theorem Readable.writable_of_keepsBounds (hpos : 0 < hdinfo.totalSectors) :
    c.allowWrites = true ∧ c.compressed = false := by
  obtain ⟨buffer, hbuffer⟩ : ∃ buffer : List Byte, buffer.length = c.unitbytes :=
    ⟨List.replicate c.unitbytes 0, length_replicate⟩
  have hin := (h.units_of_keepsBounds hok hkeeps (by decide : 0 < 2 ^ 32)).mp hpos
  have hk := h.sized.div_lt hin
  have hcount := h.sized.hunkcount_lt
  have hwrite := (hkeeps.stores 0 hpos buffer buffer hbuffer hbuffer).1
  simp only [write] at hwrite
  rw [show (0 : BitVec 32).toNat = 0 from rfl, writeUnits_one h.sized (by decide) hbuffer,
    overHunks_unit h.sized (by decide) (by omega)] at hwrite
  cases hround : writeRound (readHunk codecs (fuel + 1)) buffer (unitRange c 0) (0 / c.perHunk) 0
      ⟨[], c :: ps⟩ with
  | ok _ s' =>
    exact (writable_of_writeRound h.fitting h.coherent (by rw [noHunk]; omega) hround).2
  | error stop s' =>
    rw [hround] at hwrite
    cases stop <;> cases hwrite

omit hok in
/-- If a unit of a CHD that keeps to its geometry is all of a hunk, there is a hunk in the cache,
unless every LBA has a sector. -/
theorem Readable.cached_of_keepsBounds (hwhole : c.unitbytes = c.hunkbytes) :
    c.cachehunk ≠ noHunk ∨ 2 ^ 32 ≤ hdinfo.totalSectors := by
  rw [or_iff_not_imp_right, Nat.not_le]
  intro htotal hnone
  have hone : c.perHunk = 1 := h.sized.perHunk_eq_one_iff.mpr hwhole
  have hcount := h.sized.hunkcount_lt
  have hpos := h.sized.hunkbytes_pos
  have hout : c.units ≤ 2 ^ 32 - 1 := by
    rw [h.sized.units_le_iff, hone, Nat.div_one]
    omega
  -- the bytes in the empty cache, with every bit changed
  have hlen : (c.cache.map fun b ↦ ~~~ b).length = c.unitbytes := by
    rw [length_map, h.coherent.2.1, hwhole]
  have hwrite := (hkeeps.refuses (BitVec.allOnes 32) (Nat.le_of_lt_succ htotal) _ hlen).2.2
  have hcache : (2 ^ 32 - 1) / c.perHunk = c.cachehunk := by
    rw [hone, hnone, noHunk, Nat.div_one]
  have hput := writeUnits_noHunk codecs ps (fuel + 1) [] h.sized
    (by decide) hout hcache hlen
  simp only [write] at hwrite
  rw [show (BitVec.allOnes 32).toNat = 2 ^ 32 - 1 from rfl, hput] at hwrite
  have hsame :
      putPart c.cache ((2 ^ 32 - 1) * c.unitbytes % c.hunkbytes) (c.cache.map fun b ↦ ~~~ b) =
      c.cache := by
    have hchds := (Disk.chd.inj (Prod.mk.inj hwrite).2).2
    exact congrArg ChdFile.cache (List.cons.inj hchds).1
  have hall : putPart c.cache 0 (c.cache.map fun b ↦ ~~~ b) = c.cache.map fun b ↦ ~~~ b := by
    show c.cache.take 0 ++ overlay (c.cache.drop 0) _ = _
    rw [take_zero, nil_append, drop_zero]
    exact overlay_of_length_le (by rw [length_map])
  rw [hwhole, Nat.mul_mod_left, hall] at hsame
  cases hc : c.cache with
  | nil =>
    have hlen' := h.coherent.2.1
    rw [hc, length_nil] at hlen'
    omega
  | cons b bs =>
    rw [hc, map_cons] at hsame
    have hbit := congrArg (BitVec.getLsbD · 0) (List.cons.inj hsame).1
    simp at hbit

/-- If a unit of a CHD that keeps to its geometry is all of a hunk, a hunk without a place is zeros,
unless it is in the cache. -/
theorem Readable.zeros_of_keepsBounds (hwhole : c.unitbytes = c.hunkbytes) (hn : n < 2 ^ 32)
    (hin : n < hdinfo.totalSectors) (hcache : n ≠ c.cachehunk) (hplace : rawEntry c n = 0) :
    Holds codecs (c :: ps) n (List.replicate c.hunkbytes 0) := by
  obtain ⟨hwrites, hcompressed⟩ := h.writable_of_keepsBounds hok hkeeps (by omega)
  obtain ⟨hraw, hfaithful⟩ := h.raw hwrites hcompressed
  have hone : n / c.perHunk = n := by rw [h.sized.perHunk_eq_one_iff.mpr hwhole, Nat.div_one]
  have hk : n < c.hunkcount := hone ▸ h.sized.div_lt ((h.units_of_keepsBounds hok hkeeps hn).mp hin)
  have hcount := hraw.hunkcount_lt
  have hlba : (BitVec.ofNat 32 n).toNat = n := by rw [BitVec.toNat_ofNat, Nat.mod_eq_of_lt hn]
  have hlen : (List.replicate c.hunkbytes (0 : Byte)).length = c.hunkbytes := length_replicate
  have hzero : AllZero (List.replicate c.hunkbytes 0) :=
    List.all_eq_true.mpr fun b hb ↦ decide_eq_true (eq_of_mem_replicate hb)
  obtain ⟨c', hwrite, hsame, -⟩ :=
    writeUnits_direct codecs ps fuel [] h.sized hraw hwrites hfaithful hk hwhole hcache hlen
  obtain rfl := hsame ⟨hplace, hzero⟩
  obtain ⟨s', hread, hholds⟩ :=
    readUnits_whole_ok h.sized (by omega) hwhole hcache h.fitting h.coherent (hok n hk) hlen
  have hstores := (hkeeps.stores (BitVec.ofNat 32 n) (by rw [hlba]; exact hin) _ _
    (hlen.trans hwhole.symm) (hlen.trans hwhole.symm)).2.2
  simp only [write, hlba, hwrite, left, read, hread] at hstores
  rwa [hstores] at hholds

theorem Readable.bounded_of_keepsBounds : ChdBounded codecs hdinfo.totalSectors c ps :=
  ⟨fun _ hn ↦ h.units_of_keepsBounds hok hkeeps hn, h.writable_of_keepsBounds hok hkeeps,
    h.cached_of_keepsBounds hkeeps,
    fun hwhole _ hn hin hcache hplace ↦
      h.zeros_of_keepsBounds hok hkeeps hwhole hn hin hcache hplace⟩

end

/-- **Bounds.** A hard disk keeps to its geometry exactly if it has a CHD and the geometry has the
bounds of its hunks. -/
theorem keepsBounds_iff_bounded {d : Disk} (h : d.Sound codecs) :
    ∃ fuel, ∀ fuel', fuel ≤ fuel' → (KeepsBounds codecs fuel' d ↔ d.Bounded codecs) := by
  cases d with
  | raw file guessed => exact ⟨0, fun _ _ ↦ iff_of_false (not_keepsBounds_raw file guessed) id⟩
  | chd hdinfo chds =>
    obtain ⟨c, ps, rfl, h⟩ := h
    obtain ⟨fuel, hfuel⟩ := h.exists_succeeds
    refine ⟨fuel + 1, fun fuel' hle ↦ ?_⟩
    obtain ⟨fuel', rfl⟩ := Nat.exists_eq_add_of_le' (Nat.le_of_add_left_le hle)
    have hok := hfuel (fuel' + 1) (by omega)
    constructor
    · exact fun hkeeps ↦ ⟨c, ps, rfl, h.bounded_of_keepsBounds hok hkeeps⟩
    · rintro ⟨c', ps', heq, hb⟩
      obtain ⟨rfl, rfl⟩ := List.cons.inj heq
      exact h.keepsBounds hok hb

/-- A new CHD without a parent can be read. -/
theorem readable_created {logicalbytes hunkbytes unitbytes : ℕ} (hpos : 0 < unitbytes)
    (hdvd : unitbytes ∣ hunkbytes) (hpos' : 0 < hunkbytes) (hlt : hunkbytes < 2 ^ 32)
    (hroom : 124 + 5 * ((logicalbytes + hunkbytes - 1) / hunkbytes) < 2 ^ 32) :
    Readable codecs (.created (fun _ ↦ 0) logicalbytes hunkbytes unitbytes) [] := by
  have hraw : (ChdFile.created (fun _ ↦ 0) logicalbytes hunkbytes unitbytes).RawStore :=
    rawStore_created hpos' hroom
  refine ⟨⟨hpos, hdvd, hpos', hlt, ?_⟩, ⟨hraw.fits fun p hp ↦ (by cases hp), trivial⟩,
    ⟨.inl rfl, length_replicate, trivial⟩, fun n hn ↦ ?_, fun _ _ ↦
    ⟨hraw, CoreFile.faithful_ofData _⟩⟩
  · have := hraw.hunkcount_lt
    omega
  · refine ⟨List.replicate hunkbytes 0, .data ?_ length_replicate⟩
    rw [hraw.entry_eq hn, if_neg (not_not_intro (rawEntry_created _ _ _ n))]
    rfl

/-- A new CHD of two hunks with eight sectors in all, and a geometry of eight. -/
theorem keepsBounds_iff_bounded_created :
    ∃ fuel, ∀ fuel', fuel ≤ fuel' →
      KeepsBounds Codecs.none fuel' (.chd ⟨2, 2, 2, 1⟩ [.created (fun _ ↦ 0) 8 4 1]) := by
  have h : Readable Codecs.none (.created (fun _ ↦ 0) 8 4 1) [] :=
    readable_created (by decide) (by decide) (by decide) (by decide) (by decide)
  obtain ⟨fuel, hfuel⟩ :=
    keepsBounds_iff_bounded (d := .chd ⟨2, 2, 2, 1⟩ [.created (fun _ ↦ 0) 8 4 1]) ⟨_, _, rfl, h⟩
  refine ⟨fuel, fun fuel' hle ↦
    (hfuel fuel' hle).mpr ⟨_, _, rfl, fun lba _ ↦ Iff.rfl, fun _ ↦ ⟨rfl, rfl⟩, ?_, ?_⟩⟩
  · exact fun hwhole ↦ absurd hwhole (by decide)
  · exact fun hwhole ↦ absurd hwhole (by decide)

/-- A plain file of 1 MiB has 2048 sectors, and takes sector 2048: the file gets longer. -/
theorem not_keepsBounds_oneMebibyte :
    let d := ofFile ⟨2 ^ 20, fun _ ↦ 0⟩ 0
    d.total = 2048 ∧ (d.write Codecs.none 1 2048 (List.replicate 512 1)).1 = some true ∧
      ((HardDiskFile.ofFile ⟨2 ^ 20, fun _ ↦ 0⟩ 0).write 2048
      (List.replicate 512 1)).fhandle.length =
        2 ^ 20 + 512 ∧
      ¬ KeepsBounds Codecs.none 1 d := by
  refine ⟨by decide +kernel, rfl, by decide +kernel, not_keepsBounds_raw _ _⟩

end Disk

end RoscoEmulator.Util
