import Mathlib.Data.List.GetD

/-!
# The features page

The drive answers `IDENTIFY DEVICE` with the 256 words of `m_identify_buffer`. They also hold the
transfer modes, and whether the drive takes 48-bit addresses, so that the drive itself reads them.
Where the image brings no page of its own, `ide_build_identify_device` builds one from the
geometry.
-/

namespace RoscoEmulator.Ata

abbrev Byte : Type := BitVec 8

/-- The bytes of a string. -/
def stringBytes (s : String) : List Byte := s.toList.map fun c ↦ BitVec.ofNat 8 c.toNat

/-- `identify`: the string, two characters a word, filled up with blanks. -/
def identify (wordLength : ℕ) (s : String) : List (BitVec 16) :=
  (List.range wordLength).map fun i ↦
    ((stringBytes s).getD (2 * i) 0x20).setWidth 16 <<< 8 |||
      ((stringBytes s).getD (2 * i + 1) 0x20).setWidth 16

/-- `m_num_cylinders`, `m_num_heads` and `m_num_sectors`. -/
structure Geometry where
  cylinders : BitVec 32
  heads : BitVec 8
  sectors : BitVec 8
deriving DecidableEq, Repr

/-- `m_num_cylinders * m_num_heads * m_num_sectors`. -/
def Geometry.totalSectors (g : Geometry) : BitVec 32 :=
  g.cylinders * g.heads.setWidth 32 * g.sectors.setWidth 32

/-- The capacity from which on the page reports the largest CHS geometry. -/
def chsLimit : BitVec 32 := 16514064

/-- `COMMAND_SET_SUPPORTED_LBA48`. -/
def commandSetSupportedLba48 : BitVec 16 := 0x400

namespace Geometry

variable (g : Geometry)

/-- The geometry that the page reports. -/
def reported : BitVec 16 × BitVec 16 × BitVec 16 :=
  if chsLimit ≤ g.totalSectors then (16383, 16, 63)
  else (g.cylinders.setWidth 16, g.heads.setWidth 16, g.sectors.setWidth 16)

/-- The number of sectors that the page reports for that geometry. -/
def chsSectors : BitVec 32 := if chsLimit ≤ g.totalSectors then chsLimit else g.totalSectors

/-- The number of sectors that the page reports for 28-bit addresses. -/
def lbaSectors : BitVec 32 := if 0xfffffff#32 < g.totalSectors then 0xfffffff else g.totalSectors

def supportsLba48 : Bool := 0xfffffff#32 < g.totalSectors

/-- The two words of a number of sectors. -/
def sectorWords (n : BitVec 32) : List (BitVec 16) := [n.setWidth 16, (n >>> 16).setWidth 16]

/-- The words up to the transfer modes. -/
def describing : List (BitVec 16) :=
  [0x045a, g.reported.1, 0, g.reported.2.1, 0, 0, g.reported.2.2, 0, 0, 0] ++
    identify 10 "00000000000000000000" ++ [0, 0, 4] ++ identify 4 "1.0" ++
    identify 20 "MAME    Virtual Hard Disk" ++ [0x8010, 0, 0x0f03, 0, 2, 2, 3] ++
    [g.reported.1, g.reported.2.1, g.reported.2.2] ++ sectorWords g.chsSectors ++ [0] ++
    sectorWords g.lbaSectors

/-- The words from the transfer modes, word 62, on. -/
def modes : List (BitVec 16) :=
  [0x0007, 0x0407, 0x0003, 0x78, 0x78, 0x014d, 0x78] ++ List.replicate 14 0 ++
    [if g.supportsLba48 then commandSetSupportedLba48 else 0] ++ List.replicate 16 0 ++
    -- the maximum 48-bit address: two words, for the number has 32 bits
    (if g.supportsLba48 then sectorWords g.totalSectors ++ [0, 0] else [])

/-- `ide_build_identify_device`. -/
def ideBuildIdentifyDevice : ℕ → BitVec 16 := fun i ↦ (g.describing ++ g.modes).getD i 0

end Geometry

/-- The page that `device_reset` makes of the inquiry data of an image. -/
def featuresPage (inquiryData : List Byte) (g : Geometry) : ℕ → BitVec 16 :=
  if inquiryData.length = 512 then
    fun w ↦ (inquiryData.getD (2 * w + 1) 0).setWidth 16 <<< 8 |||
      (inquiryData.getD (2 * w) 0).setWidth 16
  else g.ideBuildIdentifyDevice

end RoscoEmulator.Ata
