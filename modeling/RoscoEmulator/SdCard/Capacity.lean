import RoscoEmulator.SdCard.Card

/-!
# The capacity of a card

A card tells its capacity in the card specific data register. Version 1.0 has a 12-bit `C_SIZE` and
a 3-bit `C_SIZE_MULT`, for a number of blocks of a length that the register gives too; version 2.0
has one `C_SIZE` in units of 1024 blocks of 512 bytes. `decodeCsd` is the host's side of it.

`image_loaded` splits the number of blocks of an image into its odd part and a power of two and
decides from these whether one of the encodings fits. `load_capacity` says that it decides right,
for every geometry, and that the register it then builds decodes to the capacity of the image.
-/

namespace RoscoEmulator.SdCard

open Nat

/-- A number of blocks, and the length of a block. -/
@[ext] structure Capacity where
  blocks : ℕ
  blockBytes : ℕ
deriving DecidableEq, Repr

/-- What the fields of a version 1.0 register can say. -/
def Capacity.RepresentableV10 (c : Capacity) : Prop :=
  ∃ cSize cSizeMult readBlLen, cSize < 2 ^ 12 ∧ cSizeMult < 8 ∧ (9 ≤ readBlLen ∧ readBlLen ≤ 11) ∧
    c = ⟨(cSize + 1) * 2 ^ (cSizeMult + 2), 2 ^ readBlLen⟩

/-- What the fields of a version 2.0 register can say, up to the size that a card is mounted
with. -/
def Capacity.RepresentableV20 (c : Capacity) : Prop :=
  ∃ cSize, cSize < 2 ^ 16 ∧ c = ⟨(cSize + 1) * 1024, 512⟩

/-! ## The register, as the host reads it -/

section Decode

variable (csd : List Byte)

/-- A byte of the register. -/
def csdByte (i : ℕ) : ℕ := (csd.getD i 0).toNat

/-- `CSD_STRUCTURE`. -/
def csdStructure : ℕ := csdByte csd 0 / 64

/-- `READ_BL_LEN`. -/
def readBlLen : ℕ := csdByte csd 5 % 16

/-- `C_SIZE` of version 1.0, in three bytes. -/
def cSizeV10 : ℕ := csdByte csd 6 % 4 * 1024 + csdByte csd 7 * 4 + csdByte csd 8 / 64

/-- `C_SIZE_MULT`, in two bytes. -/
def cSizeMult : ℕ := csdByte csd 9 % 4 * 2 + csdByte csd 10 / 128

/-- `C_SIZE` of version 2.0, in three bytes. -/
def cSizeV20 : ℕ := csdByte csd 7 % 64 * 65536 + csdByte csd 8 * 256 + csdByte csd 9

/-- The capacity that a register stands for. -/
def decodeCsd : Option Capacity :=
  match csdStructure csd with
  | 0 => some ⟨(cSizeV10 csd + 1) * 2 ^ (cSizeMult csd + 2), 2 ^ readBlLen csd⟩
  | 1 => some ⟨(cSizeV20 csd + 1) * 1024, 512⟩
  | _ => none

end Decode

/-- The fields of version 1.0 come back from the bytes that they are scattered over. -/
theorem decodeCsd_csdV10 {blockSizeExp cSize mult : ℕ} (hexp : blockSizeExp < 16)
    (hsize : cSize < 2 ^ 12) (hmult : mult < 8) : decodeCsd (csdV10 blockSizeExp cSize mult) =
      some ⟨(cSize + 1) * 2 ^ (mult + 2), 2 ^ blockSizeExp⟩ := by
  have hlen : readBlLen (csdV10 blockSizeExp cSize mult) = blockSizeExp := by
    have hbits : ∀ n < 16, (0x50 ||| BitVec.ofNat 8 n : Byte).toNat % 16 = n := by decide
    exact hbits blockSizeExp hexp
  have hcSizeMult : cSizeMult (csdV10 blockSizeExp cSize mult) = mult := by
    have hbits : ∀ n < 8, (0xe0 ||| 0x18 ||| bitField n 1 2 : Byte).toNat % 4 * 2 +
        (0x3f ||| (bitField n 0 1 <<< 7) : Byte).toNat / 128 = n := by
      decide
    exact hbits mult hmult
  have hcSize : cSizeV10 (csdV10 blockSizeExp cSize mult) = cSize := by
    have hhigh4 : ∀ n < 4, (0x80 ||| BitVec.ofNat 8 n : Byte).toNat % 4 = n := by decide
    have hlow4 : ∀ n < 4, ((BitVec.ofNat 8 n <<< 6) ||| 0x38 ||| 0x06 : Byte).toNat / 64 = n := by
      decide
    have hhigh (n : ℕ) : (0x80 ||| BitVec.ofNat 8 (n % 2 ^ 2) : Byte).toNat % 4 = n % 2 ^ 2 :=
      hhigh4 _ (mod_lt _ (by decide))
    have hlow (n : ℕ) : ((BitVec.ofNat 8 (n % 2 ^ 2) <<< 6) ||| 0x38 ||| 0x06 : Byte).toNat / 64 =
        n % 2 ^ 2 := hlow4 _ (mod_lt _ (by decide))
    have hbytes : cSizeV10 (csdV10 blockSizeExp cSize mult) =
        (0x80 ||| bitField cSize 10 2 : Byte).toNat % 4 * 1024 + (bitField cSize 2 8).toNat * 4 +
          ((bitField cSize 0 2 <<< 6) ||| 0x38 ||| 0x06 : Byte).toNat / 64 := rfl
    rw [hbytes, bitField, bitField, bitField, hhigh, hlow, BitVec.toNat_ofNat]
    omega
  have hstructure : csdStructure (csdV10 blockSizeExp cSize mult) = 0 := by
    change (0x00 : Byte).toNat / 64 = 0
    decide
  rw [decodeCsd, hstructure, hlen, hcSizeMult, hcSize]
  rfl

theorem decodeCsd_csdV20 {blockSizeExp cSize : ℕ} (hsize : cSize < 2 ^ 16) :
    decodeCsd (csdV20 blockSizeExp cSize) = some ⟨(cSize + 1) * 1024, 512⟩ := by
  have hcSize : cSizeV20 (csdV20 blockSizeExp cSize) = cSize := by
    have hbytes : cSizeV20 (csdV20 blockSizeExp cSize) = (bitField cSize 16 6).toNat % 64 * 65536 +
        (bitField cSize 8 8).toNat * 256 + (bitField cSize 0 8).toNat := rfl
    rw [hbytes, bitField, bitField, bitField, BitVec.toNat_ofNat, BitVec.toNat_ofNat,
      BitVec.toNat_ofNat]
    omega
  have hstructure : csdStructure (csdV20 blockSizeExp cSize) = 1 := by
    change (0x40 : Byte).toNat / 64 = 1
    decide
  rw [decodeCsd, hstructure, hcSize]
  rfl

/-! ## Odd part and power of two -/

/-- The halvings end at the odd part. -/
theorem splitTwos_spec {fuel n : ℕ} (hn : n ≠ 0) (hlt : n < 2 ^ fuel) :
    (splitTwos fuel n).1 % 2 = 1 ∧ (splitTwos fuel n).1 * 2 ^ (splitTwos fuel n).2 = n := by
  induction fuel generalizing n with
  | zero => omega
  | succ fuel ih =>
    rw [splitTwos]
    split_ifs with hodd
    · exact ⟨hodd, Nat.mul_one n⟩
    · rw [Nat.pow_succ] at hlt
      obtain ⟨hodd', hsplit⟩ := @ih (n / 2) (by omega) (by omega)
      refine ⟨hodd', ?_⟩
      rw [Nat.pow_succ, ← Nat.mul_assoc, hsplit]
      omega

/-- A power of two that divides a number is at most the one that is split off. -/
theorem le_splitTwos_snd {fuel n k : ℕ} (hn : n ≠ 0) (hlt : n < 2 ^ fuel) (hk : 2 ^ k ∣ n) :
    k ≤ (splitTwos fuel n).2 := by
  obtain ⟨hodd, hsplit⟩ := splitTwos_spec hn hlt
  have hcoprime : Coprime (2 ^ k) (splitTwos fuel n).1 :=
    Nat.Coprime.pow_left k (Nat.coprime_two_left.mpr (Nat.odd_iff.mpr hodd))
  rw [← hsplit] at hk
  exact (pow_dvd_pow_iff_le_right (by decide)).mp (hcoprime.dvd_of_dvd_mul_left hk)

namespace Info

variable {info : Info}

/-- The capacity of an image. -/
def capacity (info : Info) : Capacity := ⟨info.totalBlocks, info.sectorbytes⟩

theorem totalBlocks_lt (info : Info) : info.totalBlocks < 2 ^ 64 := mod_lt _ (by decide)

theorem totalBlocks_eq (hblocks : info.totalBlocks ≠ 0) :
    info.totalMant % 2 = 1 ∧ info.totalMant * 2 ^ info.totalExp = info.totalBlocks :=
  splitTwos_spec hblocks info.totalBlocks_lt

theorem le_totalExp (hblocks : info.totalBlocks ≠ 0) {k : ℕ} (hk : 2 ^ k ∣ info.totalBlocks) :
    k ≤ info.totalExp := le_splitTwos_snd hblocks info.totalBlocks_lt hk

/-- The number of blocks in units of a power of two that divides it. -/
theorem totalBlocks_shiftRight (hblocks : info.totalBlocks ≠ 0) {k : ℕ} (hk : k ≤ info.totalExp) :
    info.totalBlocks >>> k = info.totalMant <<< (info.totalExp - k) ∧
      (info.totalMant <<< (info.totalExp - k)) * 2 ^ k = info.totalBlocks := by
  have hsplit : (info.totalMant <<< (info.totalExp - k)) * 2 ^ k = info.totalBlocks := by
    rw [shiftLeft_eq, Nat.mul_assoc, ← Nat.pow_add, Nat.sub_add_cancel hk]
    exact (totalBlocks_eq hblocks).2
  refine ⟨?_, hsplit⟩
  rw [shiftRight_eq_div_pow]
  exact Nat.div_eq_of_eq_mul_left (by positivity) hsplit.symm

/-- The shift of the test is by what is left of the power of two when nine halvings are taken. -/
theorem sdShift (e : ℕ) : (if 9 < e then e - 9 else 0) = e - min e 9 := by
  split_ifs <;> omega

theorem totalMant_shiftLeft_pos (hblocks : info.totalBlocks ≠ 0) (k : ℕ) :
    0 < info.totalMant <<< k := by
  have hodd := (totalBlocks_eq hblocks).1
  rw [shiftLeft_eq]
  exact Nat.mul_pos (by omega) (by positivity)

/-- The test for a standard capacity card. -/
theorem sdOk_iff (hblocks : info.totalBlocks ≠ 0) : info.sdOk ↔
    ∃ cSize mult, cSize < 2 ^ 12 ∧ mult < 8 ∧ info.totalBlocks = (cSize + 1) * 2 ^ (mult + 2) := by
  rw [sdOk, sdShift]
  constructor
  · rintro ⟨htwo, hle⟩
    obtain ⟨-, hsplit⟩ := totalBlocks_shiftRight hblocks (show min info.totalExp 9 ≤ _ by omega)
    have hpos := totalMant_shiftLeft_pos hblocks (info.totalExp - min info.totalExp 9)
    refine ⟨info.totalMant <<< (info.totalExp - min info.totalExp 9) - 1, min info.totalExp 9 - 2,
      by omega, by omega, ?_⟩
    rw [Nat.sub_add_cancel hpos, Nat.sub_add_cancel (show 2 ≤ min info.totalExp 9 by omega)]
    exact hsplit.symm
  · rintro ⟨cSize, mult, hsize, hmult, hblocksEq⟩
    have hexp : mult + 2 ≤ info.totalExp := le_totalExp hblocks ⟨cSize + 1, by rw [hblocksEq]; ring⟩
    refine ⟨by omega, ?_⟩
    obtain ⟨-, hsplit⟩ := totalBlocks_shiftRight hblocks (show min info.totalExp 9 ≤ _ by omega)
    -- with more halvings taken, fewer units are left
    have hle : info.totalMant <<< (info.totalExp - min info.totalExp 9) * 2 ^ min info.totalExp 9 ≤
        2 ^ 12 * 2 ^ min info.totalExp 9 := by
      rw [hsplit, hblocksEq]
      exact Nat.mul_le_mul (by omega) (Nat.pow_le_pow_right (by decide) (by omega))
    exact Nat.le_of_mul_le_mul_right hle (by positivity)

/-- The test for a high capacity card. -/
theorem sdhcOk_iff (hblocks : info.totalBlocks ≠ 0) : info.sdhcOk ↔
    info.sectorbytes = 512 ∧ ∃ cSize, cSize < 2 ^ 16 ∧ info.totalBlocks = (cSize + 1) * 1024 := by
  rw [sdhcOk]
  refine and_congr_right fun _ ↦ ⟨?_, ?_⟩
  · rintro ⟨hexp, hle⟩
    obtain ⟨-, hsplit⟩ := totalBlocks_shiftRight hblocks hexp
    have hpos := totalMant_shiftLeft_pos hblocks (info.totalExp - 10)
    refine ⟨info.totalMant <<< (info.totalExp - 10) - 1, by omega, ?_⟩
    rw [Nat.sub_add_cancel hpos]
    exact hsplit.symm
  · rintro ⟨cSize, hsize, hblocksEq⟩
    have hexp : 10 ≤ info.totalExp := le_totalExp hblocks ⟨cSize + 1, by rw [hblocksEq]; ring⟩
    obtain ⟨-, hsplit⟩ := totalBlocks_shiftRight hblocks hexp
    exact ⟨hexp, by omega⟩

/-- The sector sizes that pass the test, and their exponents. -/
theorem sectorbytesOk_iff : info.sectorbytesOk ↔
    ∃ n, (9 ≤ n ∧ n ≤ 11) ∧ info.sectorbytes = 2 ^ n := by
  have hsizes : ∀ n : Fin 2049, n.val ≠ 0 ∧ n.val &&& (n.val - 1) = 0 ∧ 512 ≤ n.val →
      n.val = 512 ∨ n.val = 1024 ∨ n.val = 2048 := by
    decide +kernel
  constructor
  · rintro ⟨hne, hbit, hlo, hhi⟩
    rcases hsizes ⟨info.sectorbytes, by omega⟩ ⟨hne, hbit, hlo⟩ with h | h | h
    · exact ⟨9, by decide, h⟩
    · exact ⟨10, by decide, h⟩
    · exact ⟨11, by decide, h⟩
  · rintro ⟨n, ⟨hlo, hhi⟩, h⟩
    rw [sectorbytesOk, h]
    interval_cases n <;> decide

/-- The exponent of a sector size is the number of halvings to an odd number. -/
theorem blockSizeExp_eq {n : ℕ} (hlo : 9 ≤ n) (hhi : n ≤ 11) : (splitTwos 32 (2 ^ n)).2 = n := by
  interval_cases n <;> decide

/-- **The images that are accepted** are those whose capacity one of the registers can say. -/
theorem accepted_iff : info.accepted ↔
    info.capacity.RepresentableV10 ∨ info.capacity.RepresentableV20 := by
  constructor
  · rintro ⟨hblocks, hsector, hsize⟩
    obtain ⟨n, hn, hbytes⟩ := sectorbytesOk_iff.mp hsector
    rcases hsize with hsd | hsdhc
    · obtain ⟨cSize, mult, hcSize, hmult, heq⟩ := (sdOk_iff hblocks).mp hsd
      exact .inl ⟨cSize, mult, n, hcSize, hmult, hn, Capacity.ext heq hbytes⟩
    · obtain ⟨h512, cSize, hcSize, heq⟩ := (sdhcOk_iff hblocks).mp hsdhc
      exact .inr ⟨cSize, hcSize, Capacity.ext heq h512⟩
  · rintro (⟨cSize, mult, n, hcSize, hmult, hn, heq⟩ | ⟨cSize, hcSize, heq⟩)
    · obtain ⟨hcount, hbytes⟩ := Capacity.ext_iff.mp heq
      have hpos : info.totalBlocks ≠ 0 := by
        rw [show info.totalBlocks = _ from hcount]
        positivity
      exact ⟨hpos, sectorbytesOk_iff.mpr ⟨n, hn, hbytes⟩,
        .inl ((sdOk_iff hpos).mpr ⟨cSize, mult, hcSize, hmult, hcount⟩)⟩
    · obtain ⟨hcount, hbytes⟩ := Capacity.ext_iff.mp heq
      have hpos : info.totalBlocks ≠ 0 := by
        rw [show info.totalBlocks = _ from hcount]
        positivity
      exact ⟨hpos, sectorbytesOk_iff.mpr ⟨9, by decide, hbytes⟩,
        .inr ((sdhcOk_iff hpos).mpr ⟨hbytes, cSize, hcSize, hcount⟩)⟩

/-- The register of a high capacity card. -/
theorem decodeCsd_sdhc (hblocks : info.totalBlocks ≠ 0) (h : info.sdhcOk) (exp : ℕ) :
    decodeCsd (csdV20 exp (((info.totalBlocks >>> 10) + 2 ^ 32 - 1) % 2 ^ 32)) =
      some info.capacity := by
  obtain ⟨h512, cSize, hcSize, heq⟩ := (sdhcOk_iff hblocks).mp h
  have hunits : info.totalBlocks >>> 10 = cSize + 1 := by
    rw [shiftRight_eq_div_pow, heq]
    omega
  have hfield : (cSize + 1 + 2 ^ 32 - 1) % 2 ^ 32 = cSize := by omega
  rw [hunits, hfield, decodeCsd_csdV20 hcSize]
  exact congrArg some (Capacity.ext heq.symm h512.symm)

/-- The register of a standard capacity card. -/
theorem decodeCsd_sd (hblocks : info.totalBlocks ≠ 0) (h : info.sdOk) {n : ℕ} (hn : n < 16)
    (hbytes : info.sectorbytes = 2 ^ n) : decodeCsd (csdV10 n
      (((info.totalBlocks >>> (min info.totalExp 9 - 2 + 2)) + 2 ^ 16 - 1) % 2 ^ 16)
      (min info.totalExp 9 - 2)) = some info.capacity := by
  obtain ⟨htwo, hle⟩ := h
  rw [sdShift] at hle
  have hmult : min info.totalExp 9 - 2 + 2 = min info.totalExp 9 :=
    Nat.sub_add_cancel (by omega)
  obtain ⟨hunits, hsplit⟩ := totalBlocks_shiftRight hblocks (show min info.totalExp 9 ≤ _ by omega)
  have hpos := totalMant_shiftLeft_pos hblocks (info.totalExp - min info.totalExp 9)
  rw [hmult, hunits]
  generalize info.totalMant <<< (info.totalExp - min info.totalExp 9) = units at *
  have hfield : (units + 2 ^ 16 - 1) % 2 ^ 16 = units - 1 := by omega
  rw [hfield, decodeCsd_csdV10 hn (by omega) (by omega), hmult, Nat.sub_add_cancel hpos, hsplit,
    ← hbytes]
  rfl

theorem decodeCsd_register (h : info.accepted) (preferredType : SdType) :
    decodeCsd (info.register preferredType).2 = some info.capacity := by
  obtain ⟨hblocks, hsector, hsize⟩ := h
  obtain ⟨n, ⟨hlo, hhi⟩, hbytes⟩ := sectorbytesOk_iff.mp hsector
  rw [register]
  split_ifs with hhc
  · exact decodeCsd_sdhc hblocks hhc.1 _
  · have hsd : info.sdOk := by
      by_contra hsd
      exact hhc ⟨hsize.resolve_left hsd, .inr hsd⟩
    rw [hbytes, blockSizeExp_eq hlo hhi]
    exact decodeCsd_sd hblocks hsd (by omega) hbytes

/-- A card that is mounted as standard capacity has at most `2 ^ 32` bytes. -/
theorem bytes_le_of_v2 (h : info.accepted)
    {preferredType : SdType} (htype : (info.register preferredType).1 = .v2) :
    info.totalBlocks * info.sectorbytes ≤ 2 ^ 32 := by
  obtain ⟨hblocks, hsector, hsize⟩ := h
  obtain ⟨n, ⟨-, hhi⟩, hbytes⟩ := sectorbytesOk_iff.mp hsector
  have hsd : info.sdOk := by
    by_contra hsd
    rw [register, if_pos ⟨hsize.resolve_left hsd, .inr hsd⟩] at htype
    cases htype
  obtain ⟨cSize, mult, hcSize, hmult, heq⟩ := (sdOk_iff hblocks).mp hsd
  rw [heq, hbytes]
  calc (cSize + 1) * 2 ^ (mult + 2) * 2 ^ n
      ≤ 2 ^ 12 * 2 ^ 9 * 2 ^ 11 :=
        Nat.mul_le_mul (Nat.mul_le_mul hcSize (Nat.pow_le_pow_right (by decide) (by omega)))
          (Nat.pow_le_pow_right (by decide) hhi)
    _ = 2 ^ 32 := by decide

end Info

namespace Core

variable {M : Type} [HardDisk M] {k : Core M} {m : M}

theorem mounted_load_iff : (k.load m).mounted = true ↔ (HardDisk.info m).accepted := by
  have hunload : k.unload.mounted = false := by
    rw [unload]
    split_ifs with h
    · rfl
    · exact Bool.eq_false_iff.mpr h
  rw [load]
  split_ifs with h
  · exact iff_of_true rfl h
  · rw [hunload]
    exact iff_of_false Bool.false_ne_true h

/-- **Mounting an image**: it is accepted exactly if its capacity has a register, the register that
is built stands for its capacity, and the bytes of a standard capacity card have 32-bit
addresses. -/
theorem load_capacity (k : Core M) (m : M) (hcount : (HardDisk.info m).cylinders *
      (HardDisk.info m).heads * (HardDisk.info m).sectors < 2 ^ 64) :
    let blocks := (HardDisk.info m).cylinders * (HardDisk.info m).heads * (HardDisk.info m).sectors
    let bytes := (HardDisk.info m).sectorbytes
    ((k.load m).mounted = true ↔
      Capacity.RepresentableV10 ⟨blocks, bytes⟩ ∨ Capacity.RepresentableV20 ⟨blocks, bytes⟩) ∧
    ((k.load m).mounted = true → decodeCsd (k.load m).csd = some ⟨blocks, bytes⟩) ∧
    ((k.load m).mounted = true → (k.load m).type = .v2 →
      ∀ block < blocks, ∀ byte < bytes, block * bytes + byte < 2 ^ 32) := by
  intro blocks bytes
  have hcapacity : (HardDisk.info m).capacity = ⟨blocks, bytes⟩ :=
    Capacity.ext (mod_eq_of_lt hcount) rfl
  rw [mounted_load_iff, ← hcapacity]
  refine ⟨Info.accepted_iff, fun h ↦ ?_, fun h htype block hblock byte hbyte ↦ ?_⟩
  · rw [load, if_pos h]
    exact Info.decodeCsd_register h _
  · rw [load, if_pos h] at htype
    have hle := Info.bytes_le_of_v2 h htype
    rw [show (HardDisk.info m).totalBlocks = blocks from mod_eq_of_lt hcount] at hle
    calc block * bytes + byte < (block + 1) * bytes := by rw [succ_mul]; omega
      _ ≤ blocks * bytes := Nat.mul_le_mul_right _ hblock
      _ ≤ 2 ^ 32 := hle

/-- A card of 16 cylinders, 16 heads and 16 sectors, on an empty slot. -/
theorem load_capacity_small :
    let disk : MemoryDisk := ⟨⟨16, 16, 16, 512⟩, fun _ ↦ []⟩
    let k : Core MemoryDisk := (Card.start .v2 true).core
    ((k.load disk).mounted = true ↔
      Capacity.RepresentableV10 ⟨4096, 512⟩ ∨ Capacity.RepresentableV20 ⟨4096, 512⟩) ∧
    ((k.load disk).mounted = true → decodeCsd (k.load disk).csd = some ⟨4096, 512⟩) ∧
    ((k.load disk).mounted = true → (k.load disk).type = .v2 →
      ∀ block < 4096, ∀ byte < 512, block * 512 + byte < 2 ^ 32) :=
  load_capacity (Card.start .v2 true).core
    (⟨⟨16, 16, 16, 512⟩, fun _ ↦ []⟩ : MemoryDisk) (by decide)

end Core

end RoscoEmulator.SdCard
