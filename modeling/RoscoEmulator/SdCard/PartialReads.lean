import RoscoEmulator.SdCard.ReadErrors

/-!
# Reads of a part of a block

`CMD16` sets the length that `CMD17` transfers, up to the length of a block. On a standard capacity
card `CMD17` takes a byte address, rejects a range of bytes that crosses the end of a block, and
otherwise has two paths: a whole block is read into `m_data` directly, and a part of one is copied
out of the sector buffer. The test is a sum of 32 bits, which wraps for the addresses in the last
block only: `crossesBlock_iff_crosses`.

Both paths send the bytes of the range as far as the image has them, `byteAt`. Where a byte is
missing, because the read of the block fails, the card does not notice and sends what the buffer
held before: `readsRange_iff`. -/

namespace RoscoEmulator.SdCard

open BitVec

/-- The range of `len` positions from `start` on crosses a multiple of `B`. -/
def Crosses (B start len : ℕ) : Prop := ∃ n, B ∣ n ∧ start < n ∧ n < start + len

theorem crosses_iff {B start len : ℕ} (hB : 0 < B) : Crosses B start len ↔ B < start % B + len := by
  have hdiv := Nat.div_add_mod start B
  have hmod := Nat.mod_lt start hB
  constructor
  · rintro ⟨n, ⟨q, rfl⟩, hlow, hhigh⟩
    -- the multiple is at least the next one behind `start`
    have hq : start / B + 1 ≤ q := by
      rw [Nat.add_one_le_iff, Nat.div_lt_iff_lt_mul hB, Nat.mul_comm]
      exact hlow
    have hmul := Nat.mul_le_mul_left B hq
    rw [Nat.mul_add, Nat.mul_one] at hmul
    omega
  · intro h
    refine ⟨B * (start / B + 1), dvd_mul_right _ _, ?_, ?_⟩
    · rw [Nat.mul_add, Nat.mul_one]
      omega
    · rw [Nat.mul_add, Nat.mul_one]
      omega

instance {B start len : ℕ} : Decidable (Crosses B start len) :=
  decidable_of_iff (∃ n < start + len, B ∣ n ∧ start < n)
    ⟨fun ⟨n, hhigh, hdvd, hlow⟩ ↦ ⟨n, hdvd, hlow, hhigh⟩,
      fun ⟨n, hdvd, hlow, hhigh⟩ ↦ ⟨n, hhigh, hdvd, hlow⟩⟩

/-! ## The bytes of a card -/

/-- The byte at an address of the card, if the image has it. -/
def byteAt {M : Type} [HardDisk M] (m : M) (address : ℕ) : Option Byte :=
  (HardDisk.read m (BitVec.ofNat 32 (address / (HardDisk.info m).sectorbytes))).2[
    address % (HardDisk.info m).sectorbytes]?

variable {M : Type} [HardDisk M]

namespace Core

/-! ## The two commands -/

/-- The bytes of `CMD16`. -/
def setBlocklenBytes (blocklen : ℕ) : List Byte :=
  [0x50, 0x00, 0x00, BitVec.ofNat 8 (blocklen / 256), BitVec.ofNat 8 blocklen, 0xff]

/-- The bytes of `CMD17`. -/
def readSingleBytes (blk : BitVec 32) : List Byte :=
  [0x51, blk.extractLsb' 24 8, blk.extractLsb' 16 8, blk.extractLsb' 8 8, blk.extractLsb' 0 8, 0xff]

/-- `do_command` with a command in `m_cmd`. -/
def executing (cmd : List Byte) (k : Core M) : Core M := { k with cmd := cmd }.doCommand

/-- The path of `CMD17` for a whole block. -/
def readWhole (blk : BitVec 32) (k : Core M) : Core M :=
  let (bytes, k) := k.imageRead (blk / BitVec.ofNat 32 k.blksize)
  ((k.setData 3 bytes).setCrc16 3 k.xferblk).sendData (3 + k.xferblk + 2) .data responseDelay

/-- The path of `CMD17` for a part of a block. -/
def readPart (blk : BitVec 32) (k : Core M) : Core M :=
  let (bytes, k) := k.imageRead (blk / BitVec.ofNat 32 k.blksize)
  let k := k.setSector bytes
  let start := (blk % BitVec.ofNat 32 k.blksize).toNat
  let k := k.logged (.sectorUsed start k.xferblk k.sectorbuf.length)
  ((k.setData 3 ((k.sectorbuf.drop start).take k.xferblk)).setCrc16 3 k.xferblk).sendData
    (3 + k.xferblk + 2) .data responseDelay

/-- `CMD17` of a standard capacity card. -/
theorem readSingleBlock_of_v2 {k : Core M} {m : M} (himage : k.image = some m)
    (hv2 : k.type = .v2) : k.readSingleBlock =
      if k.crossesBlock k.argument then (k.setData 0 [0x00, 0xff, dataToken]).respond [0x40] .tran
      else if k.xferblk = k.blksize then (k.setData 0 [0x00, 0xff, dataToken]).readWhole k.argument
      else (k.setData 0 [0x00, 0xff, dataToken]).readPart k.argument := by
  rw [readSingleBlock, if_pos (mounted_of_image himage)]
  have hv2' : (k.setData 0 [0x00, 0xff, dataToken]).type = .v2 := hv2
  by_cases hcross : k.crossesBlock k.argument
  · rw [if_pos hcross]
    exact if_pos ⟨hv2, hcross⟩
  · rw [if_neg hcross]
    refine (if_neg fun h ↦ hcross h.2).trans ?_
    simp only [hv2', if_true]
    rfl

/-- The card as a command finds it. -/
def holding (cmd : List Byte) (k : Core M) : Core M := { k with cmd := cmd }.logged (.executed cmd)

theorem executing_eq {cmd : List Byte} {k k' : Core M} {index : ℕ}
    (hholds : (k.holding cmd).holdsCommand) (hindex : (k.holding cmd).commandIndex = index)
    (hcommand : (k.holding cmd).command index = some k') :
    k.executing cmd = { k' with bACMD := index == 55, cmd := noCommand } := by
  have hexecutes : ({ k with cmd := cmd } : Core M).holdsCommand := hholds
  have hindex' : ({ k with cmd := cmd } : Core M).commandIndex = index := hindex
  have hcommand' : (({ k with cmd := cmd } : Core M).logged (.executed cmd)).command index =
      some k' := hcommand
  rw [executing, doCommand, if_pos hexecutes]
  simp only [hindex', hcommand']

theorem toNat_blocklen {b : ℕ} (hb : b < 2 ^ 16) :
    (BitVec.ofNat 8 (b / 256) ++ BitVec.ofNat 8 b).toNat = b := by
  rw [toNat_append, toNat_ofNat, toNat_ofNat,
    ← Nat.shiftLeft_add_eq_or_of_lt (Nat.mod_lt _ (by decide)), Nat.shiftLeft_eq]
  omega

omit [HardDisk M] in
theorem setBlocklen_of_v2 {k : Core M} {m : M} (himage : k.image = some m) (hv2 : k.type = .v2)
    {b : ℕ} (hcmd : k.cmd = setBlocklenBytes b) (hb : 0 < b) (hle : b ≤ k.blksize)
    (hlt : b < 2 ^ 16) : k.setBlocklen = { k with xferblk := b }.respond [0x00] .tran := by
  have hlen : (k.cmdByte 3 ++ k.cmdByte 4).toNat = b := by
    rw [cmdByte, cmdByte, hcmd]
    exact toNat_blocklen hlt
  rw [setBlocklen, if_pos (mounted_of_image himage)]
  rw [hlen]
  exact if_pos ⟨Nat.pos_iff_ne_zero.mp hb, Or.inl hv2, hle⟩

theorem executing_setBlocklen {k : Core M} {m : M} (himage : k.image = some m) (hv2 : k.type = .v2)
    {b : ℕ} (hb : 0 < b) (hle : b ≤ k.blksize) (hlt : b < 2 ^ 16) :
    k.executing (setBlocklenBytes b) =
      { { k.holding (setBlocklenBytes b) with xferblk := b }.respond [0x00] .tran with
        bACMD := false, cmd := noCommand } := by
  have hholds : (k.holding (setBlocklenBytes b)).holdsCommand :=
    ⟨show (0x50 : Byte) &&&
      0xc0 = 0x40 by decide, Or.inl (show (0xff : Byte).getLsbD 0 = true by decide)⟩
  have hset : (k.holding (setBlocklenBytes b)).command 16 =
      some ({ k.holding (setBlocklenBytes b) with xferblk := b }.respond [0x00] .tran) :=
    congrArg some
      (@setBlocklen_of_v2 _ (k.holding (setBlocklenBytes b)) m himage hv2 b rfl hb hle hlt)
  have hindex : (k.holding (setBlocklenBytes b)).commandIndex = 16 :=
    show ((0x50 : Byte) &&& 0x3f).toNat = 16 by decide
  exact executing_eq hholds hindex hset

theorem executing_readSingle (k : Core M) (blk : BitVec 32) :
    k.executing (readSingleBytes blk) =
      { (k.holding (readSingleBytes blk)).readSingleBlock with
      bACMD := false, cmd := noCommand } := by
  have hholds : (k.holding (readSingleBytes blk)).holdsCommand :=
    ⟨show (0x51 : Byte) &&&
      0xc0 = 0x40 by decide, Or.inl (show (0xff : Byte).getLsbD 0 = true by decide)⟩
  have hindex : (k.holding (readSingleBytes blk)).commandIndex = 17 :=
    show ((0x51 : Byte) &&& 0x3f).toNat = 17 by decide
  exact executing_eq hholds hindex rfl

omit [HardDisk M] in
theorem argument_readSingle (k : Core M) (blk : BitVec 32) :
    (k.holding (readSingleBytes blk)).argument = blk := by
  have hhigh : blk.extractLsb' 24 8 ++ blk.extractLsb' 16 8 = blk.extractLsb' 16 16 :=
    extractLsb'_append_extractLsb'_eq_extractLsb' rfl
  have hmid : blk.extractLsb' 16 16 ++ blk.extractLsb' 8 8 = blk.extractLsb' 8 24 :=
    extractLsb'_append_extractLsb'_eq_extractLsb' rfl
  have hbytes : (k.holding (readSingleBytes blk)).argument =
      blk.extractLsb' 24 8 ++ blk.extractLsb' 16 8 ++ blk.extractLsb' 8 8 ++
      blk.extractLsb' 0 8 := rfl
  rw [hbytes, hhigh, hmid]
  exact extractLsb'_append_extractLsb'

/-! ## The test of the range -/

section Test

omit [HardDisk M]

variable {k : Core M} {n : ℕ} (hn : 9 ≤ n ∧ n ≤ 11) (hblksize : k.blksize = 2 ^ n)
include hn hblksize

/-- The sum wraps for addresses in the last block only, and only if it crosses the end of this
block; its quotient is then 0. -/
theorem crossesBlock_iff_crosses (hpos : 0 < k.xferblk) (hle : k.xferblk ≤ k.blksize)
    (blk : BitVec 32) : k.crossesBlock blk ↔ Crosses k.blksize blk.toNat k.xferblk := by
  obtain ⟨hlo, hhi⟩ := hn
  have hone : (1 : BitVec 32).toNat = 1 := rfl
  rw [crosses_iff (by rw [hblksize]; exact Nat.two_pow_pos n)]
  rw [hblksize] at hle
  rw [crossesBlock, hblksize, ne_eq, ← toNat_inj, toNat_udiv, toNat_udiv,
    toNat_add]
  interval_cases n
  all_goals
    simp only [Nat.reducePow, toNat_sub, toNat_ofNat, Nat.reduceMod, hone] at hle ⊢
    rw [Nat.mod_eq_of_lt (show k.xferblk < 4294967296 by omega)]
    omega

end Test

/-! ## The two paths -/

/-- What the two paths have in common: bytes go into `m_data` behind the token, and the response of
the set length starts. -/
def SendsFrom (k k' : Core M) (bytes : List Byte) : Prop :=
  ∃ j : Core M, j.data = k.data ∧ k' =
    ((j.setData 3 bytes).setCrc16 3 k.xferblk).sendData (3 + k.xferblk + 2) .data responseDelay

namespace SendsFrom

omit [HardDisk M]

variable {k k' : Core M} {bytes : List Byte} (h : k.SendsFrom k' bytes)
include h

theorem response_eq : k'.response = k.slice 0 3 ++ (k'.slice 3 k.xferblk ++
    crcBytes (Util.crc16 (k'.slice 3 k.xferblk))) := by
  obtain ⟨j, hdata, rfl⟩ := h
  have hhead : ((j.setData 3 bytes).setCrc16 3 k.xferblk).slice 0 3 = k.slice 0 3 := by
    rw [slice_setCrc16 _ (by omega)]
    refine slice_congr fun i hi ↦ ?_
    rw [data_setData_of_lt j bytes (by omega), hdata]
  have hpayload : (((j.setData 3 bytes).setCrc16 3 k.xferblk).sendData (3 + k.xferblk + 2) .data
      responseDelay).slice 3 k.xferblk = (j.setData 3 bytes).slice 3 k.xferblk :=
    slice_setCrc16 _ le_rfl
  have hresponse : (((j.setData 3 bytes).setCrc16 3 k.xferblk).sendData (3 + k.xferblk + 2) .data
      responseDelay).response = ((j.setData 3 bytes).setCrc16 3 k.xferblk).slice 0 3 ++
        ((j.setData 3 bytes).setCrc16 3 k.xferblk).slice 3 (k.xferblk + 2) :=
    slice_add _ 0 3 (k.xferblk + 2)
  rw [hresponse, hhead, slice_setCrc16_add_two, hpayload]

theorem getElem?_slice {i : ℕ} {byte : Byte} (hi : i < k.xferblk) (hbyte : bytes[i]? = some byte) :
    (k'.slice 3 k.xferblk)[i]? = some byte := by
  obtain ⟨j, -, rfl⟩ := h
  obtain ⟨hlt, hget⟩ := List.getElem?_eq_some_iff.mp hbyte
  refine (Core.getElem?_slice _ hi).trans (congrArg some ?_)
  calc ((j.setData 3 bytes).setCrc16 3 k.xferblk).data (3 + i)
      = (j.setData 3 bytes).data (3 + i) := data_setCrc16_of_lt _ (by omega)
    _ = bytes[i] := data_setData_of_mem j hlt
    _ = byte := hget

end SendsFrom

section Paths

variable {k : Core M} {m : M} (himage : k.image = some m) (blk : BitVec 32)
include himage

theorem sendsFrom_readWhole :
    k.SendsFrom (k.readWhole blk) (HardDisk.read m (blk / BitVec.ofNat 32 k.blksize)).2 := by
  refine ⟨k.logged (.imageUsed true), rfl, ?_⟩
  rw [readWhole, imageRead, himage]
  rfl

/-- The block goes over the start of the sector buffer, which may be longer than what has been
read. -/
theorem sendsFrom_readPart :
    k.SendsFrom (k.readPart blk)
      ((((HardDisk.read m (blk / BitVec.ofNat 32 k.blksize)).2 ++ k.sectorbuf.drop
        (HardDisk.read m (blk / BitVec.ofNat 32 k.blksize)).2.length).drop
          (blk % BitVec.ofNat 32 k.blksize).toNat).take k.xferblk) := by
  rw [readPart, imageRead, himage]
  refine ⟨_, ?_, rfl⟩
  rfl

end Paths

section Geometry

variable {k : Core M} {m : M} {n : ℕ} (hn : 9 ≤ n ∧ n ≤ 11) (hblksize : k.blksize = 2 ^ n)
include hn hblksize

omit [HardDisk M] in
theorem toNat_blksize : (BitVec.ofNat 32 k.blksize).toNat = k.blksize := by
  rw [toNat_ofNat, hblksize]
  obtain ⟨hlo, hhi⟩ := hn
  interval_cases n <;> rfl

/-- A byte of a range that stays in one block is a byte of the block that the card reads. -/
theorem byteAt_add (hinfo : k.blksize = (HardDisk.info m).sectorbytes) {blk : BitVec 32} {i : ℕ}
    (hin : blk.toNat % k.blksize + i < k.blksize) :
    byteAt m (blk.toNat + i) =
      (HardDisk.read m (blk / BitVec.ofNat 32 k.blksize)).2[
        (blk % BitVec.ofNat 32 k.blksize).toNat + i]? := by
  have hB := toNat_blksize hn hblksize
  have hpos : 0 < k.blksize := by omega
  have hsplit :
      blk.toNat + i = blk.toNat % k.blksize + i + k.blksize * (blk.toNat / k.blksize) := by
    have hdiv := Nat.div_add_mod blk.toNat k.blksize
    omega
  have hdiv : (blk.toNat + i) / k.blksize = blk.toNat / k.blksize := by
    rw [hsplit, Nat.add_mul_div_left _ _ hpos, Nat.div_eq_of_lt hin, Nat.zero_add]
  have hmod : (blk.toNat + i) % k.blksize = blk.toNat % k.blksize + i := by
    rw [hsplit, Nat.add_mul_mod_self_left, Nat.mod_eq_of_lt hin]
  have hlba : BitVec.ofNat 32 (blk.toNat / k.blksize) = blk / BitVec.ofNat 32 k.blksize := by
    rw [← toNat_inj, toNat_udiv, hB, toNat_ofNat, Nat.mod_eq_of_lt]
    exact (Nat.div_le_self _ _).trans_lt blk.isLt
  rw [byteAt, ← hinfo, hdiv, hmod, hlba, toNat_umod, hB]

end Geometry

/-! ## The bytes that are sent -/

/-- The response of `CMD17` is a data packet with these bytes. -/
def SendsBytes (k : Core M) (payload : List Byte) : Prop :=
  k.response = [0x00, 0xff, dataToken] ++ payload ++ crcBytes (Util.crc16 payload)

/-- What `CMD17` of a standard capacity card is for, with the length that `CMD16` has set. -/
structure ReadsRange (k : Core M) (m : M) (blk : BitVec 32) : Prop where
  rejected : (k.executing (readSingleBytes blk)).response = [0x40] ↔
    Crosses k.blksize blk.toNat k.xferblk
  payload : ¬ Crosses k.blksize blk.toNat k.xferblk → ∃ payload,
    (k.executing (readSingleBytes blk)).SendsBytes payload ∧ payload.length = k.xferblk ∧
      ∀ i < k.xferblk, byteAt m (blk.toNat + i) = payload[i]?
  paths : ¬ Crosses k.blksize blk.toNat k.xferblk → k.xferblk = k.blksize →
    (k.readWhole blk).slice 3 k.xferblk = (k.readPart blk).slice 3 k.xferblk

/-- The image has all bytes of the range. -/
def HasRange (m : M) (start len : ℕ) : Prop := ∀ i < len, (byteAt m (start + i)).isSome

section Range

variable {k : Core M} {m : M} (hfit : k.Fitted) (himage : k.image = some m) (hv2 : k.type = .v2)
  (hpos : 0 < k.xferblk) (hle : k.xferblk ≤ k.blksize) {blk : BitVec 32}
include hfit himage hle

/-- The payload of both paths is the bytes of the range, if the image has them. -/
theorem getElem?_slice_of_range (hcross : ¬ Crosses k.blksize blk.toNat k.xferblk) {i : ℕ}
    (hi : i < k.xferblk) {byte : Byte} (hbyte : byteAt m (blk.toNat + i) = some byte) :
    (k.xferblk = k.blksize → ((k.readWhole blk).slice 3 k.xferblk)[i]? = some byte) ∧
      ((k.readPart blk).slice 3 k.xferblk)[i]? = some byte := by
  obtain ⟨n, hn, hblksize⟩ := hfit.exists_blksize himage
  rw [crosses_iff (by omega)] at hcross
  rw [byteAt_add hn hblksize (hfit m himage).2 (by omega)] at hbyte
  obtain ⟨hlt, -⟩ := List.getElem?_eq_some_iff.mp hbyte
  constructor
  · intro hfull
    -- a whole block that crosses no end starts at the start of a block
    have hzero : (blk % BitVec.ofNat 32 k.blksize).toNat = 0 := by
      rw [toNat_umod, toNat_blksize hn hblksize]
      omega
    rw [hzero, Nat.zero_add] at hbyte
    exact (sendsFrom_readWhole himage blk).getElem?_slice hi hbyte
  · refine (sendsFrom_readPart himage blk).getElem?_slice hi ?_
    rw [List.getElem?_take_of_lt hi, List.getElem?_drop, List.getElem?_append_left hlt]
    exact hbyte

include hv2 hpos

theorem response_of_crosses (hcross : Crosses k.blksize blk.toNat k.xferblk) :
    (k.executing (readSingleBytes blk)).response = [0x40] := by
  obtain ⟨n, hn, hblksize⟩ := hfit.exists_blksize himage
  have hcross' : (k.holding (readSingleBytes blk)).crossesBlock
      (k.holding (readSingleBytes blk)).argument := by
    rw [argument_readSingle]
    exact (crossesBlock_iff_crosses hn hblksize hpos hle blk).mpr hcross
  have hread := @readSingleBlock_of_v2 _ _ (k.holding (readSingleBytes blk)) m himage hv2
  rw [if_pos hcross'] at hread
  rw [executing_readSingle, hread]
  exact response_respond _ [0x40] .tran

/-- Where the range stays in its block, `CMD17` takes one of the two paths. -/
theorem executing_of_not_crosses (hcross : ¬ Crosses k.blksize blk.toNat k.xferblk) :
    ∃ j : Core M, j.image = k.image ∧ j.Fitted ∧ j.xferblk = k.xferblk ∧ j.blksize = k.blksize ∧
      j.slice 0 3 = [0x00, 0xff, dataToken] ∧
        (k.executing (readSingleBytes blk)).response =
          (if k.xferblk = k.blksize then j.readWhole blk else j.readPart blk).response := by
  obtain ⟨n, hn, hblksize⟩ := hfit.exists_blksize himage
  have hcross' : ¬ (k.holding (readSingleBytes blk)).crossesBlock
      (k.holding (readSingleBytes blk)).argument := by
    rw [argument_readSingle]
    exact fun h ↦ hcross ((crossesBlock_iff_crosses hn hblksize hpos hle blk).mp h)
  have hread := @readSingleBlock_of_v2 _ _ (k.holding (readSingleBytes blk)) m himage hv2
  rw [if_neg hcross', argument_readSingle] at hread
  refine ⟨(k.holding (readSingleBytes blk)).setData 0 [0x00, 0xff, dataToken], rfl,
    hfit.of_eq rfl rfl,
    rfl, rfl, slice_setData _ 0 [0x00, 0xff, dataToken], ?_⟩
  rw [executing_readSingle, hread]
  rfl

/-- `CMD17` sends a packet of the set length, with the bytes of the range that the image has. -/
theorem exists_sendsBytes (hcross : ¬ Crosses k.blksize blk.toNat k.xferblk) :
    ∃ payload, (k.executing (readSingleBytes blk)).SendsBytes payload ∧ payload.length = k.xferblk ∧
      ∀ i < k.xferblk, ∀ byte, byteAt m (blk.toNat + i) = some byte → payload[i]? = some byte := by
  obtain ⟨j, hj, hjfit, hxferblk, hjblksize, hhead, hresponse⟩ :=
    executing_of_not_crosses hfit himage hv2 hpos hle hcross
  rw [← hj] at himage
  rw [← hxferblk, ← hjblksize] at hcross hle hresponse
  rw [← hxferblk] at hpos ⊢
  simp only [SendsBytes, hresponse, List.append_assoc]
  by_cases hfull : j.xferblk = j.blksize
  · rw [if_pos hfull, (sendsFrom_readWhole himage blk).response_eq, hhead]
    exact ⟨_, rfl, length_slice _ _ _, fun i hi byte hbyte ↦
      (getElem?_slice_of_range hjfit himage hle hcross hi hbyte).1 hfull⟩
  · rw [if_neg hfull, (sendsFrom_readPart himage blk).response_eq, hhead]
    exact ⟨_, rfl, length_slice _ _ _, fun i hi byte hbyte ↦
      (getElem?_slice_of_range hjfit himage hle hcross hi hbyte).2⟩

theorem readsRange_iff_hasRange : k.ReadsRange m blk ↔
    Crosses k.blksize blk.toNat k.xferblk ∨ HasRange m blk.toNat k.xferblk := by
  constructor
  · intro h
    refine or_iff_not_imp_left.mpr fun hcross i hi ↦ ?_
    obtain ⟨payload, -, hlen, hbytes⟩ := h.payload hcross
    rw [hbytes i hi, List.getElem?_eq_getElem (hlen.symm ▸ hi)]
    rfl
  · intro h
    refine ⟨⟨fun hreject ↦ ?_, response_of_crosses hfit himage hv2 hpos hle⟩, fun hcross ↦ ?_,
      fun hcross hfull ↦ ?_⟩
    · by_contra hcross
      obtain ⟨payload, hsends, -⟩ := exists_sendsBytes hfit himage hv2 hpos hle hcross
      rw [SendsBytes, hreject] at hsends
      exact absurd (List.cons_eq_cons.mp hsends).1 (by decide)
    · obtain ⟨payload, hsends, hlen, hbytes⟩ := exists_sendsBytes hfit himage hv2 hpos hle hcross
      refine ⟨payload, hsends, hlen, fun i hi ↦ ?_⟩
      obtain ⟨byte, hbyte⟩ := Option.isSome_iff_exists.mp (h.resolve_left hcross i hi)
      rw [hbyte, hbytes i hi byte hbyte]
    · refine List.ext_getElem? fun i ↦ ?_
      by_cases hi : i < k.xferblk
      · obtain ⟨byte, hbyte⟩ := Option.isSome_iff_exists.mp (h.resolve_left hcross i hi)
        obtain ⟨hwhole, hpart⟩ := getElem?_slice_of_range hfit himage hle hcross hi hbyte
        rw [hwhole hfull, hpart]
      · rw [List.getElem?_eq_none (by rw [length_slice]; omega),
          List.getElem?_eq_none (by rw [length_slice]; omega)]

end Range

/-- `CMD16` accepts the length, and `CMD17` then reads the range of this length. -/
structure ReadsPart (k : Core M) (m : M) (blocklen : ℕ) (blk : BitVec 32) : Prop where
  accepted : (k.executing (setBlocklenBytes blocklen)).response = [0x00]
  set : (k.executing (setBlocklenBytes blocklen)).xferblk = blocklen
  reads : (k.executing (setBlocklenBytes blocklen)).ReadsRange m blk

/-- **Reads of a part of a block**: every length up to that of a block can be set, and a read of
this length at any address does what it should exactly if it is rejected or the image has all its
bytes. -/
theorem readsPart_iff {k : Core M} {m : M} (hfit : k.Fitted) (himage : k.image = some m)
    (hv2 : k.type = .v2) {blocklen : ℕ} (hpos : 0 < blocklen) (hle : blocklen ≤ k.blksize)
    (blk : BitVec 32) : k.ReadsPart m blocklen blk ↔
      Crosses k.blksize blk.toNat blocklen ∨ HasRange m blk.toNat blocklen := by
  obtain ⟨n, ⟨-, hn⟩, hblksize⟩ := hfit.exists_blksize himage
  have hlt : blocklen < 2 ^ 16 := by
    have hpow := Nat.pow_le_pow_right (show 0 < 2 by decide) hn
    omega
  have hset := executing_setBlocklen himage hv2 hpos hle hlt
  have hreads := @readsRange_iff_hasRange _ _ (k.executing (setBlocklenBytes blocklen)) m
    (by rw [hset]; exact hfit.of_eq rfl rfl) (by rw [hset]; exact himage) (by rw [hset]; exact hv2)
    (by rw [hset]; exact hpos) (by rw [hset]; exact hle) blk
  have hxferblk : (k.executing (setBlocklenBytes blocklen)).xferblk = blocklen := by
    rw [hset]
    rfl
  have hblksize' : (k.executing (setBlocklenBytes blocklen)).blksize = k.blksize := by
    rw [hset]
    rfl
  rw [hxferblk, hblksize'] at hreads
  rw [← hreads]
  refine ⟨fun h ↦ h.reads, fun h ↦ ⟨?_, hxferblk, h⟩⟩
  rw [hset]
  exact response_respond _ [0x00] .tran

/-- The last 16 bytes of block 1. -/
theorem readsPart_numberedDisk :
    ((Card.start .v2 true).core.load numberedDisk).ReadsPart numberedDisk 16 0x3f0 := by
  have hload : ((Card.start .v2 true).core.load numberedDisk).Fitted :=
    (fitted_start .v2 true).load numberedDisk
  refine (readsPart_iff hload rfl (by decide +kernel) (by decide) (by decide +kernel) 0x3f0).mpr
    (Or.inr fun i hi ↦ ?_)
  have hbytes : ∀ i < 16, (byteAt numberedDisk ((0x3f0 : BitVec 32).toNat + i)).isSome := by
    decide +kernel
  exact hbytes i hi

/-- The sector behind the end of the image: the card sends a packet, of bytes that the image has
not. -/
theorem not_readsPart_fourSectors :
    ¬ ((Card.start .v2 true).core.load fourSectors).ReadsPart fourSectors 512 0x800 := by
  intro h
  have hblksize : (((Card.start .v2 true).core.load fourSectors).executing
      (setBlocklenBytes 512)).blksize = 512 := by decide +kernel
  have hcross : ¬ Crosses 512 (0x800 : BitVec 32).toNat 512 := by
    rw [crosses_iff (by decide)]
    decide
  have hpayload := h.reads.payload
  rw [hblksize, h.set] at hpayload
  obtain ⟨payload, -, hlen, hbytes⟩ := hpayload hcross
  have hnone : byteAt fourSectors ((0x800 : BitVec 32).toNat + 0) = none := by decide +kernel
  have hfirst := hbytes 0 (by decide)
  rw [hnone, List.getElem?_eq_getElem (by omega)] at hfirst
  cases hfirst

end Core

end RoscoEmulator.SdCard
