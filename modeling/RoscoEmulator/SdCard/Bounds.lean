import RoscoEmulator.SdCard.Transport

/-!
# The buffers of the card

`m_data` has 2056 bytes, enough for the largest block with its token, response and CRC. `Bounded` is
the invariant behind every index into it: a block and a transfer length are at most 2048 bytes, what
is left of the output ends inside the buffer, and the data phase of a write is short of the length
that ends it.

Two things are outside the invariant. A data phase ends where the write pointer equals the transfer
length plus two, and mounting an image with smaller blocks during a data phase can move that length
below the pointer. And the image fills and takes units of its own size, which `image_loaded` does
not compare with the length of a block; `room` is what the card has for a unit where a byte has it
use the image. `BufferGuard` asks for the right order in the one and for enough room in the
other. -/

namespace RoscoEmulator.SdCard

open Nat BitVec List

variable {M : Type} [HardDisk M]

/-- The size of `m_data`. -/
def dataSize : ℕ := 2048 + 8

/-- The entry of the log stays inside the buffer that it uses. -/
def Effect.InBounds : Effect → Prop
  | .dataWritten start len | .dataRead start len => start + len ≤ dataSize
  | .sectorUsed start len size => start + len ≤ size
  | _ => True

namespace Core

/-- The units of the mounted image have at most `size` bytes. -/
def UnitsFit (k : Core M) (size : ℕ) : Prop := ∀ m ∈ k.image, HardDisk.unitBytes m ≤ size

section Room

omit [HardDisk M]

variable (k : Core M)

/-- What `CMD17` has for a unit: `m_data` behind the token, or the sector buffer for a part of a
block. -/
def singleRoom : ℕ := if k.xferblk = k.blksize then dataSize - 3 else k.sectorbuf.length

/-- What the card has for a unit where a byte has it use the image: all of `m_data` at the end of a
data phase, and what `CMD17` or the next block of a multiple block read puts the unit into. -/
def room (byte : Byte) : Option ℕ :=
  if k.state = .writeData ∧ (k.writePtr + 1) % 2 ^ 16 = k.xferblk + 2 then some dataSize
  else
    match k.reading byte with
    | some .readSingleBlock => some k.singleRoom
    | some .readNextBlock => some (dataSize - 1)
    | _ => none

end Room

/-- The card has room for the units of its image where a byte has it use the image. -/
def HasRoom (k : Core M) (byte : Byte) : Prop := ∀ size ∈ k.room byte, k.UnitsFit size

namespace HasRoom

variable {k : Core M} {byte : Byte} (h : k.HasRoom byte)
include h

theorem write (hstate : k.state = .writeData) (hend : (k.writePtr + 1) % 2 ^ 16 = k.xferblk + 2) :
    k.UnitsFit dataSize := by
  refine h _ ?_
  rw [room, if_pos ⟨hstate, hend⟩]
  rfl

/-- What a byte has the card read is read into enough room. -/
theorem reads (hstate : k.state ≠ .writeData) {size : ℕ} (cmd : DataCommand)
    (hreading : k.mounted = true → k.reading byte = some cmd) (hsize : cmd = .readSingleBlock ∧
    size = k.singleRoom ∨ cmd = .readNextBlock ∧ size = dataSize - 1) : k.UnitsFit size := by
  intro m hm
  refine h _ ?_ m hm
  have hmounted : k.mounted = true := Option.isSome_of_mem hm
  rw [room, if_neg fun hw ↦ hstate hw.1, hreading hmounted]
  rcases hsize with ⟨rfl, rfl⟩ | ⟨rfl, rfl⟩ <;> rfl

theorem single (hwait : k.state ≠ .writeWaitFE) (hstate : k.state ≠ .writeData)
    (hlooks : k.LooksAtCommand byte) (hholds : (k.shiftCmd byte).holdsCommand)
    (hindex : (k.shiftCmd byte).commandIndex = 17) (hreadable : (k.shiftCmd byte).Readable) :
    k.UnitsFit k.singleRoom := by
  refine h.reads hstate .readSingleBlock (fun hmounted ↦ ?_) (Or.inl ⟨rfl, rfl⟩)
  have hcompletes : k.Completes byte := ⟨hholds, by rw [hindex]; decide⟩
  rw [reading, if_pos ⟨hmounted, hwait, hstate⟩, if_pos ⟨hlooks, hcompletes⟩,
    if_pos ⟨hindex, hreadable⟩]

theorem next (hmulti : k.state = .dataMulti) (hcount : k.outCount = 0)
    (hnone : ¬ k.Completes byte) : k.UnitsFit (dataSize - 1) := by
  have hwait : k.state ≠ .writeWaitFE := by rw [hmulti]; decide
  have hstate : k.state ≠ .writeData := by rw [hmulti]; decide
  refine h.reads hstate .readNextBlock (fun hmounted ↦ ?_) (Or.inr ⟨rfl, rfl⟩)
  rw [reading, if_pos ⟨hmounted, hwait, hstate⟩, if_neg fun hcmd ↦ hnone hcmd.2,
    if_pos ⟨hmulti, hcount⟩]

end HasRoom

end Core

structure Bounded (k : Core M) : Prop where
  blksize_ge : 512 ≤ k.blksize
  blksize_le : k.blksize ≤ 2048
  xferblk_pos : 0 < k.xferblk
  xferblk_le : k.xferblk ≤ k.blksize
  xferblk_hc : k.type = .hc → k.xferblk = k.blksize
  image : ∀ m, k.image = some m →
    (HardDisk.info m).sectorbytes = k.blksize ∧ k.sectorbuf.length = k.blksize
  csd : k.csd.length = 16
  outCount : k.outCount ≤ 2053
  output : 0 < k.outCount → k.outPtr + k.outCount ≤ k.outDelay + 2053
  writing : k.state = .writeData → k.writePtr < k.xferblk + 2
  log : ∀ e ∈ k.log, e.InBounds

namespace Bounded

theorem log_concat {k : Core M} (h : Bounded k) {e : Effect} (he : e.InBounds) :
    ∀ e' ∈ k.log ++ [e], e'.InBounds := by
  intro e' hmem
  rcases List.mem_append.mp hmem with hmem | hmem
  · exact h.log e' hmem
  · rwa [List.mem_singleton.mp hmem]

variable {k : Core M} (h : Bounded k)
include h

theorem logged {e : Effect} (he : e.InBounds) : Bounded (k.logged e) :=
  ⟨h.blksize_ge, h.blksize_le, h.xferblk_pos, h.xferblk_le, h.xferblk_hc, h.image, h.csd,
    h.outCount, h.output, h.writing, h.log_concat he⟩

variable (byte : Byte) {bytes : List Byte}

theorem setData {start : ℕ} (hlen : start + bytes.length ≤ dataSize) :
    Bounded (k.setData start bytes) :=
  ⟨h.blksize_ge, h.blksize_le, h.xferblk_pos, h.xferblk_le, h.xferblk_hc, h.image, h.csd,
    h.outCount, h.output, h.writing, h.log_concat hlen⟩

theorem sendData {count : ℕ} {state : SdState} (hcount : count ≤ 2053) (hstate : state ≠ .writeData)
    (delay : ℕ) : Bounded (k.sendData count state delay) := by
  refine ⟨h.blksize_ge, h.blksize_le, h.xferblk_pos, h.xferblk_le, h.xferblk_hc, h.image, h.csd,
    hcount, fun _ ↦ ?_, fun hw ↦ absurd hw hstate, h.log_concat trivial⟩
  change 0 + count ≤ delay + 2053
  omega

theorem setCrc16 {start len : ℕ} (hlen : start + len + 2 ≤ dataSize) :
    Bounded (k.setCrc16 start len) :=
  (h.logged (e := .dataRead start len) (Nat.le_trans (Nat.le_add_right _ 2) hlen)).setData hlen

theorem respond {state : SdState} (hlen : bytes.length ≤ 2053) (hstate : state ≠ .writeData) :
    Bounded (k.respond bytes state) := by
  refine (h.setData ?_).sendData hlen hstate _
  rw [Nat.zero_add, dataSize]
  omega

theorem shiftByte : Bounded k.shiftByte.2 := by
  have hcount := h.outCount
  have hout := h.output
  rw [Core.shiftByte]
  split_ifs with hdelay hpos
  · refine ⟨h.blksize_ge, h.blksize_le, h.xferblk_pos, h.xferblk_le, h.xferblk_hc, h.image, h.csd,
      hcount, fun hpos ↦ ?_, h.writing, h.log⟩
    change k.outPtr + 1 + k.outCount ≤ k.outDelay + 2053
    omega
  · have hread : Effect.InBounds (.dataRead (k.outPtr - k.outDelay) 1) := by
      change k.outPtr - k.outDelay + 1 ≤ 2056
      omega
    refine ⟨h.blksize_ge, h.blksize_le, h.xferblk_pos, h.xferblk_le, h.xferblk_hc, h.image, h.csd,
      ?_, fun hpos' ↦ ?_, h.writing, h.log_concat hread⟩
    · change k.outCount - 1 ≤ 2053
      omega
    · change k.outPtr + 1 + (k.outCount - 1) ≤ k.outDelay + 2053
      omega
  · exact h

theorem select : Bounded k.select :=
  ⟨h.blksize_ge, h.blksize_le, h.xferblk_pos, h.xferblk_le, h.xferblk_hc, h.image, h.csd,
    Nat.zero_le _, fun hpos ↦ absurd hpos (Nat.lt_irrefl 0), fun hw ↦ (by cases hw), h.log⟩

omit h in
/-- What a read of the image puts into a buffer is at most a unit. -/
theorem length_imageRead {size : ℕ} (hfit : k.UnitsFit size) (lba : BitVec 32) :
    (k.imageRead lba).1.length ≤ size := by
  rw [Core.imageRead]
  split
  · rename_i m hm
    exact Nat.le_trans (HardDisk.length_read_le m lba) (hfit m hm)
  · exact Nat.zero_le _

theorem setSector (hlen : bytes.length ≤ k.sectorbuf.length) : Bounded (k.setSector bytes) := by
  refine ⟨h.blksize_ge, h.blksize_le, h.xferblk_pos, h.xferblk_le, h.xferblk_hc, ?_, h.csd,
    h.outCount, h.output, h.writing, h.log_concat ?_⟩
  · intro m hm
    obtain ⟨hbytes, hbuf⟩ := h.image m hm
    refine ⟨hbytes, ?_⟩
    change (bytes ++ k.sectorbuf.drop bytes.length).length = k.blksize
    rw [length_append, length_drop]
    omega
  · change 0 + bytes.length ≤ k.sectorbuf.length
    omega

theorem imageWrite (hfit : k.UnitsFit dataSize) (lba : BitVec 32) :
    Bounded (k.imageWrite lba).2 := by
  rw [Core.imageWrite]
  split
  · rename_i m hm
    obtain ⟨hbytes, hbuf⟩ := h.image m hm
    have hunit : 0 + HardDisk.unitBytes m ≤ dataSize := by
      rw [Nat.zero_add]
      exact hfit m hm
    have hlogged := (h.logged (e := .imageUsed true) trivial).logged
      (e := .dataRead 0 (HardDisk.unitBytes m)) hunit
    refine ⟨h.blksize_ge, h.blksize_le, h.xferblk_pos, h.xferblk_le, h.xferblk_hc, ?_, h.csd,
      h.outCount, h.output, h.writing, hlogged.log⟩
    intro m' hm'
    cases hm'
    exact ⟨(congrArg Info.sectorbytes (HardDisk.info_write m _ _)).trans hbytes, hbuf⟩
  · exact h.logged trivial

/-- An address that is not rejected leaves the transfer inside one block. -/
theorem mod_add_le_of_not_crossesBlock {blk : BitVec 32} (hcross : ¬k.crossesBlock blk) :
    (blk % BitVec.ofNat 32 k.blksize).toNat + k.xferblk ≤ k.blksize := by
  have hle := h.blksize_le
  have hpos := h.xferblk_pos
  have hxfer := h.xferblk_le
  have hquot := congrArg BitVec.toNat (not_not.mp hcross)
  have hB : (BitVec.ofNat 32 k.blksize).toNat = k.blksize := by
    rw [toNat_ofNat, mod_eq_of_lt (by omega)]
  have hx : (BitVec.ofNat 32 k.xferblk - 1).toNat = k.xferblk - 1 := by
    rw [toNat_sub, toNat_ofNat, mod_eq_of_lt (show k.xferblk < 2 ^ 32 by omega)]
    change (2 ^ 32 - 1 + k.xferblk) % 2 ^ 32 = _
    omega
  rw [toNat_udiv, toNat_udiv, toNat_add, hB, hx] at hquot
  rw [toNat_umod, hB]
  -- the sum does not wrap: a wrapped sum would lie in block 0, far from the address
  have hsmall : blk.toNat + (k.xferblk - 1) < 2 ^ 32 := by
    by_contra hbig
    have hwrap : (blk.toNat + (k.xferblk - 1)) % 2 ^ 32 / k.blksize = 0 :=
      div_eq_of_lt (by omega)
    rw [hwrap, Nat.div_eq_zero_iff] at hquot
    omega
  rw [mod_eq_of_lt hsmall] at hquot
  have hsplit := div_add_mod blk.toNat k.blksize
  have hsum : (blk.toNat + (k.xferblk - 1)) / k.blksize =
      blk.toNat / k.blksize + (blk.toNat % k.blksize + (k.xferblk - 1)) / k.blksize := by
    conv_lhs => rw [← hsplit, Nat.add_assoc]
    exact mul_add_div (by omega) _ _
  have hzero : (blk.toNat % k.blksize + (k.xferblk - 1)) / k.blksize = 0 := by omega
  rw [Nat.div_eq_zero_iff] at hzero
  omega

/-- A block that has been read is sent with its CRC. -/
theorem sendBlock (hlen : bytes.length ≤ dataSize - 3) :
    Bounded (((k.setData 3 bytes).setCrc16 3 k.xferblk).sendData (3 + k.xferblk + 2) .data
      responseDelay) := by
  have hle := h.blksize_le
  have hxfer := h.xferblk_le
  rw [dataSize] at hlen
  refine Bounded.sendData (Bounded.setCrc16 (h.setData ?_) ?_) ?_ (by decide) _
  · rw [dataSize]
    omega
  · rw [dataSize]
    omega
  · omega

theorem readSingleBlock (hfit : k.Readable → k.UnitsFit k.singleRoom) :
    Bounded k.readSingleBlock := by
  have hstart : Bounded (k.setData 0 [0x00, 0xff, dataToken]) := h.setData (by decide)
  have hread : Bounded ((k.setData 0 [0x00, 0xff, dataToken]).logged (.imageUsed k.mounted)) :=
    hstart.logged trivial
  have hwhole (hreadable : k.Readable) (heq : k.xferblk = k.blksize) :
      (k.setData 0 [0x00, 0xff, dataToken]).UnitsFit (dataSize - 3) := by
    have hunits := hfit hreadable
    rwa [Core.singleRoom, if_pos heq] at hunits
  have hpart (hreadable : k.Readable) (hne : ¬ k.xferblk = k.blksize) :
      (k.setData 0 [0x00, 0xff, dataToken]).UnitsFit k.sectorbuf.length := by
    have hunits := hfit hreadable
    rwa [Core.singleRoom, if_neg hne] at hunits
  simp only [Core.readSingleBlock, imageRead_snd]
  split_ifs with hmounted hcross heq hv2
  · exact hstart.respond (by decide) (by decide)
  · exact hread.sendBlock (length_imageRead (hwhole hcross heq) _)
  · exact hread.sendBlock (length_imageRead (hwhole hcross heq) _)
  · -- a part of the block, through the sector buffer
    obtain ⟨m, hm⟩ := Option.isSome_iff_exists.mp hmounted
    have hsector := hread.setSector (length_imageRead (hpart hcross heq)
      ((k.setData 0 [0x00, 0xff, dataToken]).argument / BitVec.ofNat 32 k.blksize))
    have hbuf' := (hsector.image m hm).2
    have hnot : ¬k.crossesBlock (k.setData 0 [0x00, 0xff, dataToken]).argument := by
      intro hc
      cases htype : k.type with
      | v2 => exact hcross ⟨htype, hc⟩
      | hc => exact heq (h.xferblk_hc htype)
    have hinside := h.mod_add_le_of_not_crossesBlock hnot
    refine Bounded.sendBlock (hsector.logged ?_) ?_
    · exact Nat.le_trans hinside (Nat.le_of_eq hbuf'.symm)
    · have hxfer : k.xferblk ≤ dataSize - 3 :=
        Nat.le_trans h.xferblk_le (Nat.le_trans h.blksize_le (by decide))
      rw [length_take]
      exact Nat.le_trans (Nat.min_le_left _ _) hxfer
  · exact h.respond (by decide) (by decide)

theorem setBlocklen : Bounded k.setBlocklen := by
  simp only [Core.setBlocklen]
  split_ifs with hmounted hlen
  · obtain ⟨hne, htype, hle⟩ := hlen
    -- the state is overwritten, so that the new length is not measured against the write pointer
    have hset :
        Bounded { k with xferblk := (k.cmdByte 3 ++ k.cmdByte 4).toNat, state := .tran } := by
      refine ⟨h.blksize_ge, h.blksize_le, Nat.pos_of_ne_zero hne, hle, fun hhc ↦ ?_, h.image, h.csd,
        h.outCount, h.output, fun hw ↦ (by cases hw), h.log⟩
      exact htype.resolve_left fun hv2 ↦ absurd (hv2.symm.trans hhc) (by decide)
    exact hset.respond (by decide) (by decide)
  · exact h.respond (by decide) (by decide)
  · exact h.respond (by decide) (by decide)

theorem readMultipleBlock : Bounded k.readMultipleBlock := by
  have hstart : Bounded (k.setData 0 [0x00]) := h.setData (by decide)
  simp only [Core.readMultipleBlock]
  split_ifs
  · refine Bounded.sendData ?_ (by decide) (by decide) _
    exact { hstart with }
  · refine Bounded.sendData ?_ (by decide) (by decide) _
    exact { hstart with }
  · exact h.respond (by decide) (by decide)
  · exact h.respond (by decide) (by decide)

theorem writeBlock : Bounded k.writeBlock := by
  simp only [Core.writeBlock]
  split_ifs
  · exact h.respond (by decide) (by decide)
  · refine Bounded.respond ?_ (by decide) (by decide)
    exact { h with }
  · refine Bounded.respond ?_ (by decide) (by decide)
    exact { h with }
  · refine Bounded.respond ?_ (by decide) (by decide)
    exact { h with }

theorem command {index : ℕ} {k' : Core M} (hcmd : k.command index = some k')
    (hfit : index = 17 → k.Readable → k.UnitsFit k.singleRoom) : Bounded k' := by
  unfold Core.command at hcmd
  split at hcmd <;> cases hcmd
  case h_1 =>
    rw [Core.goIdleState]
    split_ifs <;> exact h.respond (by decide) (by decide)
  case h_4 =>
    refine h.respond ?_ (by decide)
    rw [length_append, h.csd]
    decide
  case h_5 =>
    have hdata : Bounded (k.setData 0 ([0x00, 0xff, 0xfe] ++ Core.cid)) := h.setData (by decide)
    exact Bounded.sendData (hdata.setCrc16 (by decide)) (by decide) (by decide) _
  case h_6 =>
    refine h.respond (by decide) ?_
    split_ifs <;> decide
  case h_8 => exact h.setBlocklen
  case h_9 => exact h.readSingleBlock (hfit rfl)
  case h_10 => exact h.readMultipleBlock
  case h_11 => exact h.writeBlock
  case h_12 =>
    rw [Core.sdSendOpCond]
    split_ifs <;> exact h.respond (by decide) (by decide)
  case h_14 => exact h.respond (le_of_ble_eq_true rfl) (by decide)
  case h_15 =>
    refine Bounded.respond ?_ (by decide) (by decide)
    exact { h with }
  all_goals exact h.respond (by decide) (by decide)

theorem doCommand
    (hfit : k.holdsCommand → k.commandIndex = 17 → k.Readable → k.UnitsFit k.singleRoom) :
    Bounded k.doCommand := by
  have hlogged : Bounded (k.logged (.executed k.cmd)) := h.logged trivial
  simp only [Core.doCommand]
  split_ifs with hholds
  · rcases hcmd : (k.logged (.executed k.cmd)).command k.commandIndex with _ | k'
    · exact { hlogged with }
    · exact { hlogged.command hcmd (hfit hholds) with }
  · exact h

/-- The block that goes to the image is at the start of the buffer. -/
theorem writeBlockData (hfit : k.UnitsFit dataSize) : Bounded k.writeBlockData := by
  rw [Core.writeBlockData]
  exact Bounded.sendData ((h.imageWrite hfit _).setData (le_of_ble_eq_true rfl))
    (by decide) (by decide) _

theorem readNextBlock (hfit : k.UnitsFit (dataSize - 1)) : Bounded k.readNextBlock := by
  have hstart : Bounded (k.setData 0 [dataToken]) := h.setData (by decide)
  have hread : Bounded ((k.setData 0 [dataToken]).logged (.imageUsed k.mounted)) :=
    hstart.logged trivial
  have hle := h.blksize_le
  have hunits : (k.setData 0 [dataToken]).UnitsFit (dataSize - 1) := hfit
  have hlen := length_imageRead hunits k.blknext
  rw [dataSize] at hlen
  simp only [Core.readNextBlock, imageRead_snd]
  have hblock : Bounded (((k.setData 0 [dataToken]).logged (.imageUsed k.mounted)).setData 1
      ((k.setData 0 [dataToken]).imageRead k.blknext).1) := by
    refine hread.setData ?_
    rw [dataSize]
    omega
  refine Bounded.sendData (Bounded.setCrc16 ?_ ?_) ?_ ?_ _
  · exact { hblock with }
  · change 1 + k.blksize + 2 ≤ dataSize
    rw [dataSize]
    omega
  · change 1 + k.blksize + 2 ≤ 2053
    omega
  · decide

/-- The write pointer is short of the length that ends the data phase, and comes to it at last. -/
theorem receiveData (hwriting : k.state = .writeData)
    (hfit : (k.writePtr + 1) % 2 ^ 16 = k.xferblk + 2 → k.UnitsFit dataSize) :
    Bounded (k.receiveData byte) := by
  have hle := h.blksize_le
  have hxfer := h.xferblk_le
  have hptr := h.writing hwriting
  have hmod : (k.writePtr + 1) % 2 ^ 16 = k.writePtr + 1 := mod_eq_of_lt (by omega)
  have hdata : Bounded (k.setData k.writePtr [byte]) := by
    refine h.setData ?_
    change k.writePtr + 1 ≤ 2056
    omega
  simp only [Core.receiveData, hmod]
  split_ifs with hend
  · -- the state is overwritten at the end of the block
    have hidle : Bounded { k.setData k.writePtr [byte] with
        writePtr := k.writePtr + 1, state := .idle } :=
      { hdata with writing := fun hw ↦ (by cases hw) }
    have hunits : k.UnitsFit dataSize := hfit (hmod.trans hend)
    have hblock := hidle.writeBlockData hunits
    rw [Core.writeBlockData, Core.imageWrite] at hblock ⊢
    rcases himage : k.image with _ | m
    · simp only [Core.setData, himage] at hblock ⊢
      exact hblock
    · simp only [Core.setData, himage] at hblock ⊢
      exact hblock
  · refine { hdata with writing := fun _ ↦ ?_ }
    have hne : k.writePtr + 1 ≠ k.xferblk + 2 := hend
    change k.writePtr + 1 < k.xferblk + 2
    omega

theorem receiveCmd (hroom : k.HasRoom byte) (hwait : k.state ≠ .writeWaitFE)
    (hwriting : k.state ≠ .writeData) : Bounded (k.receiveCmd byte) := by
  have hshift : Bounded (k.shiftCmd byte) := { h with }
  have hdo (hlooks : k.LooksAtCommand byte) : Bounded (k.shiftCmd byte).doCommand :=
    hshift.doCommand (hroom.single hwait hwriting hlooks)
  simp only [Core.receiveCmd]
  split_ifs with hmulti hnext hlooks
  · -- a command that the card supports would have left something to send
    have hnone : ¬ k.Completes byte := by
      intro hcompletes
      exact absurd hnext.2 (Nat.pos_iff_ne_zero.mp (Core.doCommand_of_some hcompletes))
    obtain ⟨-, hcount, himage⟩ := Core.doCommand_of_none hnone
    refine (hdo (Or.inl hmulti)).readNextBlock ?_
    rw [Core.UnitsFit, himage]
    exact hroom.next hmulti (hcount.symm.trans hnext.2) hnone
  · exact hdo (Or.inl hmulti)
  · exact hdo (Or.inr hlooks)
  · exact hshift

theorem receive (hroom : k.HasRoom byte) : Bounded (k.receive byte) := by
  have hlogged : Bounded (k.logged (.received byte)) := h.logged trivial
  simp only [Core.receive]
  split_ifs with hwait htoken hwriting
  · refine { hlogged with writing := fun _ ↦ ?_ }
    exact succ_pos _
  · exact hlogged
  · exact hlogged.receiveData byte hwriting (hroom.write hwriting)
  · exact hlogged.receiveCmd byte hroom hwait hwriting

theorem unload : Bounded k.unload := by
  rw [Core.unload]
  split_ifs
  · exact { h with
      image := fun _ hm ↦ (by cases hm)
      csd := length_replicate }
  · exact h

/-- An image with a block length that the data phase has not reached is loaded. -/
theorem load {m : M} (hguard : (HardDisk.info m).accepted → k.state = .writeData →
    k.writePtr < (HardDisk.info m).sectorbytes + 2) : Bounded (k.load m) := by
  rw [Core.load]
  split_ifs with haccepted
  · obtain ⟨-, ⟨-, -, hge, hle⟩, -⟩ := id haccepted
    have hunload := h.unload
    have hstate : k.unload.state = k.state ∧ k.unload.writePtr = k.writePtr := by
      rw [Core.unload]
      split_ifs <;> exact ⟨rfl, rfl⟩
    refine ⟨hge, hle, Nat.lt_of_lt_of_le (by decide) hge, Nat.le_refl _, fun _ ↦ rfl, ?_, ?_,
      hunload.outCount, hunload.output, ?_, hunload.log⟩
    · rintro m' ⟨⟩
      refine ⟨rfl, ?_⟩
      change (Core.resize (HardDisk.info m).sectorbytes k.unload.sectorbuf).length =
        (HardDisk.info m).sectorbytes
      rw [Core.resize, length_append, length_take, length_replicate]
      omega
    · change ((HardDisk.info m).register _).2.length = 16
      rw [Info.register]
      split_ifs <;> rfl
    · intro hwriting
      change k.unload.writePtr < _
      rw [hstate.2]
      exact hguard haccepted (hstate.1.symm.trans hwriting)
  · exact h.unload

end Bounded

/-! ## Runs -/

/-- The byte that an event completes. -/
def Card.completes (c : Card M) : Event M → Option Byte
  | .clock true =>
      if c.wire.ss = true ∧ c.wire.clkState = false ∧ c.wire.curBit + 1 = 8 then
        some ((c.wire.inLatch &&& ~~~1) ||| (ofBool c.wire.inBit).setWidth 8)
      else none
  | _ => none

/-- What an event does to the byte machine. -/
inductive CoreStep (c : Card M) (e : Event M) : Core M → Prop
  | same : c.completes e = none → CoreStep c e c.core
  | select : c.completes e = none → CoreStep c e c.core.select
  | shiftByte : c.completes e = none → CoreStep c e c.core.shiftByte.2
  | receive (byte : Byte) : c.completes e = some byte → CoreStep c e (c.core.receive byte)
  | load (m : M) : e = .load m → CoreStep c e (c.core.load m)
  | unload : e = .loadFails ∨ e = .unload → CoreStep c e c.core.unload

theorem coreStep_step (c : Card M) (e : Event M) : CoreStep c e (c.step e).core := by
  rcases e with state | state | state | m | _ | _
  · simp only [Card.step, Card.spiSsW]
    split_ifs
    · exact .select rfl
    · exact .same rfl
  · exact .same rfl
  · simp only [Card.step, Card.spiClockW]
    split_ifs with hedge hstate
    · subst hstate
      obtain ⟨hss, hclk⟩ : c.wire.ss = true ∧ c.wire.clkState = false := by simpa using hedge
      by_cases hbyte : c.wire.curBit + 1 = 8
      · simp only [Card.latchIn, hbyte, if_true]
        exact .receive _ (if_pos ⟨hss, hclk, hbyte⟩)
      · simp only [Card.latchIn, hbyte, if_false]
        exact .same (if_neg fun h ↦ hbyte h.2.2)
    · obtain rfl : state = false := by simpa using hstate
      by_cases hbyte : c.wire.curBit % 8 = 0
      · simp only [Card.shiftOut, hbyte, if_true]
        exact .shiftByte rfl
      · simp only [Card.shiftOut, hbyte, if_false]
        exact .same rfl
    · refine .same ?_
      rcases state with _ | _
      · rfl
      · exact if_neg fun h ↦ hedge (by simp [h.1, h.2.1])
  · exact .load m rfl
  · exact .unload (Or.inl rfl)
  · exact .unload (Or.inr rfl)

/-- No image is loaded during a data phase that is already past the end of its blocks. -/
def LoadGuard (c : Card M) : Event M → Prop
  | .load m => (HardDisk.info m).accepted → c.core.state = .writeData →
      c.core.writePtr < (HardDisk.info m).sectorbytes + 2
  | _ => True

/-- No image is loaded behind the write pointer, and no byte has the card use an image whose units
do not fit. -/
def BufferGuard (c : Card M) (e : Event M) : Prop :=
  LoadGuard c e ∧ ∀ byte ∈ c.completes e, c.core.HasRoom byte

theorem Bounded.step {c : Card M} (h : Bounded c.core) {e : Event M} (hguard : BufferGuard c e) :
    Bounded (c.step e).core := by
  obtain ⟨hload, hroom⟩ := hguard
  have hstep := coreStep_step c e
  generalize (c.step e).core = k at hstep
  rcases hstep with _ | _ | _ | ⟨byte, hbyte⟩ | ⟨m, rfl⟩ | _
  · exact h
  · exact h.select
  · exact h.shiftByte
  · exact h.receive byte (hroom byte hbyte)
  · exact h.load hload
  · exact h.unload

/-- A disk whose units are its sectors leaves room for them everywhere. -/
theorem Bounded.hasRoom {k : Core M} (h : Bounded k)
    (hunits : ∀ m : M, HardDisk.unitBytes m = (HardDisk.info m).sectorbytes) (byte : Byte) :
    k.HasRoom byte := by
  intro size hsize m hm
  obtain ⟨hbytes, hbuf⟩ := h.image m hm
  have hle := h.blksize_le
  rw [hunits m, hbytes]
  rw [Core.room, Core.singleRoom] at hsize
  split at hsize
  · cases hsize
    rw [dataSize]
    omega
  · split at hsize
    · cases hsize
      split_ifs
      · rw [dataSize]
        omega
      · exact Nat.le_of_eq hbuf.symm
    · cases hsize
      rw [dataSize]
      omega
    · cases hsize

theorem bounded_start (preferredType : SdType) (miso : Bool) :
    Bounded (Card.start preferredType miso : Card M).core := by
  have h512 : 512 ≤ 2048 := by decide
  refine ⟨Nat.le_refl 512, h512, succ_pos 511, Nat.le_refl 512, ?_, ?_, rfl,
    Nat.zero_le 2053, ?_, ?_, ?_⟩
  · rintro ⟨⟩
  · rintro m ⟨⟩
  · intro hpos
    exact absurd hpos (Nat.lt_irrefl 0)
  · rintro ⟨⟩
  · intro e he
    exact absurd he not_mem_nil

/-- With raw images it is only the loads that matter. -/
theorem meets_bufferGuard_iff
    (hunits : ∀ m : M, HardDisk.unitBytes m = (HardDisk.info m).sectorbytes)
    (preferredType : SdType) (miso : Bool) (es : List (Event M)) :
    Run.Meets Card.step BufferGuard (Card.start preferredType miso) es ↔
      Run.Meets Card.step LoadGuard (Card.start preferredType miso) es := by
  refine Run.meets_congr_of_inv (J := fun c : Card M ↦ Bounded c.core) (fun _ _ hc ↦ hc.step) ?_
    (bounded_start preferredType miso) es
  intro c e hc
  exact and_iff_left fun byte _ ↦ hc.hasRoom hunits byte

/-- No signal loads an image. -/
theorem meets_loadGuard_signals (c : Card M) (w : List Signal) :
    Run.Meets Card.step LoadGuard c (w.map Signal.event) := by
  induction w generalizing c with
  | nil => trivial
  | cons s w ih =>
    refine ⟨?_, ih _⟩
    cases s <;> trivial

/-- Every index that the card has used is inside its buffer. -/
def Card.InBounds (c : Card M) : Prop := ∀ e ∈ c.core.log, e.InBounds

/-- **Buffer safety.** In every state of a run in which no image is loaded behind the write pointer
of a data phase, and in which the card has room for the units of its image where it uses them, it
has used no index outside `m_data` or the sector buffer. -/
theorem always_inBounds (preferredType : SdType) (miso : Bool) {es : List (Event M)}
    (h : Run.Meets Card.step BufferGuard (Card.start preferredType miso) es) :
    Run.Always Card.step Card.InBounds (Card.start preferredType miso) es := by
  have hbounded :
      Run.Always Card.step (fun c ↦ Bounded c.core) (Card.start preferredType miso) es :=
    Run.always_of_meets (P := fun c : Card M ↦ Bounded c.core) (fun _ _ hc he ↦ hc.step he)
      (bounded_start preferredType miso) h
  exact hbounded.imp fun c hc ↦ hc.log

/-- A disk of 4096 blocks. -/
def emptyDisk (sectorbytes : ℕ) : MemoryDisk := ⟨⟨16, 16, 16, sectorbytes⟩, fun _ ↦ []⟩

/-- A disk of 4096 blocks of 512 bytes, each with the low byte of its number in it. -/
def numberedDisk : MemoryDisk := ⟨⟨16, 16, 16, 512⟩, fun lba ↦ List.replicate 512 (lba.setWidth 8)⟩

/-- `CMD16` of length 4, and `CMD17` of four bytes from the byte address 512 on. -/
def readFour : List Byte :=
  [0x50, 0x00, 0x00, 0x00, 0x04, 0xff, 0x51, 0x00, 0x00, 0x02, 0x00, 0xff]

/-- The bytes come through the sector buffer. -/
theorem always_inBounds_readFour :
    let es := [.load numberedDisk, .ss true] ++ (waveform readFour).map Signal.event
    Run.Always Card.step Card.InBounds (Card.start .v2 true) es ∧
      Effect.sectorUsed 0 4 512 ∈ (Run.run Card.step (Card.start .v2 true) es).core.log := by
  refine ⟨always_inBounds .v2 true ((meets_bufferGuard_iff (fun _ ↦ rfl) .v2 true _).mpr ?_), ?_⟩
  · refine (Run.meets_append _ _ _).mpr ⟨⟨?_, trivial, trivial⟩, meets_loadGuard_signals _ _⟩
    rintro - ⟨⟩
  · decide +kernel

/-! ## An image that is loaded behind the write pointer -/

/-- The bits of the bytes with the clock high at the end. -/
def risingWaveform (bytes : List Byte) : List Signal :=
  (bytes.flatMap ShiftRegister.msbBits).flatMap fun bit ↦ [.clock false, .mosi bit, .clock true]

theorem carriedFrom_risingWaveform (bits : List Bool) (clk mosi : Bool) : carriedFrom clk mosi
    (bits.flatMap fun bit ↦ [.clock false, .mosi bit, .clock true]) = bits := by
  induction bits generalizing clk mosi with
  | nil => rfl
  | cons bit bits ih =>
    exact congrArg (bit :: ·) (ih true bit)

/-- A waveform that ends with a rising edge leaves the clock high. -/
theorem clkState_play_append (c : Card M) (w : List Signal) :
    (c.play (w ++ [.clock true])).wire.clkState = true := by
  rw [Card.play, map_append, Run.run_append]
  rfl

omit [HardDisk M] in
theorem Phase.core_of_clkState {driven : Prop} {k : Core M} {c : Card M} (h : Phase driven k [] c)
    (hclk : c.wire.clkState = true) :
    c.core = k ∧ ∀ k' : Core M, Phase driven k' [] ⟨c.wire, k'⟩ := by
  generalize hpart : ([] : List Bool) = part at h
  cases h with
  | boundary hss hclk' hbit hout hcore => exact ⟨hcore, fun k' ↦ .boundary hss hclk' hbit hout rfl⟩
  | low _ _ hlow => exact absurd (hlow.symm.trans hclk) (by decide)
  | high => simp at hpart

/-- Bytes on the bus, and the clock high after them. -/
theorem phase_play_risingWaveform {driven : Prop} {k : Core M} {c : Card M}
    (h : Phase driven k [] c) {bytes : List Byte} (hne : bytes ≠ []) :
    (c.play (risingWaveform bytes)).core = k.turns bytes ∧
      ∀ k' : Core M, Phase driven k' [] ⟨(c.play (risingWaveform bytes)).wire, k'⟩ := by
  have hphase := (exists_phase_play h (w := risingWaveform bytes)
    (carriedFrom_risingWaveform _ _ _)).1
  refine hphase.core_of_clkState ?_
  obtain ⟨bytes, byte, rfl⟩ : ∃ bytes' byte, bytes = bytes' ++ [byte] :=
    ⟨bytes.dropLast, bytes.getLast hne, (dropLast_append_getLast hne).symm⟩
  have hbyte : risingWaveform [byte] = (risingWaveform [byte]).dropLast ++ [.clock true] := rfl
  have happend :
      risingWaveform (bytes ++ [byte]) = risingWaveform bytes ++ risingWaveform [byte] := by
    rw [risingWaveform, flatMap_append, flatMap_append, ← risingWaveform, ← risingWaveform]
  rw [happend, hbyte, ← List.append_assoc]
  exact clkState_play_append c _

/-- The data phase of a write, `p` bytes in. -/
structure Writing (p xferblk : ℕ) (k : Core M) : Prop where
  state : k.state = .writeData
  writePtr : k.writePtr = p
  xferblk : k.xferblk = xferblk

theorem Writing.turn {p x : ℕ} {k : Core M} (h : Writing p x k)
    (hp : p + 1 < 2 ^ 16) (hne : p ≠ x + 1) (byte : Byte) :
    Writing (p + 1) x (k.turn byte) ∧ Effect.dataWritten p 1 ∈ (k.turn byte).log := by
  have hshift : Writing p x k.shiftByte.2 := by
    rw [Core.shiftByte]
    split_ifs <;> exact ⟨h.state, h.writePtr, h.xferblk⟩
  obtain ⟨hstate, hptr, hxfer⟩ := hshift
  have hend : ¬ p + 1 = x + 2 := by omega
  have hturn : k.turn byte = { (k.shiftByte.2.logged (.received byte)).setData p [byte] with
      writePtr := p + 1 } := by
    rw [Core.turn, Core.receive]
    simp only [Core.logged, Core.receiveData, Core.setData, hstate, hptr, hxfer, hend, if_false,
      if_true, reduceCtorEq, mod_eq_of_lt hp]
  rw [hturn]
  exact ⟨⟨hstate, rfl, hxfer⟩, mem_append_right _ mem_cons_self⟩

theorem Writing.turns {p x n : ℕ} {k : Core M} (h : Writing p x k) (hp : p + n < 2 ^ 16)
    (hne : x + 1 < p ∨ p + n ≤ x + 1) (byte : Byte) :
    Writing (p + n) x (k.turns (List.replicate n byte)) := by
  induction n generalizing p k with
  | zero => exact h
  | succ n ih =>
    have hturn := (h.turn (by omega) (by omega) byte).1
    have hrest := ih hturn (by omega) (by omega)
    rwa [Nat.add_right_comm] at hrest

theorem Writing.mem_log_play {driven : Prop} {p x n : ℕ} {k : Core M} (h : Writing p x k)
    (hp : p + n + 1 < 2 ^ 16) (hne : x + 1 < p ∨ p + n ≤ x) (byte : Byte) {c : Card M}
    (hphase : Phase driven k [] c) : Effect.dataWritten (p + n) 1 ∈
    (c.play (risingWaveform (List.replicate (n + 1) byte))).core.log := by
  obtain ⟨hcore, -⟩ := phase_play_risingWaveform hphase
    (show List.replicate (n + 1) byte ≠ [] from cons_ne_nil _ _)
  rw [hcore, List.replicate_succ', Core.turns_append]
  exact ((h.turns (by omega) (by omega) byte).turn hp (by omega) byte).2

/-- A card with blocks of another length takes the place of the one that is written. -/
theorem Writing.load {p x : ℕ} {k : Core M} (h : Writing p x k) {m : M}
    (hm : (HardDisk.info m).accepted) : Writing p (HardDisk.info m).sectorbytes (k.load m) := by
  rw [Core.load, if_pos hm, Core.unload]
  split_ifs
  · exact ⟨h.state, h.writePtr, rfl⟩
  · exact ⟨h.state, h.writePtr, rfl⟩

/-- `CMD24` of block 0, the token and the first 600 bytes of 2048. -/
def longBlock : List Byte := [0x58, 0x00, 0x00, 0x00, 0x00, 0xff, 0xfe] ++ List.replicate 600 0x00

/-- The block goes on after a card with shorter blocks was mounted. -/
def overrun : List (Event MemoryDisk) :=
  [.load (emptyDisk 2048), .ss true] ++ (risingWaveform longBlock).map Signal.event ++
    [.load (emptyDisk 512)] ++ (risingWaveform (List.replicate 1457 0x00)).map Signal.event

theorem not_always_inBounds_overrun :
    ¬ Run.Always Card.step Card.InBounds (Card.start .v2 true) overrun := by
  intro halways
  have hin := halways.last
  have hcount : 1457 = 1456 + 1 := rfl
  rw [overrun, Run.run_append, Run.run_append, Run.run_append, ← Card.play, ← Card.play,
    hcount] at hin
  generalize hc₀ : Run.run Card.step (Card.start .v2 true)
    [.load (emptyDisk 2048), .ss true] = c₀ at hin
  have hphase : Phase (false = true) c₀.core [] c₀ := by
    rw [← hc₀]
    exact phase_select (c := (Card.start .v2 true).step (.load (emptyDisk 2048))) rfl
  have hwriting : Writing 0 2048 (c₀.core.turns [0x58, 0x00, 0x00, 0x00, 0x00, 0xff, 0xfe]) := by
    rw [← hc₀]
    exact ⟨by decide +kernel, by decide +kernel, by decide +kernel⟩
  have hlong : longBlock ≠ [] := cons_ne_nil _ _
  obtain ⟨hcore, hphase⟩ := phase_play_risingWaveform hphase hlong
  rw [longBlock, Core.turns_append] at hcore
  have hwriting := hwriting.turns (n := 600) (by decide) (Or.inr (by decide)) 0x00
  rw [← hcore] at hwriting
  have hloaded := hwriting.load (m := emptyDisk 512) (by decide)
  have hover : ¬ 2056 + 1 ≤ dataSize := by decide
  have hmem := hloaded.mem_log_play (n := 1456) (by decide) (Or.inl (by decide)) 0x00 (hphase _)
  generalize risingWaveform (List.replicate (1456 + 1) 0x00) = w at hin hmem
  exact hover (hin (.dataWritten 2056 1) hmem)

end RoscoEmulator.SdCard
