import RoscoEmulator.SdCard.Capacity
import RoscoEmulator.SdCard.Medium

/-!
# The block that a command addresses

On a standard capacity card the argument of `CMD17`, `CMD18` and `CMD24` is a byte address, and on a
high capacity card it is a block number. Each of the three has its own test of the address and its
own conversion to a block number. `CMD17` tests that the transfer does not cross the end of a block,
with a sum that may wrap; `CMD24` tests the remainder; `CMD18` tests nothing and rounds down.

Of a whole block the first two tests are the same: `crossesBlock_iff`. So the three commands agree
on the addresses at the start of a block and on high capacity cards, and only on these:
`sameAddressing_iff`. -/

namespace RoscoEmulator.SdCard

open BitVec

variable {M : Type} [HardDisk M]

namespace Core

/-! ## The geometry of a mounted card -/

/-- The block length of a mounted card is the sector size of its image, which was accepted. -/
def Fitted (k : Core M) : Prop :=
  ∀ m, k.image = some m → (HardDisk.info m).accepted ∧ k.blksize = (HardDisk.info m).sectorbytes

theorem Fitted.of_eq {k k' : Core M} (h : k.Fitted) (himage : k'.image = k.image)
    (hblksize : k'.blksize = k.blksize) : k'.Fitted := by
  intro m hm
  rw [himage] at hm
  rw [hblksize]
  exact h m hm

/-- The image and the block length. -/
def medium (k : Core M) : Option M × ℕ := (k.image, k.blksize)

section Medium

omit [HardDisk M]

variable (k : Core M)

@[simp] theorem medium_logged (e : Effect) : (k.logged e).medium = k.medium := rfl

@[simp] theorem medium_setData (start : ℕ) (bytes : List Byte) :
    (k.setData start bytes).medium = k.medium := rfl

@[simp] theorem medium_sendData (count : ℕ) (state : SdState) (delay : ℕ) :
    (k.sendData count state delay).medium = k.medium := rfl

@[simp] theorem medium_setCrc16 (start len : ℕ) : (k.setCrc16 start len).medium = k.medium := rfl

@[simp] theorem medium_respond (bytes : List Byte) (state : SdState) :
    (k.respond bytes state).medium = k.medium := rfl

@[simp] theorem medium_setSector (bytes : List Byte) : (k.setSector bytes).medium = k.medium := rfl

end Medium

theorem Fitted.of_medium {k k' : Core M} (h : k.Fitted)
    (hsame : k'.medium = k.medium) : k'.Fitted :=
  h.of_eq (congrArg Prod.fst hsame) (congrArg Prod.snd hsame)

/-- No command changes the image or the block length. -/
theorem medium_command {k k' : Core M} {index : ℕ} (h : k.command index = some k') :
    k'.medium = k.medium := by
  unfold command at h
  split at h <;> cases h
  case h_1 =>
    rw [goIdleState]
    split_ifs <;> simp
  case h_4 => simp [sendCsd]
  case h_5 => simp [sendCid]
  case h_8 =>
    simp only [setBlocklen]
    split_ifs <;> rfl
  case h_9 =>
    simp only [readSingleBlock, imageRead_snd]
    split_ifs <;> simp
  case h_10 =>
    simp only [readMultipleBlock]
    split_ifs <;> rfl
  case h_11 =>
    simp only [writeBlock]
    split_ifs <;> rfl
  case h_12 =>
    rw [sdSendOpCond]
    split_ifs <;> simp
  all_goals rfl

theorem medium_doCommand (k : Core M) : k.doCommand.medium = k.medium := by
  rw [doCommand]
  split_ifs
  · rcases hcmd : (k.logged (.executed k.cmd)).command k.commandIndex with _ | k'
    · simp only [hcmd]
      rfl
    · have hsame := medium_command hcmd
      simp only [hcmd]
      exact hsame
  · rfl

theorem blksize_doCommand (k : Core M) : k.doCommand.blksize = k.blksize :=
  congrArg Prod.snd (medium_doCommand k)

namespace Fitted

variable {k : Core M} (h : k.Fitted)
include h

theorem unload : k.unload.Fitted := by
  rw [Core.unload]
  split_ifs
  · exact fun _ hm ↦ by cases hm
  · exact h

theorem load (m : M) : (k.load m).Fitted := by
  rw [Core.load]
  split_ifs with haccepted
  · rintro m' ⟨⟩
    exact ⟨haccepted, rfl⟩
  · exact h.unload

theorem shiftByte : k.shiftByte.2.Fitted := by
  rw [Core.shiftByte]
  split_ifs <;> exact h

theorem doCommand : k.doCommand.Fitted := h.of_medium (medium_doCommand k)

/-- A write changes the image, but not its geometry. -/
theorem writeBlockData : k.writeBlockData.Fitted := by
  have hwrite : (k.imageWrite k.blknext).2.Fitted := by
    rw [Core.imageWrite]
    split
    · rename_i m hm
      rintro m' ⟨⟩
      have hinfo := HardDisk.info_write m k.blknext (k.slice 0 (HardDisk.unitBytes m))
      refine ⟨(congrArg Info.accepted hinfo).mpr (h m hm).1, (h m hm).2.trans ?_⟩
      exact congrArg Info.sectorbytes hinfo.symm
    · exact h
  rw [Core.writeBlockData]
  exact hwrite.of_medium (by simp)

theorem readNextBlock : k.readNextBlock.Fitted := by
  simp only [Core.readNextBlock, imageRead_snd]
  refine h.of_medium ?_
  rw [medium_sendData, medium_setCrc16]
  rfl

theorem receive (byte : Byte) : (k.receive byte).Fitted := by
  have hshift : ((k.logged (.received byte)).shiftCmd byte).Fitted := h
  simp only [Core.receive, Core.receiveData, Core.receiveCmd]
  split_ifs
  · exact h
  · exact h
  · exact Fitted.writeBlockData h
  · exact h
  · exact hshift.doCommand.readNextBlock
  · exact hshift.doCommand
  · exact hshift.doCommand
  · exact hshift

/-- The block length of a mounted card is a power of two. -/
theorem exists_blksize {m : M} (himage : k.image = some m) :
    ∃ n, (9 ≤ n ∧ n ≤ 11) ∧ k.blksize = 2 ^ n := by
  obtain ⟨⟨-, hsector, -⟩, hblksize⟩ := h m himage
  obtain ⟨n, hn, hbytes⟩ := Info.sectorbytesOk_iff.mp hsector
  exact ⟨n, hn, hblksize.trans hbytes⟩

end Fitted

/-! ## The tests of an address -/

section Tests

omit [HardDisk M]

variable {k : Core M} {n : ℕ} (hn : 9 ≤ n ∧ n ≤ 11) (hblksize : k.blksize = 2 ^ n)
include hn hblksize

/-- A transfer of a whole block crosses the end of a block exactly if it does not start at one. The
sum wraps for addresses in the last block only, and its quotient is then 0. -/
theorem crossesBlock_iff (hfull : k.xferblk = k.blksize) (blk : BitVec 32) :
    k.crossesBlock blk ↔ blk.toNat % k.blksize ≠ 0 := by
  obtain ⟨hlo, hhi⟩ := hn
  have hone : (1 : BitVec 32).toNat = 1 := rfl
  rw [crossesBlock, hfull, hblksize, ne_eq, ← toNat_inj, toNat_udiv, toNat_udiv,
    toNat_add]
  interval_cases n
  all_goals
    simp only [Nat.reducePow, toNat_sub, toNat_ofNat, Nat.reduceMod, hone]
    omega

/-- The test of `CMD24`. -/
theorem umod_ne_zero_iff (blk : BitVec 32) :
    blk % BitVec.ofNat 32 k.blksize ≠ 0 ↔ blk.toNat % k.blksize ≠ 0 := by
  have hB : (BitVec.ofNat 32 k.blksize).toNat = k.blksize := by
    rw [toNat_ofNat, hblksize]
    obtain ⟨hlo, hhi⟩ := hn
    interval_cases n <;> rfl
  rw [ne_eq, ← toNat_inj, toNat_umod, hB]
  rfl

end Tests

/-! ## The responses -/

section Responses

omit [HardDisk M]

variable (k : Core M)

theorem data_setData_of_lt {start i : ℕ} (bytes : List Byte) (h : i < start) :
    (k.setData start bytes).data i = k.data i := if_neg (Nat.not_le.mpr h)

theorem data_setData_of_mem {start i : ℕ} {bytes : List Byte} (h : i < bytes.length) :
    (k.setData start bytes).data (start + i) = bytes[i] := by
  have hget : (bytes[start + i - start]?).getD (k.data (start + i)) = bytes[i] := by
    rw [Nat.add_sub_cancel_left, List.getElem?_eq_getElem h]
    rfl
  exact (if_pos (Nat.le_add_right start i)).trans hget

/-- The CRC is put behind what it is taken of. -/
theorem data_setCrc16_of_lt {start len i : ℕ} (h : i < start + len) :
    (k.setCrc16 start len).data i = k.data i := data_setData_of_lt _ _ h

theorem data_respond_zero (byte : Byte) (state : SdState) :
    (k.respond [byte] state).data 0 = byte :=
  @data_setData_of_mem _ k 0 0 [byte] Nat.zero_lt_one

end Responses

/-- The command that has been executed has accepted its argument. -/
def accepts (k : Core M) : Prop := k.data 0 = 0x00

instance (k : Core M) : Decidable k.accepts := inferInstanceAs (Decidable (_ = _))

/-- The block at the address in the command. -/
def addressed (k : Core M) : BitVec 32 :=
  if k.type = .v2 then k.argument / BitVec.ofNat 32 k.blksize else k.argument

/-- The three commands accept the argument alike, and where they accept it the block that `CMD17`
sends and the blocks that `CMD18` reads next and that `CMD24` writes are the addressed one. -/
structure SameAddressing (k : Core M) (m : M) : Prop where
  readers : accepts k.readSingleBlock ↔ accepts k.readMultipleBlock
  writer : accepts k.readMultipleBlock ↔ accepts k.writeBlock
  single : accepts k.readSingleBlock → ∀ (i : ℕ) (h : i < (HardDisk.read m k.addressed).2.length),
    i < k.xferblk → k.readSingleBlock.data (3 + i) = (HardDisk.read m k.addressed).2[i]
  multiple : accepts k.readMultipleBlock → k.readMultipleBlock.blknext = k.addressed
  write : accepts k.writeBlock → k.writeBlock.blknext = k.addressed

section Addressing

variable {k : Core M} {m : M}

omit [HardDisk M] in
theorem mounted_of_image (himage : k.image = some m) : k.mounted = true := by
  rw [mounted, himage]
  rfl

theorem readSingleBlock_of_crosses (himage : k.image = some m) (hv2 : k.type = .v2)
    (hcross : k.crossesBlock k.argument) : ¬ accepts k.readSingleBlock := by
  have hreject :
      k.readSingleBlock = (k.setData 0 [0x00, 0xff, dataToken]).respond [0x40] .tran := by
    rw [readSingleBlock, if_pos (mounted_of_image himage)]
    exact if_pos ⟨hv2, hcross⟩
  rw [accepts, hreject, data_respond_zero]
  decide

/-- `CMD17` of a whole block. -/
theorem readSingleBlock_of_not_crosses (himage : k.image = some m) (hfull : k.xferblk = k.blksize)
    (h : ¬ (k.type = .v2 ∧ k.crossesBlock k.argument)) :
    accepts k.readSingleBlock ∧ ∀ (i : ℕ) (h : i < (HardDisk.read m k.addressed).2.length),
      i < k.xferblk → k.readSingleBlock.data (3 + i) = (HardDisk.read m k.addressed).2[i] := by
  have hread : ((k.setData 0 [0x00, 0xff, dataToken]).imageRead k.addressed).1 =
      (HardDisk.read m k.addressed).2 := by
    rw [imageRead, image_setData, himage]
  have hsent : k.readSingleBlock =
      ((((k.setData 0 [0x00, 0xff, dataToken]).logged (.imageUsed k.mounted)).setData 3
        (HardDisk.read m k.addressed).2).setCrc16 3 k.xferblk).sendData (3 + k.xferblk + 2) .data
          responseDelay := by
    rw [← hread]
    simp only [readSingleBlock, imageRead_snd]
    exact (if_pos (mounted_of_image himage)).trans ((if_neg h).trans (if_pos hfull))
  rw [accepts, hsent]
  refine ⟨?_, fun i hi hlt ↦ ?_⟩
  · refine (data_setCrc16_of_lt _ (by omega)).trans ((data_setData_of_lt _ _ (by decide)).trans ?_)
    exact @data_setData_of_mem _ k 0 0 [0x00, 0xff, dataToken] (by decide)
  · refine (data_setCrc16_of_lt _ (by omega)).trans ?_
    exact data_setData_of_mem _ hi

omit [HardDisk M] in
theorem readMultipleBlock_eq (himage : k.image = some m) (hfull : k.xferblk = k.blksize) :
    accepts k.readMultipleBlock ∧ k.readMultipleBlock.blknext = k.addressed := by
  rw [readMultipleBlock, if_pos (mounted_of_image himage), if_pos hfull, addressed, hfull]
  exact ⟨rfl, rfl⟩

omit [HardDisk M] in
theorem writeBlock_of_not_rem (hfull : k.xferblk = k.blksize)
    (h : ¬ (k.type = .v2 ∧ k.argument % BitVec.ofNat 32 k.blksize ≠ 0)) :
    accepts k.writeBlock ∧ k.writeBlock.blknext = k.addressed := by
  have haccept : k.writeBlock =
      { k with blknext := k.addressed }.respond [0] .writeWaitFE := by
    rw [writeBlock, if_neg (not_not.mpr hfull)]
    refine (if_neg h).trans ?_
    rw [addressed, ← hfull]
  rw [haccept]
  exact ⟨data_respond_zero _ _ _, rfl⟩

end Addressing

variable {k : Core M} {m : M}

/-- **The three commands agree** on high capacity cards, and on standard capacity cards at the
addresses at the start of a block. -/
theorem sameAddressing_iff (himage : k.image = some m)
    (hfit : k.Fitted) (hfull : k.xferblk = k.blksize) :
    k.SameAddressing m ↔ k.type = .hc ∨ k.argument.toNat % k.blksize = 0 := by
  obtain ⟨n, hn, hblksize⟩ := hfit.exists_blksize himage
  have hcross := crossesBlock_iff hn hblksize hfull k.argument
  have hrem := umod_ne_zero_iff hn hblksize k.argument
  obtain ⟨hmulti, hnext⟩ := readMultipleBlock_eq himage hfull
  constructor
  · intro hsame
    by_contra hmisaligned
    obtain ⟨hhc, hmod⟩ := not_or.mp hmisaligned
    have hv2 : k.type = .v2 := by
      cases htype : k.type with
      | v2 => rfl
      | hc => exact absurd htype hhc
    exact readSingleBlock_of_crosses himage hv2 (hcross.mpr hmod) (hsame.readers.mpr hmulti)
  · intro haligned
    have hnot : ¬ (k.type = .v2 ∧ k.argument.toNat % k.blksize ≠ 0) := by
      rintro ⟨hv2, hmod⟩
      rcases haligned with hhc | hzero
      · rw [hv2] at hhc
        cases hhc
      · exact hmod hzero
    obtain ⟨hsingle, hpayload⟩ := readSingleBlock_of_not_crosses himage hfull
      fun h ↦ hnot ⟨h.1, hcross.mp h.2⟩
    obtain ⟨hwrite, hwnext⟩ := writeBlock_of_not_rem hfull fun h ↦ hnot ⟨h.1, hrem.mp h.2⟩
    exact ⟨iff_of_true hsingle hmulti, iff_of_true hmulti hwrite, fun _ ↦ hpayload, fun _ ↦ hnext,
      fun _ ↦ hwnext⟩

theorem fitted_start (preferredType : SdType) (miso : Bool) :
    (Card.start preferredType miso : Card M).core.Fitted := by
  rintro m ⟨⟩

theorem Fitted.step {c : Card M} (h : c.core.Fitted) (e : Event M) : (c.step e).core.Fitted := by
  have hstep := coreStep_step c e
  generalize (c.step e).core = k at hstep
  rcases hstep with _ | _ | _ | ⟨byte, -⟩ | ⟨m, -⟩ | _
  · exact h
  · exact h
  · exact h.shiftByte
  · exact h.receive byte
  · exact h.load m
  · exact h.unload

/-- **In every reachable state** the block length is that of the mounted image. -/
theorem always_fitted (preferredType : SdType) (miso : Bool) (es : List (Event M)) :
    Run.Always Card.step (fun c ↦ c.core.Fitted) (Card.start preferredType miso) es :=
  Run.always_of_step (P := fun c : Card M ↦ c.core.Fitted) (fun _ e hc ↦ hc.step e)
    (fitted_start preferredType miso) es

/-- A card of 4096 blocks of 512 bytes, with a command in `m_cmd`. -/
def mountedWith (cmd : List Byte) : Core MemoryDisk :=
  { (Card.start .v2 true).core.load (emptyDisk 512) with cmd := cmd }

theorem fitted_mountedWith (cmd : List Byte) : (mountedWith cmd).Fitted :=
  ((fitted_start .v2 true).load (emptyDisk 512)).of_eq rfl rfl

theorem sameAddressing_iff_block :
    (mountedWith [0x51, 0x00, 0x00, 0x02, 0x00, 0xff]).SameAddressing (emptyDisk 512) ↔
      (mountedWith [0x51, 0x00, 0x00, 0x02, 0x00, 0xff]).type = .hc ∨
        (mountedWith [0x51, 0x00, 0x00, 0x02, 0x00, 0xff]).argument.toNat %
          (mountedWith [0x51, 0x00, 0x00, 0x02, 0x00, 0xff]).blksize = 0 :=
  sameAddressing_iff (by rfl) (fitted_mountedWith _) (by rfl)

/-- Of the address 1, `CMD17` and `CMD24` are rejected and `CMD18` reads from block 0. -/
theorem not_sameAddressing_misaligned :
    ¬ (mountedWith [0x51, 0x00, 0x00, 0x00, 0x01, 0xff]).SameAddressing (emptyDisk 512) := by
  intro hsame
  have hmulti : accepts (mountedWith [0x51, 0x00, 0x00, 0x00, 0x01, 0xff]).readMultipleBlock := by
    decide +kernel
  have hsingle : ¬ accepts (mountedWith [0x51, 0x00, 0x00, 0x00, 0x01, 0xff]).readSingleBlock := by
    decide +kernel
  exact hsingle (hsame.readers.mpr hmulti)

end Core

end RoscoEmulator.SdCard
