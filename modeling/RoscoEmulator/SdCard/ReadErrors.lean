import RoscoEmulator.SdCard.Packets
import RoscoEmulator.Util.HardDisk

/-!
# Reads that fail

`hard_disk_file::read` says whether it has read the whole block. The card calls it in three places,
for a whole block and for a part of one in `CMD17` and for each block of `CMD18`, and looks at its
result in none of them. `reading` says, from the state in which a byte arrives, which block the byte
has the card read. Whatever the read does, the card goes on to send a packet for this block, with
its own check over what stands in the buffer: a run sends no packet for a block that could not be
read exactly if no read fails in it. -/

namespace RoscoEmulator.SdCard

variable {M : Type}

/-- The block of the image that a command reads. -/
def DataCommand.lba (k : Core M) : DataCommand → Option (BitVec 32)
  | sendCsd | sendCid => none
  | readSingleBlock =>
      if k.xferblk = k.blksize ∧ k.type ≠ .v2 then some k.argument
      else some (k.argument / BitVec.ofNat 32 k.blksize)
  | readNextBlock => some k.blknext

section Definitions

variable [HardDisk M]

/-- The read of the image for a command fails. -/
def DataCommand.ReadFails (k : Core M) (c : DataCommand) : Prop :=
  ∃ m lba, k.image = some m ∧ c.lba k = some lba ∧ (HardDisk.read m lba).1 = false

/-- The card is at the start of a data packet: the token, a payload of the length of the block, and
the check that the card puts behind a payload. -/
def Core.SendsPacket (k : Core M) (start len : ℕ) : Prop :=
  k.outPtr = 0 ∧ ∃ payload : List Byte, payload.length = len ∧
    k.response.drop start = dataToken :: (payload ++ crcBytes (Util.crc16 payload))

/-- The event has the card read a block that cannot be read. -/
def Card.ReadFails (c : Card M) (e : Event M) : Prop :=
  ∃ byte cmd, c.completes e = some byte ∧ c.core.reading byte = some cmd ∧
    cmd.ReadFails (c.core.shiftCmd byte)

/-- The event has the card read a block that cannot be read, and the card sends a packet for it. -/
def Card.SendsFailed (c : Card M) (e : Event M) : Prop :=
  ∃ byte cmd, c.completes e = some byte ∧ c.core.reading byte = some cmd ∧
    cmd.ReadFails (c.core.shiftCmd byte) ∧
      (c.step e).core.SendsPacket (cmd.start - 1) (cmd.length c.core)

end Definitions

namespace Core

variable [HardDisk M] {k : Core M} {byte : Byte}

/-! ## The packet -/

theorem sendsPacket_after {c : DataCommand} (hcsd : c ≠ .sendCsd) (h : c.SendsBlock k) :
    (c.after k).SendsPacket (c.start - 1) (c.length k) := by
  obtain ⟨k', state, -, hafter⟩ := DataCommand.after_eq hcsd h
  refine ⟨?_, c.payload k, length_slice _ _ _, DataCommand.packet_eq hcsd h⟩
  rw [hafter]
  rfl

theorem doCommand_readSingleBlock (hholds : k.holdsCommand) (hindex : k.commandIndex = 17) :
    k.doCommand =
      { (k.logged (.executed k.cmd)).readSingleBlock with bACMD := false, cmd := noCommand } := by
  rw [doCommand, if_pos hholds, hindex]
  rfl

theorem sendsPacket_single (hmounted : k.mounted = true) (hholds : k.holdsCommand)
    (hindex : k.commandIndex = 17)
    (hreadable : k.Readable) : k.doCommand.SendsPacket 2 k.xferblk := by
  have hsends : DataCommand.SendsBlock (k.logged (.executed k.cmd)) .readSingleBlock :=
    ⟨hmounted, hreadable⟩
  rw [doCommand_readSingleBlock hholds hindex]
  exact @sendsPacket_after _ _ _ .readSingleBlock (by decide) hsends

theorem sendsPacket_next (hmounted : k.mounted = true)
    (hnone : ¬ (k.holdsCommand ∧ k.commandIndex ∈ supported)) :
    k.doCommand.readNextBlock.SendsPacket 0 k.blksize := by
  obtain ⟨-, -, himage⟩ := doCommand_of_none hnone
  have hsends : DataCommand.SendsBlock k.doCommand .readNextBlock := by
    refine Eq.trans ?_ hmounted
    exact congrArg Option.isSome himage
  rw [← blksize_doCommand k]
  exact @sendsPacket_after _ _ _ .readNextBlock (by decide) hsends

/-- A supported command leaves something to send, so that no block is read after it. -/
theorem receiveCmd_of_completes (hlooks : k.LooksAtCommand byte) (h : k.Completes byte) :
    k.receiveCmd byte = (k.shiftCmd byte).doCommand := by
  have hcount := doCommand_of_some h
  rw [receiveCmd]
  by_cases hmulti : k.state = .dataMulti
  · rw [if_pos (show (k.shiftCmd byte).state = .dataMulti from hmulti),
      if_neg fun hnext ↦ absurd hnext.2 (Nat.pos_iff_ne_zero.mp hcount)]
  · rw [if_neg (show ¬ (k.shiftCmd byte).state = .dataMulti from hmulti)]
    exact if_pos (hlooks.resolve_left hmulti)

theorem receiveCmd_of_not_completes (hmulti : k.state = .dataMulti) (hcount : k.outCount = 0)
    (h : ¬ k.Completes byte) : k.receiveCmd byte = (k.shiftCmd byte).doCommand.readNextBlock := by
  obtain ⟨hstate, hsame, -⟩ := doCommand_of_none h
  rw [receiveCmd]
  rw [if_pos (show (k.shiftCmd byte).state = .dataMulti from hmulti)]
  exact if_pos ⟨hstate.trans hmulti, hsame.trans hcount⟩

theorem receive_of_not_writing (hwait : k.state ≠ .writeWaitFE) (hdata : k.state ≠ .writeData) :
    k.receive byte = (k.logged (.received byte)).receiveCmd byte := by
  rw [receive]
  exact (if_neg hwait).trans (if_neg hdata)

/-- **A block that the card reads is a block that it sends.** -/
theorem sendsPacket_of_reading {cmd : DataCommand} (h : k.reading byte = some cmd) :
    (k.receive byte).SendsPacket (cmd.start - 1) (cmd.length k) := by
  rw [reading] at h
  split_ifs at h with hstate hcommand hsingle hmulti
  · obtain ⟨hmounted, hwait, hdata⟩ := hstate
    obtain ⟨hlooks, hcompletes⟩ := hcommand
    obtain ⟨hindex, hreadable⟩ := hsingle
    cases h
    rw [receive_of_not_writing hwait hdata]
    have hcmd := @receiveCmd_of_completes _ _ (k.logged (.received byte)) byte hlooks hcompletes
    rw [hcmd]
    exact @sendsPacket_single _ _ ((k.logged (.received byte)).shiftCmd byte) hmounted hcompletes.1
      hindex hreadable
  · obtain ⟨hmounted, hwait, hdata⟩ := hstate
    obtain ⟨hmulti, hcount⟩ := hmulti
    cases h
    -- no command ends the read: in `SD_STATE_DATA_MULTI` the card looks at every byte
    have hnone : ¬ k.Completes byte := fun hcompletes ↦ hcommand ⟨Or.inl hmulti, hcompletes⟩
    rw [receive_of_not_writing hwait hdata]
    have hcmd :=
      @receiveCmd_of_not_completes _ _ (k.logged (.received byte)) byte hmulti hcount hnone
    rw [hcmd]
    exact @sendsPacket_next _ _ ((k.logged (.received byte)).shiftCmd byte) hmounted hnone

end Core

/-! ## Runs -/

namespace Card

variable [HardDisk M]

theorem core_step_of_completes {c : Card M} {e : Event M} {byte : Byte}
    (h : c.completes e = some byte) : (c.step e).core = c.core.receive byte := by
  have hstep := coreStep_step c e
  generalize (c.step e).core = k at hstep
  rcases hstep with hnone | hnone | hnone | ⟨byte', hbyte'⟩ | ⟨m, rfl⟩ | hunload
  · exact absurd (hnone.symm.trans h) (by simp)
  · exact absurd (hnone.symm.trans h) (by simp)
  · exact absurd (hnone.symm.trans h) (by simp)
  · rw [Option.some.inj (hbyte'.symm.trans h)]
  · cases h
  · rcases hunload with rfl | rfl <;> cases h

theorem sendsFailed_iff (c : Card M) (e : Event M) : c.SendsFailed e ↔ c.ReadFails e := by
  constructor
  · rintro ⟨byte, cmd, hbyte, hreading, hfails, -⟩
    exact ⟨byte, cmd, hbyte, hreading, hfails⟩
  · rintro ⟨byte, cmd, hbyte, hreading, hfails⟩
    refine ⟨byte, cmd, hbyte, hreading, hfails, ?_⟩
    rw [core_step_of_completes hbyte]
    exact Core.sendsPacket_of_reading hreading

/-- **A run sends no packet for a block that cannot be read** exactly if all its reads succeed. -/
theorem meets_not_sendsFailed_iff (c : Card M) (es : List (Event M)) :
    Run.Meets Card.step (fun c e ↦ ¬ c.SendsFailed e) c es ↔
      Run.Meets Card.step (fun c e ↦ ¬ c.ReadFails e) c es :=
  Run.meets_congr (fun c e ↦ not_congr (sendsFailed_iff c e)) c es

end Card

/-! ## A raw image -/

/-- A raw hard disk file behind the card. -/
instance : HardDisk Util.HardDiskFile where
  info h :=
    { cylinders := h.hdinfo.cylinders.toNat
      heads := h.hdinfo.heads.toNat
      sectors := h.hdinfo.sectors.toNat
      sectorbytes := h.hdinfo.sectorbytes.toNat }
  unitBytes h := h.hdinfo.sectorbytes.toNat
  read h lba := h.read lba
  write h lba bytes := (true, h.write lba bytes)
  length_read_le h lba := by
    rw [Util.HardDiskFile.read, ByteFile.length_readAt]
    exact Nat.min_le_left _ _
  info_write _ _ _ := rfl
  unitBytes_write _ _ _ := rfl

/-- A raw image of four sectors of 512 bytes. -/
def fourSectors : Util.HardDiskFile := Util.HardDiskFile.ofFile ⟨2048, fun _ ↦ 0⟩ 0

/-- `CMD17` of the byte address 2048, where the fifth sector would be. -/
def pastTheEnd : List (Event Util.HardDiskFile) :=
  [.load fourSectors, .ss true] ++
    (risingWaveform [0x51, 0x00, 0x00, 0x08, 0x00, 0xff]).map Signal.event

theorem not_meets_pastTheEnd : ¬ Run.Meets Card.step (fun c e ↦ ¬ c.SendsFailed e)
    (Card.start .v2 true) pastTheEnd := by
  intro hmeets
  have hsplit : pastTheEnd = pastTheEnd.dropLast ++ [.clock true] := rfl
  rw [hsplit, Run.meets_append] at hmeets
  have hbyte : (Run.run Card.step (Card.start .v2 true) pastTheEnd.dropLast).completes
      (.clock true) = some 0xff := by decide +kernel
  have hreading : (Run.run Card.step (Card.start .v2 true) pastTheEnd.dropLast).core.reading 0xff =
      some .readSingleBlock := by decide +kernel
  have hlba : DataCommand.readSingleBlock.lba
      ((Run.run Card.step (Card.start .v2 true) pastTheEnd.dropLast).core.shiftCmd 0xff) =
        some 4 := by decide +kernel
  have hread : (Run.run Card.step (Card.start .v2 true) pastTheEnd.dropLast).core.image.map
      (fun m ↦ (HardDisk.read m 4).1) = some false := by decide +kernel
  generalize Run.run Card.step (Card.start .v2 true) pastTheEnd.dropLast = c at *
  obtain ⟨m, himage, hfails⟩ := Option.map_eq_some_iff.mp hread
  exact hmeets.2.1 ((Card.sendsFailed_iff c _).mpr
    ⟨0xff, .readSingleBlock, hbyte, hreading, m, 4, himage, hlba, hfails⟩)

end RoscoEmulator.SdCard
