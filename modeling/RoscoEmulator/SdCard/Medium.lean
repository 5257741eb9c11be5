import RoscoEmulator.SdCard.Bounds

/-!
# The medium

`harddisk_image_device::read` and `write` use the handle of the hard disk without a check, so that
the card may call them only while an image is mounted. `CMD17` and `CMD18` ask for one, but the
calls that come later, in the middle of a transfer, do not: when the buffer of a multiple block read
is refilled, and when the data phase of a write ends. -/

namespace RoscoEmulator.SdCard

variable {M : Type} [HardDisk M]

/-- The image is mounted when the card calls it. -/
def Effect.OnMedium : Effect → Prop
  | .imageUsed mounted => mounted = true
  | _ => True

namespace Core

/-- The card has called its image only when one was mounted. -/
def OnMedium (k : Core M) : Prop := ∀ e ∈ k.log, e.OnMedium

/-- The byte ends the data phase of a write, or it has the buffer of a multiple block read
refilled. -/
def NeedsImage (k : Core M) (byte : Byte) : Prop :=
  (k.state = .writeData ∧ (k.writePtr + 1) % 2 ^ 16 = k.xferblk + 2) ∨
    (k.state = .dataMulti ∧ k.outCount = 0 ∧
      ¬ ((k.shiftCmd byte).holdsCommand ∧ (k.shiftCmd byte).commandIndex ∈ supported))

/-! ## Calls of the image -/

variable {k : Core M}

namespace OnMedium

variable (h : k.OnMedium)
include h

omit [HardDisk M] in
theorem concat {e : Effect} (he : e.OnMedium) : ∀ e' ∈ k.log ++ [e], e'.OnMedium := by
  intro e' hmem
  rcases List.mem_append.mp hmem with hmem | hmem
  · exact h e' hmem
  · rwa [List.mem_singleton.mp hmem]

omit [HardDisk M] in
theorem logged (e : Effect) (he : e.OnMedium) : (k.logged e).OnMedium := h.concat he

omit [HardDisk M] in
theorem setData (start : ℕ) (bytes : List Byte) : (k.setData start bytes).OnMedium :=
  h.concat trivial

omit [HardDisk M] in
theorem sendData (count : ℕ) (state : SdState) (delay : ℕ) :
    (k.sendData count state delay).OnMedium := h.concat trivial

omit [HardDisk M] in
theorem setCrc16 (start len : ℕ) : (k.setCrc16 start len).OnMedium :=
  (h.logged (.dataRead start len) trivial).setData _ _

omit [HardDisk M] in
theorem respond (bytes : List Byte) (state : SdState) : (k.respond bytes state).OnMedium :=
  (h.setData _ _).sendData _ _ _

omit [HardDisk M] in
theorem setSector (bytes : List Byte) : (k.setSector bytes).OnMedium := h.concat trivial

omit [HardDisk M] in
theorem shiftByte : k.shiftByte.2.OnMedium := by
  rw [Core.shiftByte]
  split_ifs
  · exact h
  · exact h.concat trivial
  · exact h

theorem readSingleBlock : k.readSingleBlock.OnMedium := by
  have hstart : (k.setData 0 [0x00, 0xff, dataToken]).OnMedium := h.setData _ _
  simp only [Core.readSingleBlock, imageRead_snd]
  split_ifs with hmounted
  · exact hstart.respond _ _
  · exact (((hstart.logged (.imageUsed k.mounted) hmounted).setData _ _).setCrc16 _
      _).sendData _ _ _
  · exact (((hstart.logged (.imageUsed k.mounted) hmounted).setData _ _).setCrc16 _
      _).sendData _ _ _
  · refine ((OnMedium.setData ?_ _ _).setCrc16 _ _).sendData _ _ _
    exact ((hstart.logged (.imageUsed k.mounted) hmounted).setSector _).logged
      (.sectorUsed _ _ _) trivial
  · exact h.respond _ _

theorem command {index : ℕ} {k' : Core M} (hcmd : k.command index = some k') : k'.OnMedium := by
  unfold Core.command at hcmd
  split at hcmd <;> cases hcmd
  case h_1 =>
    rw [goIdleState]
    split_ifs <;> exact h.respond _ _
  case h_5 => exact ((h.setData _ _).setCrc16 _ _).sendData _ _ _
  case h_8 =>
    simp only [setBlocklen]
    split_ifs
    · refine OnMedium.respond ?_ _ _
      exact h
    · exact h.respond _ _
    · exact h.respond _ _
  case h_9 => exact h.readSingleBlock
  case h_10 =>
    simp only [readMultipleBlock]
    split_ifs
    · refine OnMedium.sendData ?_ _ _ _
      exact h.setData 0 [0x00]
    · refine OnMedium.sendData ?_ _ _ _
      exact h.setData 0 [0x00]
    · exact h.respond _ _
    · exact h.respond _ _
  case h_11 =>
    simp only [writeBlock]
    split_ifs
    · exact h.respond _ _
    · refine OnMedium.respond ?_ _ _
      exact h
    · refine OnMedium.respond ?_ _ _
      exact h
    · refine OnMedium.respond ?_ _ _
      exact h
  case h_12 =>
    rw [sdSendOpCond]
    split_ifs <;> exact h.respond _ _
  case h_15 =>
    refine OnMedium.respond ?_ _ _
    exact h
  all_goals exact h.respond _ _

theorem doCommand : k.doCommand.OnMedium := by
  have hlogged : (k.logged (.executed k.cmd)).OnMedium := h.logged (.executed k.cmd) trivial
  simp only [Core.doCommand]
  split_ifs
  · rcases hcmd : (k.logged (.executed k.cmd)).command k.commandIndex with _ | k'
    · exact hlogged
    · have hcommand := hlogged.command hcmd
      exact hcommand
  · exact h

theorem readNextBlock (hmounted : k.mounted = true) : k.readNextBlock.OnMedium := by
  have hread : (((k.setData 0 [dataToken]).logged (.imageUsed k.mounted)).setData 1
      ((k.setData 0 [dataToken]).imageRead k.blknext).1).OnMedium :=
    ((h.setData 0 [dataToken]).logged (.imageUsed k.mounted) hmounted).setData _ _
  simp only [Core.readNextBlock, imageRead_snd]
  refine (OnMedium.setCrc16 ?_ _ _).sendData _ _ _
  exact hread

theorem writeBlockData (hmounted : k.mounted = true) : k.writeBlockData.OnMedium := by
  have hwrite : (k.imageWrite k.blknext).2.OnMedium := by
    rw [imageWrite]
    rcases himage : k.image with _ | m
    · rw [mounted, himage] at hmounted
      cases hmounted
    · exact (h.logged (.imageUsed true) rfl).logged (.dataRead _ _) trivial
  exact (hwrite.setData _ _).sendData _ _ _

end OnMedium

theorem imageUsed_mem_readNextBlock (k : Core M) :
    Effect.imageUsed k.mounted ∈ k.readNextBlock.log := by
  simp only [readNextBlock, imageRead_snd]
  simp [setCrc16, sendData, setData, logged, mounted]

theorem imageUsed_mem_writeBlockData (k : Core M) :
    Effect.imageUsed k.mounted ∈ k.writeBlockData.log := by
  rw [writeBlockData, imageWrite, mounted]
  rcases k.image with _ | m <;> simp [sendData, setData, logged]

theorem onMedium_receiveData_iff (h : k.OnMedium) (byte : Byte) :
    (k.receiveData byte).OnMedium ↔
      ((k.writePtr + 1) % 2 ^ 16 = k.xferblk + 2 → k.mounted = true) := by
  have hdata : (k.setData k.writePtr [byte]).OnMedium := h.setData _ _
  simp only [receiveData]
  split_ifs with hend
  · have hend : (k.writePtr + 1) % 2 ^ 16 = k.xferblk + 2 := hend
    simp only [hend, forall_const]
    constructor
    · intro honMedium
      exact honMedium _ (imageUsed_mem_writeBlockData _)
    · intro hmounted
      refine OnMedium.writeBlockData ?_ hmounted
      exact hdata
  · have hend : ¬ (k.writePtr + 1) % 2 ^ 16 = k.xferblk + 2 := hend
    simp only [hend, false_implies, iff_true]
    exact hdata

/-- A byte of a command has the buffer of a multiple block read refilled. -/
theorem onMedium_receiveCmd_iff (h : k.OnMedium) (byte : Byte) :
    (k.receiveCmd byte).OnMedium ↔ (k.state = .dataMulti → k.outCount = 0 →
      ¬ ((k.shiftCmd byte).holdsCommand ∧ (k.shiftCmd byte).commandIndex ∈ supported) →
        k.mounted = true) := by
  have hdo : (k.shiftCmd byte).doCommand.OnMedium := OnMedium.doCommand (k := k.shiftCmd byte) h
  rw [receiveCmd]
  by_cases hmulti : k.state = .dataMulti
  · rw [if_pos (show (k.shiftCmd byte).state = .dataMulti from hmulti)]
    simp only [hmulti, forall_const]
    by_cases hcmd : (k.shiftCmd byte).holdsCommand ∧ (k.shiftCmd byte).commandIndex ∈ supported
    · have hcount := doCommand_of_some hcmd
      rw [if_neg fun hrefill ↦ absurd hrefill.2 (Nat.pos_iff_ne_zero.mp hcount)]
      exact iff_of_true hdo fun _ hnot ↦ absurd hcmd hnot
    · obtain ⟨hstate, hcount, himage⟩ := doCommand_of_none hcmd
      have hmounted : (k.shiftCmd byte).doCommand.mounted = k.mounted :=
        congrArg Option.isSome himage
      have hcount' : (k.shiftCmd byte).outCount = k.outCount := rfl
      by_cases hzero : k.outCount = 0
      · rw [if_pos ⟨hstate.trans hmulti, hcount.trans (hcount'.trans hzero)⟩]
        refine ⟨fun honMedium _ _ ↦ ?_, fun hneeds ↦ ?_⟩
        · rw [← hmounted]
          exact honMedium _ (imageUsed_mem_readNextBlock _)
        · exact hdo.readNextBlock (hmounted.trans (hneeds hzero hcmd))
      · rw [if_neg fun hrefill ↦ hzero ((hcount.trans hcount').symm.trans hrefill.2)]
        exact iff_of_true hdo fun h ↦ absurd h hzero
  · rw [if_neg (show ¬ (k.shiftCmd byte).state = .dataMulti from hmulti)]
    refine iff_of_true ?_ fun h ↦ absurd h hmulti
    split_ifs
    · exact hdo
    · exact h

theorem onMedium_receive_iff (h : k.OnMedium) (byte : Byte) :
    (k.receive byte).OnMedium ↔ (k.NeedsImage byte → k.mounted = true) := by
  have hlogged : (k.logged (.received byte)).OnMedium := h.logged _ trivial
  rw [receive, NeedsImage]
  by_cases hwait : k.state = .writeWaitFE
  · rw [if_pos (show (k.logged (.received byte)).state = .writeWaitFE from hwait)]
    have hneeds : ¬ ((k.state = .writeData ∧ (k.writePtr + 1) % 2 ^ 16 = k.xferblk + 2) ∨
        (k.state = .dataMulti ∧ k.outCount = 0 ∧
          ¬ ((k.shiftCmd byte).holdsCommand ∧ (k.shiftCmd byte).commandIndex ∈ supported))) := by
      simp [hwait]
    refine iff_of_true ?_ fun h ↦ absurd h hneeds
    split_ifs <;> exact hlogged
  · rw [if_neg (show ¬ (k.logged (.received byte)).state = .writeWaitFE from hwait)]
    by_cases hdata : k.state = .writeData
    · rw [if_pos (show (k.logged (.received byte)).state = .writeData from hdata)]
      rw [onMedium_receiveData_iff hlogged byte]
      simp [hdata, logged, mounted]
    · rw [if_neg (show ¬ (k.logged (.received byte)).state = .writeData from hdata)]
      rw [onMedium_receiveCmd_iff hlogged byte]
      have hsame : ((k.logged (.received byte)).shiftCmd byte).holdsCommand ∧
          ((k.logged (.received byte)).shiftCmd byte).commandIndex ∈ supported ↔
            (k.shiftCmd byte).holdsCommand ∧ (k.shiftCmd byte).commandIndex ∈ supported := Iff.rfl
      rw [hsame]
      simp only [hdata, false_and, false_or, and_imp]
      exact Iff.rfl

end Core

/-! ## Runs -/

/-- An image is mounted when a byte needs it. -/
def MediumGuard (c : Card M) (e : Event M) : Prop :=
  ∀ byte, c.completes e = some byte → c.core.NeedsImage byte → c.core.mounted = true

theorem onMedium_step_iff {c : Card M} (h : c.core.OnMedium) (e : Event M) :
    (c.step e).core.OnMedium ↔ MediumGuard c e := by
  have hstep := coreStep_step c e
  generalize (c.step e).core = k at hstep
  rcases hstep with hnone | hnone | hnone | ⟨byte, hbyte⟩ | ⟨m, rfl⟩ | hunload
  · exact iff_of_true h fun byte hbyte ↦ by simp [hnone] at hbyte
  · exact iff_of_true h fun byte hbyte ↦ by simp [hnone] at hbyte
  · exact iff_of_true h.shiftByte fun byte hbyte ↦ by simp [hnone] at hbyte
  · rw [Core.onMedium_receive_iff h, MediumGuard]
    constructor
    · rintro hneeds byte' hbyte'
      obtain rfl := Option.some_inj.mp (hbyte.symm.trans hbyte')
      exact hneeds
    · intro hguard
      exact hguard byte hbyte
  · have hload : (c.core.load m).log = c.core.log := by
      rw [Core.load, Core.unload]
      split_ifs <;> rfl
    refine iff_of_true ?_ fun byte hbyte ↦ by cases hbyte
    rwa [Core.OnMedium, hload]
  · have hlog : c.core.unload.log = c.core.log := by
      rw [Core.unload]
      split_ifs <;> rfl
    refine iff_of_true ?_ fun byte hbyte ↦ by rcases hunload with rfl | rfl <;> cases hbyte
    rwa [Core.OnMedium, hlog]

/-- **The medium.** The card calls its image only when one is mounted in every state of a run,
exactly if an image is mounted at each byte of the run that needs one. -/
theorem always_onMedium_iff (preferredType : SdType) (miso : Bool) (es : List (Event M)) :
    Run.Always Card.step (fun c ↦ c.core.OnMedium) (Card.start preferredType miso) es ↔
      Run.Meets Card.step MediumGuard (Card.start preferredType miso) es := by
  refine Run.always_iff_meets (J := fun _ ↦ True) (fun _ _ _ ↦ trivial)
    (fun _ e _ hc ↦ onMedium_step_iff hc e) trivial ?_ es
  intro e he
  exact absurd he List.not_mem_nil

/-- `CMD18`, and the image is unmounted before the first block. -/
def ejected : List (Event MemoryDisk) :=
  [.load (emptyDisk 512), .ss true] ++
    (waveform [0x52, 0x00, 0x00, 0x00, 0x00, 0xff]).map Signal.event ++ [.unload] ++
      (waveform [0xff, 0xff]).map Signal.event

theorem not_always_onMedium_ejected :
    ¬ Run.Always Card.step (fun c ↦ c.core.OnMedium) (Card.start .v2 true) ejected := by
  intro halways
  have hmem :
      Effect.imageUsed false ∈ (Run.run Card.step (Card.start .v2 true) ejected).core.log := by
    decide +kernel
  exact Bool.false_ne_true (halways.last _ hmem)

end RoscoEmulator.SdCard
