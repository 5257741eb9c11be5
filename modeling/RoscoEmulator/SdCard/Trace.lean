import RoscoEmulator.SdCard.Card

/-!
# What the card does with a byte

The log of the card has two kinds of entries. The bytes received and the commands executed belong to
the bus; everything else, the use of buffers and of the image, happens inside the card in between.
`Internal` says that a part of the card's work is of the second kind, and a byte received is one
entry of the first kind, followed by internal work and, if it completes a command, by one more. -/

namespace RoscoEmulator.SdCard

open List

variable {M : Type}

/-- The entries of the log that belong to the bus. -/
def Effect.isBus : Effect → Bool
  | .received _ | .executed _ => true
  | _ => false

/-- Between `k` and `k'` the card has only used its buffers and its image. -/
def Internal (k k' : Core M) : Prop := ∃ es, k'.log = k.log ++ es ∧ ∀ e ∈ es, e.isBus = false

/-- A read of the image changes nothing in the card but the buffer that it is for. -/
theorem imageRead_snd [HardDisk M] (lba : BitVec 32) (k : Core M) :
    (k.imageRead lba).2 = k.logged (.imageUsed k.mounted) := by
  rw [Core.imageRead]
  split <;> rename_i h <;> rw [Core.mounted, h] <;> rfl

namespace Internal

theorem of_log {k k' : Core M} (h : k'.log = k.log) : Internal k k' :=
  ⟨[], by rw [h, append_nil], fun _ hmem ↦ absurd hmem not_mem_nil⟩

theorem refl (k : Core M) : Internal k k := .of_log rfl

variable {k'' : Core M}

theorem trans {k k' : Core M} (h : Internal k k') (h' : Internal k' k'') : Internal k k'' := by
  obtain ⟨es, hlog, hes⟩ := h
  obtain ⟨es', hlog', hes'⟩ := h'
  refine ⟨es ++ es', by rw [hlog', hlog, append_assoc], fun e he ↦ ?_⟩
  rcases List.mem_append.mp he with he | he
  · exact hes e he
  · exact hes' e he

theorem one {k k' : Core M} {e : Effect} (h : k'.log = k.log ++ [e]) (he : e.isBus = false) :
    Internal k k' :=
  ⟨[e], h, fun _ hmem ↦ by rw [List.mem_singleton.mp hmem]; exact he⟩

variable {k k' : Core M} (h : Internal k k')
include h

theorem update (hlog : k''.log = k'.log) : Internal k k'' := h.trans (.of_log hlog)

theorem logged {e : Effect} (he : e.isBus = false) : Internal k (k'.logged e) :=
  h.trans (.one rfl he)

theorem setData (start : ℕ) (bytes : List Byte) : Internal k (k'.setData start bytes) :=
  h.trans (.one rfl rfl)

theorem sendData (count : ℕ) (state : SdState) (delay : ℕ) :
    Internal k (k'.sendData count state delay) := h.trans (.one rfl rfl)

theorem setCrc16 (start len : ℕ) : Internal k (k'.setCrc16 start len) :=
  (h.logged rfl).setData _ _

theorem respond (bytes : List Byte) (state : SdState) : Internal k (k'.respond bytes state) :=
  (h.setData _ _).sendData _ _ _

theorem setSector (bytes : List Byte) : Internal k (k'.setSector bytes) := h.trans (.one rfl rfl)

theorem shiftByte : Internal k k'.shiftByte.2 := by
  rw [Core.shiftByte]
  split_ifs
  · exact h.update rfl
  · exact (h.logged rfl).update rfl
  · exact h

variable [HardDisk M]

theorem imageRead (lba : BitVec 32) : Internal k (k'.imageRead lba).2 := by
  rw [imageRead_snd]
  exact h.logged rfl

theorem imageWrite (lba : BitVec 32) : Internal k (k'.imageWrite lba).2 := by
  rw [Core.imageWrite]
  split
  · exact ((h.logged rfl).logged rfl).update rfl
  · exact h.logged rfl

theorem readSingleBlock : Internal k k'.readSingleBlock := by
  have hstart := h.setData 0 [0x00, 0xff, dataToken]
  simp only [Core.readSingleBlock]
  split_ifs
  · exact hstart.respond _ _
  · refine .sendData (.setCrc16 (.setData ?_ _ _) _ _) _ _ _
    exact hstart.imageRead _
  · refine .sendData (.setCrc16 (.setData ?_ _ _) _ _) _ _ _
    exact hstart.imageRead _
  · refine .sendData (.setCrc16 (.setData (.logged ?_ rfl) _ _) _ _) _ _ _
    exact (hstart.imageRead _).setSector _
  · exact h.respond _ _

/-- A command does its work inside the card. -/
theorem command {index : ℕ} (hcmd : k'.command index = some k'') : Internal k k'' := by
  unfold Core.command at hcmd
  split at hcmd <;> cases hcmd
  case h_1 =>
    rw [Core.goIdleState]
    split_ifs <;> exact h.respond _ _
  case h_5 => exact ((h.setData _ _).setCrc16 _ _).sendData _ _ _
  case h_8 =>
    simp only [Core.setBlocklen]
    split_ifs
    · refine .respond ?_ _ _
      exact h.update rfl
    · exact h.respond _ _
    · exact h.respond _ _
  case h_9 => exact h.readSingleBlock
  case h_10 =>
    simp only [Core.readMultipleBlock]
    split_ifs
    · refine .sendData ?_ _ _ _
      exact (h.setData 0 [0x00]).update rfl
    · refine .sendData ?_ _ _ _
      exact (h.setData 0 [0x00]).update rfl
    · exact h.respond _ _
    · exact h.respond _ _
  case h_11 =>
    simp only [Core.writeBlock]
    split_ifs
    · exact h.respond _ _
    · refine .respond ?_ _ _
      exact h.update rfl
    · refine .respond ?_ _ _
      exact h.update rfl
    · refine .respond ?_ _ _
      exact h.update rfl
  case h_12 =>
    rw [Core.sdSendOpCond]
    split_ifs <;> exact h.respond _ _
  case h_15 =>
    refine .respond ?_ _ _
    exact h.update rfl
  all_goals exact h.respond _ _

theorem writeBlockData : Internal k k'.writeBlockData := by
  refine .sendData (.setData ?_ _ _) _ _ _
  exact h.imageWrite _

theorem readNextBlock : Internal k k'.readNextBlock := by
  have hread := ((h.setData 0 [dataToken]).imageRead k'.blknext).setData 1
    ((k'.setData 0 [dataToken]).imageRead k'.blknext).1
  refine .sendData (.setCrc16 ?_ _ _) _ _ _
  exact hread.update rfl

end Internal

/-! ## The entries of the bus -/

namespace Core

/-- The bytes received and the commands executed, in their order. -/
def bus (k : Core M) : List Effect := k.log.filter Effect.isBus

theorem bus_of_internal {k k' : Core M} (h : Internal k k') : k'.bus = k.bus := by
  obtain ⟨es, hlog, hes⟩ := h
  have hnone : es.filter Effect.isBus = [] := by
    rw [filter_eq_nil_iff]
    intro e he
    rw [hes e he]
    exact Bool.false_ne_true
  rw [bus, hlog, filter_append, hnone, append_nil, bus]

theorem bus_logged {k : Core M} {e : Effect} (he : e.isBus = true) :
    (k.logged e).bus = k.bus ++ [e] := by
  rw [bus, logged, filter_append, filter_singleton, he]
  rfl

variable (byte : Byte) (k : Core M)

@[simp] theorem bus_shiftByte : k.shiftByte.2.bus = k.bus :=
  bus_of_internal (.shiftByte (.refl k))

variable [HardDisk M]

theorem bus_doCommand :
    k.doCommand.bus = if k.holdsCommand then k.bus ++ [.executed k.cmd] else k.bus := by
  simp only [doCommand]
  split_ifs
  · split
    · rename_i k' hcmd
      have hint := Internal.command (.refl _) hcmd
      exact (bus_of_internal (hint.update rfl)).trans (bus_logged rfl)
    · exact bus_logged rfl
  · rfl

theorem bus_readNextBlock : k.readNextBlock.bus = k.bus :=
  bus_of_internal (.readNextBlock (.refl k))

theorem bus_receiveData : (k.receiveData byte).bus = k.bus := by
  have hstore : Internal k
      { k.setData k.writePtr [byte] with writePtr := (k.writePtr + 1) % 2 ^ 16 } :=
    ((Internal.refl k).setData _ _).update rfl
  simp only [receiveData]
  split_ifs
  · exact bus_of_internal hstore.writeBlockData
  · exact bus_of_internal hstore

/-- `latch_in` calls `do_command` on a byte of a command. -/
def callsCommand (k : Core M) : Prop :=
  k.state = .dataMulti ∨ k.state = .idle ∨ k.cmdByte 0 &&& 0x70 = 0x40 ∨ k.outCount = 0

instance (k : Core M) : Decidable k.callsCommand := inferInstanceAs (Decidable (_ ∨ _))

theorem bus_receiveCmd :
    (k.receiveCmd byte).bus =
      if (k.shiftCmd byte).callsCommand ∧ (k.shiftCmd byte).holdsCommand then
        k.bus ++ [.executed (k.shiftCmd byte).cmd] else k.bus := by
  have hbus : (k.shiftCmd byte).bus = k.bus := rfl
  rw [receiveCmd, ← hbus]
  generalize k.shiftCmd byte = k
  have hcmd := bus_doCommand k
  by_cases hmulti : k.state = .dataMulti
  · have hcalls : k.callsCommand := .inl hmulti
    simp only [hmulti, if_true, hcalls, true_and]
    rw [← hcmd]
    split_ifs
    · exact bus_readNextBlock _
    · rfl
  · have hiff : k.callsCommand ↔
        k.state = .idle ∨ k.cmdByte 0 &&& 0x70 = 0x40 ∨ k.outCount = 0 :=
      ⟨fun h ↦ h.resolve_left hmulti, .inr⟩
    rw [if_neg hmulti]
    by_cases hcalls : k.callsCommand
    · rw [if_pos (hiff.mp hcalls)]
      simp only [hcalls, true_and]
      exact hcmd
    · rw [if_neg (mt hiff.mpr hcalls), if_neg fun h ↦ hcalls h.1]

/-- The bytes that the card has received. -/
def receivedBytes (k : Core M) : List Byte :=
  k.bus.filterMap fun e ↦ match e with
    | .received byte => some byte
    | _ => none

theorem receivedBytes_receive : (k.receive byte).receivedBytes = k.receivedBytes ++ [byte] := by
  have hlogged : (k.logged (.received byte)).receivedBytes = k.receivedBytes ++ [byte] := by
    rw [receivedBytes, bus_logged rfl, filterMap_append]
    rfl
  rw [← hlogged]
  simp only [receive]
  split_ifs
  · rfl
  · rfl
  · rw [receivedBytes, bus_receiveData]
    rfl
  · rw [receivedBytes, bus_receiveCmd]
    split_ifs
    · rw [filterMap_append]
      exact append_nil _
    · rfl

/-! ## Work on the data buffer -/

end Core

/-- The entries of the log that tell of a command or of a change of `m_data`. -/
def Effect.isWork : Effect → Bool
  | .executed _ | .dataWritten _ _ => true
  | _ => false

theorem Internal.isPrefix {k k' : Core M} (h : Internal k k') : k.log <+: k'.log := by
  obtain ⟨es, hlog, -⟩ := h
  exact ⟨es, hlog.symm⟩

namespace Core

variable [HardDisk M]

theorem isPrefix_executed {k : Core M} (h : k.holdsCommand) :
    k.log ++ [.executed k.cmd] <+: k.doCommand.log := by
  simp only [doCommand, h, if_true]
  split
  · rename_i k' hcmd
    exact (Internal.command (.refl _) hcmd).isPrefix
  · exact prefix_refl _

variable (byte : Byte) (k : Core M) {es : List Effect}

theorem isPrefix_doCommand : k.log <+: k.doCommand.log := by
  by_cases h : k.holdsCommand
  · exact (prefix_append _ _).trans (isPrefix_executed h)
  · have hsame : k.doCommand = k := if_neg h
    exact (congrArg Core.log hsame).symm ▸ prefix_refl k.log

theorem isPrefix_readNextBlock : k.log ++ [.dataWritten 0 1] <+: k.readNextBlock.log := by
  refine Internal.isPrefix (k := k.setData 0 [dataToken]) ?_
  have hread := ((Internal.refl (k.setData 0 [dataToken])).imageRead k.blknext).setData 1
    ((k.setData 0 [dataToken]).imageRead k.blknext).1
  refine .sendData (.setCrc16 ?_ _ _) _ _ _
  exact hread.update rfl

theorem isPrefix_receiveData : (k.setData k.writePtr [byte]).log <+: (k.receiveData byte).log := by
  simp only [receiveData]
  split_ifs
  · refine Internal.isPrefix ?_
    exact Internal.writeBlockData (.of_log rfl)
  · exact prefix_refl _

theorem isPrefix_receiveCmd : k.log <+: (k.receiveCmd byte).log := by
  have hlog : (k.shiftCmd byte).log = k.log := rfl
  rw [receiveCmd, ← hlog]
  dsimp only
  generalize k.shiftCmd byte = k
  split_ifs
  · exact (isPrefix_doCommand k).trans
      ((prefix_append _ _).trans (isPrefix_readNextBlock k.doCommand))
  · exact isPrefix_doCommand k
  · exact isPrefix_doCommand k
  · exact prefix_refl _

/-- The log of a card only grows. -/
theorem isPrefix_receive : k.log <+: (k.receive byte).log := by
  refine (prefix_append k.log [.received byte]).trans ?_
  simp only [receive]
  rw [show k.log ++ [.received byte] = (k.logged (.received byte)).log from rfl]
  generalize k.logged (.received byte) = k
  split_ifs
  · exact prefix_refl _
  · exact prefix_refl _
  · exact (prefix_append k.log _).trans (isPrefix_receiveData byte k)
  · exact isPrefix_receiveCmd byte k

/-- Nothing that the output depends on is changed. -/
structure SameOutput (k k' : Core M) : Prop where
  data : k'.data = k.data
  outPtr : k'.outPtr = k.outPtr
  outDelay : k'.outDelay = k.outDelay
  outCount : k'.outCount = k.outCount

theorem not_isWork {l : List Effect} {e : Effect} (h : l ++ [e] <+: l ++ es)
    (hes : ∀ e ∈ es, e.isWork = false) : e.isWork = false := by
  rw [prefix_append_right_inj] at h
  exact hes e (h.subset (List.mem_singleton.mpr rfl))

theorem sameOutput_receiveCmd
    {byte : Byte} {k : Core M} (hlog : (k.receiveCmd byte).log = k.log ++ es)
    (hes : ∀ e ∈ es, e.isWork = false) : SameOutput k (k.receiveCmd byte) := by
  have hshift : SameOutput k (k.shiftCmd byte) := ⟨rfl, rfl, rfl, rfl⟩
  have hlog' : (k.shiftCmd byte).log = k.log := rfl
  rw [← hlog', receiveCmd] at hlog
  rw [receiveCmd]
  dsimp only at hlog ⊢
  generalize k.shiftCmd byte = k' at hlog hshift ⊢
  have hnone : k'.log ++ [.executed k'.cmd] <+: k'.log ++ es → False := fun h ↦ by
    cases not_isWork h hes
  by_cases hcmd : k'.holdsCommand
  · have hexec := isPrefix_executed hcmd
    split_ifs at hlog ⊢
    · rw [← hlog] at hnone
      exact absurd (hexec.trans ((prefix_append _ _).trans (isPrefix_readNextBlock _))) hnone
    · rw [← hlog] at hnone
      exact absurd hexec hnone
    · rw [← hlog] at hnone
      exact absurd hexec hnone
    · exact hshift
  · have hsame : k'.doCommand = k' := if_neg hcmd
    rw [hsame] at hlog ⊢
    split_ifs at hlog ⊢
    · have hwrite := isPrefix_readNextBlock k'
      rw [hlog] at hwrite
      cases not_isWork hwrite hes
    · exact hshift
    · exact hshift
    · exact hshift

/-- A byte that causes no command and no change of `m_data` leaves the output alone. -/
theorem sameOutput_receive {byte : Byte} {k : Core M} (hlog : (k.receive byte).log = k.log ++ es)
    (hes : ∀ e ∈ es, e.isWork = false) : SameOutput k (k.receive byte) := by
  have hstart : (k.logged (.received byte)).log = k.log ++ [.received byte] := rfl
  simp only [receive] at hlog ⊢
  split_ifs at hlog ⊢
  · exact ⟨rfl, rfl, rfl, rfl⟩
  · exact ⟨rfl, rfl, rfl, rfl⟩
  · -- a data byte changes the buffer
    have hstore := isPrefix_receiveData byte (k.logged (.received byte))
    rw [hlog] at hstore
    have hmem : Effect.dataWritten k.writePtr 1 ∈ es := by
      have hsub : k.log ++ [.received byte, .dataWritten k.writePtr 1] <+: k.log ++ es := by
        simpa [setData, logged] using hstore
      rw [prefix_append_right_inj] at hsub
      exact hsub.subset (by simp)
    cases hes _ hmem
  · have hgrow := isPrefix_receiveCmd byte (k.logged (.received byte))
    obtain ⟨es', hes'⟩ := hgrow
    have hsplit : es = .received byte :: es' := by
      rw [hstart, hlog, append_assoc, append_cancel_left_eq] at hes'
      exact hes'.symm
    have hsame := sameOutput_receiveCmd hes'.symm fun e he ↦ hes e (hsplit ▸ .tail _ he)
    exact ⟨hsame.data, hsame.outPtr, hsame.outDelay, hsame.outCount⟩

/-! ## Where the output starts -/

end Core

/-- If the last entry of the log is a call of `send_data`, then its output has not begun. -/
def LastSent (k : Core M) : Prop :=
  ∀ l count delay, k.log = l ++ [.sent count delay] →
    k.outPtr = 0 ∧ k.outDelay = delay ∧ k.outCount = count

namespace LastSent

theorem sendData (count : ℕ) (state : SdState) (delay : ℕ) (k : Core M) :
    LastSent (k.sendData count state delay) := by
  intro l count' delay' hlog
  have hlast := (append_inj' hlog rfl).2
  simp only [List.cons.injEq, Effect.sent.injEq, and_true] at hlast
  exact ⟨rfl, hlast.2, hlast.1⟩

theorem respond (bytes : List Byte) (state : SdState) (k : Core M) :
    LastSent (k.respond bytes state) := .sendData _ _ _ _

/-- Another entry is behind all output. -/
theorem of_last {k : Core M} {l : List Effect} {e : Effect} (h : k.log = l ++ [e])
    (he : ∀ count delay, e ≠ .sent count delay) : LastSent k := by
  intro l' count delay hlog
  rw [h] at hlog
  have hlast := (append_inj' hlog rfl).2
  exact absurd (List.cons.inj hlast).1 (he count delay)

variable [HardDisk M]

theorem command {index : ℕ} {k k' : Core M} (hcmd : k.command index = some k') : LastSent k' := by
  unfold Core.command at hcmd
  split at hcmd <;> cases hcmd
  case h_1 =>
    rw [Core.goIdleState]
    split_ifs <;> exact .respond _ _ _
  case h_8 =>
    simp only [Core.setBlocklen]
    split_ifs <;> exact .respond _ _ _
  case h_9 =>
    simp only [Core.readSingleBlock]
    split_ifs
    all_goals first
      | exact .respond _ _ _
      | exact .sendData _ _ _ _
  case h_10 =>
    simp only [Core.readMultipleBlock]
    split_ifs
    all_goals first
      | exact .respond _ _ _
      | exact .sendData _ _ _ _
  case h_11 =>
    simp only [Core.writeBlock]
    split_ifs <;> exact .respond _ _ _
  case h_12 =>
    rw [Core.sdSendOpCond]
    split_ifs <;> exact .respond _ _ _
  case h_5 => exact .sendData _ _ _ _
  all_goals exact .respond _ _ _

theorem doCommand {k : Core M} (h : LastSent k) : LastSent k.doCommand := by
  simp only [Core.doCommand]
  split_ifs
  · split
    · rename_i k' hcmd
      have hsent := LastSent.command hcmd
      exact fun l count delay hlog ↦ hsent l count delay hlog
    · exact .of_last (e := .executed k.cmd) rfl fun _ _ h ↦ by cases h
  · exact h

/-- A byte that makes the card call `send_data` does so last. -/
theorem receive (byte : Byte) (k : Core M) : LastSent (k.receive byte) := by
  have hstart : LastSent (k.logged (.received byte)) := .of_last rfl fun _ _ h ↦ by cases h
  simp only [Core.receive]
  split_ifs
  · exact hstart
  · exact hstart
  · simp only [Core.receiveData]
    split_ifs
    · exact .sendData _ _ _ _
    · exact .of_last (e := .dataWritten k.writePtr 1) rfl fun _ _ h ↦ by cases h
  · have hshift : LastSent ((k.logged (.received byte)).shiftCmd byte) := hstart
    rw [Core.receiveCmd]
    dsimp only
    generalize (k.logged (.received byte)).shiftCmd byte = k' at hshift ⊢
    split_ifs
    · exact .sendData _ _ _ _
    · exact hshift.doCommand
    · exact hshift.doCommand
    · exact hshift

end LastSent

/-! ## What a byte has the card read -/

/-- The places that send a data block. -/
inductive DataCommand
  | sendCsd | sendCid | readSingleBlock | readNextBlock
deriving DecidableEq, Repr

namespace Core

/-- The numbers of the commands that the card supports. -/
def supported : List ℕ := [0, 1, 8, 9, 10, 12, 13, 16, 17, 18, 24, 41, 55, 58, 59]

/-- A byte of a command makes the card look at `m_cmd`. -/
def LooksAtCommand (k : Core M) (byte : Byte) : Prop :=
  k.state = .dataMulti ∨ k.state = .idle ∨ (k.shiftCmd byte).cmdByte 0 &&& 0x70 = 0x40 ∨
    k.outCount = 0

instance (k : Core M) (byte : Byte) : Decidable (k.LooksAtCommand byte) :=
  inferInstanceAs (Decidable (_ ∨ _))

/-- The byte completes a command that the card supports. -/
def Completes (k : Core M) (byte : Byte) : Prop :=
  (k.shiftCmd byte).holdsCommand ∧ (k.shiftCmd byte).commandIndex ∈ supported

instance (k : Core M) (byte : Byte) : Decidable (k.Completes byte) :=
  inferInstanceAs (Decidable (_ ∧ _))

/-- `CMD17` does not reject its argument. -/
def Readable (k : Core M) : Prop := ¬ (k.type = .v2 ∧ k.crossesBlock k.argument)

instance (k : Core M) : Decidable k.Readable := inferInstanceAs (Decidable (¬ _))

/-- The block read that a byte from the host starts on a mounted card: that of `CMD17` if the byte
completes it, or the next one of a multiple block read if the last one has been sent and no command
ends it. -/
def reading (k : Core M) (byte : Byte) : Option DataCommand :=
  if k.mounted = true ∧ k.state ≠ .writeWaitFE ∧ k.state ≠ .writeData then
    if k.LooksAtCommand byte ∧ k.Completes byte then
      if (k.shiftCmd byte).commandIndex = 17 ∧ (k.shiftCmd byte).Readable then some .readSingleBlock
      else none
    else if k.state = .dataMulti ∧ k.outCount = 0 then some .readNextBlock
    else none
  else none

variable [HardDisk M]

omit [HardDisk M] in
theorem respond_outCount (k : Core M) (bytes : List Byte) (state : SdState) :
    (k.respond bytes state).outCount = bytes.length := rfl

theorem command_eq_none_iff (k : Core M) (index : ℕ) :
    k.command index = none ↔ index ∉ supported := by
  unfold command
  split <;> simp_all [supported]

variable {k : Core M}

/-- A command has something to send. -/
theorem outCount_command {k' : Core M} {index : ℕ} (h : k.command index = some k') :
    0 < k'.outCount := by
  unfold command at h
  split at h <;> cases h
  case h_1 =>
    rw [goIdleState]
    split_ifs <;> exact Nat.succ_pos _
  case h_8 =>
    simp only [setBlocklen]
    split_ifs <;> exact Nat.succ_pos _
  case h_9 =>
    simp only [readSingleBlock]
    split_ifs <;> exact Nat.succ_pos _
  case h_10 =>
    simp only [readMultipleBlock]
    split_ifs <;> exact Nat.succ_pos _
  case h_11 =>
    simp only [writeBlock]
    split_ifs <;> exact Nat.succ_pos _
  case h_12 =>
    rw [sdSendOpCond]
    split_ifs <;> exact Nat.succ_pos _
  all_goals exact Nat.succ_pos _

section Image

omit [HardDisk M]

variable (k : Core M)

@[simp] theorem image_setData (start : ℕ) (bytes : List Byte) :
    (k.setData start bytes).image = k.image := rfl

end Image

theorem doCommand_of_none (h : ¬ (k.holdsCommand ∧ k.commandIndex ∈ supported)) :
    k.doCommand.state = k.state ∧ k.doCommand.outCount = k.outCount ∧
      k.doCommand.image = k.image := by
  rw [doCommand]
  split_ifs with hholds
  · have hnone := ((k.logged (.executed k.cmd)).command_eq_none_iff k.commandIndex).mpr
      fun hmem ↦ h ⟨hholds, hmem⟩
    simp only [hnone]
    exact ⟨rfl, rfl, rfl⟩
  · exact ⟨rfl, rfl, rfl⟩

theorem doCommand_of_some (h : k.holdsCommand ∧ k.commandIndex ∈ supported) :
    0 < k.doCommand.outCount := by
  obtain ⟨hholds, hmem⟩ := h
  rw [doCommand, if_pos hholds]
  rcases hcmd : (k.logged (.executed k.cmd)).command k.commandIndex with _ | k'
  · exact absurd hmem ((command_eq_none_iff _ _).mp hcmd)
  · simp only [hcmd]
    exact outCount_command hcmd

end Core

end RoscoEmulator.SdCard
