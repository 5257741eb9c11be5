import RoscoEmulator.Duart.Device

/-!
# The interrupts of the DUART

The interrupt status register mirrors status bits of the two channels and changes of the input
port, and the interrupt line follows it. Three facts are kept apart: `Uart.Synced` ties the line to
the register, `Uart.PortChangeNoted` ties the register to the input port, and `Port.Settled` ties it
to one channel. A call into a channel keeps the first two because of what it may do to its owner,
`called_apply`, and leaves its channel settled because it ends in `update_interrupts` wherever it
changes the status.

The values driven on the outputs are recorded and nothing answers while they are driven: a board
that answers on the input port makes an event of its own.
-/

namespace RoscoEmulator.Duart

open BitVec Uart

/-! ## The owner's registers -/

namespace Uart

/-- The output port register with the interrupt status bits that `OPCR` puts on its pins. -/
def mirror (opcr isr opr : BitVec 8) : BitVec 8 :=
  let opr := if opcr.getLsbD 4 then oprBit 0x10 (isr.getLsbD 1) opr else opr
  let opr := if opcr.getLsbD 5 then oprBit 0x20 (isr.getLsbD 5) opr else opr
  let opr := if opcr.getLsbD 6 then oprBit 0x40 (isr.getLsbD 0) opr else opr
  if opcr.getLsbD 7 then oprBit 0x80 (isr.getLsbD 4) opr else opr

/-- The output port half of `update_interrupts`. -/
def driveMirrored (u : Uart) : Uart :=
  if u.opcr &&& 0xf0 ≠ 0 then
    { u with
      opr := mirror u.opcr u.isr u.opr
      writeOutport := u.writeOutport ++ [mirror u.opcr u.isr u.opr ^^^ 0xff] }
  else u

theorem updateInterrupts_eq (u : Uart) : u.updateInterrupts =
    if u.driveIrq.driveMirrored.isr &&& u.driveIrq.driveMirrored.imr = 0 then
      { u.driveIrq.driveMirrored with readVector := false }
    else u.driveIrq.driveMirrored := rfl

/-- `update_interrupts` changes the interrupt line, the output port and the acknowledge flag. -/
theorem exists_updateInterrupts (u : Uart) : ∃ irqState writeIrq opr writeOutport readVector,
    u.updateInterrupts =
      { u with
        irqState := irqState, writeIrq := writeIrq, opr := opr, writeOutport := writeOutport
        readVector := readVector } := by
  have hirq : ∃ irqState writeIrq,
      u.driveIrq = { u with irqState := irqState, writeIrq := writeIrq } := by
    rw [driveIrq]
    split_ifs <;> exact ⟨_, _, rfl⟩
  obtain ⟨irqState, writeIrq, hirq⟩ := hirq
  rw [updateInterrupts_eq, hirq, driveMirrored]
  split_ifs <;> exact ⟨_, _, _, _, _, rfl⟩

@[simp] theorem isr_updateInterrupts (u : Uart) : u.updateInterrupts.isr = u.isr := by
  obtain ⟨_, _, _, _, _, h⟩ := u.exists_updateInterrupts
  rw [h]

@[simp] theorem acr_updateInterrupts (u : Uart) : u.updateInterrupts.acr = u.acr := by
  obtain ⟨_, _, _, _, _, h⟩ := u.exists_updateInterrupts
  rw [h]

@[simp] theorem opcr_updateInterrupts (u : Uart) : u.updateInterrupts.opcr = u.opcr := by
  obtain ⟨_, _, _, _, _, h⟩ := u.exists_updateInterrupts
  rw [h]

@[simp] theorem ipcr_updateInterrupts (u : Uart) : u.updateInterrupts.ipcr = u.ipcr := by
  obtain ⟨_, _, _, _, _, h⟩ := u.exists_updateInterrupts
  rw [h]

theorem isr_clearIsrBits (u : Uart) (mask : BitVec 8) :
    (u.clearIsrBits mask).isr = u.isr &&& ~~~mask := by
  rw [clearIsrBits]
  split_ifs with h
  · exact isr_updateInterrupts _
  · refine eq_of_getLsbD_eq fun i hi ↦ ?_
    have hbit := congrArg (·.getLsbD i) (not_not.mp h)
    simp only [getLsbD_and, getLsbD_not] at hbit ⊢
    cases h1 : mask.getLsbD i <;> simp_all

/-- A mask of one bit. -/
def IsBit (mask : BitVec 8) : Prop := ∃ i : Fin 8, mask = 1#8 <<< i.val

variable {ch : ChannelId} {isr : BitVec 8} {u : Uart} {mask : BitVec 8} {u' : Uart} {bit : BitVec 8}

theorem isr_setIsrBits (u : Uart) (hbit : IsBit mask) :
    (u.setIsrBits mask).isr = u.isr ||| mask := by
  obtain ⟨i, rfl⟩ := hbit
  have hset : ∀ (isr : BitVec 8) (i : Fin 8), isr &&& 1#8 <<< i.val ≠ 0 →
      isr ||| 1#8 <<< i.val = isr := by decide +kernel
  rw [setIsrBits]
  split_ifs with h
  · exact isr_updateInterrupts _
  · exact (hset _ i h).symm

theorem isBit_of_mem (h : mask ∈ channelInterrupts ch) : IsBit mask := by
  have hbits : ∀ mask ∈ channelInterrupts ch, IsBit mask := by
    cases ch <;> unfold IsBit <;> decide
  exact hbits mask h

/-! ### The interrupt line -/

/-- The interrupt line is known and shows the enabled interrupts. -/
structure Synced (u : Uart) : Prop where
  line : u.writeIrq.getLast? = some u.irqState
  state : u.irqState = (u.isr &&& u.imr != 0)

theorem synced_updateInterrupts (hline : u.writeIrq.getLast? = some u.irqState) :
    Synced u.updateInterrupts := by
  have hirq : Synced u.driveIrq := by
    rw [driveIrq]
    split_ifs with h1 h2 h3
    · exact ⟨by simp, (bne_iff_ne.mpr h1).symm⟩
    · exact ⟨hline, by simp_all⟩
    · exact ⟨by simp, by simp_all⟩
    · exact ⟨hline, by simp_all⟩
  rw [updateInterrupts_eq, driveMirrored]
  split_ifs <;> exact ⟨hirq.line, hirq.state⟩

theorem Synced.setIsrBits (h : Synced u) (mask : BitVec 8) : Synced (u.setIsrBits mask) := by
  rw [Uart.setIsrBits]
  split_ifs
  · exact synced_updateInterrupts h.line
  · exact h

theorem Synced.clearIsrBits (h : Synced u) (mask : BitVec 8) : Synced (u.clearIsrBits mask) := by
  rw [Uart.clearIsrBits]
  split_ifs
  · exact synced_updateInterrupts h.line
  · exact h

/-! ### The input port -/

/-- A change of the input port that is enabled in `ACR` is an interrupt. -/
def PortChangeNoted (u : Uart) : Prop :=
  (u.ipcr >>> 4) &&& u.acr &&& 0x0f ≠ 0 → u.isr &&& intInputPortChange ≠ 0

/-- Interrupt bits other than that of the input port do not matter to it. -/
theorem PortChangeNoted.of_isr (h : PortChangeNoted u)
    (hipcr : u'.ipcr = u.ipcr) (hacr : u'.acr = u.acr)
    (hisr : u.isr &&& intInputPortChange ≠ 0 → u'.isr &&& intInputPortChange ≠ 0) :
    PortChangeNoted u' := by
  intro hchange
  rw [hipcr, hacr] at hchange
  exact hisr (h hchange)

theorem or_and_ne_zero (h : isr &&& bit ≠ 0) : (isr ||| mask) &&& bit ≠ 0 := by
  intro hzero
  refine h (eq_of_getLsbD_eq fun i _ ↦ ?_)
  have hbit := congrArg (·.getLsbD i) hzero
  simp only [getLsbD_and, getLsbD_or] at hbit ⊢
  cases h1 : isr.getLsbD i <;> simp_all

theorem PortChangeNoted.setIsrBits (h : PortChangeNoted u) (mask : BitVec 8) :
    PortChangeNoted (u.setIsrBits mask) := by
  rw [Uart.setIsrBits]
  split_ifs
  · refine h.of_isr (ipcr_updateInterrupts _) (acr_updateInterrupts _) fun hne ↦ ?_
    rw [isr_updateInterrupts]
    exact or_and_ne_zero hne
  · exact h

theorem and_not_and (h : mask &&& bit = 0) : isr &&& ~~~mask &&& bit = isr &&& bit := by
  refine eq_of_getLsbD_eq fun i hi ↦ ?_
  have hbit := congrArg (·.getLsbD i) h
  simp only [getLsbD_and, getLsbD_not] at hbit ⊢
  cases h1 : mask.getLsbD i <;> cases h2 : bit.getLsbD i <;> simp_all

theorem or_and (h : mask &&& bit = 0) : (isr ||| mask) &&& bit = isr &&& bit := by
  refine eq_of_getLsbD_eq fun i hi ↦ ?_
  have hbit := congrArg (·.getLsbD i) h
  simp only [getLsbD_and, getLsbD_or] at hbit ⊢
  cases h1 : mask.getLsbD i <;> cases h2 : bit.getLsbD i <;> simp_all

theorem PortChangeNoted.clearIsrBits (h : PortChangeNoted u)
    (hmask : mask &&& intInputPortChange = 0) : PortChangeNoted (u.clearIsrBits mask) := by
  rw [Uart.clearIsrBits]
  split_ifs
  · refine h.of_isr (ipcr_updateInterrupts _) (acr_updateInterrupts _) fun hne ↦ ?_
    rw [isr_updateInterrupts]
    exact (and_not_and hmask).symm ▸ hne
  · exact h

/-! ### Both -/

/-- What holds of the owner's registers alone. -/
structure Reported (u : Uart) : Prop where
  synced : Synced u
  port : PortChangeNoted u

theorem Reported.setIsrBits (h : Reported u) (mask : BitVec 8) :
    Reported (u.setIsrBits mask) := ⟨h.synced.setIsrBits mask, h.port.setIsrBits mask⟩

theorem Reported.clearIsrBits (h : Reported u) (hmask : mask &&& intInputPortChange = 0) :
    Reported (u.clearIsrBits mask) :=
  ⟨h.synced.clearIsrBits mask, h.port.clearIsrBits hmask⟩

theorem Reported.calls (h : Reported u) (hcalls : Calls ch u u') : Reported u' := by
  refine hcalls.keep (fun u mask _ hu ↦ hu.setIsrBits mask) (fun u mask hmask hu ↦ ?_)
    (fun u bit hu ↦ ?_) h
  · refine hu.clearIsrBits ?_
    revert mask
    cases ch <;> decide
  · cases ch <;> exact ⟨⟨hu.synced.line, hu.synced.state⟩, hu.port⟩

/-- The same interrupt line, interrupt registers and input port changes. -/
structure Alike (u u' : Uart) : Prop where
  writeIrq : u'.writeIrq = u.writeIrq
  irqState : u'.irqState = u.irqState
  isr : u'.isr = u.isr
  imr : u'.imr = u.imr
  ipcr : u'.ipcr = u.ipcr
  acr : u'.acr = u.acr

theorem Reported.of_alike (h : Reported u) (hu : Alike u u') : Reported u' := by
  refine ⟨⟨?_, ?_⟩, h.port.of_isr hu.ipcr hu.acr fun hne ↦ hu.isr ▸ hne⟩
  · rw [hu.writeIrq, hu.irqState]
    exact h.synced.line
  · rw [hu.irqState, hu.isr, hu.imr]
    exact h.synced.state

theorem alike_toggleTimer (u : Uart) : Alike u u.toggleTimer := by
  rw [toggleTimer]
  split_ifs <;> exact ⟨rfl, rfl, rfl, rfl, rfl, rfl⟩

theorem alike_assertCounterReady (u : Uart) : Alike u u.assertCounterReady := by
  rw [assertCounterReady]
  split_ifs <;> exact ⟨rfl, rfl, rfl, rfl, rfl, rfl⟩

theorem alike_extendBit {command : ℕ} (h : u.extendBit ch command = some u') : Alike u u' := by
  unfold extendBit at h
  split at h
  case h_9 => cases h
  all_goals
    cases h
    exact ⟨rfl, rfl, rfl, rfl, rfl, rfl⟩

theorem isr_calls {ch' : ChannelId} (hne : ch ≠ ch') (hcalls : Calls ch u u')
    (hbit : bit ∈ channelInterrupts ch') : u'.isr &&& bit = u.isr &&& bit := by
  have hdisjoint (mask : BitVec 8) (hmask : mask ∈ channelInterrupts ch) : mask &&& bit = 0 := by
    revert mask bit
    cases ch <;> cases ch' <;> first | exact absurd rfl hne | decide
  refine hcalls.keep (I := fun v ↦ v.isr &&& bit = u.isr &&& bit) (fun v mask hmask hv ↦ ?_)
    (fun v mask hmask hv ↦ ?_) (fun v tx hv ↦ ?_) rfl
  · rw [isr_setIsrBits _ (isBit_of_mem hmask), or_and (hdisjoint mask hmask)]
    exact hv
  · rw [isr_clearIsrBits, and_not_and (hdisjoint mask hmask)]
    exact hv
  · cases ch <;> exact hv

end Uart

/-! ## A channel and its interrupts -/

/-- The status that a channel reports as its receiver interrupt. -/
def Channel.rxInterrupt (c : Channel) : BitVec 8 :=
  if c.mr1 &&& modeRxIntSelectBit ≠ 0 then c.sr &&& statusFifoFull
  else c.sr &&& statusReceiverReady

/-- The interrupt status bits of the channel of a port are its status. -/
structure Port.Settled (p : Port) : Prop where
  txReady : p.uart.isr &&& intTxrdy p.chan.ch ≠ 0 ↔ p.chan.sr &&& statusTransmitterReady ≠ 0
  rxReady : p.uart.isr &&& intRxrdyFfull p.chan.ch ≠ 0 ↔ p.chan.rxInterrupt ≠ 0

namespace Port.Settled

variable {p p' : Port}

/-- It is about the status, the interrupt mode and the owner's registers only. -/
theorem onChan {f : Channel → Channel} (h : p.Settled) (hch : (f p.chan).ch = p.chan.ch)
    (hsr : (f p.chan).sr = p.chan.sr) (hmr1 : (f p.chan).mr1 = p.chan.mr1) :
    (p.onChan f).Settled := by
  have hrx : (f p.chan).rxInterrupt = p.chan.rxInterrupt := by
    rw [Channel.rxInterrupt, hsr, hmr1, Channel.rxInterrupt]
  refine ⟨?_, ?_⟩
  · rw [onChan_chan, onChan_uart, hch, hsr]
    exact h.txReady
  · rw [onChan_chan, onChan_uart, hch, hrx]
    exact h.rxReady

theorem onSerial (h : p.Settled) (f : Serial → Serial) : (p.onSerial f).Settled :=
  h.onChan rfl rfl rfl

theorem writeTx (h : p.Settled) (bit : Bool) : (p.onUart (Uart.writeTx p.chan.ch bit)).Settled := by
  have hisr : (p.uart.writeTx p.chan.ch bit).isr = p.uart.isr := by
    cases p.chan.ch <;> rfl
  refine ⟨?_, ?_⟩
  · rw [onUart_chan, onUart_uart, hisr]
    exact h.txReady
  · rw [onUart_chan, onUart_uart, hisr]
    exact h.rxReady

end Port.Settled

theorem isr_report (u : Uart) (b : Prop) [Decidable b] {mask : BitVec 8} (hbit : Uart.IsBit mask) :
    (if b then u.setIsrBits mask else u.clearIsrBits mask).isr &&& mask ≠ 0 ↔ b := by
  obtain ⟨i, rfl⟩ := hbit
  have hset : ∀ (isr : BitVec 8) (i : Fin 8), (isr ||| 1#8 <<< i.val) &&& 1#8 <<< i.val ≠ 0 := by
    decide +kernel
  have hclear : ∀ (isr : BitVec 8) (i : Fin 8),
      isr &&& ~~~(1#8 <<< i.val) &&& 1#8 <<< i.val = 0 := by
    decide +kernel
  split_ifs with hb
  · rw [isr_setIsrBits u ⟨i, rfl⟩]
    exact iff_of_true (hset _ i) hb
  · rw [isr_clearIsrBits]
    exact iff_of_false (not_not.mpr (hclear _ i)) hb

/-- **`update_interrupts` settles its channel**, whatever its status was before. -/
theorem settled_updateInterrupts (p : Port) : (updateInterrupts p).Settled := by
  have htx := isBit_of_mem (intTxrdy_mem p.chan.maskTxReady.ch)
  have hrx := isBit_of_mem (intRxrdyFfull_mem p.chan.maskTxReady.ch)
  have hdisjoint : intRxrdyFfull p.chan.maskTxReady.ch &&& intTxrdy p.chan.maskTxReady.ch = 0 := by
    cases p.chan.maskTxReady.ch <;> decide
  refine ⟨?_, isr_report _ _ hrx⟩
  refine Iff.trans ?_
    (isr_report p.uart (p.chan.maskTxReady.sr &&& statusTransmitterReady ≠ 0) htx)
  rw [updateInterrupts]
  -- the receiver's bit is reported after the transmitter's and leaves it alone
  generalize (if p.chan.maskTxReady.sr &&& statusTransmitterReady ≠ 0 then
    p.uart.setIsrBits (intTxrdy p.chan.maskTxReady.ch)
    else p.uart.clearIsrBits (intTxrdy p.chan.maskTxReady.ch)) = u
  split_ifs
  all_goals first
    | rw [isr_setIsrBits u hrx, or_and hdisjoint]
    | rw [isr_clearIsrBits, and_not_and hdisjoint]

variable {p : Port}

theorem settled_rcvComplete (h : p.Settled) : (rcvComplete p).Settled := by
  simp only [rcvComplete]
  split_ifs
  all_goals first
    | exact settled_updateInterrupts _
    | exact h.onSerial _

theorem settled_traComplete (p : Port) : (traComplete p).Settled := by
  simp only [traComplete]
  split_ifs <;> exact settled_updateInterrupts _

theorem settled_traCallback (h : p.Settled) : (traCallback p).Settled := by
  have hserial := h.onSerial fun _ ↦ p.chan.serial.transmitRegisterGetDataBit.2
  simp only [traCallback]
  split_ifs
  · exact settled_updateInterrupts _
  · exact (hserial.writeTx _).onChan rfl rfl rfl
  · exact settled_updateInterrupts _
  · exact (hserial.onSerial _).onChan rfl rfl rfl

theorem keeps_settled : serialDevice.Keeps Port.Settled where
  update f _ h := h.onSerial f
  traCallback _ h := settled_traCallback h
  traComplete p _ := settled_traComplete p
  rcvCallback _ h := h.onSerial _
  rcvComplete _ h := settled_rcvComplete h

theorem settled_writeCR (data : BitVec 8) (p : Port) : (writeCR data p).Settled :=
  (settled_updateInterrupts _).onChan rfl rfl rfl

theorem settled_apply_reset (p : Port) : (Operation.reset.apply p).Settled := by
  rw [Operation.apply, channelReset]
  exact (settled_writeCR 0x40 _).onChan rfl rfl rfl

theorem settled_writeTX (h : p.Settled) (data : BitVec 8) : (writeTX data p).Settled := by
  simp only [writeTX]
  split_ifs
  · exact h
  · exact settled_updateInterrupts _
  · exact settled_updateInterrupts _

theorem settled_readChanReg (h : p.Settled) (reg : ℕ) : (readChanReg reg p).2.Settled := by
  simp only [readChanReg]
  split
  · split_ifs
    · have hread : (p.onChan fun c ↦ { c with mrPtr := 1 }).Settled := h.onChan rfl rfl rfl
      exact hread
    · exact h
  · exact h
  · rw [readRxFifo]
    split_ifs <;> exact settled_updateInterrupts _
  · exact h

theorem settled_tx16xClockW (h : p.Settled) (state : Bool) : (tx16xClockW state p).Settled := by
  simp only [tx16xClockW]
  split_ifs
  · exact keeps_settled.txClockW (h.onChan rfl rfl rfl) true
  · exact keeps_settled.txClockW ((h.onChan rfl rfl rfl).onChan rfl rfl rfl) false
  · exact h.onChan rfl rfl rfl
  · exact h

theorem settled_rx16xClockW (h : p.Settled) (state : Bool) : (rx16xClockW state p).Settled := by
  simp only [rx16xClockW]
  split_ifs
  · exact keeps_settled.rxClockW (h.onChan rfl rfl rfl) true
  · exact keeps_settled.rxClockW (h.onChan rfl rfl rfl) false
  · exact keeps_settled.rxClockW ((h.onChan rfl rfl rfl).onChan rfl rfl rfl) true
  · exact h.onChan rfl rfl rfl
  · exact h

/-- Every call into a channel leaves it settled. -/
theorem settled_apply (h : p.Settled) (op : Operation) : (op.apply p).Settled := by
  have hcsr (data : BitVec 8) : (writeCSR data p).Settled :=
    ((h.onChan rfl rfl rfl).onSerial _).onSerial _
  cases op with
  | read reg => exact settled_readChanReg h reg
  | write reg data =>
    simp only [Operation.apply, writeChanReg]
    split
    · exact settled_updateInterrupts _
    · exact hcsr data
    · exact settled_writeCR data p
    · exact settled_writeTX h data
    · exact h
  | baudUpdated => exact hcsr p.chan.csr
  | updateInterrupts => exact settled_updateInterrupts p
  | rxW state => exact h.onSerial _
  | traClock => exact keeps_settled.traClock h
  | rcvClock => exact keeps_settled.rcvClock h
  | tx16xClockW state => exact settled_tx16xClockW h state
  | rx16xClockW state => exact settled_rx16xClockW h state
  | reset => exact settled_apply_reset p

/-! ## The device -/

namespace Uart

/-- The interrupt bits of the channels are the same. -/
def SameInterrupts (u u' : Uart) : Prop :=
  ∀ ch, ∀ bit ∈ channelInterrupts ch, u'.isr &&& bit = u.isr &&& bit

/-- The bits that are not a channel's: the counter's and the input port's. -/
theorem sameInterrupts_setIsrBits {mask : BitVec 8} (hbit : IsBit mask)
    (hmask : ∀ ch, ∀ bit ∈ channelInterrupts ch, mask &&& bit = 0) (u : Uart) :
    SameInterrupts u (u.setIsrBits mask) := by
  intro ch bit hmem
  rw [isr_setIsrBits u hbit, or_and (hmask ch bit hmem)]

theorem sameInterrupts_clearIsrBits {mask : BitVec 8}
    (hmask : ∀ ch, ∀ bit ∈ channelInterrupts ch, mask &&& bit = 0)
    (u : Uart) : SameInterrupts u (u.clearIsrBits mask) := by
  intro ch bit hmem
  rw [isr_clearIsrBits u, and_not_and (hmask ch bit hmem)]

theorem isBit_intCounterReady : IsBit intCounterReady := ⟨3, rfl⟩

theorem isBit_intInputPortChange : IsBit intInputPortChange := ⟨7, rfl⟩

theorem intCounterReady_and (ch : ChannelId) :
    ∀ bit ∈ channelInterrupts ch, intCounterReady &&& bit = 0 := by
  cases ch <;> decide

theorem intInputPortChange_and (ch : ChannelId) :
    ∀ bit ∈ channelInterrupts ch, intInputPortChange &&& bit = 0 := by
  cases ch <;> decide

theorem ipcr_change (ipcr newIP : BitVec 8) (line : Fin 4) :
    ((ipcr &&& 0xf0) ||| (newIP &&& 0x0f) ||| (0x10#8 <<< line.val)) >>> 4 =
      (ipcr >>> 4) ||| 1#8 <<< line.val := by
  refine eq_of_getLsbD_eq fun i hi ↦ ?_
  obtain ⟨line, hline⟩ := line
  interval_cases i <;> interval_cases line <;> simp

variable {u : Uart}

theorem portChangeNoted_notePortChange (h : PortChangeNoted u) (line : Fin 4) (newIP : BitVec 8) :
    PortChangeNoted (u.notePortChange line newIP) := by
  simp only [notePortChange]
  split_ifs with hnew hacr
  · intro _
    have hset := isr_setIsrBits
      { u with ipcr := (u.ipcr &&& 0xf0) ||| (newIP &&& 0x0f) ||| (0x10#8 <<< line.val) }
      isBit_intInputPortChange
    have hbit : ∀ isr : BitVec 8, (isr ||| intInputPortChange) &&& intInputPortChange ≠ 0 := by
      decide
    rw [hset]
    exact hbit u.isr
  · intro hchange
    have hmask : (1#8 <<< line.val) &&& (u.acr &&& 0x0f) = 0 := by
      rw [← BitVec.and_assoc, BitVec.and_comm (1#8 <<< line.val), not_not.mp hacr]
      exact zero_and
    refine h ?_
    rw [ipcr_change, BitVec.and_assoc, or_and hmask] at hchange
    rwa [BitVec.and_assoc]
  · exact h

theorem synced_notePortChange (h : Synced u) (line : Fin 4) (newIP : BitVec 8) :
    Synced (u.notePortChange line newIP) := by
  simp only [notePortChange]
  split_ifs
  · refine Synced.setIsrBits ?_ _
    exact ⟨h.line, h.state⟩
  · exact ⟨h.line, h.state⟩
  · exact h

theorem sameInterrupts_notePortChange (u : Uart) (line : Fin 4) (newIP : BitVec 8) :
    SameInterrupts u (u.notePortChange line newIP) := by
  simp only [notePortChange]
  split_ifs
  · exact sameInterrupts_setIsrBits isBit_intInputPortChange intInputPortChange_and
      { u with ipcr := (u.ipcr &&& 0xf0) ||| (newIP &&& 0x0f) ||| (0x10#8 <<< line.val) }
  · exact fun _ _ _ ↦ rfl
  · exact fun _ _ _ ↦ rfl

theorem reported_readIPCR (h : Reported u) :
    Reported (clearIsrBits intInputPortChange { u with ipcr := u.ipcr &&& 0x0f }) := by
  have hfield : (clearIsrBits intInputPortChange { u with ipcr := u.ipcr &&& 0x0f }).ipcr =
      u.ipcr &&& 0x0f := by
    rw [clearIsrBits]
    split_ifs
    · exact ipcr_updateInterrupts _
    · rfl
  refine ⟨Synced.clearIsrBits ?_ _, fun hchange ↦ absurd ?_ hchange⟩
  · exact ⟨h.synced.line, h.synced.state⟩
  · have hipcr : ∀ ipcr : BitVec 8, (ipcr &&& 0x0f) >>> 4 = 0 := by decide
    rw [hfield, hipcr]
    exact (congrArg (· &&& 0x0f) zero_and).trans zero_and

theorem reported_inputPortW (h : Reported u) (line : Fin 7) (state : Bool) :
    Reported (u.inputPortW line state) ∧ SameInterrupts u (u.inputPortW line state) := by
  have hchange (i : Fin 4) :
      Reported (u.ipChangeW i state) ∧ SameInterrupts u (u.ipChangeW i state) := by
    have hsynced (newIP : BitVec 8) := synced_notePortChange h.synced i newIP
    have hport (newIP : BitVec 8) := portChangeNoted_notePortChange h.port i newIP
    exact ⟨⟨⟨(hsynced _).line, (hsynced _).state⟩, hport _⟩, sameInterrupts_notePortChange u i _⟩
  have hlevel (i : Fin 3) :
      Reported (u.ipLevelW i state) ∧ SameInterrupts u (u.ipLevelW i state) :=
    ⟨⟨⟨h.synced.line, h.synced.state⟩, h.port⟩, fun _ _ _ ↦ rfl⟩
  unfold inputPortW
  split
  all_goals first
    | exact hchange _
    | exact hlevel _

end Uart

namespace Device

/-- The half of `setACR` that starts or stops the timer. -/
def changeMode (data : BitVec 8) (d : Device) : Device :=
  if (d.uart.acr ^^^ data) &&& 0x40 ≠ 0 then
    if data &&& 0x40 ≠ 0 then
      ((d.onUart fun u ↦ { u with acr := data }).onUart fun u ↦ { u with halfPeriod := 0 }).startCt
        d.ctPreset
    else (d.onUart fun u ↦ { u with acr := data }).onUart fun u ↦
      { u with duartTimer := .adjust u.time .never }
  else d.onUart fun u ↦ { u with acr := data }

/-- The invariant: the channels know their numbers, the owner's registers are reported on its line,
and both channels are settled. -/
structure Settled (d : Device) : Prop where
  wired : d.Wired
  reported : d.uart.Reported
  settled : ∀ ch, (d.port ch).Settled

section OnPort

variable {d : Device} {ch ch' : ChannelId}

theorem reported_onPort (h : d.uart.Reported) (op : Operation) :
    (d.onPort ch op.apply).uart.Reported := by
  rw [uart_onPort]
  exact h.calls (called_apply op (d.port ch)).calls

theorem settled_onPort_self {op : Operation} (h : (op.apply (d.port ch)).Settled) :
    ((d.onPort ch op.apply).port ch).Settled := by
  have hport : (d.onPort ch op.apply).port ch = op.apply (d.port ch) := by
    cases ch <;> rfl
  rw [hport]
  exact h

/-- A call into one channel leaves the other settled. -/
theorem settled_onPort_of_ne (hw : d.Wired) (hne : ch ≠ ch') (h : (d.port ch').Settled)
    (op : Operation) : ((d.onPort ch op.apply).port ch').Settled := by
  have hchan : (d.onPort ch op.apply).chan ch' = d.chan ch' := by
    rw [chan_onPort, if_neg hne]
  have hch : (d.port ch).chan.ch ≠ (d.chan ch').ch := by
    rw [hw ch']
    exact fun heq ↦ hne ((hw ch).symm.trans heq)
  have hisr {bit : BitVec 8} (hbit : bit ∈ channelInterrupts (d.chan ch').ch) :
      (d.onPort ch op.apply).uart.isr &&& bit = d.uart.isr &&& bit := by
    rw [uart_onPort]
    exact isr_calls hch (called_apply op (d.port ch)).calls hbit
  refine ⟨?_, ?_⟩
  · simp only [port, hchan, hisr (intTxrdy_mem _)]
    exact h.txReady
  · simp only [port, hchan, hisr (intRxrdyFfull_mem _)]
    exact h.rxReady

end OnPort

namespace Settled

variable {d : Device}

theorem onPort (h : d.Settled) (ch : ChannelId) (op : Operation) :
    (d.onPort ch op.apply).Settled := by
  refine ⟨h.wired.onPort ch op, reported_onPort h.reported op, fun ch' ↦ ?_⟩
  by_cases heq : ch = ch'
  · subst heq
    exact settled_onPort_self (settled_apply (h.settled ch) op)
  · exact settled_onPort_of_ne h.wired heq (h.settled ch') op

variable {u : Uart}

section

variable (h : d.Settled)
include h

theorem withUart (hu : u.Reported) (hsame : Uart.SameInterrupts d.uart u) :
    Settled { d with uart := u } := by
  refine ⟨h.wired.onUart fun _ ↦ u, hu, fun ch ↦ ?_⟩
  have hport : ({ d with uart := u } : Device).port ch = ⟨u, d.chan ch⟩ := by
    cases ch <;> rfl
  rw [hport]
  refine ⟨?_, ?_⟩
  · simp only [hsame _ _ (intTxrdy_mem _)]
    exact (h.settled ch).txReady
  · simp only [hsame _ _ (intRxrdyFfull_mem _)]
    exact (h.settled ch).rxReady

theorem setCounterReady : (d.onUart (Uart.setIsrBits intCounterReady)).Settled :=
  h.withUart (h.reported.setIsrBits _)
    (sameInterrupts_setIsrBits isBit_intCounterReady intCounterReady_and _)

/-- Registers that no interrupt depends on. -/
theorem withAlike (hu : Uart.Alike d.uart u) : Settled { d with uart := u } :=
  h.withUart (h.reported.of_alike hu) fun _ _ _ ↦ by rw [hu.isr]

theorem startCt (count : ℕ) : (d.startCt count).Settled :=
  h.withAlike ⟨rfl, rfl, rfl, rfl, rfl, rfl⟩

theorem timerDrives (ch : ChannelId) (state : Bool) : (d.timerDrives ch state).Settled := by
  have htx {d : Device} (h : d.Settled) := h.onPort ch (.tx16xClockW state)
  have hrx {d : Device} (h : d.Settled) := h.onPort ch (.rx16xClockW state)
  simp only [Device.timerDrives]
  split_ifs
  · exact hrx (htx h)
  · exact hrx h
  · exact htx h
  · exact h

theorem duartTimerCallback : d.duartTimerCallback.Settled := by
  have htoggle : (d.onUart Uart.toggleTimer).Settled := h.withAlike (alike_toggleTimer _)
  have hready : (d.onUart assertCounterReady).Settled :=
    h.withAlike (alike_assertCounterReady _)
  have hdriven (state : Bool) := (htoggle.timerDrives .a state).timerDrives .b state
  rw [Device.duartTimerCallback]
  split_ifs
  · refine startCt ?_ _
    split_ifs
    · exact (hdriven _).setCounterReady
    · exact hdriven _
  · exact hready.setCounterReady.startCt 0xffff

theorem ctTimer : d.ctTimer.Settled := by
  rw [Device.ctTimer]
  split_ifs
  · refine duartTimerCallback ?_
    exact h.withAlike ⟨rfl, rfl, rfl, rfl, rfl, rfl⟩
  · exact h

theorem read (offset : BitVec 4) : (d.read offset).2.Settled := by
  have hport (ch : ChannelId) (reg : ℕ) : (d.readPort ch reg).2.Settled :=
    h.onPort ch (.read reg)
  rw [Device.read]
  split
  case h_1 => exact hport .a 0
  case h_2 => exact hport .a 1
  case h_4 => exact hport .a 3
  case h_5 =>
    exact h.withUart (reported_readIPCR h.reported)
      (sameInterrupts_clearIsrBits intInputPortChange_and
        { d.uart with ipcr := d.uart.ipcr &&& 0x0f })
  case h_9 => exact hport .b 0
  case h_10 => exact hport .b 1
  case h_12 => exact hport .b 3
  case h_15 =>
    refine startCt ?_ _
    split_ifs
    · exact h.withAlike ⟨rfl, rfl, rfl, rfl, rfl, rfl⟩
    · exact h
  case h_16 =>
    have hclear {d : Device} (h : d.Settled) :
        (d.onUart (Uart.clearIsrBits intCounterReady)).Settled :=
      h.withUart (h.reported.clearIsrBits (by decide))
        (sameInterrupts_clearIsrBits intCounterReady_and _)
    refine hclear ?_
    split
    · dsimp only
      split <;> exact h.withAlike ⟨rfl, rfl, rfl, rfl, rfl, rfl⟩
    · exact h
  all_goals exact h

theorem writeCommand (ch : ChannelId) (data : BitVec 8) : (d.writeCommand ch data).Settled := by
  rw [Device.writeCommand]
  split
  · rename_i u hu
    have hextend : (d.onUart fun _ ↦ u).Settled := h.withAlike (alike_extendBit hu)
    exact (hextend.onPort ch .baudUpdated).onPort ch (.write 2 (baseCommand data))
  · exact h.onPort ch (.write 2 (baseCommand data))

/-- With the new mask a change already noted becomes an interrupt. -/
theorem checkPort {d' : Device} {data : BitVec 8} (hd : d' = d.onUart fun _ ↦ u)
    (hu : Uart.Alike { d.uart with acr := data } u) :
    Settled (if ((d'.uart.ipcr >>> 4) &&& data) &&& 0x0f ≠ 0 then
      d'.onUart (Uart.setIsrBits intInputPortChange) else d') := by
  have hsynced : Uart.Synced { d.uart with acr := data } :=
    ⟨h.reported.synced.line, h.reported.synced.state⟩
  have hu' : Uart.Synced u := by
    refine ⟨?_, ?_⟩
    · rw [hu.writeIrq, hu.irqState]
      exact hsynced.line
    · rw [hu.irqState, hu.isr, hu.imr]
      exact hsynced.state
  have hsame : Uart.SameInterrupts d.uart u := fun _ _ _ ↦ by rw [hu.isr]
  subst hd
  split_ifs with hchange
  · refine h.withUart (u := u.setIsrBits intInputPortChange) ⟨hu'.setIsrBits _, fun _ ↦ ?_⟩
      fun ch bit hmem ↦ ?_
    · have hbit : ∀ isr : BitVec 8, (isr ||| intInputPortChange) &&& intInputPortChange ≠ 0 := by
        decide
      rw [isr_setIsrBits u isBit_intInputPortChange]
      exact hbit u.isr
    · exact (sameInterrupts_setIsrBits isBit_intInputPortChange
        intInputPortChange_and u ch bit hmem).trans (hsame ch bit hmem)
  · refine h.withUart ⟨hu', fun hpending ↦ absurd ?_ hchange⟩ hsame
    rw [hu.acr] at hpending
    exact hpending

theorem setACR (data : BitVec 8) : (d.setACR data).Settled := by
  have hmode : ∃ u, d.changeMode data = d.onUart (fun _ ↦ u) ∧
      Uart.Alike { d.uart with acr := data } u := by
    rw [changeMode]
    split_ifs <;> exact ⟨_, rfl, rfl, rfl, rfl, rfl, rfl, rfl⟩
  obtain ⟨u, hd, hu⟩ := hmode
  exact h.checkPort hd hu

theorem write (offset : BitVec 4) (data : BitVec 8) : (d.write offset data).Settled := by
  have hwrite (ch : ChannelId) (reg : ℕ) := h.onPort ch (.write reg data)
  rw [Device.write]
  split
  case h_1 => exact hwrite .a 0
  case h_2 => exact hwrite .a 1
  case h_3 => exact h.writeCommand .a data
  case h_4 => exact hwrite .a 3
  case h_5 =>
    exact ((((h.setACR data).onPort .a .baudUpdated).onPort .b .baudUpdated).onPort .a
      .updateInterrupts).onPort .b .updateInterrupts
  case h_6 =>
    have hsynced : Uart.Synced (Uart.updateInterrupts { d.uart with imr := data }) := by
      refine synced_updateInterrupts ?_
      exact h.reported.synced.line
    refine h.withUart ⟨hsynced, h.reported.port.of_isr (ipcr_updateInterrupts _)
      (acr_updateInterrupts _) fun hne ↦ ?_⟩ fun ch bit _ ↦ ?_
    · rw [isr_updateInterrupts]
      exact hne
    · rw [isr_updateInterrupts]
  case h_9 => exact hwrite .b 0
  case h_10 => exact hwrite .b 1
  case h_11 => exact h.writeCommand .b data
  case h_12 => exact hwrite .b 3
  all_goals exact h.withAlike ⟨rfl, rfl, rfl, rfl, rfl, rfl⟩

end

end Settled

variable {d : Device}

/-- A reset settles the device whatever its state was: each channel settles itself. -/
theorem settled_reset (hw : d.Wired) : d.reset.Settled := by
  have hreported : d.uart.deviceReset.Reported := by
    have hzero : (0 : BitVec 8) >>> 4 &&& 0 &&& 0x0f = 0 := by decide
    exact ⟨⟨List.getLast?_concat, by simp [Uart.deviceReset]⟩, fun hchange ↦ absurd hzero hchange⟩
  have hw0 := hw.onUart Uart.deviceReset
  have hwa := hw0.onPort .a .reset
  have ha : ((((d.onUart Uart.deviceReset).onPort .a Operation.reset.apply).port .a)).Settled :=
    settled_onPort_self (settled_apply_reset _)
  refine ⟨hwa.onPort .b .reset, reported_onPort (reported_onPort hreported .reset) .reset,
    fun ch ↦ ?_⟩
  cases ch with
  | a => exact settled_onPort_of_ne hwa (by decide) ha .reset
  | b => exact settled_onPort_self (settled_apply_reset _)

theorem settled_powerOn (storage : Device) : (powerOn storage).Settled := by
  refine settled_reset fun ch ↦ ?_
  cases ch <;> rfl

/-! ## Runs -/

/-- An event of the device, or a reset of one of its channels. -/
def stepOrReset (d : Device) : Event ⊕ ChannelId → Device
  | .inl e => d.step e
  | .inr ch => d.onPort ch channelReset

theorem Settled.step (h : d.Settled) (e : Event) : (d.step e).Settled := by
  cases e with
  | read offset => exact h.read offset
  | write offset data => exact h.write offset data
  | irqVector => exact h.withAlike ⟨rfl, rfl, rfl, rfl, rfl, rfl⟩
  | rxLine ch state => exact h.onPort ch (.rxW state)
  | inputPort line state =>
    have hport := reported_inputPortW h.reported line state
    exact h.withUart hport.1 hport.2
  | traClock ch => exact h.onPort ch .traClock
  | rcvClock ch => exact h.onPort ch .rcvClock
  | ctTimer => exact h.ctTimer
  | advance time => exact h.withAlike ⟨rfl, rfl, rfl, rfl, rfl, rfl⟩
  | reset => exact settled_reset h.wired

theorem Settled.stepOrReset (h : d.Settled) (e : Event ⊕ ChannelId) :
    (d.stepOrReset e).Settled := by
  rcases e with e | ch
  · exact h.step e
  · exact h.onPort ch .reset

/-- The interrupt line, the interrupt status register and what the two channels and the input port
have to report agree. -/
structure InterruptsConsistent (d : Device) : Prop where
  /-- The level last driven on the interrupt line. -/
  irq : d.uart.writeIrq.getLast? = some (d.uart.isr &&& d.uart.imr != 0)
  txReady : ∀ ch, d.uart.isr &&& intTxrdy ch ≠ 0 ↔ (d.chan ch).sr &&& statusTransmitterReady ≠ 0
  rxReady : ∀ ch, d.uart.isr &&& intRxrdyFfull ch ≠ 0 ↔
    if (d.chan ch).mr1 &&& modeRxIntSelectBit ≠ 0 then (d.chan ch).sr &&& statusFifoFull ≠ 0
    else (d.chan ch).sr &&& statusReceiverReady ≠ 0
  inputPort : (d.uart.ipcr >>> 4) &&& d.uart.acr &&& 0x0f ≠ 0 →
    d.uart.isr &&& intInputPortChange ≠ 0
  /-- What a read of `MISR` returns. -/
  misr : (d.read 0x2).1 = d.uart.isr &&& d.uart.imr

theorem Settled.interruptsConsistent (h : d.Settled) : d.InterruptsConsistent where
  irq := h.reported.synced.state ▸ h.reported.synced.line
  txReady ch := by
    have htx := (h.settled ch).txReady
    have hch : (d.port ch).chan.ch = ch := h.wired ch
    rw [hch] at htx
    exact htx
  rxReady ch := by
    have hrx := (h.settled ch).rxReady
    have hch : (d.port ch).chan.ch = ch := h.wired ch
    rw [hch] at hrx
    refine hrx.trans ?_
    have hchan : (d.port ch).chan = d.chan ch := rfl
    rw [Channel.rxInterrupt, hchan]
    split_ifs <;> rfl
  inputPort := h.reported.port
  misr := rfl

/-- **The interrupts stay consistent** in every run of the device. -/
theorem always_interruptsConsistent (storage : Device) (es : List (Event ⊕ ChannelId)) :
    Run.Always stepOrReset InterruptsConsistent (powerOn storage) es := by
  have hsettled : Run.Always stepOrReset Settled (powerOn storage) es :=
    Run.always_of_step (fun _ e h ↦ h.stepOrReset e) (settled_powerOn storage) es
  exact hsettled.imp fun d h ↦ h.interruptsConsistent

end Device

end RoscoEmulator.Duart
