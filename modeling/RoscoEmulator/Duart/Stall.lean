import RoscoEmulator.Duart.Pipeline

/-!
# A transmitter that waits for ever

`Stalled` is the state that the transmitter must not reach: enabled in normal mode with a clock
rate, `TxRDY` clear, and nothing in the shift register. No clock edge leads out of it, and as long
as the transmitter is not stalled, clock edges alone set `TxRDY` again.

Two kinds of step lead into it. A new baud rate empties the shift register and stops its clock, and
a byte that waits in the holding register, or was just about to leave it, is then never sent for.
And in the echoing modes `TxRDY` is held low, so that leaving such a mode with an empty register
finds it low with nothing to send. `TxGuard` says exactly when a step does one of these.
-/

namespace RoscoEmulator.Duart

open Device

/-- The transmitter waits for a clock edge that will not come. -/
structure Stalled (c : Channel) : Prop where
  enabled : c.txEnabled = true
  normal : c.mode = modeNormal
  rate : c.serial.traRate.isNever = false
  notReady : c.txReady = false
  empty : c.serial.traEmpty = true

variable {c : Channel} {p : Port} (data : BitVec 8) {ch : ChannelId} {d : Device} {rates : Rates}
  {ops : List Operation} {op : Operation}

theorem TxSame.stalled {c' : Channel} (hs : TxSame c c') (h : Stalled c) : Stalled c' := by
  have hser := hs.sameTransmitter
  exact ⟨hs.txEnabled ▸ h.enabled, hs.mode ▸ h.normal, hser.traRate ▸ h.rate,
    hs.txReady ▸ h.notReady, hser.traEmpty ▸ h.empty⟩

theorem TxSame.stalled_iff {c' : Channel} (hs : TxSame c c') : Stalled c' ↔ Stalled c :=
  ⟨hs.symm.stalled, hs.stalled⟩

theorem stalled_maskTxReady_iff (c : Channel) : Stalled c.maskTxReady ↔ Stalled c := by
  constructor
  · intro h
    rwa [maskTxReady_of_normal ((mode_maskTxReady c).symm.trans h.normal)] at h
  · intro h
    rwa [maskTxReady_of_normal h.normal]

theorem txClosed_not_stalled : TxClosed fun c ↦ ¬Stalled c where
  same h hs := mt hs.stalled_iff.mp h
  mask h := mt (stalled_maskTxReady_iff _).mp h

/-! ## Steps into a stall -/

theorem not_stalled_of_full (h : c.serial.traEmpty = false) : ¬Stalled c := by
  intro hst
  rw [hst.empty] at h
  cases h

theorem not_stalled_of_ready (h : c.txReady = true) : ¬Stalled c := by
  intro hst
  rw [hst.notReady] at h
  cases h

theorem not_stalled_of_disabled (h : c.txEnabled = false) : ¬Stalled c := by
  intro hst
  rw [hst.enabled] at h
  cases h

/-- In normal mode, a register that empties with nothing in the holding register leaves `TxRDY`
set: the last bit of a frame is not its first. -/
def ReadyWhenEmpty (c : Channel) : Prop :=
  c.serial.traEmpty = true → c.txDataInBuffer = false → c.txEnabled = true → c.mode = modeNormal →
    c.txReady = true

theorem txClosed_readyWhenEmpty : TxClosed ReadyWhenEmpty where
  same h hs := by
    rw [ReadyWhenEmpty, hs.sameTransmitter.traEmpty, hs.txDataInBuffer, hs.txEnabled, hs.mode,
      hs.txReady]
    exact h
  mask {c} h := by
    intro hempty hbuffer henabled hmode
    rw [mode_maskTxReady] at hmode
    rw [maskTxReady_of_normal hmode] at hempty hbuffer henabled ⊢
    exact h hempty hbuffer henabled hmode

theorem readyWhenEmpty_traCallback (h : TxInvariant p.chan) (hne : p.chan.serial.traEmpty = false) :
    ReadyWhenEmpty (traCallback p).chan := by
  refine txClosed_readyWhenEmpty.traCallback (fun hfire ↦ ?_) fun _ _ _ _ _ _ _ ↦
    Channel.txReady_setReady _
  intro hempty hbuffer henabled _
  refine absurd ⟨?_, hbuffer, henabled⟩ hfire
  have hlast : p.chan.serial.traBitCountTransmitted + 1 = p.chan.serial.traBitCount := by
    simpa [Channel.bitSent, Serial.transmitRegisterGetDataBit_snd, hne] using hempty
  have hcount := h.count hne
  rw [BitVec.lt_def, h.bitsTransmitted_succ hne]
  change 1 < _
  omega

section

variable (h : TxInvariant p.chan) (hst : ¬Stalled p.chan)
include h hst

theorem not_stalled_traEdge : ¬Stalled (serialDevice.traEdge p).chan := by
  have hshift : ¬Stalled (serialDevice.traShift p).chan := by
    simp only [SerialDevice.traShift]
    split_ifs with hne hempty
    · refine txClosed_not_stalled.traComplete (fun _ ↦ ?_) fun hbuffer hs ↦ ?_
      · exact not_stalled_of_full (by simp [Channel.setReady, Channel.loaded,
          Serial.transmitRegisterSetup_eq])
      · have hready := readyWhenEmpty_traCallback h hne hempty hbuffer hs.enabled hs.normal
        exact not_stalled_of_ready hready hs
    · exact not_stalled_of_full ((Bool.not_eq_true _).mp hempty)
    · exact hst
  simp only [SerialDevice.traEdge]
  split_ifs
  · exact fun hs ↦ hshift ⟨hs.enabled, hs.normal, hs.rate, hs.notReady, hs.empty⟩
  · exact hshift

theorem not_stalled_txClockW (state : Bool) : ¬Stalled (serialDevice.txClockW state p).chan := by
  let q := serialDevice.update (fun s ↦ { s with traClockState := state }) p
  have hinv : TxInvariant q.chan :=
    ⟨⟨h.frame.startBitCount, h.frame.wordLength, h.frame.stopBitCount⟩, h.sent, h.sent_lt, h.count,
      h.clock, h.ready⟩
  have hq : ¬Stalled q.chan :=
    fun hs ↦ hst ⟨hs.enabled, hs.normal, hs.rate, hs.notReady, hs.empty⟩
  simp only [SerialDevice.txClockW]
  split_ifs
  · exact not_stalled_traEdge hinv hq
  · exact hq
  · exact hst

theorem not_stalled_traClock : ¬Stalled (serialDevice.traClock p).chan := by
  simp only [SerialDevice.traClock]
  split_ifs
  · exact not_stalled_txClockW h hst _
  · exact hst

end

theorem not_stalled_writeTX (hst : ¬Stalled p.chan) (data : BitVec 8) :
    ¬Stalled (writeTX data p).chan :=
  txClosed_not_stalled.writeTX (fun _ ↦ hst) (fun _ hne ↦ not_stalled_of_full hne) fun _ _ ↦
    not_stalled_of_full (by simp [Channel.loaded, Serial.transmitRegisterSetup_eq])

/-- A write to `CR` does not stall the transmitter, and ends a stall if it resets, enables or
disables it. -/
theorem stalled_writeCR_iff (p : Port) :
    Stalled (writeCR data p).chan ↔ Stalled p.chan ∧ crMisc data ≠ 3 ∧ data.getLsbD 3 = false ∧
      ¬(p.chan.cr.getLsbD 2 = false ∧ data.getLsbD 2 = true) := by
  obtain ⟨c, hsame, hc⟩ := txSame_writeCR data p
  have hcr : Stalled (writeCR data p).chan ↔ Stalled c.maskTxReady := by
    rw [hc]
    exact ⟨fun h ↦ ⟨h.enabled, h.normal, h.rate, h.notReady, h.empty⟩,
      fun h ↦ ⟨h.enabled, h.normal, h.rate, h.notReady, h.empty⟩⟩
  rw [hcr, stalled_maskTxReady_iff, hsame.stalled_iff]
  have hcr' : (if crMisc data = 3 then p.chan.transmitterReset else p.chan).cr = p.chan.cr := by
    split_ifs <;> rfl
  simp only [Channel.commanded, hcr']
  by_cases hdisable : data.getLsbD 3 = true
  · rw [if_pos hdisable]
    refine iff_of_false (not_stalled_of_disabled rfl) fun h ↦ ?_
    rw [hdisable] at h
    cases h.2.2.1
  · rw [if_neg hdisable]
    by_cases hedge : p.chan.cr.getLsbD 2 = false ∧ data.getLsbD 2 = true
    · rw [if_pos hedge]
      exact iff_of_false (not_stalled_of_ready (Channel.txReady_transmitterEnabled _))
        fun h ↦ h.2.2.2 hedge
    · rw [if_neg hedge]
      by_cases h3 : crMisc data = 3
      · rw [if_pos h3]
        exact iff_of_false (not_stalled_of_disabled rfl) fun h ↦ h.2.1 h3
      · rw [if_neg h3]
        exact ⟨fun h ↦ ⟨h, h3, (Bool.not_eq_true _).mp hdisable, hedge⟩, And.left⟩

/-- A new baud rate stalls a transmitter that waits for its register to empty. -/
theorem stalled_writeCSR_iff (p : Port) :
    Stalled (writeCSR data p).chan ↔ p.chan.txEnabled = true ∧ p.chan.mode = modeNormal ∧
      p.chan.txReady = false ∧ 0 < p.uart.calcBaud p.chan.ch false (data &&& 0xf) := by
  have hrate := Attotime.isNever_halfBit_iff (p.uart.calcBaud p.chan.ch false (data &&& 0xf))
  constructor
  · intro h
    exact ⟨h.enabled, h.normal, h.notReady, hrate.mp h.rate⟩
  · rintro ⟨henabled, hnormal, hready, hpos⟩
    exact ⟨henabled, hnormal, hrate.mpr hpos, hready, rfl⟩

/-- A write to `MR1` changes nothing here; one to `MR2` can leave an echoing mode. -/
theorem stalled_writeMR_iff (p : Port) :
    Stalled (writeMR data p).chan ↔
      if p.chan.mrPtr = 0 then Stalled p.chan
      else data &&& 0xc0 = modeNormal ∧ p.chan.txEnabled = true ∧
        p.chan.serial.traRate.isNever = false ∧ p.chan.txReady = false ∧
        p.chan.serial.traEmpty = true := by
  have hframing (c : Channel) : Stalled (recalcFraming c) ↔ Stalled c := by
    have hempty : (recalcFraming c).serial.traEmpty = c.serial.traEmpty :=
      (sameRegister_setDataFrame _ _ _ _ c.serial).1
    have hrate : (recalcFraming c).serial.traRate = c.serial.traRate :=
      (sameRegister_setDataFrame _ _ _ _ c.serial).2.2.2.1
    exact ⟨fun h ↦ ⟨h.enabled, h.normal, hrate ▸ h.rate, h.notReady, hempty ▸ h.empty⟩,
      fun h ↦ ⟨h.enabled, h.normal, hrate.symm ▸ h.rate, h.notReady, hempty.symm ▸ h.empty⟩⟩
  simp only [writeMR]
  rw [show ∀ q : Port, (updateInterrupts q).chan = q.chan.maskTxReady from fun _ ↦ rfl,
    stalled_maskTxReady_iff, Port.onChan_chan, hframing]
  split_ifs
  · exact ⟨fun h ↦ ⟨h.enabled, h.normal, h.rate, h.notReady, h.empty⟩,
      fun h ↦ ⟨h.enabled, h.normal, h.rate, h.notReady, h.empty⟩⟩
  · exact ⟨fun h ↦ ⟨h.normal, h.enabled, h.rate, h.notReady, h.empty⟩,
      fun h ↦ ⟨h.2.1, h.1, h.2.2.1, h.2.2.2.1, h.2.2.2.2⟩⟩

/-- The operations that never stall a transmitter. -/
theorem not_stalled_apply (h : TxInvariant p.chan) (hfifo : RxFifo p.chan) (hst : ¬Stalled p.chan)
    (hmode : ∀ data, op ≠ .write 0 data) (hclock : ∀ data, op ≠ .write 1 data)
    (hbaud : op ≠ .baudUpdated) : ¬Stalled (op.apply p).chan := by
  have hI := txClosed_not_stalled
  cases op with
  | read reg => exact hI.readChanReg hst hfifo reg
  | write reg data =>
    simp only [Operation.apply, writeChanReg]
    split
    · exact absurd rfl (hmode data)
    · exact absurd rfl (hclock data)
    · exact fun hs ↦ hst ((stalled_writeCR_iff data p).mp hs).1
    · exact not_stalled_writeTX hst data
    · exact hst
  | baudUpdated => exact absurd rfl hbaud
  | updateInterrupts => exact hI.updateInterrupts hst
  | rxW state => exact hI.onSerial hst (by simp)
  | traClock => exact not_stalled_traClock h hst
  | rcvClock => exact hI.rcvClock hst
  | tx16xClockW state =>
    have hsame (n : BitVec 8) : TxSame p.chan { p.chan with txPrescaler := n } :=
      ⟨rfl, rfl, rfl, rfl, rfl, rfl, rfl, rfl⟩
    have hinv (n : BitVec 8) := txClosed_txInvariant.same h (hsame n)
    have hpre (n : BitVec 8) := hI.same hst (hsame n)
    simp only [Operation.apply, tx16xClockW]
    split_ifs
    · refine not_stalled_txClockW ?_ ?_ _
      · exact hinv _
      · exact hpre _
    · refine not_stalled_txClockW ?_ ?_ _
      · exact hinv _
      · exact hpre _
    · exact hpre _
    · exact hst
  | rx16xClockW state => exact hI.rx16xClockW hst state
  | reset => exact not_stalled_of_disabled (txIdle_channelReset p).disabled

/-! ## Steps of the device -/

/-- A new transmit rate does not find the transmitter waiting. -/
def RateGuard (c : Channel) (baud : ℤ) : Prop :=
  ¬(c.txEnabled = true ∧ c.mode = modeNormal ∧ c.txReady = false ∧ 0 < baud)

/-- When an event does not stall the transmitter of channel `ch`. -/
def TxGuard (ch : ChannelId) (d : Device) : Device.Event → Prop
  | .write offset data =>
      (offset = modeOffset ch → (d.chan ch).mrPtr ≠ 0 → data &&& 0xc0 = modeNormal →
        ¬((d.chan ch).txEnabled = true ∧ (d.chan ch).serial.traRate.isNever = false ∧
          (d.chan ch).txReady = false ∧ (d.chan ch).serial.traEmpty = true)) ∧
      (offset = clockSelectOffset ch →
        RateGuard (d.chan ch) (d.uart.calcBaud ch false (data &&& 0xf))) ∧
      (offset = 0x4 →
        RateGuard (d.chan ch)
          (({ d.uart with acr := data } : Uart).calcBaud ch false ((d.chan ch).csr &&& 0xf))) ∧
      (offset = commandOffset ch → ∀ u, d.uart.extendBit ch (data >>> 4).toNat = some u →
        data.getLsbD 3 = false → ¬((d.chan ch).cr.getLsbD 2 = false ∧ data.getLsbD 2 = true) →
        RateGuard (d.chan ch) (u.calcBaud ch false ((d.chan ch).csr &&& 0xf)))
  | _ => True

/-- The state of a channel that the proofs about its transmitter assume. -/
structure ChannelInvariant (ch : ChannelId) (d : Device) : Prop where
  wired : d.Wired
  rxFifo : RxFifo (d.chan ch)
  transmitter : TxInvariant (d.chan ch)

theorem TxInvariant.acts {l l' : Line} (h : Acts rates ch l ops l') (hfifo : RxFifo l.chan)
    (htx : TxInvariant l.chan) : TxInvariant l'.chan := by
  induction h with
  | nil l => exact htx
  | @cons l l' p op ops hl _ _ ih =>
    subst hl
    exact ih hfifo.apply (htx.apply hfifo op)

theorem ChannelInvariant.step (h : ChannelInvariant ch d) (e : Device.Event) :
    ChannelInvariant ch (d.step e) :=
  ⟨wired_step h.wired e, rxFifo_step h.wired e h.rxFifo,
    .acts (step_line ch h.wired e) h.rxFifo h.transmitter⟩

theorem channelInvariant_powerOn (storage : Device) (ch : ChannelId) :
    ChannelInvariant ch (powerOn storage) := by
  refine ⟨wired_powerOn storage, (rx_powerOn storage ch).1, ?_⟩
  have hw : Device.Wired
      ⟨storage.uart, .construct storage.chanA .a, .construct storage.chanB .b⟩ :=
    fun ch ↦ by cases ch <;> rfl
  obtain ⟨p, -, -, hl⟩ := (step_line ch hw .reset).exists_one
  rw [show (powerOn storage).chan ch = _ from congrArg Line.chan hl]
  exact txInvariant_channelReset p

/-- No operation of the list can stall the transmitter. -/
def NeverStalls (ops : List Operation) : Prop :=
  ∀ op ∈ ops, (∀ data, op ≠ .write 0 data) ∧ (∀ data, op ≠ .write 1 data) ∧ op ≠ .baudUpdated

theorem not_stalled_acts {l l' : Line}
    (h : Acts rates ch l ops l') (hops : NeverStalls ops) (hfifo : RxFifo l.chan)
    (htx : TxInvariant l.chan) (hst : ¬Stalled l.chan) : ¬Stalled l'.chan := by
  induction h with
  | nil l => exact hst
  | @cons l l' p op ops hl _ _ ih =>
    subst hl
    obtain ⟨hmode, hclock, hbaud⟩ := hops op (.head _)
    exact ih (fun op' hop' ↦ hops op' (.tail _ hop')) hfifo.apply (htx.apply hfifo op)
      (not_stalled_apply htx hfifo hst hmode hclock hbaud)

theorem neverStalls_callOn {ch' : ChannelId} (h : NeverStalls ops) :
    NeverStalls (callOn ch' ch ops) := by
  rw [callOn]
  split_ifs
  · exact h
  · simp [NeverStalls]

/-- Only register writes can stall the transmitter. -/
theorem neverStalls_operations (d : Device) (ch : ChannelId) {e : Device.Event}
    (h : ∀ offset data, e ≠ .write offset data) : NeverStalls (d.operations ch e) := by
  cases e with
  | read offset =>
    simp only [operations, readOperations]
    split
    all_goals first
      | exact neverStalls_callOn (by simp [NeverStalls])
      | simp [NeverStalls]
  | write offset data => exact absurd rfl (h offset data)
  | irqVector => simp [operations, NeverStalls]
  | rxLine ch' state => exact neverStalls_callOn (by simp [NeverStalls])
  | inputPort line state => simp [operations, NeverStalls]
  | traClock ch' => exact neverStalls_callOn (by simp [NeverStalls])
  | rcvClock ch' => exact neverStalls_callOn (by simp [NeverStalls])
  | ctTimer =>
    simp only [operations, timerOperations]
    split_ifs <;> simp [NeverStalls]
  | advance time => simp [operations, NeverStalls]
  | reset => simp [operations, NeverStalls]

/-- The state of the channel after a single call. -/
theorem exists_port_of_one {d' : Device} (h : Acts rates ch (d.line ch) [op] (d'.line ch)) :
    ∃ p : Port, p.chan = d.chan ch ∧ p.uart.calcBaud = rates ∧ d'.chan ch = (op.apply p).chan := by
  obtain ⟨p, hl, hu, hl'⟩ := h.exists_one
  exact ⟨p, congrArg Line.chan hl, hu, congrArg Line.chan hl'⟩

theorem exists_port_of_two {d' : Device}
    {op' : Operation} (h : Acts rates ch (d.line ch) [op, op'] (d'.line ch)) :
    ∃ p p' : Port, p.chan = d.chan ch ∧ p.uart.calcBaud = rates ∧ p'.chan = (op.apply p).chan ∧
      d'.chan ch = (op'.apply p').chan := by
  obtain ⟨p, hl, hu, htail⟩ := h.exists_cons
  obtain ⟨p', hl', -, hl''⟩ := htail.exists_one
  exact ⟨p, p', congrArg Line.chan hl, hu, congrArg Line.chan hl', congrArg Line.chan hl''⟩

theorem getLsbD_baseCommand {i : ℕ} (hi : i < 4) :
    (baseCommand data).getLsbD i = data.getLsbD i := by
  have hmask : ∀ i < 4, (0x0f : BitVec 8).getLsbD i = true := by decide
  rw [baseCommand]
  split_ifs
  · rw [BitVec.getLsbD_and, hmask i hi, Bool.and_true]
  · rfl

section Writes

variable {ch : ChannelId} {d : Device} (hinv : ChannelInvariant ch d)
  (hst : ¬Stalled (d.chan ch)) (data : BitVec 8)
include hinv hst

theorem stalled_write_mode_iff :
    ¬Stalled ((d.step (.write (modeOffset ch) data)).chan ch) ↔
      TxGuard ch d (.write (modeOffset ch) data) := by
  have hacts := step_line ch hinv.wired (.write (modeOffset ch) data)
  have hops : d.operations ch (.write (modeOffset ch) data) = [.write 0 data] := by
    cases ch <;> rfl
  rw [hops] at hacts
  obtain ⟨p, hp, -, hc⟩ := exists_port_of_one hacts
  have hguard : TxGuard ch d (.write (modeOffset ch) data) ↔ ((d.chan ch).mrPtr ≠ 0 →
      data &&& 0xc0 = modeNormal → ¬((d.chan ch).txEnabled = true ∧
        (d.chan ch).serial.traRate.isNever = false ∧ (d.chan ch).txReady = false ∧
        (d.chan ch).serial.traEmpty = true)) := by
    cases ch <;> simp [TxGuard, modeOffset, clockSelectOffset, commandOffset]
  rw [hguard, hc]
  rw [← hp] at hst ⊢
  change ¬Stalled (writeMR data p).chan ↔ _
  rw [stalled_writeMR_iff]
  split_ifs with hptr
  · exact iff_of_true hst fun h ↦ absurd hptr h
  · exact ⟨fun h _ hmode hwait ↦ h ⟨hmode, hwait⟩, fun h hwait ↦ h hptr hwait.1 hwait.2⟩

omit hst in
theorem stalled_write_clockSelect_iff :
    ¬Stalled ((d.step (.write (clockSelectOffset ch) data)).chan ch) ↔
      TxGuard ch d (.write (clockSelectOffset ch) data) := by
  have hacts := step_line ch hinv.wired (.write (clockSelectOffset ch) data)
  have hops : d.operations ch (.write (clockSelectOffset ch) data) = [.write 1 data] := by
    cases ch <;> rfl
  have hrates : d.ratesAfter (.write (clockSelectOffset ch) data) = d.uart.calcBaud := by
    cases ch <;> rfl
  rw [hops, hrates] at hacts
  obtain ⟨p, hp, hu, hc⟩ := exists_port_of_one hacts
  have hguard : TxGuard ch d (.write (clockSelectOffset ch) data) ↔
      RateGuard (d.chan ch) (d.uart.calcBaud ch false (data &&& 0xf)) := by
    cases ch <;> simp [TxGuard, modeOffset, clockSelectOffset, commandOffset]
  rw [hguard, hc, RateGuard, not_iff_not]
  change Stalled (writeCSR data p).chan ↔ _
  rw [stalled_writeCSR_iff, hu, hp, hinv.wired ch]

omit hst in
theorem stalled_write_acr_iff :
    ¬Stalled ((d.step (.write 0x4 data)).chan ch) ↔ TxGuard ch d (.write 0x4 data) := by
  have hacts := step_line ch hinv.wired (.write 0x4 data)
  have hops : d.operations ch (.write 0x4 data) = [.baudUpdated, .updateInterrupts] := rfl
  have hrates :
      d.ratesAfter (.write 0x4 data) = ({ d.uart with acr := data } : Uart).calcBaud := rfl
  rw [hops, hrates] at hacts
  obtain ⟨p, p', hp, hu, hp', hc⟩ := exists_port_of_two hacts
  have hguard : TxGuard ch d (.write 0x4 data) ↔ RateGuard (d.chan ch)
      (({ d.uart with acr := data } : Uart).calcBaud ch false ((d.chan ch).csr &&& 0xf)) := by
    cases ch <;> simp [TxGuard, modeOffset, clockSelectOffset, commandOffset]
  rw [hguard, hc, RateGuard, not_iff_not]
  change Stalled p'.chan.maskTxReady ↔ _
  rw [stalled_maskTxReady_iff, hp']
  change Stalled (writeCSR p.chan.csr p).chan ↔ _
  rw [stalled_writeCSR_iff, hu, hp, hinv.wired ch]

theorem stalled_write_command_iff :
    ¬Stalled ((d.step (.write (commandOffset ch) data)).chan ch) ↔
      TxGuard ch d (.write (commandOffset ch) data) := by
  have hacts := step_line ch hinv.wired (.write (commandOffset ch) data)
  have hops : d.operations ch (.write (commandOffset ch) data) = commandOperations data := by
    cases ch <;> rfl
  have hrates : d.ratesAfter (.write (commandOffset ch) data) =
      ((d.uart.extendBit ch (data >>> 4).toNat).getD d.uart).calcBaud := by
    cases ch <;> rfl
  have hextend := Uart.extendBit_eq_none_iff ch (data >>> 4).toNat d.uart
  have hguard : TxGuard ch d (.write (commandOffset ch) data) ↔
      ∀ u, d.uart.extendBit ch (data >>> 4).toNat = some u → data.getLsbD 3 = false →
        ¬((d.chan ch).cr.getLsbD 2 = false ∧ data.getLsbD 2 = true) →
        RateGuard (d.chan ch) (u.calcBaud ch false ((d.chan ch).csr &&& 0xf)) := by
    cases ch <;> simp only [TxGuard, modeOffset, clockSelectOffset, commandOffset] <;> simp
  rw [hops, hrates, commandOperations] at hacts
  rw [hguard]
  cases hu : d.uart.extendBit ch (data >>> 4).toNat with
  | none =>
    rw [if_neg (hextend.mp hu)] at hacts
    obtain ⟨p, hp, -, hc⟩ := exists_port_of_one hacts
    rw [hc]
    refine iff_of_true (fun hs ↦ ?_) (fun _ h ↦ by cases h)
    rw [← hp] at hst
    exact hst ((stalled_writeCR_iff _ p).mp hs).1
  | some u =>
    have hcmd : 0x8 ≤ (data >>> 4).toNat ∧ (data >>> 4).toNat < 0xc :=
      not_not.mp (mt hextend.mpr (by rw [hu]; simp))
    rw [if_pos hcmd, hu, Option.getD_some] at hacts
    obtain ⟨p, p', hp, hrate, hp', hc⟩ := exists_port_of_two hacts
    -- the rate changes first, and the rest of the byte may then enable or disable the transmitter
    have hbase : baseCommand data = data &&& 0x0f := if_pos hcmd.1
    have hmisc : crMisc (baseCommand data) ≠ 3 := by
      have hlow : (data &&& 0x0f) >>> 4 = 0 := by
        have hle : (data &&& 0x0f).toNat ≤ 15 := by
          rw [BitVec.toNat_and]
          exact Nat.and_le_right
        refine BitVec.eq_of_toNat_eq ?_
        rw [BitVec.toNat_ushiftRight, Nat.shiftRight_eq_div_pow]
        exact Nat.div_eq_of_lt (by omega)
      rw [hbase, crMisc, hlow]
      decide
    have hcr : p'.chan.cr = (d.chan ch).cr := by
      rw [hp', ← hp]
      rfl
    have hstalled : Stalled p'.chan ↔ ¬RateGuard (d.chan ch)
        (u.calcBaud ch false ((d.chan ch).csr &&& 0xf)) := by
      rw [hp', RateGuard, not_not]
      change Stalled (writeCSR p.chan.csr p).chan ↔ _
      rw [stalled_writeCSR_iff, hrate, hp, hinv.wired ch]
    rw [hc]
    change ¬Stalled (writeCR (baseCommand data) p').chan ↔ _
    rw [stalled_writeCR_iff, hstalled, getLsbD_baseCommand data (by decide),
      getLsbD_baseCommand data (by decide), hcr]
    simp only [Option.some.injEq, forall_eq']
    constructor
    · intro h hdisable hedge
      by_contra hrate
      exact h ⟨hrate, hmisc, hdisable, hedge⟩
    · rintro h ⟨hrate, -, hdisable, hedge⟩
      exact hrate (h hdisable hedge)

end Writes

theorem stalled_step_iff (hinv : ChannelInvariant ch d) (hst : ¬Stalled (d.chan ch))
    (e : Device.Event) : ¬Stalled ((d.step e).chan ch) ↔ TxGuard ch d e := by
  have hsafe (h : NeverStalls (d.operations ch e)) : ¬Stalled ((d.step e).chan ch) :=
    not_stalled_acts (step_line ch hinv.wired e) h hinv.rxFifo hinv.transmitter hst
  by_cases hwrite : ∃ offset data, e = .write offset data
  · obtain ⟨offset, data, rfl⟩ := hwrite
    obtain ⟨rfl, -⟩ | ⟨rfl, -⟩ | ⟨rfl, -⟩ | ⟨rfl, hops⟩ | ⟨rfl, -⟩ | ⟨hoff, hops⟩ :=
      writeOperations_cases ch offset data
    · exact stalled_write_mode_iff hinv hst data
    · exact stalled_write_clockSelect_iff hinv data
    · exact stalled_write_command_iff hinv hst data
    · refine iff_of_true (hsafe ?_) ?_
      · rw [operations, hops]
        simp [NeverStalls]
      · cases ch <;> simp [TxGuard, modeOffset, clockSelectOffset, commandOffset, transmitOffset]
    · exact stalled_write_acr_iff hinv data
    · refine iff_of_true (hsafe ?_) ?_
      · rw [operations, hops]
        simp [NeverStalls]
      · exact ⟨fun h ↦ absurd h hoff.1, fun h ↦ absurd h hoff.2.1, fun h ↦ absurd h hoff.2.2.2.2,
          fun h ↦ absurd h hoff.2.2.1⟩
  · have hne : ∀ offset data, e ≠ .write offset data :=
      fun offset data heq ↦ hwrite ⟨offset, data, heq⟩
    refine iff_of_true (hsafe (neverStalls_operations d ch hne)) ?_
    cases e <;> first | trivial | exact absurd rfl (hne _ _)

/-! ## Progress -/

/-- The device after its transmit clock of channel `ch` alone has expired `n` times. -/
def Device.clocked (ch : ChannelId) (n : ℕ) (d : Device) : Device :=
  Run.run Device.step d (List.replicate n (.traClock ch))

theorem Device.port_clocked (ch : ChannelId) (n : ℕ) (d : Device) :
    (d.clocked ch n).port ch = serialDevice.traClock^[n] (d.port ch) := by
  induction n generalizing d with
  | zero => rfl
  | succ n ih =>
    have hstep : (d.step (.traClock ch)).port ch = serialDevice.traClock (d.port ch) := by
      cases ch <;> rfl
    rw [Function.iterate_succ_apply, ← hstep]
    exact ih _

/-- If the transmitter of channel `ch` is enabled in normal mode with a clock rate and `TxRDY` is
clear, then clock edges alone send what the two registers hold and set `TxRDY`. -/
def TxProgress (ch : ChannelId) (d : Device) : Prop :=
  (d.chan ch).txEnabled = true → (d.chan ch).mode = modeNormal →
    (d.chan ch).serial.traRate.isNever = false → (d.chan ch).txReady = false →
    (d.chan ch).serial.traEmpty = false ∧ (d.chan ch).serial.traClock.running = true ∧
      ∃ n, ((d.clocked ch n).chan ch).txReady = true ∧
        ((d.clocked ch n).chan ch).txDataInBuffer = false ∧
        (d.clocked ch n).uart.txLine ch = d.uart.txLine ch ++ (d.chan ch).contents

theorem txProgress_iff (hinv : ChannelInvariant ch d) : TxProgress ch d ↔ ¬Stalled (d.chan ch) := by
  constructor
  · intro h hs
    exact not_stalled_of_full (h hs.enabled hs.normal hs.rate hs.notReady).1 hs
  · intro hst henabled hnormal hrate hready
    have htx := hinv.transmitter
    have hfull : (d.chan ch).serial.traEmpty = false :=
      (Bool.not_eq_true _).mp fun hempty ↦ hst ⟨henabled, hnormal, hrate, hready, hempty⟩
    have hclocked : Clocked (d.port ch).chan :=
      ⟨htx, hnormal, hrate, fun hempty ↦ absurd hempty ((Bool.not_eq_true _).mpr hfull)⟩
    obtain ⟨n, hcl, hdone, hset, hline⟩ := exists_drained hclocked
    -- the clock never stalls the transmitter, so where it has drained, `TxRDY` is set
    have hkeep : TxInvariant (serialDevice.traClock^[n] (d.port ch)).chan ∧
        ¬Stalled (serialDevice.traClock^[n] (d.port ch)).chan :=
      Function.Iterate.rec (fun p : Port ↦ TxInvariant p.chan ∧ ¬Stalled p.chan) ⟨htx, hst⟩
        (fun p h ↦ ⟨txInvariant_traClock h.1, not_stalled_traClock h.1 h.2⟩) n
    rw [← port_clocked] at hcl hdone hset hline hkeep
    have hready' : ((d.clocked ch n).chan ch).txReady = true := by
      by_contra hnot
      exact hkeep.2 ⟨hset.txEnabled.trans henabled, hcl.normal, hcl.rate,
        (Bool.not_eq_true _).mp hnot, hdone⟩
    refine ⟨hfull, htx.clock hfull hrate, n, hready', hkeep.1.ready hready', ?_⟩
    rwa [show (d.port ch).chan.ch = ch from hinv.wired ch] at hline

theorem stalled_powerOn (storage : Device) (ch : ChannelId) :
    ¬Stalled ((powerOn storage).chan ch) := by
  have hw : Device.Wired
      ⟨storage.uart, .construct storage.chanA .a, .construct storage.chanB .b⟩ :=
    fun ch ↦ by cases ch <;> rfl
  obtain ⟨p, -, -, hc⟩ := exists_port_of_one (step_line ch hw .reset)
  rw [show (powerOn storage).chan ch = _ from hc]
  exact not_stalled_of_disabled (txIdle_channelReset p).disabled

/-- **When a transmitter keeps going.** In every state of a run of the device from power on, clock
edges alone set `TxRDY` again, exactly if no step of the run changes the rate of a waiting
transmitter or leaves an echoing mode with nothing in the register. -/
theorem txProgress_always_iff (storage : Device) (ch : ChannelId) (es : List Device.Event) :
    Run.Always Device.step (TxProgress ch) (powerOn storage) es ↔
      Run.Meets Device.step (TxGuard ch) (powerOn storage) es := by
  have hpower := channelInvariant_powerOn storage ch
  refine Run.always_iff_meets (J := ChannelInvariant ch) (fun d e h ↦ h.step e) ?_ hpower
    ((txProgress_iff hpower).mpr (stalled_powerOn storage ch)) es
  intro d e h hP
  rw [txProgress_iff (h.step e)]
  exact stalled_step_iff h ((txProgress_iff h).mp hP) e

/-- Channel A is set up for 9600 baud and enabled. The host sends two characters, the second while
the first is on the line, and then writes the same value to the clock select register once more: the
second character stays in the holding register. -/
theorem txProgress_broken :
    ¬Run.Always Device.step (TxProgress .a) (powerOn default)
      [.write 0x0 0x13, .write 0x0 0x07, .write 0x1 0xbb, .write 0x2 0x05, .write 0x3 0x61,
        .traClock .a, .traClock .a, .traClock .a, .write 0x3 0x62, .write 0x1 0xbb] := by
  intro h
  have hprogress := h.last (by decide +kernel) (by decide +kernel) (by decide +kernel)
    (by decide +kernel)
  exact absurd hprogress.1 (by decide +kernel)

end RoscoEmulator.Duart
