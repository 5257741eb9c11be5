import RoscoEmulator.Duart.Interrupts

/-!
# The registers that are the owner's own

A channel reaches the interrupt status and the output callbacks of the DUART and nothing else of it.
`Uart.own` is what is left of the owner's registers when these are blotted out: the auxiliary
control register, the input port, the counter/timer with its preset, the clocks and the time. No
call into a channel changes it, so a property of these registers is about the owner's half of each
event only. -/

namespace RoscoEmulator.Duart

namespace Uart

/-- The registers of the owner that no channel reaches: the others are blotted out. -/
def own (u : Uart) : Uart :=
  { u with
    isr := 0, opr := 0, irqState := false, readVector := false
    writeIrq := [], writeATx := [], writeBTx := [], writeOutport := [] }

variable (u : Uart)

@[simp] theorem own_updateInterrupts : u.updateInterrupts.own = u.own := by
  obtain ⟨_, _, _, _, _, h⟩ := u.exists_updateInterrupts
  rw [h]
  rfl

@[simp] theorem own_setIsrBits (mask : BitVec 8) : (u.setIsrBits mask).own = u.own := by
  rw [setIsrBits]
  split_ifs
  · exact own_updateInterrupts _
  · rfl

@[simp] theorem own_clearIsrBits (mask : BitVec 8) : (u.clearIsrBits mask).own = u.own := by
  rw [clearIsrBits]
  split_ifs
  · exact own_updateInterrupts _
  · rfl

@[simp] theorem own_writeTx (ch : ChannelId) (bit : Bool) : (u.writeTx ch bit).own = u.own := by
  cases ch <;> rfl

@[simp] theorem own_assertCounterReady : u.assertCounterReady.own = u.own := by
  rw [assertCounterReady]
  split_ifs <;> rfl

/-- A line of the input port writes the two copies of the levels. -/
theorem exists_own_inputPortW (line : Fin 7) (state : Bool) (u : Uart) : ∃ ipcr ipLastState,
    (u.inputPortW line state).own = { u.own with ipcr := ipcr, ipLastState := ipLastState } := by
  have hnote (i : Fin 4) (newIP : BitVec 8) : ∃ ipcr,
      (u.notePortChange i newIP).own = { u.own with ipcr := ipcr } := by
    simp only [notePortChange]
    split_ifs
    · exact ⟨_, own_setIsrBits _ _⟩
    · exact ⟨_, rfl⟩
    · exact ⟨u.ipcr, rfl⟩
  have hchange (i : Fin 4) : ∃ ipcr ipLastState,
      (u.ipChangeW i state).own = { u.own with ipcr := ipcr, ipLastState := ipLastState } := by
    obtain ⟨ipcr, h⟩ := hnote i
      ((u.ipLastState &&& ~~~(1#8 <<< i.val)) ||| if state then 1#8 <<< i.val else 0)
    exact ⟨ipcr, _, congrArg (fun v : Uart ↦ { v with
      ipLastState :=
        (u.ipLastState &&& ~~~(1#8 <<< i.val)) ||| if state then 1#8 <<< i.val else 0 }) h⟩
  unfold inputPortW
  split
  all_goals first
    | exact hchange _
    | exact ⟨u.ipcr, _, rfl⟩

/-- A channel leaves the owner's own registers alone. -/
theorem Calls.own {ch : ChannelId} {u u' : Uart} (h : Calls ch u u') : u'.own = u.own := by
  refine h.keep (I := fun v ↦ v.own = u.own) (fun v mask _ hv ↦ ?_) (fun v mask _ hv ↦ ?_)
    (fun v bit hv ↦ ?_) rfl
  · rw [own_setIsrBits, hv]
  · rw [own_clearIsrBits, hv]
  · rw [own_writeTx, hv]

end Uart

namespace Device

@[simp] theorem own_onPort (d : Device) (ch : ChannelId) (op : Operation) :
    (d.onPort ch op.apply).uart.own = d.uart.own := by
  rw [uart_onPort]
  exact (called_apply op (d.port ch)).calls.own

/-! ## The owner's half of an event -/

/-- The counter/timer after its expiry, at the time when it expires. -/
def expired (d : Device) : Uart :=
  { d.uart with
    time := d.uart.duartTimer.expire
    duartTimer := { d.uart.duartTimer with enabled := false } }

/-- What an expiry of the counter/timer does to the owner's own registers. -/
def ownerCtTimer (d : Device) : Uart :=
  if d.uart.duartTimer.enabled && !d.uart.duartTimer.expire.isNever then
    if d.uart.acr &&& 0x40 ≠ 0 then
      { d.expired with
        halfPeriod := d.uart.halfPeriod ^^^ 1
        duartTimer := .adjust d.uart.duartTimer.expire (.fromTicks d.ctPreset d.getCtRate) }
    else { d.expired with
        duartTimer := .adjust d.uart.duartTimer.expire (.fromTicks 0xffff d.getCtRate) }
  else d.uart

/-- What a register read does to the owner's own registers. -/
def ownerRead (d : Device) (offset : BitVec 4) : Uart :=
  match offset.toNat with
  | 0x4 => { d.uart with ipcr := d.uart.ipcr &&& 0x0f }
  | 0xe =>
      { d.uart with
        halfPeriod := if d.uart.acr &&& 0x40 ≠ 0 then 0 else d.uart.halfPeriod
        duartTimer := .adjust d.uart.time (.fromTicks d.ctPreset d.getCtRate) }
  | 0xf =>
      if d.uart.acr &&& 0x40 = 0 then
        { d.uart with duartTimer := { d.uart.duartTimer with enabled := false } }
      else d.uart
  | _ => d.uart

/-- What a register write does to the owner's own registers. -/
def ownerWrite (d : Device) (offset : BitVec 4) (data : BitVec 8) : Uart :=
  match offset.toNat with
  | 0x2 => (d.uart.extendBit .a (data >>> 4).toNat).getD d.uart
  | 0x4 => (d.changeMode data).uart
  | 0x5 => { d.uart with imr := data }
  | 0x6 => { d.uart with ctr := data ++ d.uart.ctr.setWidth 8 }
  | 0x7 => { d.uart with ctr := (d.uart.ctr >>> 8).setWidth 8 ++ data }
  | 0xa => (d.uart.extendBit .b (data >>> 4).toNat).getD d.uart
  | 0xc => { d.uart with ivr := data }
  | 0xd => { d.uart with opcr := data }
  | _ => d.uart

/-- The owner's own registers after an event. -/
def ownerStep (d : Device) : Event → Uart
  | .read offset => d.ownerRead offset
  | .write offset data => d.ownerWrite offset data
  | .inputPort line state => d.uart.inputPortW line state
  | .ctTimer => d.ownerCtTimer
  | .advance time => { d.uart with time := time }
  | .reset => d.uart.deviceReset
  | .irqVector | .rxLine _ _ | .traClock _ | .rcvClock _ => d.uart

section Events

variable (d : Device)

theorem own_timerDrives (ch : ChannelId) (state : Bool) :
    (d.timerDrives ch state).uart.own = d.uart.own := by
  have htx (d : Device) := own_onPort d ch (.tx16xClockW state)
  have hrx (d : Device) := own_onPort d ch (.rx16xClockW state)
  simp only [timerDrives]
  split_ifs
  · exact (hrx _).trans (htx d)
  · exact hrx d
  · exact htx d
  · rfl

theorem own_read (offset : BitVec 4) : (d.read offset).2.uart.own = (d.ownerRead offset).own := by
  have hport (ch : ChannelId) (reg : ℕ) : (d.readPort ch reg).2.uart.own = d.uart.own :=
    own_onPort d ch (.read reg)
  rw [read]
  split
  case h_16 =>
    have hlast : offset.toNat = 0xf := by
      simp only [imp_false] at *
      omega
    simp only [ownerRead, hlast]
    refine (Uart.own_clearIsrBits _ _).trans ?_
    split
    · split <;> rfl
    · rfl
  all_goals simp only [ownerRead, *]
  case h_5 => exact Uart.own_clearIsrBits _ _
  case h_15 => split <;> rfl

theorem own_writeCommand (ch : ChannelId) (data : BitVec 8) :
    (d.writeCommand ch data).uart.own =
      ((d.uart.extendBit ch (data >>> 4).toNat).getD d.uart).own := by
  rw [writeCommand]
  split
  · rename_i u hu
    rw [hu]
    exact (own_onPort _ ch (.write 2 (baseCommand data))).trans
      (own_onPort (d.onUart fun _ ↦ u) ch .baudUpdated)
  · rename_i hu
    rw [hu]
    exact own_onPort d ch (.write 2 (baseCommand data))

theorem own_writeACR (data : BitVec 8) :
    (d.writeACR data).uart.own = (d.changeMode data).uart.own := by
  have hset : (d.setACR data).uart.own = (d.changeMode data).uart.own := by
    change (if (((d.changeMode data).uart.ipcr >>> 4) &&& data) &&& 0x0f ≠ 0 then
      (d.changeMode data).onUart (Uart.setIsrBits intInputPortChange) else
      d.changeMode data).uart.own = _
    split_ifs
    · exact Uart.own_setIsrBits _ _
    · rfl
  rw [writeACR]
  exact (own_onPort _ .b .updateInterrupts).trans ((own_onPort _ .a .updateInterrupts).trans
    ((own_onPort _ .b .baudUpdated).trans ((own_onPort _ .a .baudUpdated).trans hset)))

theorem own_write (offset : BitVec 4) (data : BitVec 8) :
    (d.write offset data).uart.own = (d.ownerWrite offset data).own := by
  have hwrite (ch : ChannelId) (reg : ℕ) := own_onPort d ch (.write reg data)
  rw [write]
  split <;> simp only [ownerWrite, *]
  case h_1 => exact hwrite .a 0
  case h_2 => exact hwrite .a 1
  case h_3 => exact own_writeCommand d .a data
  case h_4 => exact hwrite .a 3
  case h_5 => exact own_writeACR d data
  case h_6 => exact Uart.own_updateInterrupts _
  case h_9 => exact hwrite .b 0
  case h_10 => exact hwrite .b 1
  case h_11 => exact own_writeCommand d .b data
  case h_12 => exact hwrite .b 3
  all_goals rfl

theorem own_startCt {d d' : Device} (hown : d'.uart.own = d.uart.own)
    (hrate : d'.getCtRate = d.getCtRate) (count : ℕ) : (d'.startCt count).uart.own =
      { d.uart.own with duartTimer := .adjust d.uart.time (.fromTicks count d.getCtRate) } := by
  have htime : d'.uart.time = d.uart.time := congrArg (·.time) hown
  have hstart : (d'.startCt count).uart.own =
    { d'.uart.own with duartTimer := .adjust d'.uart.time (.fromTicks count d'.getCtRate) } := rfl
  rw [hstart, hown, htime, hrate]

/-- In timer mode the clock of the counter/timer is the owner's own. -/
theorem getCtRate_of_own {d d' : Device} (hown : d'.uart.own = d.uart.own)
    (hmode : d.uart.acr &&& 0x40 ≠ 0) : d'.getCtRate = d.getCtRate := by
  have hacr : d'.uart.acr = d.uart.acr := congrArg (·.acr) hown
  have hclock : d'.uart.clock = d.uart.clock := congrArg (·.clock) hown
  rw [getCtRate, getCtRate, hacr, hclock]
  simp only [if_pos hmode]

theorem own_duartTimerCallback : d.duartTimerCallback.uart.own =
    if d.uart.acr &&& 0x40 ≠ 0 then
      { d.uart.own with
        halfPeriod := d.uart.halfPeriod ^^^ 1
        duartTimer := .adjust d.uart.time (.fromTicks d.ctPreset d.getCtRate) }
    else { d.uart.own with duartTimer := .adjust d.uart.time (.fromTicks 0xffff d.getCtRate) } := by
  rw [duartTimerCallback]
  split_ifs with hmode
  · -- the half period is toggled, and the clock inputs and the interrupt leave it alone
    let d' : Device := d.onUart fun u ↦ { u with halfPeriod := u.halfPeriod ^^^ 1 }
    have htoggle : (d.onUart Uart.toggleTimer).uart.own = d'.uart.own := by
      rw [uart_onUart, Uart.toggleTimer]
      split_ifs <;> rfl
    have hdriven (state : Bool) := ((own_timerDrives _ .b state).trans
      (own_timerDrives (d.onUart Uart.toggleTimer) .a state)).trans htoggle
    have hstart {d'' : Device} (hown : d''.uart.own = d'.uart.own) :
        (d''.startCt d''.ctPreset).uart.own = { d'.uart.own with
          duartTimer := .adjust d.uart.time (.fromTicks d.ctPreset d.getCtRate) } := by
      have hctr : d''.uart.ctr = d.uart.ctr := congrArg (·.ctr) hown
      have hpreset : d''.ctPreset = d.ctPreset := by rw [ctPreset, ctPreset, hctr]
      rw [hpreset]
      exact own_startCt hown (getCtRate_of_own hown hmode) d.ctPreset
    refine hstart ?_
    split_ifs
    · exact (Uart.own_setIsrBits _ _).trans (hdriven _)
    · exact hdriven _
  · have hown : (d.onUart fun u ↦ u.assertCounterReady.setIsrBits intCounterReady).uart.own =
        d.uart.own :=
      (Uart.own_setIsrBits d.uart.assertCounterReady _).trans (Uart.own_assertCounterReady d.uart)
    refine own_startCt hown ?_ 0xffff
    have hacr : (d.uart.assertCounterReady.setIsrBits intCounterReady).acr = d.uart.acr :=
      congrArg (·.acr) hown
    have hclock : (d.uart.assertCounterReady.setIsrBits intCounterReady).clock = d.uart.clock :=
      congrArg (·.clock) hown
    rw [getCtRate, getCtRate, uart_onUart, hacr, hclock]
    rfl

theorem own_ctTimer : d.ctTimer.uart.own = d.ownerCtTimer.own := by
  rw [ctTimer, ownerCtTimer]
  by_cases hrun : (d.uart.duartTimer.enabled && !d.uart.duartTimer.expire.isNever) = true
  · rw [if_pos hrun, if_pos hrun]
    refine (own_duartTimerCallback _).trans ?_
    by_cases hmode : d.uart.acr &&& 0x40 ≠ 0
    · rw [if_pos hmode]
      exact if_pos hmode
    · rw [if_neg hmode]
      exact if_neg hmode
  · rw [if_neg hrun, if_neg hrun]

/-- **What an event does to the owner's own registers**: the owner's half of it. -/
theorem own_step (e : Event) : (d.step e).uart.own = (d.ownerStep e).own := by
  cases e with
  | read offset => exact own_read d offset
  | write offset data => exact own_write d offset data
  | irqVector => rfl
  | rxLine ch state => exact own_onPort d ch (.rxW state)
  | inputPort line state => rfl
  | traClock ch => exact own_onPort d ch .traClock
  | rcvClock ch => exact own_onPort d ch .rcvClock
  | ctTimer => exact own_ctTimer d
  | advance time => rfl
  | reset =>
    exact (own_onPort _ .b .reset).trans (own_onPort (d.onUart Uart.deviceReset) .a .reset)

end Events

end Device

end RoscoEmulator.Duart
