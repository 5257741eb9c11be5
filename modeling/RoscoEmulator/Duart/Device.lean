import RoscoEmulator.Duart.Calls
import RoscoEmulator.Lib.GuardedRun

/-!
# The XR68C681 DUART

The device is the owner's registers and two channels. The host sees sixteen registers; the board
drives the input port and the two receive lines; three kinds of timer call back into the device. An
`Event` is any one of these, and `step` is what the device does on it.

`step_line` is the interface of this file to the proofs about a single channel: what an event does
to a channel and its transmit line is a short list of channel operations, `operations`, each called
with some state of the owner whose baud rate selection is `ratesAfter`.

Reading the interrupt vector is modelled as the CPU's acknowledge cycle does it, with side effects
enabled, and `read_inport` as unset, as the board leaves it.
-/

namespace RoscoEmulator.Duart

/-! ## The counter/timer -/

namespace CtTimer

/-- `emu_timer::adjust` at time `now`, with no period. -/
def adjust (now delay : Attotime) : CtTimer :=
  { enabled := true
    expire := now + if delay.seconds < 0 then .zero else delay }

/-- `emu_timer::remaining`. -/
def remaining (now : Attotime) (t : CtTimer) : Attotime :=
  if t.expire ≤ now then .zero else t.expire - now

end CtTimer

def intInputPortChange : BitVec 8 := 0x80
def intCounterReady : BitVec 8 := 0x08

/-! ## Input port, extend bits and reset -/

/-- The extend bit commands of a channel: the owner's registers after a command that selects a baud
rate table, and `none` for the other commands. -/
def Uart.extendBit (ch : ChannelId) (command : ℕ) (u : Uart) : Option Uart :=
  match ch, command with
  | .a, 0x8 => some { u with xrxa := true }
  | .a, 0x9 => some { u with xrxa := false }
  | .a, 0xa => some { u with xtxa := true }
  | .a, 0xb => some { u with xtxa := false }
  | .b, 0x8 => some { u with xrxb := true }
  | .b, 0x9 => some { u with xrxb := false }
  | .b, 0xa => some { u with xtxb := true }
  | .b, 0xb => some { u with xtxb := false }
  | _, _ => none

/-- A new state of the input port is noted in `IPCR` if it differs from the last, and interrupts if
`ACR` asks for it. -/
def Uart.notePortChange (line : Fin 4) (newIP : BitVec 8) (u : Uart) : Uart :=
  if newIP ≠ u.ipLastState then
    let u := { u with ipcr := (u.ipcr &&& 0xf0) ||| (newIP &&& 0x0f) ||| (0x10#8 <<< line.val) }
    if u.acr &&& (1#8 <<< line.val) ≠ 0 then u.setIsrBits intInputPortChange else u
  else u

/-- A level on one of the input port lines that are watched for changes, `ip0_w` to `ip3_w`. -/
def Uart.ipChangeW (line : Fin 4) (state : Bool) (u : Uart) : Uart :=
  let mask := 1#8 <<< line.val
  let newIP := (u.ipLastState &&& ~~~mask) ||| if state then mask else 0
  { u.notePortChange line newIP with ipLastState := newIP }

/-- `ip4_w` to `ip6_w`, which only keep the level. -/
def Uart.ipLevelW (line : Fin 3) (state : Bool) (u : Uart) : Uart :=
  let mask := 0x10#8 <<< line.val
  { u with ipLastState := (u.ipLastState &&& ~~~mask) ||| if state then mask else 0 }

def Uart.ip0W : Bool → Uart → Uart := ipChangeW 0
def Uart.ip1W : Bool → Uart → Uart := ipChangeW 1
def Uart.ip2W : Bool → Uart → Uart := ipChangeW 2
def Uart.ip3W : Bool → Uart → Uart := ipChangeW 3
def Uart.ip4W : Bool → Uart → Uart := ipLevelW 0
def Uart.ip5W : Bool → Uart → Uart := ipLevelW 1
def Uart.ip6W : Bool → Uart → Uart := ipLevelW 2

/-- A level on one of the seven input port lines. -/
def Uart.inputPortW (line : Fin 7) : Bool → Uart → Uart :=
  match line with
  | 0 => ip0W
  | 1 => ip1W
  | 2 => ip2W
  | 3 => ip3W
  | 4 => ip4W
  | 5 => ip5W
  | 6 => ip6W

/-- The half period of the timer, and its output on `OP3`. -/
def Uart.toggleTimer (u : Uart) : Uart :=
  let u := { u with halfPeriod := u.halfPeriod ^^^ 1 }
  if u.opcr &&& 0xc = 0x4 then
    { u with opr := u.opr ^^^ 0x8, writeOutport := u.writeOutport ++ [u.opr ^^^ 0x8 ^^^ 0xff] }
  else u

/-- The counter ready output on `OP3`. -/
def Uart.assertCounterReady (u : Uart) : Uart :=
  if u.opcr &&& 0xc = 0x4 then { u with opr := u.opr ||| 0x8 } else u

/-- The owner's part of `device_reset`. -/
def Uart.deviceReset (u : Uart) : Uart :=
  { u with
    acr := 0, imr := 0, isr := 0, opcr := 0, opr := 0, ctr := 0, ipcr := 0
    irqState := false
    writeIrq := u.writeIrq ++ [false]
    writeOutport := u.writeOutport ++ [0xff]
    ivr := 0x0f
    readVector := false
    xtxa := false, xrxa := false, xtxb := false, xrxb := false }

/-! ## The register map -/

/-- The registers of a channel. -/
def modeOffset : ChannelId → BitVec 4
  | .a => 0x0
  | .b => 0x8

def clockSelectOffset : ChannelId → BitVec 4
  | .a => 0x1
  | .b => 0x9

def commandOffset : ChannelId → BitVec 4
  | .a => 0x2
  | .b => 0xa

def transmitOffset : ChannelId → BitVec 4
  | .a => 0x3
  | .b => 0xb

/-- The byte that the `68681` half of the device gets of a write to a command register: the commands
that it does not have are taken out. -/
def baseCommand (data : BitVec 8) : BitVec 8 :=
  if 0x8 ≤ (data >>> 4).toNat then data &&& 0x0f else data

/-! ## The device -/

/-- `xr68c681_device`. -/
structure Device where
  uart : Uart
  chanA : Channel
  chanB : Channel
deriving Inhabited

namespace Device

def onUart (f : Uart → Uart) (d : Device) : Device := { d with uart := f d.uart }

/-- `get_channel`. -/
def chan (d : Device) : ChannelId → Channel
  | .a => d.chanA
  | .b => d.chanB

def port (d : Device) (ch : ChannelId) : Port := ⟨d.uart, d.chan ch⟩

/-- Put back a channel and the owner's registers. -/
def setPort (d : Device) (ch : ChannelId) (p : Port) : Device :=
  match ch with
  | .a => { d with uart := p.uart, chanA := p.chan }
  | .b => { d with uart := p.uart, chanB := p.chan }

/-- A method call on a channel. -/
def onPort (ch : ChannelId) (f : Port → Port) (d : Device) : Device := d.setPort ch (f (d.port ch))

/-- `get_ct_rate`. -/
def getCtRate (d : Device) : ℕ :=
  let source := ((d.uart.acr >>> 4) &&& 3).toNat
  if d.uart.acr &&& 0x40 ≠ 0 then
    match source with
    | 3 => d.uart.clock / 16
    | _ => d.uart.clock
  else
    match source with
    | 0 => d.uart.clock
    | 1 => (d.chanA.txBaudRate % 2 ^ 32).toNat
    | 2 => (d.chanB.txBaudRate % 2 ^ 32).toNat
    | _ => d.uart.clock / 16

/-- `get_ct_count`. -/
def getCtCount (d : Device) : BitVec 16 :=
  BitVec.ofNat 16 ((d.uart.duartTimer.remaining d.uart.time).asTicks d.getCtRate)

/-- `start_ct`. -/
def startCt (count : ℕ) (d : Device) : Device :=
  d.onUart fun u ↦ { u with duartTimer := .adjust u.time (.fromTicks count d.getCtRate) }

/-- The preset of the counter/timer, at least one. -/
def ctPreset (d : Device) : ℕ := max d.uart.ctr.toNat 1

/-- The clock inputs of a channel whose `CSR` selects the timer for them. -/
def timerDrives (ch : ChannelId) (state : Bool) (d : Device) : Device :=
  let csr := (d.chan ch).csr
  let d := if csr &&& 0x0f = 0x0d then d.onPort ch (tx16xClockW state) else d
  if csr &&& 0xf0 = 0xd0 then d.onPort ch (rx16xClockW state) else d

/-- `duart_timer_callback`. -/
def duartTimerCallback (d : Device) : Device :=
  if d.uart.acr &&& 0x40 ≠ 0 then
    let d := d.onUart Uart.toggleTimer
    let state := d.uart.halfPeriod != 0
    let d := (d.timerDrives .a state).timerDrives .b state
    let d := if d.uart.halfPeriod = 0 then d.onUart (Uart.setIsrBits intCounterReady) else d
    d.startCt d.ctPreset
  else
    (d.onUart fun u ↦ u.assertCounterReady.setIsrBits intCounterReady).startCt 0xffff

/-- The expiry of the counter/timer: a one-shot timer is disabled before its callback. -/
def ctTimer (d : Device) : Device :=
  if d.uart.duartTimer.enabled && !d.uart.duartTimer.expire.isNever then
    duartTimerCallback (d.onUart fun u ↦
      { u with time := u.duartTimer.expire, duartTimer := { u.duartTimer with enabled := false } })
  else d

/-! ## Registers -/

/-- A register read of one channel. -/
def readPort (ch : ChannelId) (reg : ℕ) (d : Device) : BitVec 8 × Device :=
  let (r, p) := readChanReg reg (d.port ch)
  (r, d.setPort ch p)

/-- `read`, of the `xr68c681` and the two classes it derives from. -/
def read (offset : BitVec 4) (d : Device) : BitVec 8 × Device :=
  match offset.toNat with
  | 0x0 => d.readPort .a 0
  | 0x1 => d.readPort .a 1
  | 0x2 => (d.uart.isr &&& d.uart.imr, d)
  | 0x3 => d.readPort .a 3
  | 0x4 => (d.uart.ipcr, d.onUart fun u ↦
      Uart.clearIsrBits intInputPortChange { u with ipcr := u.ipcr &&& 0x0f })
  | 0x5 => (d.uart.isr, d)
  | 0x6 => ((d.getCtCount >>> 8).setWidth 8, d)
  | 0x7 => (d.getCtCount.setWidth 8, d)
  | 0x8 => d.readPort .b 0
  | 0x9 => d.readPort .b 1
  | 0xa => (0x61, d)
  | 0xb => d.readPort .b 3
  | 0xc => (d.uart.ivr, d)
  | 0xd =>
      let r := d.uart.ipLastState ||| 0x80
      (if d.uart.readVector then r &&& ~~~0x40 else r ||| 0x40, d)
  | 0xe =>
      let d := if d.uart.acr &&& 0x40 ≠ 0 then d.onUart fun u ↦ { u with halfPeriod := 0 } else d
      (0xff, d.startCt d.ctPreset)
  | _ =>
      let d := if d.uart.acr &&& 0x40 = 0 then
          let d := d.onUart fun u ↦ { u with duartTimer := { u.duartTimer with enabled := false } }
          if d.uart.opcr &&& 0xc = 0x4 then d.onUart fun u ↦
            { u with opr := u.opr &&& ~~~0x8 } else d
        else d
      (0xff, d.onUart (Uart.clearIsrBits intCounterReady))

/-- A write to `CRA` or `CRB`. -/
def writeCommand (ch : ChannelId) (data : BitVec 8) (d : Device) : Device :=
  match d.uart.extendBit ch (data >>> 4).toNat with
  | some u =>
      let d := (d.onUart fun _ ↦ u).onPort ch baudUpdated
      d.onPort ch (writeChanReg 2 (baseCommand data))
  | none => d.onPort ch (writeChanReg 2 (baseCommand data))

/-- The owner's half of a write to `ACR`: the timer is started or left, and a pending change of the
input port is looked at with the new mask. -/
def setACR (data : BitVec 8) (d : Device) : Device :=
  let oldAcr := d.uart.acr
  let d := d.onUart fun u ↦ { u with acr := data }
  let d :=
    if (oldAcr ^^^ data) &&& 0x40 ≠ 0 then
      if data &&& 0x40 ≠ 0 then
        (d.onUart fun u ↦ { u with halfPeriod := 0 }).startCt d.ctPreset
      else d.onUart fun u ↦ { u with duartTimer := .adjust u.time .never }
    else d
  if ((d.uart.ipcr >>> 4) &&& data) &&& 0x0f ≠ 0 then
    d.onUart (Uart.setIsrBits intInputPortChange) else d

/-- A write to `ACR`. -/
def writeACR (data : BitVec 8) (d : Device) : Device :=
  let d := d.setACR data
  let d := (d.onPort .a baudUpdated).onPort .b baudUpdated
  (d.onPort .a updateInterrupts).onPort .b updateInterrupts

/-- `write`, of the `xr68c681` and the two classes it derives from. -/
def write (offset : BitVec 4) (data : BitVec 8) (d : Device) : Device :=
  match offset.toNat with
  | 0x0 => d.onPort .a (writeChanReg 0 data)
  | 0x1 => d.onPort .a (writeChanReg 1 data)
  | 0x2 => d.writeCommand .a data
  | 0x3 => d.onPort .a (writeChanReg 3 data)
  | 0x4 => d.writeACR data
  | 0x5 => d.onUart fun u ↦ Uart.updateInterrupts { u with imr := data }
  | 0x6 => d.onUart fun u ↦ { u with ctr := data ++ u.ctr.setWidth 8 }
  | 0x7 => d.onUart fun u ↦ { u with ctr := (u.ctr >>> 8).setWidth 8 ++ data }
  | 0x8 => d.onPort .b (writeChanReg 0 data)
  | 0x9 => d.onPort .b (writeChanReg 1 data)
  | 0xa => d.writeCommand .b data
  | 0xb => d.onPort .b (writeChanReg 3 data)
  | 0xc => d.onUart fun u ↦ { u with ivr := data }
  | 0xd => d.onUart fun u ↦ { u with opcr := data }
  | 0xe => d.onUart fun u ↦
      { u with
        opr := u.opr ||| data, writeOutport := u.writeOutport ++ [(u.opr ||| data) ^^^ 0xff] }
  | _ => d.onUart fun u ↦
      { u with
        opr := u.opr &&& ~~~data
        writeOutport := u.writeOutport ++ [(u.opr &&& ~~~data) ^^^ 0xff] }

/-- `get_irq_vector`. -/
def getIrqVector (d : Device) : BitVec 8 × Device :=
  (d.uart.ivr, d.onUart fun u ↦ { u with readVector := true })

/-- `device_reset` of the owner, and then of its channels. -/
def reset (d : Device) : Device :=
  ((d.onUart Uart.deviceReset).onPort .a channelReset).onPort .b channelReset

/-! ## Events -/

/-- What can happen to the device. -/
inductive Event
  /-- The host reads a register. -/
  | read (offset : BitVec 4)
  /-- The host writes a register. -/
  | write (offset : BitVec 4) (data : BitVec 8)
  /-- The CPU acknowledges the interrupt. -/
  | irqVector
  /-- `rx_a_w` or `rx_b_w`: a level on a receive line. -/
  | rxLine (ch : ChannelId) (state : Bool)
  /-- A level on a line of the input port. -/
  | inputPort (line : Fin 7) (state : Bool)
  /-- The transmit clock timer of a channel expires. -/
  | traClock (ch : ChannelId)
  /-- The receive clock timer of a channel expires. -/
  | rcvClock (ch : ChannelId)
  /-- The counter/timer expires. -/
  | ctTimer
  /-- Time passes. -/
  | advance (time : Attotime)
  /-- The machine is reset. -/
  | reset

/-- The state after an event. -/
def step (d : Device) : Event → Device
  | .read offset => (d.read offset).2
  | .write offset data => d.write offset data
  | .irqVector => d.getIrqVector.2
  | .rxLine ch state => d.onPort ch (Port.onSerial (Serial.rxW state))
  | .inputPort line state => d.onUart (Uart.inputPortW line state)
  | .traClock ch => d.onPort ch serialDevice.traClock
  | .rcvClock ch => d.onPort ch serialDevice.rcvClock
  | .ctTimer => d.ctTimer
  | .advance time => d.onUart fun u ↦ { u with time := time }
  | .reset => d.reset

/-- The device when the machine starts: constructed over arbitrary storage, and reset. -/
def powerOn (storage : Device) : Device :=
  reset ⟨storage.uart, .construct storage.chanA .a, .construct storage.chanB .b⟩

end Device

/-! ## What an event does to one channel -/

/-- The baud rate selection of an owner, as `calcBaud` gives it. -/
abbrev Rates : Type := ChannelId → Bool → BitVec 8 → ℤ

/-- A channel and the levels driven on its transmit line. -/
structure Line where
  chan : Channel
  txd : List Bool

def Port.line (p : Port) (ch : ChannelId) : Line := ⟨p.chan, p.uart.txLine ch⟩

/-- The operations lead from one state of a channel and its line to another, each called with some
state of the owner that has the given baud rate selection. -/
inductive Acts (rates : Rates) (ch : ChannelId) : Line → List Operation → Line → Prop
  | nil (l : Line) : Acts rates ch l [] l
  | cons {l l' : Line} {p : Port} {op : Operation} {ops : List Operation} :
      p.line ch = l → p.uart.calcBaud = rates → Acts rates ch ((op.apply p).line ch) ops l' →
        Acts rates ch l (op :: ops) l'

section Acts

variable {rates : Rates} {ch : ChannelId} {l l' : Line} {op : Operation} {ops : List Operation}

theorem Acts.eq_of_nil (h : Acts rates ch l [] l') : l' = l := by
  cases h
  rfl

theorem Acts.exists_cons (h : Acts rates ch l (op :: ops) l') :
    ∃ p : Port, p.line ch = l ∧ p.uart.calcBaud = rates ∧
      Acts rates ch ((op.apply p).line ch) ops l' := by
  cases h with
  | cons hl hu hrest => exact ⟨_, hl, hu, hrest⟩

theorem Acts.exists_one (h : Acts rates ch l [op] l') :
    ∃ p : Port, p.line ch = l ∧ p.uart.calcBaud = rates ∧ l' = (op.apply p).line ch := by
  obtain ⟨p, hl, hu, hrest⟩ := h.exists_cons
  exact ⟨p, hl, hu, hrest.eq_of_nil⟩

theorem Acts.one {p : Port} (op : Operation) (hu : p.uart.calcBaud = rates) :
    Acts rates ch (p.line ch) [op] ((op.apply p).line ch) :=
  .cons rfl hu (.nil _)

theorem Acts.two {p p' : Port} (op op' : Operation) (hl : p'.line ch = (op.apply p).line ch)
    (hu : p.uart.calcBaud = rates) (hu' : p'.uart.calcBaud = rates) :
    Acts rates ch (p.line ch) [op, op'] ((op'.apply p').line ch) :=
  .cons rfl hu (.cons hl hu' (.nil _))

end Acts

/-! ### What no call into a channel changes

A call leaves the baud rate selection of the owner alone, and the transmit line of the other
channel. -/

namespace Uart

/-- The registers behind the baud rate selection and both transmit lines are the same. -/
structure Same (u u' : Uart) : Prop where
  rates : u'.calcBaud = u.calcBaud
  writeATx : u'.writeATx = u.writeATx
  writeBTx : u'.writeBTx = u.writeBTx

theorem Same.refl (u : Uart) : Same u u := ⟨rfl, rfl, rfl⟩

variable {u u' : Uart}

theorem Same.trans {u'' : Uart} (h : Same u u') (h' : Same u' u'') : Same u u'' :=
  ⟨h'.rates.trans h.rates, h'.writeATx.trans h.writeATx, h'.writeBTx.trans h.writeBTx⟩

theorem Same.txLine (h : Same u u') (ch : ChannelId) : u'.txLine ch = u.txLine ch := by
  cases ch
  · exact h.writeATx
  · exact h.writeBTx

theorem same_driveIrq (u : Uart) : Same u u.driveIrq := by
  rw [driveIrq]
  split_ifs <;> exact ⟨rfl, rfl, rfl⟩

theorem Same.updateInterrupts (h : Same u u') : Same u u'.updateInterrupts := by
  have hirq := h.trans (same_driveIrq u')
  have hopr (opr : BitVec 8) (out : List (BitVec 8)) :
      Same u { u'.driveIrq with opr := opr, writeOutport := out } :=
    ⟨hirq.rates, hirq.writeATx, hirq.writeBTx⟩
  have hvector {u' : Uart} (h : Same u u') : Same u (if u'.isr &&& u'.imr = 0 then
      { u' with readVector := false } else u') := by
    split_ifs
    · exact ⟨h.rates, h.writeATx, h.writeBTx⟩
    · exact h
  rw [Uart.updateInterrupts]
  refine hvector ?_
  split
  · exact hopr _ _
  · exact hirq

theorem Same.setIsrBits (h : Same u u') (mask : BitVec 8) : Same u (u'.setIsrBits mask) := by
  rw [Uart.setIsrBits]
  split_ifs
  · exact Same.updateInterrupts ⟨h.rates, h.writeATx, h.writeBTx⟩
  · exact h

theorem Same.clearIsrBits (h : Same u u') (mask : BitVec 8) : Same u (u'.clearIsrBits mask) := by
  rw [Uart.clearIsrBits]
  split_ifs
  · exact Same.updateInterrupts ⟨h.rates, h.writeATx, h.writeBTx⟩
  · exact h

theorem extendBit_eq_none_iff (ch : ChannelId) (command : ℕ) (u : Uart) :
    u.extendBit ch command = none ↔ ¬(0x8 ≤ command ∧ command < 0xc) := by
  unfold extendBit
  split
  case h_9 =>
    rename_i h1 h2 h3 h4 h5 h6 h7 h8
    simp only [true_iff]
    rintro ⟨hlo, hhi⟩
    obtain rfl | rfl | rfl | rfl : command = 8 ∨ command = 9 ∨ command = 10 ∨ command = 11 := by
      omega
    all_goals cases ch <;> simp_all
  all_goals simp

theorem txLine_extendBit {ch' : ChannelId} {command : ℕ} (h : u.extendBit ch' command = some u')
    (ch : ChannelId) : u'.txLine ch = u.txLine ch := by
  unfold extendBit at h
  split at h
  case h_9 => cases h
  all_goals
    cases h
    cases ch <;> rfl

theorem same_inputPortW (line : Fin 7) (state : Bool) (u : Uart) :
    Same u (u.inputPortW line state) := by
  have hchange (i : Fin 4) : Same u (u.ipChangeW i state) := by
    have hnote (newIP : BitVec 8) : Same u (u.notePortChange i newIP) := by
      simp only [notePortChange]
      split_ifs
      · refine Same.setIsrBits ?_ _
        exact ⟨rfl, rfl, rfl⟩
      · exact ⟨rfl, rfl, rfl⟩
      · exact .refl u
    exact ⟨(hnote _).rates, (hnote _).writeATx, (hnote _).writeBTx⟩
  have hlevel (i : Fin 3) : Same u (u.ipLevelW i state) := ⟨rfl, rfl, rfl⟩
  unfold inputPortW
  split
  all_goals first
    | exact hchange _
    | exact hlevel _

end Uart

theorem same_updateInterrupts (p : Port) : Uart.Same p.uart (updateInterrupts p).uart := by
  have hreport {u : Uart} (hu : Uart.Same p.uart u) (b : Prop) [Decidable b] (mask : BitVec 8) :
      Uart.Same p.uart (if b then u.setIsrBits mask else u.clearIsrBits mask) := by
    split_ifs
    · exact hu.setIsrBits mask
    · exact hu.clearIsrBits mask
  rw [updateInterrupts]
  exact hreport (hreport (.refl _) _ _) _ _

/-- What a call into the channel of a port leaves alone. -/
structure Frame (p p' : Port) : Prop where
  ch : p'.chan.ch = p.chan.ch
  rates : p'.uart.calcBaud = p.uart.calcBaud
  txLine : ∀ ch', ch' ≠ p.chan.ch → p'.uart.txLine ch' = p.uart.txLine ch'

/-- What no call into a channel changes. -/
theorem frame_apply (op : Operation) (p : Port) : Frame p (op.apply p) := by
  have hcalled := called_apply op p
  have hsame {u u' : Uart} (hu : Uart.Same u u') :
      (u.calcBaud = p.uart.calcBaud ∧ ∀ ch', ch' ≠ p.chan.ch → u.txLine ch' = p.uart.txLine ch') →
        u'.calcBaud = p.uart.calcBaud ∧
          ∀ ch', ch' ≠ p.chan.ch → u'.txLine ch' = p.uart.txLine ch' := by
    rintro ⟨hrates, hline⟩
    exact ⟨hu.rates.trans hrates, fun ch' hne ↦ (hu.txLine ch').trans (hline ch' hne)⟩
  have hkept := hcalled.calls.keep (fun u mask _ ↦ hsame (.setIsrBits (.refl u) mask))
    (fun u mask _ ↦ hsame (.clearIsrBits (.refl u) mask)) ?_ ⟨rfl, fun _ _ ↦ rfl⟩
  · exact ⟨hcalled.ch, hkept.1, hkept.2⟩
  · rintro u bit ⟨hrates, hline⟩
    refine ⟨?_, fun ch' hne ↦ ?_⟩
    · cases hc : p.chan.ch <;> exact hrates
    · rw [← hline ch' hne]
      cases hc : p.chan.ch <;> cases ch' <;> first | rfl | exact absurd hc.symm hne

namespace Device

/-- The operations on channel `ch` of calls into channel `ch'`. -/
def callOn (ch' ch : ChannelId) (ops : List Operation) : List Operation :=
  if ch' = ch then ops else []

/-- The operations on channel `ch` of a register read. -/
def readOperations (ch : ChannelId) (offset : BitVec 4) : List Operation :=
  match offset.toNat with
  | 0x0 => callOn .a ch [.read 0]
  | 0x1 => callOn .a ch [.read 1]
  | 0x3 => callOn .a ch [.read 3]
  | 0x8 => callOn .b ch [.read 0]
  | 0x9 => callOn .b ch [.read 1]
  | 0xb => callOn .b ch [.read 3]
  | _ => []

/-- The operations on a channel of a write to its command register. -/
def commandOperations (data : BitVec 8) : List Operation :=
  if 0x8 ≤ (data >>> 4).toNat ∧ (data >>> 4).toNat < 0xc then
    [.baudUpdated, .write 2 (baseCommand data)]
  else [.write 2 (baseCommand data)]

/-- The operations on channel `ch` of a register write. -/
def writeOperations (ch : ChannelId) (offset : BitVec 4) (data : BitVec 8) : List Operation :=
  match offset.toNat with
  | 0x0 => callOn .a ch [.write 0 data]
  | 0x1 => callOn .a ch [.write 1 data]
  | 0x2 => callOn .a ch (commandOperations data)
  | 0x3 => callOn .a ch [.write 3 data]
  | 0x4 => [.baudUpdated, .updateInterrupts]
  | 0x8 => callOn .b ch [.write 0 data]
  | 0x9 => callOn .b ch [.write 1 data]
  | 0xa => callOn .b ch (commandOperations data)
  | 0xb => callOn .b ch [.write 3 data]
  | _ => []

theorem writeOperations_cases (ch : ChannelId) (offset : BitVec 4) (data : BitVec 8) :
    (offset = modeOffset ch ∧ writeOperations ch offset data = [.write 0 data]) ∨
    (offset = clockSelectOffset ch ∧ writeOperations ch offset data = [.write 1 data]) ∨
    (offset = commandOffset ch ∧ writeOperations ch offset data = commandOperations data) ∨
    (offset = transmitOffset ch ∧ writeOperations ch offset data = [.write 3 data]) ∨
    (offset = 0x4 ∧ writeOperations ch offset data = [.baudUpdated, .updateInterrupts]) ∨
    ((offset ≠ modeOffset ch ∧ offset ≠ clockSelectOffset ch ∧ offset ≠ commandOffset ch ∧
      offset ≠ transmitOffset ch ∧ offset ≠ 0x4) ∧ writeOperations ch offset data = []) := by
  have hnat (k : BitVec 4) : offset = k ↔ offset.toNat = k.toNat :=
    ⟨congrArg _, BitVec.eq_of_toNat_eq⟩
  unfold writeOperations
  split <;> rename_i h <;> cases ch <;>
    simp_all [callOn, modeOffset, clockSelectOffset, commandOffset, transmitOffset]

/-- The operations on channel `ch` of the counter/timer in timer mode. -/
def timerOperations (state : Bool) (csr : BitVec 8) : List Operation :=
  (if csr &&& 0x0f = 0x0d then [.tx16xClockW state] else []) ++
    if csr &&& 0xf0 = 0xd0 then [.rx16xClockW state] else []

/-- The operations on channel `ch` of an event. -/
def operations (d : Device) (ch : ChannelId) : Event → List Operation
  | .read offset => readOperations ch offset
  | .write offset data => writeOperations ch offset data
  | .rxLine ch' state => callOn ch' ch [.rxW state]
  | .traClock ch' => callOn ch' ch [.traClock]
  | .rcvClock ch' => callOn ch' ch [.rcvClock]
  | .ctTimer =>
      if d.uart.duartTimer.enabled && !d.uart.duartTimer.expire.isNever then
        if d.uart.acr &&& 0x40 ≠ 0 then
          timerOperations (d.uart.halfPeriod ^^^ 1 != 0) (d.chan ch).csr
        else []
      else []
  | .reset => [.reset]
  | .irqVector | .inputPort _ _ | .advance _ => []

/-- The baud rate selection the operations of an event are called with. -/
def ratesAfter (d : Device) : Event → Rates
  | .write offset data =>
      match offset.toNat with
      | 0x2 => ((d.uart.extendBit .a (data >>> 4).toNat).getD d.uart).calcBaud
      | 0x4 => ({ d.uart with acr := data } : Uart).calcBaud
      | 0xa => ((d.uart.extendBit .b (data >>> 4).toNat).getD d.uart).calcBaud
      | _ => d.uart.calcBaud
  | .reset => d.uart.deviceReset.calcBaud
  | _ => d.uart.calcBaud

/-- The channels know their own numbers, as `device_start` sets them. -/
def Wired (d : Device) : Prop := ∀ ch, (d.chan ch).ch = ch

/-- A channel of the device and its transmit line. -/
def line (d : Device) (ch : ChannelId) : Line := (d.port ch).line ch

variable (d : Device) (ch : ChannelId)

@[simp] theorem chan_onUart (f : Uart → Uart) : (d.onUart f).chan ch = d.chan ch := by
  cases ch <;> rfl

@[simp] theorem uart_onUart (f : Uart → Uart) : (d.onUart f).uart = f d.uart := rfl

@[simp] theorem uart_onPort (f : Port → Port) : (d.onPort ch f).uart = (f (d.port ch)).uart := by
  cases ch <;> rfl

theorem line_onUart {f : Uart → Uart} (hf : (f d.uart).txLine ch = d.uart.txLine ch) :
    (d.onUart f).line ch = d.line ch := by
  simp only [line, Port.line, port, chan_onUart, uart_onUart, hf]

theorem line_startCt (count : ℕ) : (d.startCt count).line ch = d.line ch :=
  line_onUart d ch (by cases ch <;> rfl)

theorem chan_onPort (ch' : ChannelId) (f : Port → Port) :
    (d.onPort ch' f).chan ch = if ch' = ch then (f (d.port ch)).chan else d.chan ch := by
  cases ch <;> cases ch' <;> rfl

theorem calcBaud_onPort (op : Operation) :
    (d.onPort ch op.apply).uart.calcBaud = d.uart.calcBaud := by
  rw [uart_onPort, (frame_apply op _).rates]
  rfl

variable {d}

theorem Wired.onUart (h : d.Wired) (f : Uart → Uart) : (d.onUart f).Wired := by
  intro ch
  rw [chan_onUart]
  exact h ch

theorem Wired.onPort (h : d.Wired) (ch' : ChannelId) (op : Operation) :
    (d.onPort ch' op.apply).Wired := by
  intro ch
  rw [chan_onPort]
  split_ifs
  · exact (frame_apply op _).ch.trans (h ch)
  · exact h ch

theorem line_onPort_self (op : Operation) :
    (d.onPort ch op.apply).line ch = (op.apply (d.port ch)).line ch := by
  cases ch <;> rfl

theorem line_onPort_of_ne (h : d.Wired) {ch' : ChannelId} (hne : ch' ≠ ch) (op : Operation) :
    (d.onPort ch' op.apply).line ch = d.line ch := by
  have hline : (op.apply (d.port ch')).uart.txLine ch = d.uart.txLine ch :=
    (frame_apply op (d.port ch')).txLine ch fun heq ↦ hne ((h ch').symm.trans heq.symm)
  simp only [line, Port.line, port, chan_onPort, if_neg hne, uart_onPort]
  exact congrArg _ hline

section Calls

variable {rates : Rates} (hw : d.Wired) (hu : d.uart.calcBaud = rates)
include hw hu

theorem acts_onPort (ch' : ChannelId) (op : Operation) :
    Acts rates ch (d.line ch) (callOn ch' ch [op]) ((d.onPort ch' op.apply).line ch) := by
  rw [callOn]
  split_ifs with h
  · subst h
    rw [line_onPort_self]
    exact .one op hu
  · rw [line_onPort_of_ne ch hw h]
    exact .nil _

theorem acts_onPort_onPort (ch' : ChannelId) (op op' : Operation) :
    Acts rates ch (d.line ch) (callOn ch' ch [op, op'])
      (((d.onPort ch' op.apply).onPort ch' op'.apply).line ch) := by
  rw [callOn]
  split_ifs with h
  · subst h
    rw [line_onPort_self]
    exact .two op op' (line_onPort_self ch' op) hu ((calcBaud_onPort d ch' op).trans hu)
  · rw [line_onPort_of_ne ch (hw.onPort ch' op) h, line_onPort_of_ne ch hw h]
    exact .nil _

/-- Both channels are called twice, in turn. -/
theorem acts_both_both (op op' : Operation) :
    Acts rates ch (d.line ch) [op, op']
      (((((d.onPort .a op.apply).onPort .b op.apply).onPort .a op'.apply).onPort .b op'.apply).line
        ch) := by
  have h1 := (calcBaud_onPort d .a op).trans hu
  have h2 := (calcBaud_onPort _ .b op).trans h1
  have h3 := (calcBaud_onPort _ .a op').trans h2
  have hwa := hw.onPort .a op
  have hwb := hwa.onPort .b op
  have hwa' := hwb.onPort .a op'
  cases ch
  · rw [line_onPort_of_ne .a hwa' (by decide), line_onPort_self]
    refine .two op op' ?_ hu h2
    exact (line_onPort_of_ne .a hwa (by decide) op).trans (line_onPort_self .a op)
  · rw [line_onPort_self, ← line_onPort_of_ne .b hw (show ChannelId.a ≠ .b by decide) op]
    refine .two op op' ?_ h1 h3
    exact (line_onPort_of_ne .b hwb (by decide) op').trans (line_onPort_self .b op)

end Calls

theorem exists_setACR (d : Device) (data : BitVec 8) :
    ∃ u : Uart, d.setACR data = d.onUart (fun _ ↦ u) ∧
      Uart.Same { d.uart with acr := data } u := by
  simp only [setACR]
  split_ifs
  all_goals refine ⟨_, rfl, ?_⟩
  all_goals first
    | refine .setIsrBits ?_ _
      exact ⟨rfl, rfl, rfl⟩
    | exact ⟨rfl, rfl, rfl⟩

theorem calcBaud_timerDrives (d : Device) (ch' : ChannelId) (state : Bool) :
    (d.timerDrives ch' state).uart.calcBaud = d.uart.calcBaud := by
  have htx (d : Device) := calcBaud_onPort d ch' (.tx16xClockW state)
  have hrx (d : Device) := calcBaud_onPort d ch' (.rx16xClockW state)
  simp only [timerDrives]
  split_ifs
  · exact (hrx _).trans (htx d)
  · exact hrx d
  · exact htx d
  · rfl

section Events

variable (hw : d.Wired)
include hw

theorem acts_read (offset : BitVec 4) :
    Acts d.uart.calcBaud ch (d.line ch) (readOperations ch offset) ((d.read offset).2.line ch) := by
  have hport (ch' : ChannelId) (reg : ℕ) : Acts d.uart.calcBaud ch (d.line ch)
      (callOn ch' ch [.read reg]) ((d.readPort ch' reg).2.line ch) :=
    acts_onPort ch hw rfl ch' (.read reg)
  have hnil {d' : Device} (h : d'.line ch = d.line ch) :
      Acts d.uart.calcBaud ch (d.line ch) [] (d'.line ch) := h ▸ .nil _
  rw [read]
  split <;> simp only [readOperations, *]
  case h_5 => exact hnil (line_onUart d ch (Uart.Same.txLine (.clearIsrBits ⟨rfl, rfl, rfl⟩ _) ch))
  case h_15 =>
    refine hnil ?_
    rw [line_startCt]
    split_ifs
    · exact line_onUart d ch (by cases ch <;> rfl)
    · rfl
  case h_16 =>
    refine hnil ((line_onUart _ ch (Uart.Same.txLine (.clearIsrBits (.refl _) _) ch)).trans ?_)
    split_ifs
    · exact (line_onUart _ ch (by cases ch <;> rfl)).trans (line_onUart d ch (by cases ch <;> rfl))
    · exact line_onUart d ch (by cases ch <;> rfl)
    · rfl

theorem acts_writeCommand (ch' : ChannelId) (data : BitVec 8) :
    Acts ((d.uart.extendBit ch' (data >>> 4).toNat).getD d.uart).calcBaud ch (d.line ch)
      (callOn ch' ch (commandOperations data)) ((d.writeCommand ch' data).line ch) := by
  have hcmd := Uart.extendBit_eq_none_iff ch' (data >>> 4).toNat d.uart
  rw [writeCommand, commandOperations]
  cases hu : d.uart.extendBit ch' (data >>> 4).toNat with
  | some u =>
    have hline : (d.onUart fun _ ↦ u).line ch = d.line ch :=
      line_onUart d ch (Uart.txLine_extendBit hu ch)
    rw [if_pos (not_not.mp (mt hcmd.mpr (by rw [hu]; simp))), ← hline]
    exact acts_onPort_onPort ch (hw.onUart fun _ ↦ u) rfl ch' .baudUpdated
      (.write 2 (baseCommand data))
  | none =>
    rw [if_neg (hcmd.mp hu)]
    exact acts_onPort ch hw rfl ch' (.write 2 (baseCommand data))

theorem acts_writeACR (data : BitVec 8) :
    Acts ({ d.uart with acr := data } : Uart).calcBaud ch (d.line ch)
      [.baudUpdated, .updateInterrupts] ((d.writeACR data).line ch) := by
  obtain ⟨u, heq, hsame⟩ := exists_setACR d data
  have hline : (d.setACR data).line ch = d.line ch := by
    rw [heq]
    exact line_onUart d ch ((hsame.txLine ch).trans (by cases ch <;> rfl))
  have hw' : (d.setACR data).Wired := heq ▸ hw.onUart fun _ ↦ u
  have hu : (d.setACR data).uart.calcBaud = ({ d.uart with acr := data } : Uart).calcBaud := by
    rw [heq]
    exact hsame.rates
  rw [← hline]
  exact acts_both_both ch hw' hu .baudUpdated .updateInterrupts

theorem acts_write (offset : BitVec 4) (data : BitVec 8) :
    Acts (d.ratesAfter (.write offset data)) ch (d.line ch) (writeOperations ch offset data)
      ((d.write offset data).line ch) := by
  have hnil {rates : Rates} {f : Uart → Uart} (hf : Uart.Same d.uart (f d.uart)) :
      Acts rates ch (d.line ch) [] ((d.onUart f).line ch) :=
    line_onUart d ch (hf.txLine ch) ▸ .nil _
  rw [write]
  split <;> simp only [ratesAfter, writeOperations, *]
  case h_1 => exact acts_onPort ch hw rfl .a (.write 0 data)
  case h_2 => exact acts_onPort ch hw rfl .a (.write 1 data)
  case h_3 => exact acts_writeCommand ch hw .a data
  case h_4 => exact acts_onPort ch hw rfl .a (.write 3 data)
  case h_5 => exact acts_writeACR ch hw data
  case h_6 => exact hnil (.updateInterrupts ⟨rfl, rfl, rfl⟩)
  case h_9 => exact acts_onPort ch hw rfl .b (.write 0 data)
  case h_10 => exact acts_onPort ch hw rfl .b (.write 1 data)
  case h_11 => exact acts_writeCommand ch hw .b data
  case h_12 => exact acts_onPort ch hw rfl .b (.write 3 data)
  all_goals exact hnil ⟨rfl, rfl, rfl⟩

theorem wired_timerDrives (ch' : ChannelId) (state : Bool) : (d.timerDrives ch' state).Wired := by
  have htx {d : Device} (h : d.Wired) := h.onPort ch' (.tx16xClockW state)
  have hrx {d : Device} (h : d.Wired) := h.onPort ch' (.rx16xClockW state)
  simp only [timerDrives]
  split_ifs
  · exact hrx (htx hw)
  · exact hrx hw
  · exact htx hw
  · exact hw

theorem acts_timerDrives {rates : Rates} (hu : d.uart.calcBaud = rates) (ch' : ChannelId)
    (state : Bool) :
    Acts rates ch (d.line ch) (callOn ch' ch (timerOperations state (d.chan ch').csr))
      ((d.timerDrives ch' state).line ch) := by
  have hnil : Acts rates ch (d.line ch) (callOn ch' ch []) (d.line ch) := by
    rw [callOn, ite_self]
    exact .nil _
  simp only [timerDrives, timerOperations]
  split_ifs
  · exact acts_onPort_onPort ch hw hu ch' (.tx16xClockW state) (.rx16xClockW state)
  · exact acts_onPort ch hw hu ch' (.tx16xClockW state)
  · exact acts_onPort ch hw hu ch' (.rx16xClockW state)
  · exact hnil

theorem acts_timerDrives_both {rates : Rates} (hu : d.uart.calcBaud = rates) (state : Bool) :
    Acts rates ch (d.line ch) (timerOperations state (d.chan ch).csr)
      (((d.timerDrives .a state).timerDrives .b state).line ch) := by
  have ha := acts_timerDrives ch hw hu .a state
  have hb := acts_timerDrives ch (wired_timerDrives hw .a state)
    ((calcBaud_timerDrives d .a state).trans hu) .b state
  cases ch
  · rw [hb.eq_of_nil]
    exact ha
  · have hline : (d.timerDrives .a state).line .b = d.line .b := ha.eq_of_nil
    rw [hline,
      show (d.timerDrives .a state).chan .b = d.chan .b from congrArg Line.chan hline] at hb
    exact hb

theorem acts_duartTimerCallback :
    Acts d.uart.calcBaud ch (d.line ch)
      (if d.uart.acr &&& 0x40 ≠ 0 then
        timerOperations (d.uart.halfPeriod ^^^ 1 != 0) (d.chan ch).csr else [])
      (d.duartTimerCallback.line ch) := by
  rw [duartTimerCallback]
  split_ifs
  · have hsame : Uart.Same d.uart d.uart.toggleTimer := by
      rw [Uart.toggleTimer]
      split_ifs <;> exact ⟨rfl, rfl, rfl⟩
    have hhalf : (d.onUart Uart.toggleTimer).uart.halfPeriod = d.uart.halfPeriod ^^^ 1 := by
      rw [uart_onUart, Uart.toggleTimer]
      split_ifs <;> rfl
    have hacts := acts_timerDrives_both ch (hw.onUart Uart.toggleTimer) hsame.rates
      (d.uart.halfPeriod ^^^ 1 != 0)
    rw [chan_onUart, line_onUart d ch (hsame.txLine ch)] at hacts
    simp only [line_startCt, hhalf]
    split_ifs
    · rw [line_onUart _ ch (Uart.Same.txLine (.setIsrBits (.refl _) _) ch)]
      exact hacts
    · exact hacts
  · rw [line_startCt, line_onUart]
    · exact .nil _
    · refine Uart.Same.txLine (.setIsrBits ?_ _) ch
      rw [Uart.assertCounterReady]
      split_ifs <;> exact ⟨rfl, rfl, rfl⟩

theorem acts_ctTimer :
    Acts d.uart.calcBaud ch (d.line ch) (d.operations ch .ctTimer) (d.ctTimer.line ch) := by
  rw [operations, ctTimer]
  by_cases hrun : (d.uart.duartTimer.enabled && !d.uart.duartTimer.expire.isNever) = true
  · rw [if_pos hrun, if_pos hrun]
    have hacts := acts_duartTimerCallback ch (hw.onUart fun u ↦
      { u with time := u.duartTimer.expire, duartTimer := { u.duartTimer with enabled := false } })
    cases ch <;> exact hacts
  · rw [if_neg hrun, if_neg hrun]
    exact .nil _

/-- **What an event does to a channel.** -/
theorem step_line (e : Event) :
    Acts (d.ratesAfter e) ch (d.line ch) (d.operations ch e) ((d.step e).line ch) := by
  have hnil {rates : Rates} {f : Uart → Uart} (hf : Uart.Same d.uart (f d.uart)) :
      Acts rates ch (d.line ch) [] ((d.onUart f).line ch) :=
    line_onUart d ch (hf.txLine ch) ▸ .nil _
  cases e with
  | read offset => exact acts_read ch hw offset
  | write offset data => exact acts_write ch hw offset data
  | irqVector => exact hnil ⟨rfl, rfl, rfl⟩
  | rxLine ch' state => exact acts_onPort ch hw rfl ch' (.rxW state)
  | inputPort line state => exact hnil (Uart.same_inputPortW line state d.uart)
  | traClock ch' => exact acts_onPort ch hw rfl ch' .traClock
  | rcvClock ch' => exact acts_onPort ch hw rfl ch' .rcvClock
  | ctTimer => exact acts_ctTimer ch hw
  | advance time => exact hnil ⟨rfl, rfl, rfl⟩
  | reset =>
    have hw0 := hw.onUart Uart.deviceReset
    have hline : (d.onUart Uart.deviceReset).line ch = d.line ch :=
      line_onUart d ch (by cases ch <;> rfl)
    have hb : ((d.onUart Uart.deviceReset).onPort .a Operation.reset.apply).uart.calcBaud =
        d.uart.deviceReset.calcBaud := calcBaud_onPort _ .a .reset
    rw [← hline]
    cases ch
    · have hacts := acts_onPort .a hw0 rfl .a .reset
      rwa [← line_onPort_of_ne .a (hw0.onPort .a .reset)
        (show ChannelId.b ≠ .a by decide) .reset] at hacts
    · have hacts := acts_onPort .b (hw0.onPort .a .reset) hb .b .reset
      rwa [line_onPort_of_ne .b hw0 (show ChannelId.a ≠ .b by decide) .reset] at hacts

theorem wired_step (e : Event) : (d.step e).Wired := by
  intro ch
  have hacts {rates : Rates} {l l' : Line} {ops : List Operation} (h : Acts rates ch l ops l') :
      l'.chan.ch = l.chan.ch := by
    induction h with
    | nil l => rfl
    | cons hl _ _ ih => exact ih.trans ((frame_apply _ _).ch.trans (hl ▸ rfl))
  exact (hacts (step_line ch hw e)).trans (hw ch)

end Events

theorem wired_powerOn (storage : Device) : (powerOn storage).Wired := by
  have hconstruct :
      Wired ⟨storage.uart, .construct storage.chanA .a, .construct storage.chanB .b⟩ := by
    intro ch
    cases ch <;> rfl
  exact wired_step hconstruct .reset

end Device

end RoscoEmulator.Duart
