import RoscoEmulator.Emu.Diserial

/-!
# A channel of the DUART

`duart_channel` is one of the two serial channels of an `xr68c681`. Its methods work on the
channel's own members and on registers of the owning device, which a channel reaches through
`m_uart`: a `Port` is the pair of the two, and every method is a function of a `Port`.

The owner never calls back into the channel from the methods used here, so the channel half of a
`Port` develops independently of the owner's registers, except for the baud rates that `calcBaud`
computes. The values driven on the owner's output callbacks are kept as lists, oldest first.
-/

namespace RoscoEmulator.Duart

/-- `m_ch`: the device has channels A and B. -/
inductive ChannelId
  | a | b
deriving DecidableEq, Repr, Inhabited

/-! ## Bits -/

def statusReceivedBreak : BitVec 8 := 0x80
def statusFramingError : BitVec 8 := 0x40
def statusParityError : BitVec 8 := 0x20
def statusOverrunError : BitVec 8 := 0x10
def statusTransmitterEmpty : BitVec 8 := 0x08
def statusTransmitterReady : BitVec 8 := 0x04
def statusFifoFull : BitVec 8 := 0x02
def statusReceiverReady : BitVec 8 := 0x01

def modeRxIntSelectBit : BitVec 8 := 0x40
def modeBlockError : BitVec 8 := 0x20

/-- `INT_TXRDYA` or `INT_TXRDYB`. -/
def intTxrdy : ChannelId → BitVec 8
  | .a => 0x01
  | .b => 0x10

/-- `INT_RXRDY_FFULLA` or `INT_RXRDY_FFULLB`. -/
def intRxrdyFfull : ChannelId → BitVec 8
  | .a => 0x02
  | .b => 0x20

/-- `INT_DELTA_BREAK_A` or `INT_DELTA_BREAK_B`. -/
def intDeltaBreak : ChannelId → BitVec 8
  | .a => 0x04
  | .b => 0x40

/-- `MC68681_RX_FIFO_SIZE`: one entry fewer than the array holds, the last standing for the
receive shift register. -/
def rxFifoSize : ℕ := 3

/-! ## The owner's registers -/

/-- The counter/timer: an `emu_timer` with no period. -/
structure CtTimer where
  enabled : Bool
  expire : Attotime
deriving Inhabited

/-- The members of the owning `xr68c681_device` other than its channels. -/
structure Uart where
  clock : ℕ
  ip3clk : ℤ
  ip5clk : ℤ
  acr : BitVec 8
  imr : BitVec 8
  isr : BitVec 8
  opcr : BitVec 8
  opr : BitVec 8
  ctr : BitVec 16
  ipcr : BitVec 8
  ipLastState : BitVec 8
  halfPeriod : BitVec 8
  irqState : Bool
  readVector : Bool
  ivr : BitVec 8
  xtxa : Bool
  xrxa : Bool
  xtxb : Bool
  xrxb : Bool
  duartTimer : CtTimer
  /-- The machine's current time. -/
  time : Attotime
  /-- The values driven on `write_irq`. -/
  writeIrq : List Bool
  /-- The levels driven on `write_a_tx`. -/
  writeATx : List Bool
  /-- The levels driven on `write_b_tx`. -/
  writeBTx : List Bool
  /-- The bytes driven on `write_outport`. -/
  writeOutport : List (BitVec 8)
deriving Inhabited

namespace Uart

/-- The interrupt line: driven only when the level changes. -/
def driveIrq (u : Uart) : Uart :=
  if u.isr &&& u.imr ≠ 0 then
    if !u.irqState then { u with irqState := true, writeIrq := u.writeIrq ++ [true] } else u
  else
    if u.irqState then { u with irqState := false, writeIrq := u.writeIrq ++ [false] } else u

/-- Set or clear a mask of output port bits. -/
def oprBit (mask : BitVec 8) (state : Bool) (opr : BitVec 8) : BitVec 8 :=
  if state then opr ||| mask else opr &&& ~~~mask

/-- `update_interrupts` of the base class and its `mc68681_device` override. -/
def updateInterrupts (u : Uart) : Uart :=
  let u := u.driveIrq
  let u :=
    if u.opcr &&& 0xf0 ≠ 0 then
      let opr := u.opr
      let opr := if u.opcr.getLsbD 4 then oprBit 0x10 (u.isr.getLsbD 1) opr else opr
      let opr := if u.opcr.getLsbD 5 then oprBit 0x20 (u.isr.getLsbD 5) opr else opr
      let opr := if u.opcr.getLsbD 6 then oprBit 0x40 (u.isr.getLsbD 0) opr else opr
      let opr := if u.opcr.getLsbD 7 then oprBit 0x80 (u.isr.getLsbD 4) opr else opr
      { u with opr := opr, writeOutport := u.writeOutport ++ [opr ^^^ 0xff] }
    else u
  if u.isr &&& u.imr = 0 then { u with readVector := false } else u

/-- `clear_ISR_bits`. -/
def clearIsrBits (mask : BitVec 8) (u : Uart) : Uart :=
  if u.isr &&& mask ≠ 0 then updateInterrupts { u with isr := u.isr &&& ~~~mask } else u

/-- `set_ISR_bits`. -/
def setIsrBits (mask : BitVec 8) (u : Uart) : Uart :=
  if u.isr &&& mask = 0 then updateInterrupts { u with isr := u.isr ||| mask } else u

/-- `write_a_tx` or `write_b_tx`. -/
def writeTx (ch : ChannelId) (bit : Bool) (u : Uart) : Uart :=
  match ch with
  | .a => { u with writeATx := u.writeATx ++ [bit] }
  | .b => { u with writeBTx := u.writeBTx ++ [bit] }

/-- The levels driven on the transmit line of a channel. -/
def txLine (u : Uart) : ChannelId → List Bool
  | .a => u.writeATx
  | .b => u.writeBTx

def baudRateAcr0 : List ℤ :=
  [50, 110, 134, 200, 300, 600, 1200, 1050, 2400, 4800, 7200, 9600, 38400, 0, 0, 0]

def baudRateAcr0X1 : List ℤ :=
  [75, 110, 134, 150, 3600, 14400, 28800, 57600, 115200, 4800, 1800, 9600, 19200, 0, 0, 0]

def baudRateAcr1 : List ℤ :=
  [75, 110, 134, 150, 300, 600, 1200, 2000, 2400, 4800, 1800, 9600, 19200, 0, 0, 0]

def baudRateAcr1X1 : List ℤ :=
  [50, 110, 134, 200, 3600, 14400, 28800, 57600, 115200, 4800, 7200, 9600, 38400, 0, 0, 0]

/-- `xr68c681_device::calc_baud`. -/
def calcBaud (u : Uart) (ch : ChannelId) (rx : Bool) (data : BitVec 8) : ℤ :=
  let select := (data &&& 0x0f).toNat
  let ipclk := match ch with
    | .a => u.ip3clk
    | .b => u.ip5clk
  let extend := match ch, rx with
    | .a, true => u.xrxa
    | .a, false => u.xtxa
    | .b, true => u.xrxb
    | .b, false => u.xtxb
  if select = 0x0e then ipclk.tdiv 16
  else if select = 0x0f then ipclk
  else if extend then
    if u.acr.getLsbD 7 = false then baudRateAcr0X1.getD select 0 else baudRateAcr1X1.getD select 0
  else
    if u.acr.getLsbD 7 = false then baudRateAcr0.getD select 0 else baudRateAcr1.getD select 0

end Uart

/-! ## The channel -/

/-- The members of `duart_channel`. -/
structure Channel where
  serial : Serial
  cr : BitVec 8
  csr : BitVec 8
  mr1 : BitVec 8
  mr2 : BitVec 8
  mrPtr : ℕ
  sr : BitVec 8
  txBaudRate : ℤ
  rxBaudRate : ℤ
  rxEnabled : Bool
  rxFifo : ℕ → BitVec 16
  rxFifoReadPtr : ℕ
  rxFifoWritePtr : ℕ
  rxFifoNum : ℕ
  ch : ChannelId
  txData : BitVec 8
  txDataInBuffer : Bool
  txBreak : Bool
  bitsTransmitted : BitVec 8
  txEnabled : Bool
  rxPrescaler : BitVec 8
  txPrescaler : BitVec 8
deriving Inhabited

/-- The constructor of `duart_channel`. It leaves several members indeterminate, and those keep
whatever value `storage` has for them. -/
def Channel.construct (storage : Channel) (ch : ChannelId) : Channel :=
  { storage with
    serial := {}
    ch := ch
    mr1 := 0
    mr2 := 0
    sr := 0
    rxEnabled := false
    rxFifo := fun _ ↦ 0
    rxFifoNum := 0
    txDataInBuffer := false
    txBreak := false
    bitsTransmitted := 255
    txEnabled := false }

/-- The bits of `MR2` that select the channel mode, and the four modes. -/
def Channel.mode (c : Channel) : BitVec 8 := c.mr2 &&& 0xc0

def modeNormal : BitVec 8 := 0x00
def modeAutomaticEcho : BitVec 8 := 0x40
def modeLocalLoopback : BitVec 8 := 0x80
def modeRemoteLoopback : BitVec 8 := 0xc0

/-- A channel together with the registers of its owner. -/
structure Port where
  uart : Uart
  chan : Channel

namespace Port

def onUart (f : Uart → Uart) (p : Port) : Port := { p with uart := f p.uart }

def onChan (f : Channel → Channel) (p : Port) : Port := { p with chan := f p.chan }

def onSerial (f : Serial → Serial) (p : Port) : Port :=
  p.onChan fun c ↦ { c with serial := f c.serial }

@[simp] theorem onUart_chan (f : Uart → Uart) (p : Port) : (p.onUart f).chan = p.chan := rfl

@[simp] theorem onUart_uart (f : Uart → Uart) (p : Port) : (p.onUart f).uart = f p.uart := rfl

@[simp] theorem onChan_chan (f : Channel → Channel) (p : Port) : (p.onChan f).chan = f p.chan := rfl

@[simp] theorem onChan_uart (f : Channel → Channel) (p : Port) : (p.onChan f).uart = p.uart := rfl

@[simp] theorem onSerial_chan (f : Serial → Serial) (p : Port) :
    (p.onSerial f).chan = { p.chan with serial := f p.chan.serial } := rfl

end Port

/-- The effect of `update_interrupts` on the channel's own status register: the echoing modes hold
`TxRDY` low. -/
def Channel.maskTxReady (c : Channel) : Channel :=
  if c.mode = modeAutomaticEcho ∨ c.mode = modeRemoteLoopback then
    { c with sr := c.sr &&& ~~~statusTransmitterReady }
  else c

/-- `duart_channel::update_interrupts`. -/
def updateInterrupts (p : Port) : Port :=
  let c := p.chan.maskTxReady
  let u := if c.sr &&& statusTransmitterReady ≠ 0 then p.uart.setIsrBits (intTxrdy c.ch)
    else p.uart.clearIsrBits (intTxrdy c.ch)
  let ready := if c.mr1 &&& modeRxIntSelectBit ≠ 0 then c.sr &&& statusFifoFull
    else c.sr &&& statusReceiverReady
  let u := if ready ≠ 0 then u.setIsrBits (intRxrdyFfull c.ch)
    else u.clearIsrBits (intRxrdyFfull c.ch)
  ⟨u, c⟩

/-! ## Receiver -/

/-- The status bits of a received character. -/
def statusCharacterErrors : BitVec 8 :=
  statusReceivedBreak ||| statusFramingError ||| statusParityError

/-- `rx_fifo_push`, up to its `update_interrupts`. -/
def Channel.pushed (data errors : BitVec 8) (c : Channel) : Channel :=
  let overrun := c.rxFifoNum = rxFifoSize + 1
  let sr := if overrun then c.sr ||| statusOverrunError else c.sr
  -- an overrun overwrites the tail entry: back the write pointer up by one position
  let tail := if overrun then
      if c.rxFifoWritePtr ≠ 0 then c.rxFifoWritePtr - 1 else rxFifoSize
    else c.rxFifoWritePtr
  let num := if c.rxFifoNum ≤ rxFifoSize then c.rxFifoNum + 1 else c.rxFifoNum
  let sr := if num = 1 then
      let sr := sr ||| statusReceiverReady
      (if c.mr1 &&& modeBlockError = 0 then sr &&& ~~~statusCharacterErrors else sr) ||| errors
    else sr
  let sr := if num = rxFifoSize then sr ||| statusFifoFull else sr
  { c with
    sr := sr
    rxFifo := Function.update c.rxFifo tail (errors ++ data)
    rxFifoWritePtr := if rxFifoSize < tail + 1 then 0 else tail + 1
    rxFifoNum := num }

/-- `rx_fifo_push`. -/
def rxFifoPush (data errors : BitVec 8) (p : Port) : Port :=
  updateInterrupts (p.onChan (Channel.pushed data errors))

/-- `read_rx_fifo` of a FIFO that is not empty, up to its `update_interrupts`. -/
def Channel.popped (c : Channel) : Channel :=
  let head := if rxFifoSize < c.rxFifoReadPtr + 1 then 0 else c.rxFifoReadPtr + 1
  let num := c.rxFifoNum - 1
  let sr := if num = rxFifoSize - 1 then c.sr &&& ~~~statusFifoFull else c.sr
  let sr := if c.mr1 &&& modeBlockError = 0 then sr &&& ~~~statusCharacterErrors else sr
  { c with
    sr := if num = 0 then sr &&& ~~~statusReceiverReady
      else sr ||| ((c.rxFifo head) >>> 8).setWidth 8
    rxFifoReadPtr := head
    rxFifoNum := num }

/-- `read_rx_fifo`: the character read, and the channel after it. -/
def readRxFifo (p : Port) : BitVec 8 × Port :=
  if p.chan.rxFifoNum = 0 then (0, updateInterrupts p)
  else ((p.chan.rxFifo p.chan.rxFifoReadPtr).setWidth 8, updateInterrupts (p.onChan Channel.popped))

/-- `rcv_complete`. -/
def rcvComplete (p : Port) : Port :=
  let p := p.onSerial Serial.receiveRegisterExtract
  if p.chan.rxEnabled || p.chan.mode == modeLocalLoopback then
    let s := p.chan.serial
    let errors := if s.rcvFramingError then statusFramingError else 0
    let errors := if s.rcvParityError then errors ||| statusParityError else errors
    rxFifoPush s.rcvByteReceived errors p
  else p

/-! ## Transmitter -/

/-- `tra_complete`: the shift register has emptied. -/
def traComplete (p : Port) : Port :=
  if p.chan.txDataInBuffer then
    let p := p.onSerial (Serial.transmitRegisterSetup p.chan.txData)
    updateInterrupts (p.onChan fun c ↦
      { c with
        bitsTransmitted := 0
        txDataInBuffer := false
        sr := c.sr ||| statusTransmitterReady })
  else
    updateInterrupts (p.onChan fun c ↦ { c with sr := c.sr ||| statusTransmitterEmpty })

/-- `tra_callback`: send one bit. -/
def traCallback (p : Port) : Port :=
  let (bit, serial) := p.chan.serial.transmitRegisterGetDataBit
  let p := p.onSerial fun _ ↦ serial
  let p :=
    if p.chan.mode ≠ modeLocalLoopback then p.onUart (Uart.writeTx p.chan.ch bit)
    else p.onSerial (Serial.rxW bit)
  let p := p.onChan fun c ↦ { c with bitsTransmitted := c.bitsTransmitted + 1 }
  -- TxRDY is not set until the end of start bit time
  if 1 < p.chan.bitsTransmitted ∧ p.chan.txDataInBuffer = false ∧ p.chan.txEnabled then
    updateInterrupts (p.onChan fun c ↦ { c with sr := c.sr ||| statusTransmitterReady })
  else p

/-- The virtual functions of the serial interface, as the channel overrides them. -/
def serialDevice : SerialDevice Port where
  serial p := p.chan.serial
  update := Port.onSerial
  traCallback := traCallback
  traComplete := traComplete
  rcvComplete := rcvComplete

/-- `write_TX`. -/
def writeTX (data : BitVec 8) (p : Port) : Port :=
  if p.chan.sr &&& statusTransmitterReady = 0 then p
  else
    let p := p.onChan fun c ↦
      { c with sr := c.sr &&& ~~~(statusTransmitterReady ||| statusTransmitterEmpty) }
    if p.chan.serial.traEmpty = false then
      updateInterrupts (p.onChan fun c ↦ { c with txData := data, txDataInBuffer := true })
    else
      let p := p.onSerial (Serial.transmitRegisterSetup data)
      updateInterrupts (p.onChan fun c ↦ { c with bitsTransmitted := 0 })

/-! ## Registers of the channel -/

/-- `recalc_framing`. Multidrop mode is not supported, and sends no parity. -/
def recalcFraming (c : Channel) : Channel :=
  let parity : Parity := match ((c.mr1 >>> 3) &&& 3).toNat with
    | 0 => if c.mr1.getLsbD 2 then .odd else .even
    | 1 => if c.mr1.getLsbD 2 then .mark else .space
    | _ => .none
  let stopbits : StopBits := match ((c.mr2 >>> 2) &&& 3).toNat with
    | 2 => .onePointFive
    | 3 => .two
    | _ => .one
  { c with serial := c.serial.setDataFrame 1 ((c.mr1 &&& 3).toNat + 5) parity stopbits }

/-- `write_MR`. -/
def writeMR (data : BitVec 8) (p : Port) : Port :=
  let p := if p.chan.mrPtr = 0 then p.onChan fun c ↦ { c with mr1 := data, mrPtr := 1 }
    else p.onChan fun c ↦ { c with mr2 := data }
  updateInterrupts (p.onChan recalcFraming)

/-- The command field of a write to `CR`. -/
def crCommand (data : BitVec 8) (p : Port) : Port :=
  match ((data >>> 4) &&& 7).toNat with
  | 1 => p.onChan fun c ↦ { c with mrPtr := 0 }
  | 2 => p.onChan fun c ↦
      { c with
        rxEnabled := false
        sr := c.sr &&& ~~~statusReceiverReady &&& ~~~statusCharacterErrors &&& ~~~statusOverrunError
        rxFifoReadPtr := 0
        rxFifoWritePtr := 0
        rxFifoNum := 0
        serial := c.serial.receiveRegisterReset }
  | 3 =>
      let p := p.onUart fun u ↦ (u.writeTx p.chan.ch true).clearIsrBits (intTxrdy p.chan.ch)
      p.onChan fun c ↦
        { c with
          sr := c.sr &&& ~~~(statusTransmitterReady ||| statusTransmitterEmpty)
          serial := c.serial.transmitRegisterReset
          bitsTransmitted := 255
          txDataInBuffer := false
          txEnabled := false }
  | 4 => p.onChan fun c ↦
      { c with sr := c.sr &&& ~~~(statusCharacterErrors ||| statusOverrunError) }
  | 5 => p.onUart (Uart.clearIsrBits (intDeltaBreak p.chan.ch))
  | 6 =>
      if p.chan.txBreak = false then
        let p := p.onChan fun c ↦ { c with txBreak := true }
        if p.chan.mode = modeLocalLoopback then
          rxFifoPush 0 statusReceivedBreak (p.onUart (Uart.setIsrBits (intDeltaBreak p.chan.ch)))
        else p
      else p
  | 7 =>
      if p.chan.txBreak then
        let p := p.onChan fun c ↦ { c with txBreak := false }
        if p.chan.mode = modeLocalLoopback then p.onUart (Uart.setIsrBits (intDeltaBreak p.chan.ch))
        else p
      else p
  | _ => p

/-- The receiver enable and disable bits of a write to `CR`. -/
def crReceiver (data : BitVec 8) (p : Port) : Port :=
  let p := if data.getLsbD 0 then p.onChan fun c ↦ { c with rxEnabled := true } else p
  if data.getLsbD 1 then p.onChan fun c ↦
    { c with rxEnabled := false, sr := c.sr &&& ~~~statusReceiverReady } else p

/-- The transmitter enable and disable bits of a write to `CR`. The enable bit acts only where the
last write to `CR` did not have it. -/
def crTransmitter (data : BitVec 8) (p : Port) : Port :=
  let p := if p.chan.cr.getLsbD 2 = false ∧ data.getLsbD 2 then
      let p := p.onChan fun c ↦
        { c with
          sr := c.sr ||| (statusTransmitterReady ||| statusTransmitterEmpty)
          txDataInBuffer := false
          txEnabled := true }
      p.onUart (Uart.setIsrBits (intTxrdy p.chan.ch))
    else p
  if data.getLsbD 3 then
    let p := p.onChan fun c ↦
      { c with
        sr := c.sr &&& ~~~(statusTransmitterReady ||| statusTransmitterEmpty)
        txDataInBuffer := false
        txEnabled := false }
    p.onUart (Uart.clearIsrBits (intTxrdy p.chan.ch))
  else p

/-- `write_CR`. -/
def writeCR (data : BitVec 8) (p : Port) : Port :=
  (updateInterrupts (crTransmitter data (crReceiver data (crCommand data p)))).onChan
    fun c ↦ { c with cr := data }

/-- A write to `CSR`. -/
def writeCSR (data : BitVec 8) (p : Port) : Port :=
  let p := p.onChan fun c ↦
    { c with
      csr := data
      txBaudRate := p.uart.calcBaud c.ch false (data &&& 0xf)
      rxBaudRate := p.uart.calcBaud c.ch true ((data >>> 4) &&& 0xf) }
  (p.onSerial (Serial.setRcvRate p.chan.rxBaudRate)).onSerial (Serial.setTraRate p.chan.txBaudRate)

/-- `baud_updated`. -/
def baudUpdated (p : Port) : Port := writeCSR p.chan.csr p

/-- `read_chan_reg`. -/
def readChanReg (reg : ℕ) (p : Port) : BitVec 8 × Port :=
  match reg with
  | 0 => if p.chan.mrPtr = 0 then (p.chan.mr1, p.onChan fun c ↦ { c with mrPtr := 1 })
    else (p.chan.mr2, p)
  | 1 => (p.chan.sr, p)
  | 3 => readRxFifo p
  | _ => (0xff, p)

/-- `write_chan_reg`. -/
def writeChanReg (reg : ℕ) (data : BitVec 8) (p : Port) : Port :=
  match reg with
  | 0 => writeMR data p
  | 1 => writeCSR data p
  | 2 => writeCR data p
  | 3 => writeTX data p
  | _ => p

/-- `tx_16x_clock_w`. -/
def tx16xClockW (state : Bool) (p : Port) : Port :=
  if state then
    let p := p.onChan fun c ↦ { c with txPrescaler := c.txPrescaler - 1 }
    if p.chan.txPrescaler = 8 then serialDevice.txClockW true p
    else if p.chan.txPrescaler = 0 then
      serialDevice.txClockW false (p.onChan fun c ↦ { c with txPrescaler := 16 })
    else p
  else p

/-- `rx_16x_clock_w`. -/
def rx16xClockW (state : Bool) (p : Port) : Port :=
  if p.chan.serial.rcvSynchronised = false then
    -- skip over the start bit once synchronisation is achieved
    serialDevice.rxClockW true (p.onChan fun c ↦ { c with rxPrescaler := 32 })
  else if state then
    let p := p.onChan fun c ↦ { c with rxPrescaler := c.rxPrescaler - 1 }
    if p.chan.rxPrescaler = 8 then serialDevice.rxClockW false p
    else if p.chan.rxPrescaler = 0 then
      serialDevice.rxClockW true (p.onChan fun c ↦ { c with rxPrescaler := 16 })
    else p
  else p

/-- `duart_channel::device_reset`. -/
def channelReset (p : Port) : Port :=
  let p := writeCR 0x40 (writeCR 0x30 (writeCR 0x20 (writeCR 0x10 p)))
  p.onChan fun c ↦
    { c with
      serial := c.serial.setDataFrame 1 8 .none .one
      txBaudRate := 0
      rxBaudRate := 0
      csr := 0
      txBreak := false }

end RoscoEmulator.Duart
