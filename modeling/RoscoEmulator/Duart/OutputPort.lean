import RoscoEmulator.Duart.Interrupts

/-!
# The output port of the DUART

A pin of the output port shows what `OPCR` selects for it: a bit that the host has set or reset, an
interrupt status bit, or the counter/timer. The register `OPR` holds all three, so a pin that is
switched to another function shows the right level only if the register had it already, and the port
is driven in few of the places where a level changes. `PortGuard` is what a step has to meet so that
the port shows what it should, and `always_pinsDriven_iff` says that it is exactly this.
-/

namespace RoscoEmulator.Duart

open Uart

namespace Uart

/-! ## What the pins are to show -/

/-- The level of the counter/timer output: the square wave of the timer, or the counter ready
state. -/
def ctOutput (u : Uart) : Bool :=
  if u.acr &&& 0x40 ≠ 0 then u.halfPeriod.getLsbD 0 else u.isr.getLsbD 3

/-- The level that a pin is to show, before the port inverts it. The byte `soft` has the bits that
the host has set and reset. -/
def pin (u : Uart) (soft : BitVec 8) : Fin 8 → Bool
  | 3 => if u.opcr &&& 0xc = 0x4 then u.ctOutput else soft.getLsbD 3
  | 4 => if u.opcr.getLsbD 4 then u.isr.getLsbD 1 else soft.getLsbD 4
  | 5 => if u.opcr.getLsbD 5 then u.isr.getLsbD 5 else soft.getLsbD 5
  | 6 => if u.opcr.getLsbD 6 then u.isr.getLsbD 0 else soft.getLsbD 6
  | 7 => if u.opcr.getLsbD 7 then u.isr.getLsbD 4 else soft.getLsbD 7
  | i => soft.getLsbD i.val

/-- The byte last driven on the output port shows the complement of every pin. -/
def PinsDriven (u : Uart) (soft : BitVec 8) : Prop :=
  ∃ byte, u.writeOutport.getLast? = some byte ∧ ∀ i : Fin 8, byte.getLsbD i.val = !u.pin soft i

/-- The register bits behind `OP3`. -/
def op3 (u : Uart) (soft : BitVec 8) : BitVec 8 :=
  if u.opcr &&& 0xc = 0x4 then oprBit 0x8 u.ctOutput soft else soft

/-- The levels of all pins. -/
def pins (u : Uart) (soft : BitVec 8) : BitVec 8 := mirror u.opcr u.isr (u.op3 soft)

/-! ### Bits -/

theorem getLsbD_oprBit (mask opr : BitVec 8) (state : Bool) {i : ℕ} (hi : i < 8) :
    (oprBit mask state opr).getLsbD i = if mask.getLsbD i then state else opr.getLsbD i := by
  rw [oprBit]
  cases state <;> cases hmask : mask.getLsbD i <;> simp_all

/-- The interrupt status bit that goes to a pin. -/
def mirrorSource : ℕ → ℕ
  | 4 => 1
  | 5 => 5
  | 6 => 0
  | _ => 4

variable (opcr : BitVec 8) {u u' : Uart} (isr : BitVec 8) {soft mask : BitVec 8}

theorem getLsbD_mirror (opr : BitVec 8) {i : ℕ} (hi : i < 8) :
    (mirror opcr isr opr).getLsbD i =
      if 4 ≤ i ∧ opcr.getLsbD i then isr.getLsbD (mirrorSource i) else opr.getLsbD i := by
  have hbit (b : Bool) (mask x : BitVec 8) (state : Bool) :
      (if b then oprBit mask state x else x).getLsbD i =
        if b ∧ mask.getLsbD i then state else x.getLsbD i := by
    cases b
    · simp
    · simp [getLsbD_oprBit mask x state hi]
  simp only [mirror, hbit]
  interval_cases i <;> simp [mirrorSource]

theorem mirror_mirror (isr' opr : BitVec 8) :
    mirror opcr isr (mirror opcr isr' opr) = mirror opcr isr opr := by
  refine BitVec.eq_of_getLsbD_eq fun i hi ↦ ?_
  rw [getLsbD_mirror _ _ _ hi, getLsbD_mirror _ _ _ hi, getLsbD_mirror _ _ _ hi]
  split_ifs <;> rfl

/-- Without a mirrored pin the register is as it is. -/
theorem mirror_eq_of_zero {opcr : BitVec 8} (h : opcr &&& 0xf0 = 0) (isr opr : BitVec 8) :
    mirror opcr isr opr = opr := by
  have hbits : ∀ i, 4 ≤ i → i < 8 → opcr.getLsbD i = false := by
    intro i hlo hhi
    have hbit := congrArg (·.getLsbD i) h
    interval_cases i <;> simpa using hbit
  refine BitVec.eq_of_getLsbD_eq fun i hi ↦ ?_
  rw [getLsbD_mirror _ _ _ hi, if_neg]
  rintro ⟨hlo, hopcr⟩
  rw [hbits i hlo hi] at hopcr
  cases hopcr

theorem getLsbD_pins (u : Uart) (soft : BitVec 8) (i : Fin 8) :
    (u.pins soft).getLsbD i.val = u.pin soft i := by
  have hop3 : (u.op3 soft).getLsbD i.val =
      if u.opcr &&& 0xc = 0x4 ∧ i.val = 3 then u.ctOutput else soft.getLsbD i.val := by
    rw [op3]
    split_ifs with h1 h2 h2
    · rw [getLsbD_oprBit _ _ _ i.isLt, h2.2]
      rfl
    · have hmask : ∀ i : Fin 8, i.val ≠ 3 → (0x8 : BitVec 8).getLsbD i.val = false := by decide
      rw [getLsbD_oprBit _ _ _ i.isLt, hmask i fun hi ↦ h2 ⟨h1, hi⟩]
      rfl
    · exact absurd h2.1 h1
    · rfl
  rw [pins, getLsbD_mirror _ _ _ i.isLt, hop3]
  obtain ⟨i, hi⟩ := i
  interval_cases i <;> simp [pin, mirrorSource]

theorem pinsDriven_iff (u : Uart) (soft : BitVec 8) :
    u.PinsDriven soft ↔ u.writeOutport.getLast? = some (u.pins soft ^^^ 0xff) := by
  have hones : ∀ i : Fin 8, (0xff : BitVec 8).getLsbD i.val = true := by decide
  have hxor (i : Fin 8) : (u.pins soft ^^^ 0xff).getLsbD i.val = !u.pin soft i := by
    rw [BitVec.getLsbD_xor, getLsbD_pins, hones i, Bool.xor_true]
  constructor
  · rintro ⟨byte, hlast, hbits⟩
    rw [hlast]
    refine congrArg some (BitVec.eq_of_getLsbD_eq fun i hi ↦ ?_)
    exact (hbits ⟨i, hi⟩).trans (hxor ⟨i, hi⟩).symm
  · intro hlast
    exact ⟨_, hlast, hxor⟩

/-! ### The register and the port -/

/-- The register has the levels of the pins, and the port shows it. -/
structure Driven (u : Uart) (soft : BitVec 8) : Prop where
  opr : u.opr = u.pins soft
  line : u.writeOutport.getLast? = some (u.opr ^^^ 0xff)

theorem Driven.pinsDriven (h : Driven u soft) : u.PinsDriven soft := by
  rw [pinsDriven_iff, ← h.opr]
  exact h.line

/-- The register is enough where it is what the port shows. -/
theorem pinsDriven_iff_opr (hline : u.writeOutport.getLast? = some (u.opr ^^^ 0xff)) :
    u.PinsDriven soft ↔ u.opr = u.pins soft := by
  rw [pinsDriven_iff, hline, Option.some_inj, BitVec.xor_left_inj]

theorem pins_congr (hopcr : u'.opcr = u.opcr) (hisr : u'.isr = u.isr)
    (hct : u.opcr &&& 0xc = 0x4 → u'.ctOutput = u.ctOutput) (soft : BitVec 8) :
    u'.pins soft = u.pins soft := by
  have hop3 : u'.op3 soft = u.op3 soft := by
    rw [op3, op3, hopcr]
    split_ifs with hsel
    · rw [hct hsel]
    · rfl
  rw [pins, pins, hop3, hopcr, hisr]

theorem Driven.register (h : Driven u soft) (hopr : u'.opr = u.opr)
    (hout : u'.writeOutport = u.writeOutport) : (u'.pins soft = u.pins soft → Driven u' soft) ∧
      (u'.PinsDriven soft → u'.pins soft = u.pins soft) := by
  have hline : u'.writeOutport.getLast? = some (u'.opr ^^^ 0xff) := by
    rw [hout, hopr]
    exact h.line
  refine ⟨fun hpins ↦ ⟨?_, hline⟩, fun hpins ↦ ?_⟩
  · rw [hopr, h.opr, hpins]
  · rw [pinsDriven_iff_opr hline, hopr, h.opr] at hpins
    exact hpins.symm

/-- With the same `OPCR` and interrupt status only the counter/timer can make a difference. -/
theorem pins_eq_iff (hopcr : u'.opcr = u.opcr) (hisr : u'.isr = u.isr) :
    u'.pins soft = u.pins soft ↔ (u.opcr &&& 0xc = 0x4 → u'.ctOutput = u.ctOutput) := by
  refine ⟨fun hpins hsel ↦ ?_, fun hct ↦ pins_congr hopcr hisr hct soft⟩
  have hbit := getLsbD_pins u soft 3
  rw [← hpins, getLsbD_pins] at hbit
  simp only [pin, hopcr, if_pos hsel] at hbit
  exact hbit

theorem driven_updateInterrupts
    (hline : u.opcr &&& 0xf0 = 0 → u.writeOutport.getLast? = some (u.opr ^^^ 0xff))
    (hopr : mirror u.opcr u.isr u.opr = u.pins soft) : Driven u.updateInterrupts soft := by
  have hirq : u.driveIrq.opcr = u.opcr ∧ u.driveIrq.isr = u.isr ∧ u.driveIrq.opr = u.opr ∧
      u.driveIrq.acr = u.acr ∧ u.driveIrq.halfPeriod = u.halfPeriod ∧
        u.driveIrq.writeOutport = u.writeOutport := by
    rw [driveIrq]
    split_ifs <;> exact ⟨rfl, rfl, rfl, rfl, rfl, rfl⟩
  obtain ⟨hopcr, hisr, hoprIrq, hacr, hhalf, hout⟩ := hirq
  have hpins : u.driveIrq.pins soft = u.pins soft := by
    refine pins_congr hopcr hisr (fun _ ↦ ?_) soft
    rw [ctOutput, ctOutput, hacr, hhalf, hisr]
  have hdriven : Driven u.driveIrq.driveMirrored soft := by
    rw [driveMirrored]
    split_ifs with hmirror
    · have hmirrored : mirror u.driveIrq.opcr u.driveIrq.isr u.driveIrq.opr =
          u.driveIrq.pins soft := by
        rw [hpins, hopcr, hisr, hoprIrq, hopr]
      exact ⟨hmirrored, List.getLast?_concat⟩
    · rw [hopcr, not_not] at hmirror
      rw [mirror_eq_of_zero hmirror] at hopr
      refine ⟨?_, ?_⟩
      · rw [hoprIrq, hopr, hpins]
      · rw [hoprIrq, hout]
        exact hline hmirror
  rw [updateInterrupts_eq]
  split_ifs
  · exact ⟨hdriven.opr, hdriven.line⟩
  · exact hdriven

theorem writeOutport_updateInterrupts (h : u.opcr &&& 0xf0 = 0) :
    u.updateInterrupts.writeOutport = u.writeOutport := by
  have hirq : u.driveIrq.opcr = u.opcr ∧ u.driveIrq.writeOutport = u.writeOutport := by
    rw [driveIrq]
    split_ifs <;> exact ⟨rfl, rfl⟩
  rw [updateInterrupts_eq, driveMirrored, hirq.1, if_neg (not_not.mpr h)]
  split_ifs <;> exact hirq.2

theorem Driven.withIsr {isr : BitVec 8} (h : Driven u soft)
    (hct : u.opcr &&& 0xc = 0x4 → ({ u with isr := isr } : Uart).ctOutput = u.ctOutput) :
    Driven (updateInterrupts { u with isr := isr }) soft := by
  have hop3 : ({ u with isr := isr } : Uart).op3 soft = u.op3 soft := by
    simp only [op3]
    split_ifs with hsel
    · rw [hct hsel]
    · rfl
  refine driven_updateInterrupts (fun _ ↦ h.line) ?_
  rw [pins, hop3]
  simp only [h.opr, pins]
  exact mirror_mirror u.opcr isr u.isr (u.op3 soft)

theorem Driven.setIsrBits (h : Driven u soft)
    (hct : u.opcr &&& 0xc = 0x4 → ({ u with isr := u.isr ||| mask } : Uart).ctOutput = u.ctOutput) :
    Driven (u.setIsrBits mask) soft := by
  rw [Uart.setIsrBits]
  split_ifs
  · exact h.withIsr hct
  · exact h

theorem Driven.clearIsrBits (h : Driven u soft) (hct : u.opcr &&& 0xc = 0x4 →
    ({ u with isr := u.isr &&& ~~~mask } : Uart).ctOutput = u.ctOutput) :
    Driven (u.clearIsrBits mask) soft := by
  rw [Uart.clearIsrBits]
  split_ifs
  · exact h.withIsr hct
  · exact h

theorem ctOutput_withIsr (u : Uart) {isr : BitVec 8} (h : isr.getLsbD 3 = u.isr.getLsbD 3) :
    ({ u with isr := isr } : Uart).ctOutput = u.ctOutput := by
  rw [ctOutput, ctOutput]
  split_ifs
  · rfl
  · exact h

theorem Driven.calls {ch : ChannelId} (h : Driven u soft) (hcalls : Calls ch u u') :
    Driven u' soft := by
  have hbit {mask : BitVec 8} (hmask : mask ∈ channelInterrupts ch) : mask.getLsbD 3 = false := by
    revert mask
    cases ch <;> decide
  refine hcalls.keep (I := fun v ↦ Driven v soft) (fun u mask hmask hu ↦ hu.setIsrBits fun _ ↦ ?_)
    (fun u mask hmask hu ↦ hu.clearIsrBits fun _ ↦ ?_) (fun u bit hu ↦ ?_) h
  · refine ctOutput_withIsr u ?_
    rw [BitVec.getLsbD_or, hbit hmask, Bool.or_false]
  · refine ctOutput_withIsr u ?_
    rw [BitVec.getLsbD_and, BitVec.getLsbD_not, hbit hmask]
    exact Bool.and_true _
  · cases ch <;> exact ⟨hu.opr, hu.line⟩

/-! ### The counter/timer pin during calls

The register bit of `OP3` is one that calls of a channel leave alone, and so is what the port shows
of it. -/

/-- `OP3` and what is behind it are the same, and the port shows the register bit. -/
structure Op3Kept (u u' : Uart) : Prop where
  opr : u'.opr.getLsbD 3 = u.opr.getLsbD 3
  opcr : u'.opcr = u.opcr
  acr : u'.acr = u.acr
  ctOutput : u'.ctOutput = u.ctOutput
  line : ∃ byte, u'.writeOutport.getLast? = some byte ∧ byte.getLsbD 3 = !u'.opr.getLsbD 3

theorem op3Kept_refl (h : u.writeOutport.getLast? = some (u.opr ^^^ 0xff)) : Op3Kept u u := by
  refine ⟨rfl, rfl, rfl, rfl, _, h, ?_⟩
  rw [BitVec.getLsbD_xor]
  exact Bool.xor_true _

theorem Op3Kept.updateInterrupts (h : Op3Kept u u') : Op3Kept u u'.updateInterrupts := by
  have hirq : Op3Kept u u'.driveIrq := by
    rw [driveIrq]
    split_ifs <;> exact ⟨h.opr, h.opcr, h.acr, h.ctOutput, h.line⟩
  have hmirrored : Op3Kept u u'.driveIrq.driveMirrored := by
    have hbit (opcr isr opr : BitVec 8) : (mirror opcr isr opr).getLsbD 3 = opr.getLsbD 3 := by
      rw [getLsbD_mirror _ _ _ (by decide), if_neg (by omega)]
    rw [driveMirrored]
    split_ifs
    · refine ⟨(hbit _ _ _).trans hirq.opr, hirq.opcr, hirq.acr, hirq.ctOutput, _,
        List.getLast?_concat, ?_⟩
      rw [BitVec.getLsbD_xor]
      exact Bool.xor_true _
    · exact hirq
  rw [updateInterrupts_eq]
  split_ifs
  · exact ⟨hmirrored.opr, hmirrored.opcr, hmirrored.acr, hmirrored.ctOutput, hmirrored.line⟩
  · exact hmirrored

theorem Op3Kept.withIsr {isr : BitVec 8}
    (h : Op3Kept u u') (hisr : isr.getLsbD 3 = u'.isr.getLsbD 3) :
    Op3Kept u (Uart.updateInterrupts { u' with isr := isr }) := by
  refine Op3Kept.updateInterrupts ⟨h.opr, h.opcr, h.acr, ?_, h.line⟩
  rw [ctOutput_withIsr u' hisr]
  exact h.ctOutput

theorem Op3Kept.setIsrBits (h : Op3Kept u u') (hmask : mask.getLsbD 3 = false) :
    Op3Kept u (u'.setIsrBits mask) := by
  rw [Uart.setIsrBits]
  split_ifs
  · refine h.withIsr ?_
    rw [BitVec.getLsbD_or, hmask, Bool.or_false]
  · exact h

theorem Op3Kept.clearIsrBits (h : Op3Kept u u') (hmask : mask.getLsbD 3 = false) :
    Op3Kept u (u'.clearIsrBits mask) := by
  rw [Uart.clearIsrBits]
  split_ifs
  · refine h.withIsr ?_
    rw [BitVec.getLsbD_and, BitVec.getLsbD_not, hmask]
    exact Bool.and_true _
  · exact h

theorem Op3Kept.calls {ch : ChannelId} {u'' : Uart} (h : Op3Kept u u') (hcalls : Calls ch u' u'') :
    Op3Kept u u'' := by
  have hbit {mask : BitVec 8} (hmask : mask ∈ channelInterrupts ch) : mask.getLsbD 3 = false := by
    revert mask
    cases ch <;> decide
  refine hcalls.keep (I := Op3Kept u) (fun _ mask hmask hu ↦ hu.setIsrBits (hbit hmask))
    (fun _ mask hmask hu ↦ hu.clearIsrBits (hbit hmask)) (fun _ bit hu ↦ ?_) h
  cases ch <;> exact ⟨hu.opr, hu.opcr, hu.acr, hu.ctOutput, hu.line⟩

/-- Where the pins are right in the end, the register bit was right from the start. -/
theorem Op3Kept.eq_ctOutput (h : Op3Kept u u') (hsel : u.opcr &&& 0xc = 0x4)
    (hpins : u'.PinsDriven soft) : u.opr.getLsbD 3 = u.ctOutput := by
  obtain ⟨byte, hlast, hbits⟩ := hpins
  obtain ⟨byte', hlast', hbyte'⟩ := h.line
  obtain rfl : byte = byte' := Option.some_inj.mp (hlast.symm.trans hlast')
  have hbit := hbits 3
  simp only [pin, h.opcr, if_pos hsel, h.ctOutput] at hbit
  have hbyte : byte.getLsbD (3 : Fin 8).val = !u.opr.getLsbD 3 := h.opr ▸ hbyte'
  exact Bool.not_inj (hbyte.symm.trans hbit)

/-! ### The counter and the timer -/

/-- `OP3` is the counter/timer output, and no mirrored pin makes an interrupt update drive the
port. -/
def Silent (u : Uart) : Prop := u.opcr &&& 0xc = 0x4 ∧ u.opcr &&& 0xf0 = 0

instance (u : Uart) : Decidable u.Silent :=
  inferInstanceAs (Decidable (u.opcr &&& 0xc = 0x4 ∧ u.opcr &&& 0xf0 = 0))

/-- What the expiry of the counter and the stop counter command do: the register bit of `OP3`, and
the interrupt status bit. -/
def markCounter (ready : Bool) (u : Uart) : Uart :=
  let u := if u.opcr &&& 0xc = 0x4 then { u with opr := oprBit 0x8 ready u.opr } else u
  if ready then u.setIsrBits intCounterReady else u.clearIsrBits intCounterReady

/-- Bit 3 is what it has been set or cleared to. -/
theorem getLsbD_oprBit_three (ready : Bool) (x : BitVec 8) :
    (oprBit 0x8 ready x).getLsbD 3 = ready :=
  getLsbD_oprBit 0x8 x ready (by decide)

theorem oprBit_eq_self {ready : Bool} {x : BitVec 8} (h : x.getLsbD 3 = ready) :
    oprBit 0x8 ready x = x := by
  have hmask : ∀ i < 8, (0x8 : BitVec 8).getLsbD i = decide (i = 3) := by decide
  refine BitVec.eq_of_getLsbD_eq fun i hi ↦ ?_
  rw [getLsbD_oprBit _ _ _ hi, hmask i hi]
  split_ifs with h3
  · rw [of_decide_eq_true h3, h]
  · rfl

theorem mirror_oprBit (isr' opr : BitVec 8) (state state' : Bool) :
    mirror opcr isr (oprBit 0x8 state (mirror opcr isr' (oprBit 0x8 state' opr))) =
      mirror opcr isr (oprBit 0x8 state opr) := by
  refine BitVec.eq_of_getLsbD_eq fun i hi ↦ ?_
  simp only [getLsbD_mirror _ _ _ hi, getLsbD_oprBit _ _ _ hi]
  split_ifs <;> rfl

/-- Setting or clearing the counter's bit, as one. -/
theorem markCounter_eq (ready : Bool) (u : Uart) : u.markCounter ready =
    if u.isr.getLsbD 3 = ready then
      if u.opcr &&& 0xc = 0x4 then { u with opr := oprBit 0x8 ready u.opr } else u
    else updateInterrupts
      { (if u.opcr &&& 0xc = 0x4 then { u with opr := oprBit 0x8 ready u.opr } else u) with
        isr := oprBit 0x8 ready u.isr } := by
  have hbit : ∀ isr : BitVec 8, isr &&& intCounterReady = 0 ↔ isr.getLsbD 3 = false := by decide
  have hisr : (if u.opcr &&& 0xc = 0x4 then { u with opr := oprBit 0x8 ready u.opr } else u).isr =
      u.isr := by
    split_ifs <;> rfl
  simp only [markCounter]
  generalize (if u.opcr &&& 0xc = 0x4 then { u with opr := oprBit 0x8 ready u.opr } else u) = v at *
  rw [← hisr]
  cases ready with
  | true =>
    simp only [if_pos, setIsrBits, hbit]
    cases v.isr.getLsbD 3 <;> rfl
  | false =>
    simp only [if_neg Bool.false_ne_true, clearIsrBits, ne_eq, hbit]
    cases v.isr.getLsbD 3 <;> rfl

/-- An interrupt update that drives nothing leaves the port to show the bit it showed before. -/
theorem eq_of_pinsDriven_silent {opr : BitVec 8} (hsilent : u.Silent) (hmode : u.acr &&& 0x40 = 0)
    (hline : u.writeOutport.getLast? = some (opr ^^^ 0xff))
    (hpins : u.updateInterrupts.PinsDriven soft) : opr.getLsbD 3 = u.isr.getLsbD 3 := by
  obtain ⟨byte, hlast, hbits⟩ := hpins
  rw [writeOutport_updateInterrupts hsilent.2] at hlast
  have hbyte : byte = opr ^^^ 0xff := Option.some_inj.mp (hlast.symm.trans hline)
  have hbit := hbits 3
  simp only [pin, ctOutput, opcr_updateInterrupts, acr_updateInterrupts, isr_updateInterrupts,
    if_pos hsilent.1, if_neg (not_not.mpr hmode), hbyte, BitVec.getLsbD_xor] at hbit
  have hones : (0xff : BitVec 8).getLsbD (3 : Fin 8).val = true := rfl
  rw [hones, Bool.xor_true] at hbit
  exact Bool.not_inj hbit

section Counter

variable {u : Uart} {soft : BitVec 8} (h : Driven u soft) (hmode : u.acr &&& 0x40 = 0)
include h hmode

theorem Driven.markCounter {ready : Bool} (hpush : u.Silent → u.isr.getLsbD 3 = ready) :
    Driven (u.markCounter ready) soft := by
  have hct (isr : BitVec 8) : ({ u with isr := isr } : Uart).ctOutput = isr.getLsbD 3 := by
    rw [ctOutput, if_neg (not_not.mpr hmode)]
  rw [markCounter_eq]
  split_ifs with hready hsel hsel
  · -- the register has the bit already
    have hopr : u.opr.getLsbD 3 = ready := by
      rw [h.opr, show (3 : ℕ) = (3 : Fin 8).val from rfl, getLsbD_pins]
      simp only [pin, if_pos hsel]
      exact (hct u.isr).trans hready
    rw [oprBit_eq_self hopr]
    exact h
  · exact h
  · have hmirrored : u.opcr &&& 0xf0 ≠ 0 := fun hzero ↦ hready (hpush ⟨hsel, hzero⟩)
    refine driven_updateInterrupts (fun hzero ↦ absurd hzero hmirrored) ?_
    have hop3 (isr opr : BitVec 8) :
        ({ u with isr := isr, opr := opr } : Uart).op3 soft = oprBit 0x8 (isr.getLsbD 3) soft := by
      rw [op3, if_pos hsel]
      exact congrArg (oprBit 0x8 · soft) (hct isr)
    rw [pins, hop3, getLsbD_oprBit_three]
    simp only [h.opr, pins, op3, if_pos hsel]
    exact mirror_oprBit _ _ _ _ _ _
  · exact h.withIsr fun hsel' ↦ absurd hsel' hsel

theorem isr_of_pinsDriven_markCounter {ready : Bool} (hpins : (u.markCounter ready).PinsDriven soft)
    (hsilent : u.Silent) : u.isr.getLsbD 3 = ready := by
  by_contra hready
  rw [markCounter_eq, if_neg hready, if_pos hsilent.1] at hpins
  have hold : u.opr.getLsbD 3 = u.isr.getLsbD 3 := by
    rw [h.opr, show (3 : ℕ) = (3 : Fin 8).val from rfl, getLsbD_pins]
    simp only [pin, if_pos hsilent.1, ctOutput, if_neg (not_not.mpr hmode)]
    rfl
  have hnew := eq_of_pinsDriven_silent
    (u := { u with opr := oprBit 0x8 ready u.opr, isr := oprBit 0x8 ready u.isr })
    hsilent hmode h.line hpins
  rw [hold] at hnew
  exact hready (hnew.trans (getLsbD_oprBit_three ready u.isr))

end Counter

/-! ### The timer -/

/-- The register bits that `xor` with the mask of `OP3` turns over. -/
theorem xor_oprBit (opr : BitVec 8) (state : Bool) :
    mirror opcr isr (oprBit 0x8 state opr) ^^^ 0x8 = mirror opcr isr (oprBit 0x8 (!state) opr) := by
  have hmask : ∀ i < 8, (0x8 : BitVec 8).getLsbD i = decide (i = 3) := by decide
  refine BitVec.eq_of_getLsbD_eq fun i hi ↦ ?_
  simp only [BitVec.getLsbD_xor, getLsbD_mirror _ _ _ hi, getLsbD_oprBit _ _ _ hi, hmask i hi]
  by_cases h3 : i = 3
  · simp [h3]
  · simp [h3]

/-- The timer turns the pin over and drives it. -/
theorem Driven.toggleTimer (h : Driven u soft) (hmode : u.acr &&& 0x40 ≠ 0) :
    Driven u.toggleTimer soft := by
  have hhalf : ∀ x : BitVec 8, (x ^^^ 1).getLsbD 0 = !x.getLsbD 0 := by decide
  rw [Uart.toggleTimer]
  split_ifs with hsel
  · refine ⟨?_, List.getLast?_concat⟩
    simp only [pins, op3, if_pos hsel, ctOutput, if_pos hmode, hhalf] at h ⊢
    rw [h.opr]
    simp only [pins, op3, if_pos hsel, ctOutput, if_pos hmode]
    exact xor_oprBit _ _ _ _
  · have hpins : ({ u with halfPeriod := u.halfPeriod ^^^ 1 } : Uart).pins soft = u.pins soft := by
      refine pins_congr ?_ ?_ ?_ soft
      · rfl
      · rfl
      · exact fun hsel' ↦ absurd hsel' hsel
    exact ⟨h.opr.trans hpins.symm, h.line⟩

end Uart

namespace Device

/-! ## What a step has to meet -/

/-- The bits that the host has set and reset since the last reset. -/
def softBits (soft : BitVec 8) : Event → BitVec 8
  | .write offset data =>
      match offset.toNat with
      | 0xe => soft ||| data
      | 0xf => soft &&& ~~~data
      | _ => soft
  | .reset => 0
  | _ => soft

/-- The device, and the bits that the host has set and reset. -/
def stepSoft (s : Device × BitVec 8) (e : Event) : Device × BitVec 8 :=
  (s.1.step e, softBits s.2 e)

/-- The counter/timer output after a write to `ACR`: a timer that is started begins low. -/
def ctOutputUnder (data : BitVec 8) (u : Uart) : Bool :=
  if data &&& 0x40 ≠ 0 then decide (u.acr &&& 0x40 ≠ 0) && u.halfPeriod.getLsbD 0
  else u.isr.getLsbD 3

/-- The condition under which the output port is right after a step. The counter is not started
while its square wave is high; the counter ready state does not change while nothing else drives the
port; and the registers that select what a pin shows, or set it, leave the level of a pin that they
do not drive alone. -/
def PortGuard (s : Device × BitVec 8) : Event → Prop
  | .read offset =>
      match offset.toNat with
      | 0xe => s.1.uart.opcr &&& 0xc = 0x4 → s.1.uart.acr &&& 0x40 ≠ 0 →
          s.1.uart.halfPeriod.getLsbD 0 = false
      | 0xf => s.1.uart.acr &&& 0x40 = 0 → s.1.uart.Silent → s.1.uart.isr.getLsbD 3 = false
      | _ => True
  | .write offset data =>
      match offset.toNat with
      | 0x4 => s.1.uart.opcr &&& 0xc = 0x4 → ctOutputUnder data s.1.uart = s.1.uart.ctOutput
      | 0xd => ({ s.1.uart with opcr := data } : Uart).pins s.2 = s.1.uart.pins s.2
      | 0xe => s.1.uart.pins (s.2 ||| data) = s.1.uart.pins s.2 ||| data
      | 0xf => s.1.uart.pins (s.2 &&& ~~~data) = s.1.uart.pins s.2 &&& ~~~data
      | _ => True
  | .ctTimer =>
      (s.1.uart.duartTimer.enabled && !s.1.uart.duartTimer.expire.isNever) = true →
        s.1.uart.acr &&& 0x40 = 0 → s.1.uart.Silent → s.1.uart.isr.getLsbD 3 = true
  | _ => True

/-! ### The steps -/

section Steps

variable {d : Device} {soft : BitVec 8}

theorem driven_onPort (h : d.uart.Driven soft) (ch : ChannelId) (op : Operation) :
    (d.onPort ch op.apply).uart.Driven soft := by
  rw [uart_onPort]
  exact h.calls (called_apply op (d.port ch)).calls

theorem op3Kept_onPort {u : Uart} (h : u.Op3Kept d.uart) (ch : ChannelId) (op : Operation) :
    u.Op3Kept (d.onPort ch op.apply).uart := by
  rw [uart_onPort]
  exact h.calls (called_apply op (d.port ch)).calls

theorem driven_timerDrives (h : d.uart.Driven soft) (ch : ChannelId) (state : Bool) :
    (d.timerDrives ch state).uart.Driven soft := by
  have htx {d : Device} (h : d.uart.Driven soft) := driven_onPort h ch (.tx16xClockW state)
  have hrx {d : Device} (h : d.uart.Driven soft) := driven_onPort h ch (.rx16xClockW state)
  simp only [timerDrives]
  split_ifs
  · exact hrx (htx h)
  · exact hrx h
  · exact htx h
  · exact h

theorem op3Kept_timerDrives {u : Uart} (h : u.Op3Kept d.uart) (ch : ChannelId) (state : Bool) :
    u.Op3Kept (d.timerDrives ch state).uart := by
  have htx {d : Device} (h : u.Op3Kept d.uart) := op3Kept_onPort h ch (.tx16xClockW state)
  have hrx {d : Device} (h : u.Op3Kept d.uart) := op3Kept_onPort h ch (.rx16xClockW state)
  simp only [timerDrives]
  split_ifs
  · exact hrx (htx h)
  · exact hrx h
  · exact htx h
  · exact h

/-- An expiry in timer mode: the pin is turned over first, and the channels are clocked then. -/
theorem driven_duartTimerCallback_timer (h : d.uart.Driven soft) (hmode : d.uart.acr &&& 0x40 ≠ 0) :
    d.duartTimerCallback.uart.Driven soft := by
  have htoggle : (d.onUart Uart.toggleTimer).uart.Driven soft := h.toggleTimer hmode
  have hacr : d.uart.toggleTimer.acr = d.uart.acr := by
    rw [Uart.toggleTimer]
    split_ifs <;> rfl
  have hdriven (state : Bool) := driven_timerDrives (driven_timerDrives htoggle .a state) .b state
  have hkept (state : Bool) := op3Kept_timerDrives
    (op3Kept_timerDrives (op3Kept_refl htoggle.line) .a state) .b state
  have hready (state : Bool) : ((((d.onUart Uart.toggleTimer).timerDrives .a state).timerDrives .b
      state).onUart (Uart.setIsrBits intCounterReady)).uart.Driven soft := by
    refine (hdriven state).setIsrBits fun _ ↦ ?_
    -- in timer mode the pin does not depend on the interrupt status
    have hmode' : (((d.onUart Uart.toggleTimer).timerDrives .a state).timerDrives .b
        state).uart.acr &&& 0x40 ≠ 0 := by
      rw [(hkept state).acr]
      exact hacr.symm ▸ hmode
    simp only [ctOutput, if_pos hmode']
  rw [duartTimerCallback, if_pos hmode]
  dsimp only
  split_ifs
  · exact ⟨(hready _).opr, (hready _).line⟩
  · exact ⟨(hdriven _).opr, (hdriven _).line⟩

theorem uart_duartTimerCallback_counter (hmode : d.uart.acr &&& 0x40 = 0) :
    ∃ timer, d.duartTimerCallback.uart = { d.uart.markCounter true with duartTimer := timer } := by
  rw [duartTimerCallback, if_neg (not_not.mpr hmode)]
  exact ⟨_, rfl⟩

/-- The guard is exact for an event: a step that meets it leaves the port driven, and a step that
leaves the pins right has met it. -/
structure Exact (d : Device) (soft : BitVec 8) (e : Event) : Prop where
  driven : PortGuard (d, soft) e → (d.step e).uart.Driven (softBits soft e)
  guard : (d.step e).uart.PinsDriven (softBits soft e) → PortGuard (d, soft) e

theorem exact_of_driven {e : Event} (h : (d.step e).uart.Driven (softBits soft e))
    (hguard : PortGuard (d, soft) e) : Exact d soft e := ⟨fun _ ↦ h, fun _ ↦ hguard⟩

theorem exact_ctTimer (h : d.uart.Driven soft) : Exact d soft .ctTimer := by
  by_cases hrun : (d.uart.duartTimer.enabled && !d.uart.duartTimer.expire.isNever) = true
  · have hstep : d.step .ctTimer = duartTimerCallback (d.onUart fun u ↦
        { u with
          time := u.duartTimer.expire
          duartTimer := { u.duartTimer with enabled := false } }) := by
      rw [step, ctTimer, if_pos hrun]
    have h' : (d.onUart fun u ↦
        { u with
          time := u.duartTimer.expire
          duartTimer := { u.duartTimer with enabled := false } }).uart.Driven soft :=
      ⟨h.opr, h.line⟩
    by_cases hmode : d.uart.acr &&& 0x40 = 0
    · obtain ⟨timer, huart⟩ := uart_duartTimerCallback_counter (d := d.onUart fun u ↦
        { u with
          time := u.duartTimer.expire
          duartTimer := { u.duartTimer with enabled := false } }) hmode
      refine ⟨fun hguard ↦ ?_, fun hpins _ _ hsilent ↦ ?_⟩
      · have hdriven := h'.markCounter hmode (hguard hrun hmode)
        rw [hstep, huart]
        exact ⟨hdriven.opr, hdriven.line⟩
      · rw [hstep, huart] at hpins
        exact isr_of_pinsDriven_markCounter h' hmode hpins hsilent
    · refine exact_of_driven ?_ fun _ hmode' ↦ absurd hmode' hmode
      rw [hstep]
      exact driven_duartTimerCallback_timer h' hmode
  · refine exact_of_driven ?_ fun hrun' ↦ absurd hrun' hrun
    rw [step, ctTimer, if_neg hrun]
    exact h

theorem read_startCounter (d : Device) : (d.read 0xe).2 =
    Device.startCt d.ctPreset
      (if d.uart.acr &&& 0x40 ≠ 0 then d.onUart fun u ↦ { u with halfPeriod := 0 } else d) := by
  have hpreset : (if d.uart.acr &&& 0x40 ≠ 0 then d.onUart fun u ↦ { u with halfPeriod := 0 }
      else d).ctPreset = d.ctPreset := by
    split_ifs <;> rfl
  rw [← hpreset]
  rfl

theorem exact_startCounter (h : d.uart.Driven soft) : Exact d soft (.read 0xe) := by
  have hfields : (d.step (.read 0xe)).uart.opr = d.uart.opr ∧
      (d.step (.read 0xe)).uart.writeOutport = d.uart.writeOutport ∧
      (d.step (.read 0xe)).uart.opcr = d.uart.opcr ∧ (d.step (.read 0xe)).uart.isr = d.uart.isr ∧
      (d.step (.read 0xe)).uart.ctOutput =
        if d.uart.acr &&& 0x40 ≠ 0 then false else d.uart.isr.getLsbD 3 := by
    rw [step, read_startCounter]
    split_ifs with hmode
    · refine ⟨rfl, rfl, rfl, rfl, ?_⟩
      exact (if_pos hmode).trans BitVec.getLsbD_zero
    · exact ⟨rfl, rfl, rfl, rfl, if_neg hmode⟩
  obtain ⟨hopr, hout, hopcr, hisr, hct⟩ := hfields
  have hexact := h.register hopr hout
  rw [pins_eq_iff hopcr hisr, hct] at hexact
  have hguard : PortGuard (d, soft) (.read 0xe) ↔
      (d.uart.opcr &&& 0xc = 0x4 → (if d.uart.acr &&& 0x40 ≠ 0 then false
        else d.uart.isr.getLsbD 3) = d.uart.ctOutput) := by
    refine forall_congr' fun _ ↦ ?_
    rw [ctOutput]
    split_ifs with hmode
    · exact ⟨fun h ↦ (h hmode).symm, fun h _ ↦ h.symm⟩
    · exact iff_of_true (fun hmode' ↦ absurd hmode' hmode) rfl
  exact ⟨fun hg ↦ hexact.1 (hguard.mp hg), fun hpins ↦ hguard.mpr (hexact.2 hpins)⟩

theorem read_stopCounter (d : Device) : (d.read 0xf).2.uart =
    if d.uart.acr &&& 0x40 = 0 then Uart.markCounter false
      { d.uart with duartTimer := { d.uart.duartTimer with enabled := false } }
    else d.uart.clearIsrBits intCounterReady := by
  have hread : (d.read 0xf).2 = Device.onUart (Uart.clearIsrBits intCounterReady)
      (if d.uart.acr &&& 0x40 = 0 then
        if (d.onUart fun u ↦ { u with
            duartTimer := { u.duartTimer with enabled := false } }).uart.opcr &&& 0xc = 0x4 then
          (d.onUart fun u ↦ { u with duartTimer := { u.duartTimer with enabled := false } }).onUart
            fun u ↦ { u with opr := u.opr &&& ~~~0x8 }
        else d.onUart fun u ↦ { u with duartTimer := { u.duartTimer with enabled := false } }
      else d) := rfl
  rw [hread, uart_onUart, Uart.markCounter]
  split_ifs <;> first | rfl | contradiction

theorem exact_stopCounter (h : d.uart.Driven soft) : Exact d soft (.read 0xf) := by
  have h' : ({ d.uart with duartTimer := { d.uart.duartTimer with enabled := false } } :
      Uart).Driven soft := ⟨h.opr, h.line⟩
  have huart : (d.step (.read 0xf)).uart = _ := read_stopCounter d
  by_cases hmode : d.uart.acr &&& 0x40 = 0
  · rw [if_pos hmode] at huart
    refine ⟨fun hguard ↦ ?_, fun hpins _ hsilent ↦ ?_⟩
    · rw [huart]
      exact h'.markCounter hmode (hguard hmode)
    · rw [huart] at hpins
      exact isr_of_pinsDriven_markCounter h' hmode hpins hsilent
  · rw [if_neg hmode] at huart
    refine exact_of_driven ?_ fun hmode' ↦ absurd hmode' hmode
    rw [huart]
    refine h.clearIsrBits fun _ ↦ ?_
    rw [ctOutput, ctOutput]
    simp only [if_pos hmode]

theorem exact_writeOPCR (h : d.uart.Driven soft) (data : BitVec 8) :
    Exact d soft (.write 0xd data) := by
  have hexact := @Uart.Driven.register d.uart (d.step (.write 0xd data)).uart soft h rfl rfl
  exact ⟨hexact.1, hexact.2⟩

theorem exact_setBits (h : d.uart.Driven soft) (data : BitVec 8) :
    Exact d soft (.write 0xe data) := by
  have hpins : (d.step (.write 0xe data)).uart.pins (soft ||| data) =
      d.uart.pins (soft ||| data) := rfl
  have hopr : (d.step (.write 0xe data)).uart.opr = d.uart.pins soft ||| data :=
    congrArg (· ||| data) h.opr
  have hline : (d.step (.write 0xe data)).uart.writeOutport.getLast? =
      some ((d.step (.write 0xe data)).uart.opr ^^^ 0xff) := List.getLast?_concat
  refine ⟨fun hguard ↦ ⟨?_, hline⟩, fun hpinsDriven ↦ ?_⟩
  · exact hopr.trans (Eq.symm (hpins.trans hguard))
  · have heq := (pinsDriven_iff_opr hline).mp hpinsDriven
    exact (heq.symm.trans hopr)

theorem exact_resetBits (h : d.uart.Driven soft) (data : BitVec 8) :
    Exact d soft (.write 0xf data) := by
  have hpins : (d.step (.write 0xf data)).uart.pins (soft &&& ~~~data) =
      d.uart.pins (soft &&& ~~~data) := rfl
  have hopr : (d.step (.write 0xf data)).uart.opr = d.uart.pins soft &&& ~~~data :=
    congrArg (· &&& ~~~data) h.opr
  have hline : (d.step (.write 0xf data)).uart.writeOutport.getLast? =
      some ((d.step (.write 0xf data)).uart.opr ^^^ 0xff) := List.getLast?_concat
  refine ⟨fun hguard ↦ ⟨?_, hline⟩, fun hpinsDriven ↦ ?_⟩
  · exact hopr.trans (Eq.symm (hpins.trans hguard))
  · have heq := (pinsDriven_iff_opr hline).mp hpinsDriven
    exact (heq.symm.trans hopr)

theorem changeMode_fields (d : Device) (data : BitVec 8) :
    (d.changeMode data).uart.opr = d.uart.opr ∧
      (d.changeMode data).uart.writeOutport = d.uart.writeOutport ∧
      (d.changeMode data).uart.opcr = d.uart.opcr ∧ (d.changeMode data).uart.isr = d.uart.isr ∧
      (d.changeMode data).uart.ctOutput = ctOutputUnder data d.uart := by
  have hbit : ∀ x : BitVec 8, (x &&& 0x40 = 0 ↔ x.getLsbD 6 = false) := by decide +kernel
  have hentering : ∀ old new : BitVec 8, new &&& 0x40 ≠ 0 →
      ((old ^^^ new) &&& 0x40 ≠ 0 ↔ old &&& 0x40 = 0) := by
    intro old new hnew
    rw [Ne, hbit, Bool.not_eq_false] at hnew
    rw [Ne, hbit, hbit, BitVec.getLsbD_xor, hnew, Bool.xor_true, Bool.not_eq_false,
      Bool.not_eq_true']
  rw [changeMode, ctOutputUnder]
  split_ifs with hchanged hmode hmode
  · refine ⟨rfl, rfl, rfl, rfl, ?_⟩
    have hold := (hentering d.uart.acr data hmode).mp hchanged
    rw [decide_eq_false (not_not.mpr hold), Bool.false_and]
    exact (if_pos hmode).trans BitVec.getLsbD_zero
  · exact ⟨rfl, rfl, rfl, rfl, if_neg hmode⟩
  · refine ⟨rfl, rfl, rfl, rfl, ?_⟩
    have hold := mt (hentering d.uart.acr data hmode).mpr hchanged
    rw [decide_eq_true hold, Bool.true_and]
    exact if_pos hmode
  · exact ⟨rfl, rfl, rfl, rfl, if_neg hmode⟩

section

variable (h : d.uart.Driven soft)
include h

theorem exact_writeACR (data : BitVec 8) : Exact d soft (.write 0x4 data) := by
  obtain ⟨hopr, hout, hopcr, hisr, hct⟩ := changeMode_fields d data
  have hexact := h.register hopr hout
  rw [pins_eq_iff hopcr hisr, hct] at hexact
  have hbit : intInputPortChange.getLsbD 3 = false := rfl
  have hset : (d.setACR data).uart =
      if (((d.changeMode data).uart.ipcr >>> 4) &&& data) &&& 0x0f ≠ 0 then
        (d.changeMode data).uart.setIsrBits intInputPortChange
      else (d.changeMode data).uart := apply_ite Device.uart _ _ _
  refine ⟨fun hguard ↦ ?_, fun hpins hsel ↦ ?_⟩
  · have hmode : (d.changeMode data).uart.Driven soft := hexact.1 hguard
    have hdriven : (d.setACR data).uart.Driven soft := by
      rw [hset]
      split_ifs
      · refine hmode.setIsrBits fun _ ↦ ctOutput_withIsr _ ?_
        rw [BitVec.getLsbD_or, hbit, Bool.or_false]
      · exact hmode
    exact driven_onPort (driven_onPort (driven_onPort (driven_onPort hdriven .a .baudUpdated) .b
      .baudUpdated) .a .updateInterrupts) .b .updateInterrupts
  · -- the register bit of `OP3` goes through the whole write unchanged
    have hmode : (d.changeMode data).uart.Op3Kept (d.changeMode data).uart := by
      refine op3Kept_refl ?_
      rw [hout, hopr]
      exact h.line
    have hkept : (d.changeMode data).uart.Op3Kept (d.setACR data).uart := by
      rw [hset]
      split_ifs
      · exact hmode.setIsrBits hbit
      · exact hmode
    have hend := op3Kept_onPort (op3Kept_onPort (op3Kept_onPort (op3Kept_onPort hkept .a
      .baudUpdated) .b .baudUpdated) .a .updateInterrupts) .b .updateInterrupts
    have hnew := hend.eq_ctOutput (hopcr.symm ▸ hsel) hpins
    have hold := getLsbD_pins d.uart soft 3
    simp only [pin, if_pos hsel, ← h.opr] at hold
    rw [hct, hopr] at hnew
    exact hnew.symm.trans hold

theorem driven_writeCommand (ch : ChannelId) (data : BitVec 8) :
    (d.writeCommand ch data).uart.Driven soft := by
  rw [writeCommand]
  split
  · rename_i u hu
    have hextend : u.Driven soft := by
      unfold extendBit at hu
      split at hu
      case h_9 => cases hu
      all_goals
        cases hu
        exact ⟨h.opr, h.line⟩
    exact driven_onPort (driven_onPort (d := d.onUart fun _ ↦ u) hextend ch .baudUpdated) ch
      (.write 2 (baseCommand data))
  · exact driven_onPort h ch (.write 2 (baseCommand data))

theorem driven_inputPortW (line : Fin 7) (state : Bool) :
    (d.uart.inputPortW line state).Driven soft := by
  have hbit : intInputPortChange.getLsbD 3 = false := rfl
  have hchange (i : Fin 4) : (d.uart.ipChangeW i state).Driven soft := by
    have hnote (newIP : BitVec 8) : (d.uart.notePortChange i newIP).Driven soft := by
      simp only [notePortChange]
      split_ifs
      · refine Uart.Driven.setIsrBits ?_ fun _ ↦ ctOutput_withIsr _ ?_
        · exact ⟨h.opr, h.line⟩
        · rw [BitVec.getLsbD_or, hbit, Bool.or_false]
      · exact ⟨h.opr, h.line⟩
      · exact h
    exact ⟨(hnote _).opr, (hnote _).line⟩
  have hlevel (i : Fin 3) : (d.uart.ipLevelW i state).Driven soft := ⟨h.opr, h.line⟩
  unfold inputPortW
  split
  all_goals first
    | exact hchange _
    | exact hlevel _

theorem exact_read (offset : BitVec 4) : Exact d soft (.read offset) := by
  have hport (ch : ChannelId) (reg : ℕ) : (d.readPort ch reg).2.uart.Driven soft :=
    driven_onPort h ch (.read reg)
  by_cases hstart : offset = 0xe
  · exact hstart ▸ exact_startCounter h
  by_cases hstop : offset = 0xf
  · exact hstop ▸ exact_stopCounter h
  refine exact_of_driven ?_ ?_
  · have hdriven : (d.read offset).2.uart.Driven soft := by
      rw [read]
      split
      case h_1 => exact hport .a 0
      case h_2 => exact hport .a 1
      case h_4 => exact hport .a 3
      case h_5 =>
        refine Uart.Driven.clearIsrBits ?_ fun _ ↦ ctOutput_withIsr _ ?_
        · exact ⟨h.opr, h.line⟩
        · rw [BitVec.getLsbD_and]
          exact Bool.and_true _
      case h_9 => exact hport .b 0
      case h_10 => exact hport .b 1
      case h_12 => exact hport .b 3
      case h_15 hoffset => exact absurd (BitVec.eq_of_toNat_eq hoffset) hstart
      case h_16 =>
        have hlt := offset.isLt
        have hne : offset.toNat ≠ 15 := fun heq ↦ hstop (BitVec.eq_of_toNat_eq heq)
        grind
      all_goals exact h
    exact hdriven
  · simp only [PortGuard]
    split
    · exact absurd (BitVec.eq_of_toNat_eq ‹_›) hstart
    · exact absurd (BitVec.eq_of_toNat_eq ‹_›) hstop
    · trivial

theorem exact_write (offset : BitVec 4) (data : BitVec 8) : Exact d soft (.write offset data) := by
  have hport (ch : ChannelId) (reg : ℕ) : (d.onPort ch (writeChanReg reg data)).uart.Driven soft :=
    driven_onPort h ch (.write reg data)
  by_cases hacr : offset = 0x4
  · exact hacr ▸ exact_writeACR h data
  by_cases hopcr : offset = 0xd
  · exact hopcr ▸ exact_writeOPCR h data
  by_cases hset : offset = 0xe
  · exact hset ▸ exact_setBits h data
  by_cases hreset : offset = 0xf
  · exact hreset ▸ exact_resetBits h data
  have hsoft : softBits soft (.write offset data) = soft := by
    simp only [softBits]
    split
    · exact absurd (BitVec.eq_of_toNat_eq ‹_›) hset
    · exact absurd (BitVec.eq_of_toNat_eq ‹_›) hreset
    · rfl
  refine exact_of_driven ?_ ?_
  · have hdriven : (d.write offset data).uart.Driven soft := by
      rw [write]
      split
      case h_1 => exact hport .a 0
      case h_2 => exact hport .a 1
      case h_3 => exact driven_writeCommand h .a data
      case h_4 => exact hport .a 3
      case h_5 hoffset => exact absurd (BitVec.eq_of_toNat_eq hoffset) hacr
      case h_6 =>
        refine driven_updateInterrupts (fun _ ↦ h.line) ?_
        simp only [h.opr, Uart.pins]
        exact mirror_mirror _ _ _ _
      case h_9 => exact hport .b 0
      case h_10 => exact hport .b 1
      case h_11 => exact driven_writeCommand h .b data
      case h_12 => exact hport .b 3
      case h_14 hoffset => exact absurd (BitVec.eq_of_toNat_eq hoffset) hopcr
      case h_15 hoffset => exact absurd (BitVec.eq_of_toNat_eq hoffset) hset
      case h_16 =>
        have hlt := offset.isLt
        have hne : offset.toNat ≠ 15 := fun heq ↦ hreset (BitVec.eq_of_toNat_eq heq)
        grind
      all_goals exact ⟨h.opr, h.line⟩
    rw [hsoft]
    exact hdriven
  · simp only [PortGuard]
    split
    · exact absurd (BitVec.eq_of_toNat_eq ‹_›) hacr
    · exact absurd (BitVec.eq_of_toNat_eq ‹_›) hopcr
    · exact absurd (BitVec.eq_of_toNat_eq ‹_›) hset
    · exact absurd (BitVec.eq_of_toNat_eq ‹_›) hreset
    · trivial

end

/-- A reset clears the register and drives the port. -/
theorem driven_reset (d : Device) : d.reset.uart.Driven 0 := by
  have hreset : (d.onUart Uart.deviceReset).uart.Driven 0 := by
    refine ⟨?_, ?_⟩
    · simp [Uart.deviceReset, Uart.pins, op3, mirror]
    · simp [Uart.deviceReset]
  exact driven_onPort (driven_onPort hreset .a .reset) .b .reset

theorem exact_step (h : d.uart.Driven soft) (e : Event) : Exact d soft e := by
  cases e with
  | read offset => exact exact_read h offset
  | write offset data => exact exact_write h offset data
  | irqVector => exact exact_of_driven ⟨h.opr, h.line⟩ trivial
  | rxLine ch state => exact exact_of_driven (driven_onPort h ch (.rxW state)) trivial
  | inputPort line state => exact exact_of_driven (driven_inputPortW h line state) trivial
  | traClock ch => exact exact_of_driven (driven_onPort h ch .traClock) trivial
  | rcvClock ch => exact exact_of_driven (driven_onPort h ch .rcvClock) trivial
  | ctTimer => exact exact_ctTimer h
  | advance time => exact exact_of_driven ⟨h.opr, h.line⟩ trivial
  | reset => exact exact_of_driven (driven_reset d) trivial

end Steps

/-- **The output port shows what it should** in exactly the runs whose steps meet the guard. -/
theorem always_pinsDriven_iff (storage : Device) (es : List Event) :
    Run.Always stepSoft (fun s ↦ s.1.uart.PinsDriven s.2) (powerOn storage, 0) es ↔
      Run.Meets stepSoft PortGuard (powerOn storage, 0) es := by
  refine Run.always_iff_meets_of_inv (Q := fun s ↦ s.1.uart.Driven s.2) (fun s h ↦ h.pinsDriven)
    (fun s e h hguard ↦ ?_) (fun s e h hpins ↦ ?_) (driven_reset _) es
  · exact (exact_step h e).driven hguard
  · exact (exact_step h e).guard hpins

/-- The storage of a machine whose memory is zero, with the DUART's crystal. -/
def crystal : Device := ⟨{ (default : Uart) with clock := 3686400 }, default, default⟩

/-- Two runs. The host sets `OP4` and then gives it to the receiver of channel A, which is not
ready: the pin stays set. The host gives `OP3` to the counter and starts it: the expiry does not
show. -/
theorem not_always_pinsDriven :
    ¬Run.Always stepSoft (fun s ↦ s.1.uart.PinsDriven s.2) (powerOn crystal, 0)
        [.write 0xe 0x10, .write 0xd 0x10] ∧
      ¬Run.Always stepSoft (fun s ↦ s.1.uart.PinsDriven s.2) (powerOn crystal, 0)
        [.write 0x7 0x10, .write 0xd 0x04, .read 0xe, .ctTimer] := by
  constructor
  · intro h
    exact absurd ((pinsDriven_iff _ _).mp h.last) (by decide +kernel)
  · intro h
    exact absurd ((pinsDriven_iff _ _).mp h.last) (by decide +kernel)

end Device

end RoscoEmulator.Duart
