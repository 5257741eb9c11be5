import RoscoEmulator.Lib.GuardedRun
import RoscoEmulator.Lib.ShiftRegister
import RoscoEmulator.SdCard.Trace

/-!
# The card behind its clock edges

On the bus the card is driven by levels on the clock and data lines. A waveform is any sequence of
such levels, repeated ones included; the bits that it carries are the levels of the data line at the
rising edges of the clock, and the bits that the host samples are the levels of the card's output
there. What a selected card does under a waveform is what its byte machine does with the bytes that
the waveform carries: one `turn` for each byte, in which the card first takes the next byte to send
and then receives one. The two clock polarities differ only in where the falling edge between two
bytes falls in time.

The simulation relation is `Phase`: between a byte machine that has finished a byte, the bits of the
next byte that have been clocked so far, and the card. A rising edge adds a bit and a falling edge
adds none; the eighth bit completes a turn.
-/

namespace RoscoEmulator.SdCard

open List ShiftRegister Card

variable {M : Type}

/-! ## Waveforms -/

/-- A level on a line of the bus that the host drives. -/
inductive Signal
  | mosi (state : Bool)
  | clock (state : Bool)
deriving DecidableEq, Repr

def Signal.event : Signal → Event M
  | .mosi state => .mosi state
  | .clock state => .clock state

/-- The levels of the data line at the rising edges of a waveform, given the levels before it. -/
def carriedFrom (clk mosi : Bool) : List Signal → List Bool
  | [] => []
  | .mosi state :: w => carriedFrom clk state w
  | .clock state :: w =>
      if state && !clk then mosi :: carriedFrom state mosi w else carriedFrom state mosi w

/-- The bits that a waveform carries to a card. -/
def Card.carried (c : Card M) (w : List Signal) : List Bool :=
  carriedFrom c.wire.clkState c.wire.inBit w

/-- The signal is a rising edge of the clock of the card. -/
def Rises (c : Card M) (s : Signal) : Prop := s = .clock true ∧ c.wire.clkState = false

instance (c : Card M) (s : Signal) : Decidable (Rises c s) := inferInstanceAs (Decidable (_ ∧ _))

/-! ## Turns of the byte machine -/

namespace Core

/-- The byte on the output line until the next byte boundary. -/
def outByte (k : Core M) : Byte := k.shiftByte.1.getD 0xff

variable [HardDisk M]

/-- A byte of the bus: the card takes a byte to send, and receives one. -/
def turn (k : Core M) (byte : Byte) : Core M := k.shiftByte.2.receive byte

def turns (k : Core M) (bytes : List Byte) : Core M := bytes.foldl turn k

/-- The bytes that the card sends while it receives the given ones. -/
def outputs (k : Core M) : List Byte → List Byte
  | [] => []
  | byte :: bytes => k.outByte :: (k.turn byte).outputs bytes

variable (k : Core M)

@[simp] theorem turns_nil : k.turns [] = k := rfl

@[simp] theorem turns_cons (byte : Byte) (bytes : List Byte) :
    k.turns (byte :: bytes) = (k.turn byte).turns bytes := rfl

theorem turns_append (bytes bytes' : List Byte) :
    k.turns (bytes ++ bytes') = (k.turns bytes).turns bytes' := foldl_append

end Core

/-! ## The simulation -/

/-- The card `c` has received the bits `part` of a byte after its byte machine was in state `k`.
With `driven`, the output line has the level of the bit that is being sent. -/
inductive Phase (driven : Prop) (k : Core M) : List Bool → Card M → Prop
  /-- The clock is high after a byte, or at a selection; the next falling edge is a byte
  boundary. -/
  | boundary {c : Card M} : c.wire.ss = true → c.wire.clkState = true → c.wire.curBit % 8 = 0 →
      shiftIn c.wire.outLatch true = 0xff → c.core = k → Phase driven k [] c
  /-- The clock is low. -/
  | low {c : Card M} {part : List Bool} (x : Byte) : c.wire.ss = true → c.wire.clkState = false →
      part.length < 8 → c.wire.curBit = part.length →
      c.wire.inLatch = shiftInAll x part <<< 1 →
      c.wire.outLatch = shiftInAll k.outByte (replicate part.length true) →
      (driven → c.wire.miso = c.wire.outLatch.msb) → c.core = k.shiftByte.2 → Phase driven k part c
  /-- The clock is high between two bits of a byte. -/
  | high {c : Card M} {part : List Bool} {bit : Bool} (x : Byte) : c.wire.ss = true →
      c.wire.clkState = true → part.length + 1 < 8 → c.wire.curBit = part.length + 1 →
      c.wire.inLatch = shiftInAll x (part ++ [bit]) →
      c.wire.outLatch = shiftInAll k.outByte (replicate part.length true) →
      c.core = k.shiftByte.2 → Phase driven k (part ++ [bit]) c

theorem Phase.length_lt {driven : Prop} {k : Core M} {part : List Bool} {c : Card M}
    (h : Phase driven k part c) : part.length < 8 := by
  cases h with
  | boundary => decide
  | low _ _ _ hlen => exact hlen
  | high _ _ _ hlen => simpa using hlen

section Edges

variable {driven : Prop} {k : Core M} {part : List Bool} {c : Card M}

/-- The falling edge between two bytes. -/
theorem phase_shiftOut_boundary (hss : c.wire.ss = true) (hbit : c.wire.curBit % 8 = 0)
    (hout : shiftIn c.wire.outLatch true = 0xff) : Phase driven c.core []
    { c.shiftOut with wire := { c.shiftOut.wire with clkState := false } } := by
  have hlatch : c.shiftOut.wire.outLatch = c.core.outByte := by
    simp only [Card.shiftOut, hbit, if_true]
    rw [show (c.wire.outLatch <<< 1) ||| 1 = 0xff from hout, Core.outByte]
  have hcore : c.shiftOut.core = c.core.shiftByte.2 := by
    simp only [Card.shiftOut, hbit, if_true]
  refine .low c.wire.inLatch ?_ rfl (by decide) ?_ ?_ hlatch (fun _ ↦ ?_) hcore
  · simp only [Card.shiftOut, hbit, if_true]
    exact hss
  · simp only [Card.shiftOut, hbit, if_true]
    rfl
  · simp only [Card.shiftOut, hbit, if_true]
    rfl
  · simp only [Card.shiftOut, hbit, if_true]

variable {x : Byte}

/-- A falling edge between two bits of a byte. -/
theorem phase_shiftOut {bit : Bool} (hss : c.wire.ss = true) (hlen : part.length + 1 < 8)
    (hbit : c.wire.curBit = part.length + 1) (hin : c.wire.inLatch = shiftInAll x (part ++ [bit]))
    (hout : c.wire.outLatch = shiftInAll k.outByte (replicate part.length true))
    (hcore : c.core = k.shiftByte.2) : Phase driven k (part ++ [bit])
      { c.shiftOut with wire := { c.shiftOut.wire with clkState := false } } := by
  have hmod : ¬c.wire.curBit % 8 = 0 := by omega
  refine .low x ?_ rfl (by simpa using hlen) ?_ ?_ ?_ (fun _ ↦ ?_) ?_
  · simp only [Card.shiftOut, hmod, if_false]
    exact hss
  · simp only [Card.shiftOut, hmod, if_false, length_append, length_singleton]
    omega
  · simp only [Card.shiftOut, hmod, if_false, hin]
  · simp only [Card.shiftOut, hmod, if_false, hout, length_append, length_singleton]
    rw [replicate_succ', shiftInAll_concat]
    rfl
  · simp only [Card.shiftOut, hmod, if_false]
  · simp only [Card.shiftOut, hmod, if_false, hcore]

/-- A rising edge shifts a bit into the input register. -/
theorem inLatch_latchIn (hin : c.wire.inLatch = shiftInAll x part <<< 1) :
    (c.wire.inLatch &&& ~~~1) ||| (BitVec.ofBool c.wire.inBit).setWidth 8 =
      shiftInAll x (part ++ [c.wire.inBit]) := by
  have hmask : ∀ i < 8, (~~~(1 : Byte)).getLsbD i = !decide (i < 1) := by decide
  have hclear (y : Byte) : (y <<< 1) &&& ~~~(1 : Byte) = y <<< 1 := by
    refine BitVec.eq_of_getLsbD_eq fun i hi ↦ ?_
    rw [BitVec.getLsbD_and, hmask i hi, BitVec.getLsbD_shiftLeft]
    cases decide (i < 1) <;> simp
  rw [hin, hclear, shiftInAll_concat]
  rfl

variable [HardDisk M]

theorem phase_latchIn (hss : c.wire.ss = true) (hlen : part.length + 1 < 8)
    (hbit : c.wire.curBit = part.length) (hin : c.wire.inLatch = shiftInAll x part <<< 1)
    (hout : c.wire.outLatch = shiftInAll k.outByte (replicate part.length true))
    (hcore : c.core = k.shiftByte.2) : Phase driven k (part ++ [c.wire.inBit])
      { c.latchIn with wire := { c.latchIn.wire with clkState := true } } := by
  have hne : ¬c.wire.curBit + 1 = 8 := by omega
  refine .high x ?_ rfl hlen ?_ ?_ ?_ ?_
  · simp only [latchIn, hne, if_false]
    exact hss
  · simp only [latchIn, hne, if_false]
    omega
  · simp only [latchIn, hne, if_false]
    exact inLatch_latchIn hin
  · simp only [latchIn, hne, if_false]
    exact hout
  · simp only [latchIn, hne, if_false]
    exact hcore

theorem phase_latchIn_last (hss : c.wire.ss = true) (hlen : part.length = 7)
    (hbit : c.wire.curBit = part.length) (hin : c.wire.inLatch = shiftInAll x part <<< 1)
    (hout : c.wire.outLatch = shiftInAll k.outByte (replicate part.length true))
    (hcore : c.core = k.shiftByte.2) :
    Phase driven (k.turn (shiftInAll x (part ++ [c.wire.inBit]))) []
      { c.latchIn with wire := { c.latchIn.wire with clkState := true } } := by
  have heq : c.wire.curBit + 1 = 8 := by omega
  -- seven ones have entered the output register, and one more fills it
  have hones : shiftIn c.wire.outLatch true = 0xff := by
    rw [hout, hlen, ← shiftInAll_concat, ← replicate_succ']
    refine msbBits_inj ?_
    rw [msbBits_shiftInAll _ (by simp)]
    decide
  have hlatch := inLatch_latchIn hin
  refine .boundary ?_ rfl ?_ ?_ ?_
  · simp only [latchIn, heq, if_true]
    split_ifs <;> exact hss
  · simp only [latchIn, heq, if_true]
    split_ifs <;> exact Nat.mod_self 8
  · simp only [latchIn, heq, if_true]
    split_ifs
    · exact show shiftIn (0xff : Byte) true = 0xff by decide
    · exact hones
  · simp only [latchIn, heq, if_true]
    rw [hlatch, hcore]
    rfl

/-- **One signal.** -/
theorem phase_step (h : Phase driven k part c) (s : Signal) :
    (¬Rises c s ∧ Phase driven k part (c.step s.event)) ∨
      (Rises c s ∧ (driven → c.wire.miso = k.outByte.getMsbD part.length) ∧
        (Phase driven k (part ++ [c.wire.inBit]) (c.step s.event) ∨
          ∃ byte, msbBits byte = part ++ [c.wire.inBit] ∧
            Phase driven (k.turn byte) [] (c.step s.event))) := by
  cases s with
  | mosi state =>
    refine .inl ⟨by simp [Rises], ?_⟩
    cases h with
    | boundary hss hclk hbit hout hcore => exact .boundary hss hclk hbit hout hcore
    | low x hss hclk hlen hbit hin hout hmiso hcore =>
      exact .low x hss hclk hlen hbit hin hout hmiso hcore
    | high x hss hclk hlen hbit hin hout hcore => exact .high x hss hclk hlen hbit hin hout hcore
  | clock state =>
    by_cases hlevel : state = c.wire.clkState
    · -- no edge
      refine .inl ⟨?_, ?_⟩
      · rintro ⟨heq, hclk⟩
        cases heq
        rw [hclk] at hlevel
        cases hlevel
      · have hstay : c.step (Signal.clock state).event = c := by
          simp [Card.step, Signal.event, spiClockW, hlevel]
        rwa [hstay]
    · have hedge : c.step (Signal.clock state).event =
          (let c' := if c.wire.ss then if state then c.latchIn else c.shiftOut else c
          { c' with wire := { c'.wire with clkState := state } }) := by
        have hne : (state != c.wire.clkState) = true := by simpa using hlevel
        simp [Card.step, Signal.event, spiClockW, hne]
      rw [hedge]
      cases h with
      | boundary hss hclk hbit hout hcore =>
        have hstate : state = false := by simpa [hclk] using hlevel
        subst hstate hcore
        refine .inl ⟨by simp [Rises], ?_⟩
        simp only [hss, if_true, Bool.false_eq_true, if_false]
        exact phase_shiftOut_boundary hss hbit hout
      | high x hss hclk hlen hbit hin hout hcore =>
        have hstate : state = false := by simpa [hclk] using hlevel
        subst hstate
        refine .inl ⟨by simp [Rises], ?_⟩
        simp only [hss, if_true, Bool.false_eq_true, if_false]
        exact phase_shiftOut hss hlen hbit hin hout hcore
      | low x hss hclk hlen hbit hin hout hmiso hcore =>
        have hstate : state = true := by simpa [hclk] using hlevel
        subst hstate
        refine .inr ⟨⟨rfl, hclk⟩, fun hd ↦ ?_, ?_⟩
        · rw [hmiso hd, hout, msb_shiftInAll _ (by simpa using hlen), length_replicate]
        · simp only [hss, if_true]
          by_cases hlast : part.length = 7
          · refine .inr ⟨shiftInAll x (part ++ [c.wire.inBit]), ?_, ?_⟩
            · exact msbBits_shiftInAll _ (by simp [hlast])
            · exact phase_latchIn_last hss hlast hbit hin hout hcore
          · exact .inl (phase_latchIn hss (by omega) hbit hin hout hcore)

end Edges

section Waveforms

variable [HardDisk M]

/-- The card after a waveform. -/
def Card.play (c : Card M) (w : List Signal) : Card M := Run.run Card.step c (w.map Signal.event)

@[simp] theorem Card.play_nil (c : Card M) : c.play [] = c := rfl

@[simp] theorem Card.play_cons (c : Card M) (s : Signal) (w : List Signal) :
    c.play (s :: w) = (c.step s.event).play w := rfl

/-- The levels of the output line at the rising edges of a waveform. -/
def Card.sampled (c : Card M) : List Signal → List Bool
  | [] => []
  | s :: w =>
      if Rises c s then c.wire.miso :: (c.step s.event).sampled w
      else (c.step s.event).sampled w

theorem carried_cons (c : Card M) (s : Signal) (w : List Signal) :
    c.carried (s :: w) =
      if Rises c s then c.wire.inBit :: (c.step s.event).carried w
      else (c.step s.event).carried w := by
  have hclk (state : Bool) : (c.spiClockW state).carried w = carriedFrom state c.wire.inBit w := by
    have hbit : (c.spiClockW state).wire.inBit = c.wire.inBit := by
      simp only [spiClockW, latchIn, Card.shiftOut]
      split_ifs <;> rfl
    rw [Card.carried, hbit]
    rfl
  cases s with
  | mosi state => exact (if_neg (by simp [Rises])).symm
  | clock state =>
    change carriedFrom c.wire.clkState c.wire.inBit _ = _
    rw [carriedFrom, Signal.event, Card.step, hclk]
    cases state <;> cases hc : c.wire.clkState <;> simp [Rises, hc]

/-- The bits sent up to a point inside a byte. -/
theorem take_msbBits_succ (x : Byte) {n : ℕ} (h : n < 8) :
    (msbBits x).take (n + 1) = (msbBits x).take n ++ [x.getMsbD n] := by
  rw [take_add_one, getElem?_msbBits x h]
  rfl

variable {driven : Prop} {data : ℕ → Byte} {count : ℕ} {k : Core M} {c : Card M}
    {part : List Bool} {delay i : ℕ}

/-- **The card under a waveform.** It does what its byte machine does with the bytes that the
waveform carries, and the host samples the bytes that the machine sends. -/
theorem phase_play (h : Phase driven k part c) (w : List Signal) :
    ∃ bytes part', part ++ c.carried w = bytes.flatMap msbBits ++ part' ∧
      Phase driven (k.turns bytes) part' (c.play w) ∧
      (driven → (msbBits k.outByte).take part.length ++ c.sampled w =
        (k.outputs bytes).flatMap msbBits ++
          (msbBits (k.turns bytes).outByte).take part'.length) := by
  induction w generalizing k part c with
  | nil =>
    refine ⟨[], part, ?_, h, fun _ ↦ ?_⟩
    · simp [Card.carried, carriedFrom]
    · simp [Core.outputs, sampled]
  | cons s w ih =>
    rw [carried_cons, sampled, play_cons]
    rcases phase_step h s with ⟨hs, hph⟩ | ⟨hs, hmiso, hph | ⟨byte, hbyte, hph⟩⟩
    · rw [if_neg hs, if_neg hs]
      exact ih hph
    · -- a bit inside a byte
      rw [if_pos hs, if_pos hs]
      obtain ⟨bytes, part', hbits, hph', hout⟩ := ih hph
      refine ⟨bytes, part', by rw [← hbits]; simp, hph', fun hd ↦ ?_⟩
      have hlen := hph.length_lt
      rw [length_append, length_singleton] at hlen
      rw [← hout hd, length_append, length_singleton,
        take_msbBits_succ _ (by omega), hmiso hd, append_assoc, singleton_append]
    · -- the last bit of a byte
      rw [if_pos hs, if_pos hs]
      obtain ⟨bytes, part', hbits, hph', hout⟩ := ih hph
      have hlen : part.length = 7 := by
        have := congrArg List.length hbyte
        rw [length_msbBits, length_append, length_singleton] at this
        omega
      refine ⟨byte :: bytes, part', ?_, hph', fun hd ↦ ?_⟩
      · rw [flatMap_cons, hbyte, append_assoc, append_assoc, ← hbits]
        rfl
      · have hfull : msbBits k.outByte = (msbBits k.outByte).take part.length ++ [c.wire.miso] := by
          rw [hmiso hd, hlen, ← take_msbBits_succ _ (by decide), take_of_length_le (by simp)]
        have htail := hout hd
        rw [length_nil, take_zero, nil_append] at htail
        rw [htail, ← singleton_append, ← append_assoc, ← hfull, Core.outputs,
          flatMap_cons, append_assoc]
        rfl

/-! ## Selection -/

omit [HardDisk M] in
theorem shiftByte_select (k : Core M) : k.select.shiftByte = (none, k.select) := by
  simp [Core.shiftByte, Core.select]

/-- A selected card is at a byte boundary. With the clock low its output has not been driven yet. -/
theorem phase_select (h : c.wire.ss = false) :
    Phase (c.wire.clkState = true) c.core.select [] (c.step (.ss true)) := by
  have hstep : c.step (.ss true) =
      { wire := { c.wire with inLatch := 0, curBit := 0, outLatch := 0xff, ss := true }
        core := c.core.select } := by
    simp [Card.step, spiSsW, h]
  rw [hstep]
  cases hclk : c.wire.clkState with
  | true => exact .boundary rfl hclk rfl (show shiftIn (0xff : Byte) true = 0xff by decide) rfl
  | false =>
    refine .low 0 rfl hclk (by decide) rfl rfl ?_ (fun h ↦ by cases h) ?_
    · rw [Core.outByte, shiftByte_select]
      rfl
    · rw [shiftByte_select]

/-! ## Bytes in -/

theorem receivedBytes_turns (k : Core M) (bytes : List Byte) :
    (k.turns bytes).receivedBytes = k.receivedBytes ++ bytes := by
  induction bytes generalizing k with
  | nil => exact (append_nil _).symm
  | cons byte bytes ih =>
    rw [Core.turns_cons, ih, Core.turn, Core.receivedBytes_receive, append_assoc]
    rw [Core.receivedBytes, Core.bus_shiftByte]
    rfl

omit [HardDisk M] in
theorem Phase.core (h : Phase driven k part c) : c.core = k ∨ c.core = k.shiftByte.2 := by
  cases h with
  | boundary _ _ _ _ hcore => exact .inl hcore
  | low _ _ _ _ _ _ _ _ hcore => exact .inr hcore
  | high _ _ _ _ _ _ _ hcore => exact .inr hcore

omit [HardDisk M] in
theorem Phase.bus (h : Phase driven k part c) : c.core.bus = k.bus := by
  rcases h.core with hcore | hcore
  · rw [hcore]
  · rw [hcore, Core.bus_shiftByte]

/-- A waveform that carries whole bytes takes the byte machine through their turns. -/
theorem exists_phase_play (h : Phase driven k [] c) {w : List Signal} {bytes : List Byte}
    (hw : c.carried w = bytes.flatMap msbBits) :
    Phase driven (k.turns bytes) [] (c.play w) ∧
      (driven → c.sampled w = (k.outputs bytes).flatMap msbBits) := by
  obtain ⟨bytes', part, hbits, hph, hout⟩ := phase_play h w
  rw [nil_append, hw] at hbits
  obtain ⟨rfl, rfl⟩ := eq_of_flatMap_msbBits hph.length_lt hbits
  exact ⟨hph, fun hd ↦ by simpa using hout hd⟩

/-! ## Bytes out -/

/-- The bytes on the output line after a call of `send_data`, in their order. -/
def sentByte (data : ℕ → Byte) (count delay i : ℕ) : Byte :=
  if delay ≤ i ∧ i < delay + count then data (i - delay) else 0xff

/-- The card executes no command and does not change `m_data` under the waveform. -/
def QuietUnder (c : Card M) (w : List Signal) : Prop :=
  ∀ e ∈ (c.play w).core.log.drop c.core.log.length, e.isWork = false

/-- The byte machine is in the middle of its output: `i` bytes have been taken. -/
structure Outputs (data : ℕ → Byte) (count delay i : ℕ) (k : Core M) : Prop where
  data : k.data = data
  outDelay : k.outDelay = delay
  outPtr : k.outPtr = min i (delay + count)
  outCount : k.outCount = min count (delay + count - i)

omit [HardDisk M] in
theorem Outputs.outByte (h : Outputs data count delay i k) :
    k.outByte = sentByte data count delay i := by
  have hptr := h.outPtr
  have hcount := h.outCount
  rw [Core.outByte, Core.shiftByte, sentByte, h.outDelay, h.data]
  split_ifs with h1 h2 h3 h4 h5
  · omega
  · rfl
  · rw [show k.outPtr = i by omega]
    rfl
  · omega
  · omega
  · rfl

omit [HardDisk M] in
theorem Outputs.shiftByte (h : Outputs data count delay i k) :
    Outputs data count delay (i + 1) k.shiftByte.2 := by
  obtain ⟨hdata, hdelay, hptr, hcount⟩ := h
  rw [Core.shiftByte]
  split_ifs with h1 h2
  · refine ⟨hdata, hdelay, ?_, ?_⟩
    · change k.outPtr + 1 = _
      omega
    · change k.outCount = _
      omega
  · refine ⟨hdata, hdelay, ?_, ?_⟩
    · change k.outPtr + 1 = _
      omega
    · change k.outCount - 1 = _
      omega
  · refine ⟨hdata, hdelay, ?_, ?_⟩
    · change k.outPtr = _
      omega
    · change k.outCount = _
      omega

theorem isPrefix_turns (k : Core M) (bytes : List Byte) : k.log <+: (k.turns bytes).log := by
  induction bytes generalizing k with
  | nil => exact prefix_refl _
  | cons byte bytes ih =>
    refine (Internal.isPrefix (.shiftByte (.refl k))).trans ?_
    exact (Core.isPrefix_receive byte _).trans (ih (k.turn byte))

theorem outputs_of_quiet {bytes : List Byte} (h : Outputs data count delay i k) {es : List Effect}
    (hlog : (k.turns bytes).log = k.log ++ es) (hes : ∀ e ∈ es, e.isWork = false) :
    k.outputs bytes = (range bytes.length).map (fun j ↦ sentByte data count delay (i + j)) ∧
      Outputs data count delay (i + bytes.length) (k.turns bytes) := by
  induction bytes generalizing k i es with
  | nil => exact ⟨rfl, h⟩
  | cons byte bytes ih =>
    obtain ⟨es₁, h₁⟩ := Internal.isPrefix (.shiftByte (.refl k))
    obtain ⟨es₂, h₂⟩ := Core.isPrefix_receive byte k.shiftByte.2
    obtain ⟨es₃, h₃⟩ := isPrefix_turns (k.turn byte) bytes
    have hsplit : es = es₁ ++ es₂ ++ es₃ := by
      have hall : (k.turns (byte :: bytes)).log = k.log ++ (es₁ ++ es₂ ++ es₃) := by
        rw [Core.turns_cons, ← h₃, Core.turn, ← h₂, ← h₁]
        simp [append_assoc]
      rw [hlog] at hall
      exact append_cancel_left hall
    have hsame := Core.sameOutput_receive h₂.symm fun e he ↦ hes e (by rw [hsplit]; simp [he])
    have hshift := h.shiftByte
    have hturn : Outputs data count delay (i + 1) (k.turn byte) :=
      ⟨hsame.data.trans hshift.data, hsame.outDelay.trans hshift.outDelay,
        hsame.outPtr.trans hshift.outPtr, hsame.outCount.trans hshift.outCount⟩
    obtain ⟨hout, hend⟩ := ih hturn h₃.symm fun e he ↦ hes e (by rw [hsplit]; simp [he])
    constructor
    · rw [Core.outputs, hout, h.outByte, length_cons, range_succ_eq_map, map_cons,
        map_map, Nat.add_zero]
      refine congrArg _ (map_congr_left fun j _ ↦ ?_)
      rw [Function.comp_apply, show i + 1 + j = i + j.succ by omega]
    · rw [Core.turns_cons, length_cons, show i + (bytes.length + 1) = i + 1 + bytes.length by
        omega]
      exact hend

theorem flatMap_range_msbBits (f : ℕ → Byte) (n : ℕ) {r : ℕ} (hr : r < 8) :
    ((range n).map f).flatMap msbBits ++ (msbBits (f n)).take r =
      (range (8 * n + r)).map fun i ↦ (f (i / 8)).getMsbD (i % 8) := by
  have hword (m : ℕ) {s : ℕ} (hs : s ≤ 8) : (msbBits (f m)).take s =
      ((range s).map (8 * m + ·)).map fun i ↦ (f (i / 8)).getMsbD (i % 8) := by
    rw [msbBits, ← map_take, take_range, Nat.min_eq_left hs, map_map]
    refine map_congr_left fun i hi ↦ ?_
    have hi' := List.mem_range.mp hi
    rw [Function.comp_apply, show (8 * m + i) / 8 = m by omega, show (8 * m + i) % 8 = i by omega]
  have hwords : ((range n).map f).flatMap msbBits =
      (range (8 * n)).map fun i ↦ (f (i / 8)).getMsbD (i % 8) := by
    induction n with
    | zero => rfl
    | succ n ih =>
      rw [range_succ, map_append, flatMap_append, ih, Nat.mul_succ, range_add,
        map_append, ← hword n (Nat.le_refl 8), take_of_length_le (by simp)]
      simp
  rw [range_add, map_append, ← hword n (Nat.le_of_lt hr), hwords]

/-- A rising edge that is logged completes a byte. -/
theorem phase_of_logged (h : Phase driven k part c)
    (hlog : (c.step (Signal.clock true).event).core.log ≠ c.core.log) :
    Phase True (c.step (Signal.clock true).event).core [] (c.step (Signal.clock true).event) ∧
      ∃ byte, (c.step (Signal.clock true).event).core = c.core.receive byte := by
  have hstay (hclk : c.wire.clkState = true) :
      (c.step (Signal.clock true).event).core = c.core := by
    simp [Card.step, Signal.event, spiClockW, hclk]
  cases h with
  | boundary _ hclk => exact absurd (congrArg Core.log (hstay hclk)) hlog
  | high _ _ hclk => exact absurd (congrArg Core.log (hstay hclk)) hlog
  | low x hss hclk hlen hbit hin hout _ hcore =>
    have hedge : c.step (Signal.clock true).event =
        { c.latchIn with wire := { c.latchIn.wire with clkState := true } } := by
      simp [Card.step, Signal.event, spiClockW, hss, hclk]
    rw [hedge] at hlog ⊢
    by_cases hlast : part.length = 7
    · have heq : c.wire.curBit + 1 = 8 := by omega
      have hreceive : c.latchIn.core = c.core.receive (shiftInAll x (part ++ [c.wire.inBit])) := by
        simp only [latchIn, heq, if_true]
        rw [inLatch_latchIn hin]
      have hturn : c.latchIn.core = k.turn (shiftInAll x (part ++ [c.wire.inBit])) := by
        rw [hreceive, hcore]
        rfl
      have hph : Phase True (k.turn (shiftInAll x (part ++ [c.wire.inBit]))) []
          { c.latchIn with wire := { c.latchIn.wire with clkState := true } } :=
        phase_latchIn_last hss hlast hbit hin hout hcore
      rw [← hturn] at hph
      exact ⟨hph, _, hreceive⟩
    · have hne : ¬c.wire.curBit + 1 = 8 := by omega
      refine absurd ?_ hlog
      simp only [latchIn, hne, if_false]

/-- **The transport.** Whatever the clock does between its edges and the data line between rising
edges, a selected card receives exactly the bytes that are clocked into it; and after a call of
`send_data` the host samples the response delay, the bytes of `m_data` and then ones, as long as the
card executes no command and does not change `m_data`. -/
theorem spi_transport (c : Card M) (hss : c.wire.ss = false) (w : List Signal) :
    (∀ bytes, (c.step (.ss true)).carried w = bytes.flatMap msbBits →
      ((c.step (.ss true)).play w).core.receivedBytes = c.core.receivedBytes ++ bytes) ∧
    (∀ es count delay, ((c.step (.ss true)).play (w ++ [.clock true])).core.log =
        ((c.step (.ss true)).play w).core.log ++ es ++ [.sent count delay] →
      ∀ w', QuietUnder ((c.step (.ss true)).play (w ++ [.clock true])) w' →
        ((c.step (.ss true)).play (w ++ [.clock true])).sampled w' =
          (range (((c.step (.ss true)).play (w ++ [.clock true])).carried w').length).map
            fun i ↦ (sentByte ((c.step (.ss true)).play (w ++ [.clock true])).core.data count delay
              (i / 8)).getMsbD (i % 8)) := by
  have hselect := phase_select hss
  constructor
  · intro bytes hw
    have hph := (exists_phase_play hselect hw).1
    rw [Core.receivedBytes, hph.bus]
    exact receivedBytes_turns c.core.select bytes
  · intro es count delay hlog w' hquiet
    obtain ⟨bytes, part, -, hph, -⟩ := phase_play hselect w
    have hplay : (c.step (.ss true)).play (w ++ [.clock true]) =
        ((c.step (.ss true)).play w).step (Signal.clock true).event := by
      rw [play, map_append, Run.run_append]
      rfl
    rw [hplay] at hlog hquiet ⊢
    generalize (c.step (.ss true)).play w = c₁ at hlog hquiet hph ⊢
    have hne : (c₁.step (Signal.clock true).event).core.log ≠ c₁.core.log := by
      intro heq
      rw [hlog, append_assoc] at heq
      simpa using congrArg List.length heq
    obtain ⟨hph₂, byte, hreceive⟩ := phase_of_logged hph hne
    have hsent := LastSent.receive byte c₁.core
    rw [← hreceive] at hsent
    obtain ⟨hptr, hdelay, hcount⟩ := hsent _ _ _ hlog
    generalize c₁.step (Signal.clock true).event = c₂ at *
    have hstart : Outputs c₂.core.data count delay 0 c₂.core :=
      ⟨rfl, hdelay, by rw [hptr]; omega, by rw [hcount]; omega⟩
    obtain ⟨bytes', part', hbits, hph', hout⟩ := phase_play hph₂ w'
    -- what the byte machine has logged is a part of what the card has logged
    obtain ⟨es', hes'⟩ := isPrefix_turns c₂.core bytes'
    have hquiet' : ∀ e ∈ es', e.isWork = false := by
      intro e he
      refine hquiet e ?_
      have hend : (c₂.core.turns bytes').log <+: (c₂.play w').core.log := by
        rcases hph'.core with hcore | hcore
        · exact (congrArg Core.log hcore).symm ▸ prefix_refl _
        · rw [hcore]
          exact Internal.isPrefix (.shiftByte (.refl _))
      obtain ⟨rest, hrest⟩ := hend
      rw [← hrest, ← hes', append_assoc, drop_left]
      exact mem_append_left _ he
    obtain ⟨hbytes, hend⟩ := outputs_of_quiet hstart hes'.symm hquiet'
    have hlen : (c₂.carried w').length = 8 * bytes'.length + part'.length := by
      rw [← nil_append (c₂.carried w'), hbits, length_append, length_flatMap_msbBits]
    have hsampled := hout trivial
    rw [length_nil, take_zero, nil_append, hbytes, hend.outByte] at hsampled
    rw [hsampled, hlen]
    simp only [Nat.zero_add]
    exact flatMap_range_msbBits _ _ hph'.length_lt

/-- The bits of the bytes with the clock low between them. -/
def waveform (bytes : List Byte) : List Signal :=
  (bytes.flatMap msbBits).flatMap fun bit ↦ [.mosi bit, .clock true, .clock false]

/-- A card without an image gets `CMD0`, and answers with a zero after one byte. -/
theorem spi_transport_goIdleState :
    let c : Card MemoryDisk := Card.start .v2 true
    let w := waveform [0x40, 0x00, 0x00, 0x00, 0x00, 0x94] ++ [.mosi true]
    c.wire.ss = false ∧
      ((c.step (.ss true)).play w).core.receivedBytes = [0x40, 0x00, 0x00, 0x00, 0x00, 0x94] ∧
      ((c.step (.ss true)).play (w.dropLast.dropLast.dropLast ++ [.clock true])).sampled
        (.clock false :: waveform [0xff, 0xff, 0xff]) =
          ([0xff, 0x00, 0xff] : List Byte).flatMap msbBits := by
  intro c w
  refine ⟨rfl, (spi_transport c rfl w).1 _ (by decide +kernel), ?_⟩
  have hlog : ((c.step (.ss true)).play (w.dropLast.dropLast.dropLast ++ [.clock true])).core.log =
      ((c.step (.ss true)).play w.dropLast.dropLast.dropLast).core.log ++
        [.received 0x94, .executed [0x40, 0x00, 0x00, 0x00, 0x00, 0x94], .dataWritten 0 1] ++
        [.sent 1 1] := by
    decide +kernel
  rw [(spi_transport c rfl w.dropLast.dropLast.dropLast).2 _ _ _ hlog
    (.clock false :: waveform [0xff, 0xff, 0xff]) (by unfold QuietUnder; decide +kernel)]
  decide +kernel

end Waveforms

end RoscoEmulator.SdCard
