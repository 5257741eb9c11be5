import RoscoEmulator.Emu.TransmitFrame

/-!
# Frames from a transmitter to a receiver

The receiver samples one bit per call of `receive_register_update_bit`: a falling edge starts a
character, and the data bits, the parity bit and one stop bit complete it, however many stop bits
the transmitter sends. `receive_register_extract` then finds the data bits by their distance from
the top of the register, so it has to be called before the next bit arrives; `rcv_edge` does.

The transmitter takes the parity of the whole byte and the receiver that of the data bits, so a byte
with bits above the data width agrees with its frame only if dropping them keeps the parity.
-/

namespace RoscoEmulator

open BitVec List Serial

/-- A frame format: one start bit, five to eight data bits, any parity, and at least one stop
bit. -/
structure FrameFormat where
  dataBits : ℕ
  parity : Parity
  stopBits : StopBits
  five_le_dataBits : 5 ≤ dataBits
  dataBits_le_eight : dataBits ≤ 8
  stopBits_ne_zero : stopBits ≠ .zero

namespace FrameFormat

variable (f : FrameFormat)

def parityBits : ℕ := if f.parity = .none then 0 else 1

theorem parityBits_le_one : f.parityBits ≤ 1 := by
  rw [parityBits]
  split_ifs <;> omega

/-- A byte cut down to the data bits. -/
def mask (byte : BitVec 8) : BitVec 8 := (byte.setWidth f.dataBits).setWidth 8

/-- The parity of the byte is that of its data bits, if the parity counts ones at all. -/
def KeepsParity (byte : BitVec 8) : Prop :=
  f.parity = .odd ∨ f.parity = .even → oddOnes (f.mask byte) = oddOnes byte

/-- What a receiver takes in of a byte's frame behind the start bit: the data bits, the parity bit
and the first stop bit. -/
def payload (byte : BitVec 8) : List Bool :=
  (range f.dataBits).map (fun i ↦ byte.getLsbD i) ++
    (if f.parity ≠ .none then [parityBit f.parity byte] else []) ++ [true]

variable (byte : BitVec 8)

theorem length_payload : (f.payload byte).length = f.dataBits + f.parityBits + 1 := by
  rw [payload, parityBits]
  split_ifs with hparity <;> simp_all

theorem payload_data {i : ℕ} (hi : i < f.dataBits) :
    (f.payload byte).getD i false = byte.getLsbD i := by
  rw [payload, List.append_assoc, getD_append _ _ _ _ (by simpa using hi)]
  simp [hi]

theorem payload_parity (hparity : f.parity ≠ .none) :
    (f.payload byte).getD f.dataBits false = parityBit f.parity byte := by
  rw [payload, if_pos hparity, List.append_assoc,
    getD_append_right _ _ _ _ (by simp), length_map, length_range, Nat.sub_self]
  rfl

theorem payload_getLast : (f.payload byte).getD (f.dataBits + f.parityBits) false = true := by
  have hlen := f.length_payload byte
  rw [payload, length_append, length_singleton] at hlen
  rw [payload, getD_append_right _ _ _ _ (by omega)]
  rw [show f.dataBits + f.parityBits - _ = 0 by omega]
  rfl

theorem payload_eq_concat (byte : BitVec 8) :
    f.payload byte = (f.payload byte).take (f.dataBits + f.parityBits) ++ [true] := by
  have hlen := f.length_payload byte
  have hlast := f.payload_getLast byte
  rw [getD_eq_getElem _ _ (by omega)] at hlast
  rw [← hlast, ← take_succ_eq_append_getElem (by omega), take_of_length_le (by omega)]

end FrameFormat

namespace Serial

/-! ## Formats -/

/-- The frame registers that both ends use, as `set_data_frame` leaves them. -/
structure Formatted (f : FrameFormat) (s : Serial) : Prop where
  startBitCount : s.dfStartBitCount = 1
  wordLength : s.dfWordLength = f.dataBits
  parity : s.dfParity = f.parity
  stopBitCount : s.dfStopBitCount = (stopBitCounts f.stopBits).1
  minRxStopBitCount : s.dfMinRxStopBitCount = 1

/-- The frame of the receiver is as long as the frame registers say. Nothing but `set_data_frame`
changes them. -/
def Coherent (s : Serial) : Prop :=
  s.rcvBitCount = s.dfWordLength + s.dfMinRxStopBitCount + if s.dfParity = .none then 0 else 1

/-- A receiver that waits for a start bit on an idle line. A receiver that never had a format waits
for one. -/
structure Idle (s : Serial) : Prop where
  coherent : s.Coherent
  line : s.rcvRegisterData.getLsbD 15 = true
  waiting : s.dfStartBitCount = 1 →
    s.rcvWaitingForStartBit = true ∧ s.rcvSynchronised = false ∧ s.rcvFull = false

theorem idle_default : Idle {} := ⟨rfl, by decide, fun h ↦ absurd h (by decide)⟩

/-- A receiver with a format that waits for a start bit on an idle line. -/
structure Listening (f : FrameFormat) (s : Serial) : Prop extends Formatted f s where
  rcvBitCount : s.rcvBitCount = f.dataBits + f.parityBits + 1
  line : s.rcvRegisterData.getLsbD 15 = true
  waiting : s.rcvWaitingForStartBit = true
  synchronised : s.rcvSynchronised = false
  full : s.rcvFull = false

/-- `set_data_frame` with a format. -/
def withFormat (f : FrameFormat) (s : Serial) : Serial :=
  s.setDataFrame 1 f.dataBits f.parity f.stopBits

theorem stopBitCounts_snd {f : FrameFormat} : (stopBitCounts f.stopBits).2 = 1 := by
  have hne := f.stopBits_ne_zero
  cases hstop : f.stopBits with
  | zero => exact absurd hstop hne
  | one => rfl
  | onePointFive => rfl
  | two => rfl

theorem withFormat_cases (f : FrameFormat) (s : Serial) :
    (s.Formatted f ∧ s.withFormat f = s) ∨
      s.withFormat f = receiveRegisterReset { s with
        dfWordLength := f.dataBits
        dfStopBitCount := (stopBitCounts f.stopBits).1
        dfMinRxStopBitCount := 1
        dfParity := f.parity
        dfStartBitCount := 1
        rcvBitCount := f.dataBits + f.parityBits + 1 } := by
  simp only [withFormat, setDataFrame, stopBitCounts_snd]
  split_ifs with hsame hnone
  · left
    simp only [Bool.not_eq_true', Bool.or_eq_false_iff, bne_eq_false_iff_eq] at hsame
    obtain ⟨⟨⟨⟨hstart, hword⟩, hparity⟩, hstop⟩, hmin⟩ := hsame
    refine ⟨⟨hstart.symm, hword.symm, hparity.symm, hstop.symm, hmin.symm⟩, ?_⟩
    rw [hword, hstop, hmin]
  · right
    rw [FrameFormat.parityBits, if_neg (by simpa using hnone)]
  · right
    rw [FrameFormat.parityBits, if_pos (by simpa using hnone)]

theorem formatted_withFormat (f : FrameFormat) (s : Serial) : (s.withFormat f).Formatted f := by
  rcases withFormat_cases f s with ⟨hformat, hsame⟩ | hreset
  · rw [hsame]
    exact hformat
  · rw [hreset]
    exact ⟨rfl, rfl, rfl, rfl, rfl⟩

theorem listening_withFormat (f : FrameFormat) {s : Serial} (h : s.Idle) :
    (s.withFormat f).Listening f := by
  rcases withFormat_cases f s with ⟨hformat, hsame⟩ | hreset
  · obtain ⟨hwaiting, hsync, hfull⟩ := h.waiting hformat.startBitCount
    have hcount := h.coherent
    rw [Coherent, hformat.wordLength, hformat.minRxStopBitCount, hformat.parity] at hcount
    rw [hsame]
    refine ⟨hformat, ?_, h.line, hwaiting, hsync, hfull⟩
    rw [hcount, FrameFormat.parityBits]
    omega
  · rw [hreset]
    exact ⟨⟨rfl, rfl, rfl, rfl, rfl⟩, rfl, h.line, rfl, rfl, rfl⟩

/-! ## Taking in bits -/

/-- The receive register after a bit, which comes in at the top. -/
theorem getLsbD_shiftDown (x : BitVec 16) (bit : Bool) {j : ℕ} (hj : j < 16) :
    ((x >>> 1) &&& 0x7fff ||| (ofBool bit).setWidth 16 <<< 15).getLsbD j =
      if j = 15 then bit else x.getLsbD (j + 1) := by
  rw [show (x >>> 1) &&& 0x7fff = (x >>> 1) &&& 0x7fff#16 from rfl, getLsbD_or, getLsbD_and,
    getLsbD_ushiftRight, getLsbD_shiftLeft, getLsbD_setWidth, getLsbD_ofBool]
  have hmask : (0x7fff#16).getLsbD j = decide (j < 15) := by
    revert j
    decide
  rw [hmask, Nat.add_comm 1 j]
  split_ifs with h15
  · subst h15
    simp
  · have hlt : j < 15 := by omega
    simp [hlt]

/-- The bits taken in last lie at the top of the register, the newest highest. -/
def Holds (s : Serial) (taken : List Bool) : Prop :=
  ∀ i < taken.length, s.rcvRegisterData.getLsbD (16 - taken.length + i) = taken.getD i false

theorem Holds.concat {s s' : Serial} {taken : List Bool} {bit : Bool} (h : s.Holds taken)
    (hlen : taken.length < 16) (hdata : s'.rcvRegisterData =
      (s.rcvRegisterData >>> 1) &&& 0x7fff ||| (ofBool bit).setWidth 16 <<< 15) : s'.Holds
      (taken ++ [bit]) := by
  intro i hi
  rw [length_append, length_singleton] at hi ⊢
  rw [hdata, getLsbD_shiftDown _ _ (by omega)]
  rcases Nat.lt_or_ge i taken.length with hlt | hge
  · rw [if_neg (by omega), getD_append _ _ _ _ hlt, ← h i hlt]
    congr 1
    omega
  · obtain rfl : i = taken.length := by omega
    rw [if_pos (by omega), getD_append_right _ _ _ _ (Nat.le_refl _), Nat.sub_self]
    rfl

/-- A receiver that has taken in the start bit of a character and the bits `taken`. -/
structure Receiving (f : FrameFormat) (taken : List Bool) (s : Serial) : Prop
    extends Formatted f s where
  rcvBitCount : s.rcvBitCount = f.dataBits + f.parityBits + 1
  waiting : s.rcvWaitingForStartBit = false
  synchronised : s.rcvSynchronised = true
  full : s.rcvFull = false
  received : s.rcvBitCountReceived = taken.length
  framingError : s.rcvFramingError = false
  parityError : s.rcvParityError = false
  holds : s.Holds taken

/-- A receiver that has taken in a whole character. -/
structure Complete (f : FrameFormat) (taken : List Bool) (s : Serial) : Prop
    extends Formatted f s where
  rcvBitCount : s.rcvBitCount = f.dataBits + f.parityBits + 1
  full : s.rcvFull = true
  framingError : s.rcvFramingError = false
  parityError : s.rcvParityError = false
  holds : s.Holds taken

variable {f : FrameFormat} {s : Serial} {taken : List Bool}

theorem Listening.start (h : s.Listening f) :
    (s.receiveRegisterUpdateBit false).Receiving f [] := by
  have hstep : s.receiveRegisterUpdateBit false =
      { s with
        rcvRegisterData :=
          (s.rcvRegisterData >>> 1) &&& 0x7fff ||| (ofBool false).setWidth 16 <<< 15
        rcvWaitingForStartBit := false
        rcvSynchronised := true
        rcvBitCountReceived := 0
        rcvFramingError := false
        rcvParityError := false } := by
    simp only [receiveRegisterUpdateBit, h.waiting, h.line, if_true, bne_iff_ne, ne_eq,
      Bool.true_eq_false, not_false_eq_true]
  rw [hstep]
  exact ⟨⟨h.startBitCount, h.wordLength, h.parity, h.stopBitCount, h.minRxStopBitCount⟩,
    h.rcvBitCount, rfl, rfl, h.full, rfl, rfl, rfl, fun i hi ↦ absurd hi (Nat.not_lt_zero i)⟩

/-- A stop bit beyond the first finds the receiver waiting. -/
theorem Listening.stop (h : s.Listening f) : (s.receiveRegisterUpdateBit true).Listening f := by
  have hstep : s.receiveRegisterUpdateBit true =
      { s with
        rcvRegisterData :=
          (s.rcvRegisterData >>> 1) &&& 0x7fff ||| (ofBool true).setWidth 16 <<< 15 } := by
    simp only [receiveRegisterUpdateBit, h.waiting, h.line, if_true, bne_self_eq_false,
      Bool.false_eq_true, if_false]
  rw [hstep]
  refine ⟨⟨h.startBitCount, h.wordLength, h.parity, h.stopBitCount, h.minRxStopBitCount⟩,
    h.rcvBitCount, ?_, h.waiting, h.synchronised, h.full⟩
  rw [getLsbD_shiftDown _ _ (by decide), if_pos rfl]

theorem Receiving.bit (h : s.Receiving f taken) (bit : Bool)
    (hlen : taken.length < f.dataBits + f.parityBits) :
    (s.receiveRegisterUpdateBit bit).Receiving f (taken ++ [bit]) := by
  have hstep : s.receiveRegisterUpdateBit bit =
      { s with
        rcvRegisterData :=
          (s.rcvRegisterData >>> 1) &&& 0x7fff ||| (ofBool bit).setWidth 16 <<< 15
        rcvBitCountReceived := taken.length + 1 } := by
    have hnotStop : ¬ ((s.rcvBitCount : ℤ) - s.dfMinRxStopBitCount < (taken.length + 1 : ℕ)) := by
      rw [h.rcvBitCount, h.minRxStopBitCount]
      omega
    have hnotFull : ¬ taken.length + 1 = s.rcvBitCount := by
      rw [h.rcvBitCount]
      omega
    simp only [receiveRegisterUpdateBit, h.waiting, h.synchronised, h.received, Bool.false_eq_true,
      if_false, if_true, decide_eq_false hnotStop, Bool.and_false, if_neg hnotFull]
  have hbits := f.dataBits_le_eight
  have hparity := f.parityBits_le_one
  rw [hstep]
  exact ⟨⟨h.startBitCount, h.wordLength, h.parity, h.stopBitCount, h.minRxStopBitCount⟩,
    h.rcvBitCount, h.waiting, h.synchronised, h.full, by simp, h.framingError,
    h.parityError, h.holds.concat (by omega) rfl⟩

theorem Receiving.stop (h : s.Receiving f taken) (hlen : taken.length = f.dataBits + f.parityBits) :
    (s.receiveRegisterUpdateBit true).Complete f (taken ++ [true]) := by
  have hstep : s.receiveRegisterUpdateBit true =
      { s with
        rcvRegisterData :=
          (s.rcvRegisterData >>> 1) &&& 0x7fff ||| (ofBool true).setWidth 16 <<< 15
        rcvBitCountReceived := 0
        rcvSynchronised := false
        rcvWaitingForStartBit := true
        rcvFull := true } := by
    have hfull : taken.length + 1 = s.rcvBitCount := by
      rw [h.rcvBitCount]
      omega
    simp only [receiveRegisterUpdateBit, h.waiting, h.synchronised, h.received, Bool.false_eq_true,
      if_false, if_true, Bool.not_true, Bool.false_and, if_pos hfull]
  have hbits := f.dataBits_le_eight
  have hparity := f.parityBits_le_one
  rw [hstep]
  exact ⟨⟨h.startBitCount, h.wordLength, h.parity, h.stopBitCount, h.minRxStopBitCount⟩,
    h.rcvBitCount, rfl, h.framingError, h.parityError, h.holds.concat (by omega) rfl⟩

/-! ## Extracting the character -/

theorem Complete.data {byte : BitVec 8} (h : s.Complete f (f.payload byte)) :
    (s.rcvRegisterData >>> (16 - s.rcvBitCount)).setWidth 8 &&& ~~~(0xff#8 <<< f.dataBits) =
      f.mask byte := by
  refine eq_of_getLsbD_eq fun i hi ↦ ?_
  have hones : (0xff#8 <<< f.dataBits).getLsbD i = !decide (i < f.dataBits) := by
    rw [getLsbD_shiftLeft]
    rcases Nat.lt_or_ge i f.dataBits with hlt | hge
    · simp [hlt]
    · have h255 : (0xff#8).getLsbD (i - f.dataBits) = true := by
        have hall : ∀ j < 8, (0xff#8).getLsbD j = true := by decide
        exact hall _ (by omega)
      simp [hi, h255]
  rw [getLsbD_and, getLsbD_not, getLsbD_setWidth, getLsbD_ushiftRight,
    FrameFormat.mask, getLsbD_setWidth, getLsbD_setWidth, hones]
  rcases Nat.lt_or_ge i f.dataBits with hlt | hge
  · have hbit := h.holds i (by rw [f.length_payload]; omega)
    rw [f.length_payload, f.payload_data byte hlt] at hbit
    rw [h.rcvBitCount, hbit]
    simp [hi, hlt]
  · simp [hi, Nat.not_lt.mpr hge]

theorem receiveRegisterExtract_eq (s : Serial) {data : BitVec 8}
    (hdata : (s.rcvRegisterData >>> (16 - s.rcvBitCount)).setWidth 8 &&&
    ~~~(0xff#8 <<< s.dfWordLength) = data) :
    s.receiveRegisterExtract = { s.receiveRegisterReset with
      rcvByteReceived := data
      rcvParityError := s.rcvParityError || s.dfParity != .none &&
        s.rcvRegisterData.getLsbD
          (16 - s.rcvBitCount + s.dfWordLength) != parityBit s.dfParity data } := by
  simp only [receiveRegisterExtract, receiveRegisterReset, hdata]
  generalize s.rcvRegisterData.getLsbD (16 - s.rcvBitCount + s.dfWordLength) = received
  cases s.dfParity <;> cases received <;> cases hodd : oddOnes data <;> simp [parityBit, hodd]

section

variable {byte : BitVec 8} (h : s.Complete f (f.payload byte))
include h

/-- `receive_register_extract` of a complete character: the data bits, and a parity error only if
the parity of the byte is not that of its data bits. -/
theorem Complete.extract :
    s.receiveRegisterExtract.rcvByteReceived = f.mask byte ∧
      s.receiveRegisterExtract.rcvFramingError = false ∧
      (f.KeepsParity byte → s.receiveRegisterExtract.rcvParityError = false) := by
  rw [s.receiveRegisterExtract_eq (h.wordLength ▸ h.data)]
  refine ⟨rfl, h.framingError, fun hkeeps ↦ ?_⟩
  rw [h.parityError, h.parity, h.wordLength, Bool.false_or]
  by_cases hparity : f.parity = .none
  · rw [hparity]
    rfl
  · have hbit := h.holds f.dataBits (by rw [f.length_payload]; omega)
    rw [f.length_payload, f.payload_parity byte hparity, ← h.rcvBitCount] at hbit
    rw [hbit]
    cases hp : f.parity <;> simp_all [parityBit, FrameFormat.KeepsParity]

theorem Complete.listening : s.receiveRegisterExtract.Listening f := by
  have hline := h.holds (f.dataBits + f.parityBits) (by rw [f.length_payload]; omega)
  have hlen := f.dataBits_le_eight
  have hparity := f.parityBits_le_one
  rw [f.payload_getLast, f.length_payload,
    show 16 - (f.dataBits + f.parityBits + 1) + (f.dataBits + f.parityBits) = 15 by omega] at hline
  rw [s.receiveRegisterExtract_eq (h.wordLength ▸ h.data)]
  exact ⟨⟨h.startBitCount, h.wordLength, h.parity, h.stopBitCount, h.minRxStopBitCount⟩,
    h.rcvBitCount, hline, by simp [receiveRegisterReset, h.startBitCount],
    by simp [receiveRegisterReset, h.startBitCount], rfl⟩

end

/-! ## Whole frames -/

/-- Feed bits to the receiver. -/
def receiveBits (s : Serial) (bits : List Bool) : Serial :=
  bits.foldl (fun s bit ↦ s.receiveRegisterUpdateBit bit) s

theorem Listening.receiving_take (h : s.Listening f) (byte : BitVec 8) {j : ℕ}
    (hj : j ≤ f.dataBits + f.parityBits) :
    (s.receiveBits (false :: (f.payload byte).take j)).Receiving f ((f.payload byte).take j) := by
  induction j with
  | zero => exact h.start
  | succ j ih =>
    have hlen := f.length_payload byte
    have htake : (f.payload byte).take (j + 1) =
        (f.payload byte).take j ++ [(f.payload byte)[j]] := take_succ_eq_append_getElem (by omega)
    rw [htake, ← List.cons_append, receiveBits, foldl_append]
    exact (ih (by omega)).bit _ (by rw [length_take]; omega)

/-- The first stop bit of a frame completes the character. -/
theorem Listening.complete (h : s.Listening f) (byte : BitVec 8) :
    (s.receiveBits (false :: f.payload byte)).Complete f (f.payload byte) := by
  have hlen := f.length_payload byte
  have htake := f.payload_eq_concat byte
  rw [htake, ← List.cons_append, receiveBits, foldl_append]
  exact (h.receiving_take byte (Nat.le_refl _)).stop (by rw [length_take]; omega)

theorem Listening.full_iff (h : s.Listening f) (byte : BitVec 8)
    {k : ℕ} (hk : k ≤ (f.payload byte).length + 1) :
    (s.receiveBits ((false :: f.payload byte).take k)).rcvFull = true ↔
      k = (f.payload byte).length + 1 := by
  have hlen := f.length_payload byte
  cases k with
  | zero =>
    rw [take_zero]
    exact iff_of_false (by rw [receiveBits, foldl_nil, h.full]; decide) (by omega)
  | succ j =>
    rw [take_succ_cons]
    rcases Nat.lt_or_eq_of_le hk with hlt | heq
    · refine iff_of_false ?_ (by omega)
      rw [(h.receiving_take byte (by omega)).full]
      decide
    · refine iff_of_true ?_ heq
      rw [take_of_length_le (by omega)]
      exact (h.complete byte).full

/-- A character as the receiver hands it on. -/
structure Character where
  byte : BitVec 8
  framingError : Bool
  parityError : Bool
deriving DecidableEq, Repr

def character (s : Serial) : Character := ⟨s.rcvByteReceived, s.rcvFramingError, s.rcvParityError⟩

/-- Feed bits to the receiver and extract a character whenever it is full, as `rcv_edge` does. -/
def receiveAll : List Bool → Serial → List Character × Serial
  | [], s => ([], s)
  | bit :: bits, s =>
      let s := s.receiveRegisterUpdateBit bit
      if s.rcvFull then
        let s := s.receiveRegisterExtract
        (s.character :: (receiveAll bits s).1, (receiveAll bits s).2)
      else receiveAll bits s

theorem receiveAll_append {bits : List Bool} (rest : List Bool)
    (hempty : ∀ k < bits.length, (s.receiveBits (bits.take (k + 1))).rcvFull = false) :
    receiveAll (bits ++ rest) s = receiveAll rest (s.receiveBits bits) := by
  induction bits generalizing s with
  | nil => rfl
  | cons bit bits ih =>
    have hfirst : (s.receiveRegisterUpdateBit bit).rcvFull = false :=
      hempty 0 (by rw [length_cons]; omega)
    rw [List.cons_append, receiveAll, hfirst]
    exact ih fun k hk ↦ hempty (k + 1) (by rw [length_cons]; omega)

/-- Stop bits beyond the first are waited out. -/
theorem Listening.receiveAll_stop (h : s.Listening f) (n : ℕ) (rest : List Bool) :
    ∃ s', s'.Listening f ∧ receiveAll (List.replicate n true ++ rest) s = receiveAll rest s' := by
  induction n generalizing s with
  | zero => exact ⟨s, h, rfl⟩
  | succ n ih =>
    obtain ⟨s', hs', heq⟩ := ih h.stop
    refine ⟨s', hs', ?_⟩
    rw [List.replicate_succ, List.cons_append, receiveAll, h.stop.full]
    simpa only [Bool.false_eq_true, if_false] using heq

theorem Listening.receiveAll_frame (h : s.Listening f) {byte : BitVec 8}
    (hkeeps : f.KeepsParity byte) (n : ℕ) (rest : List Bool) :
    ∃ s', s'.Listening f ∧
      (receiveAll (false :: f.payload byte ++ List.replicate n true ++ rest) s).1 =
        ⟨f.mask byte, false, false⟩ :: (receiveAll rest s').1 := by
  have hlen := f.length_payload byte
  have hcomplete := h.complete byte
  obtain ⟨hbyte, hframing, hparity⟩ := hcomplete.extract
  obtain ⟨s', hs', hstop⟩ := hcomplete.listening.receiveAll_stop n rest
  refine ⟨s', hs', ?_⟩
  have htake := f.payload_eq_concat byte
  have hsplit : false :: f.payload byte ++ List.replicate n true ++ rest =
      (false :: (f.payload byte).take (f.dataBits + f.parityBits)) ++
        (true :: (List.replicate n true ++ rest)) := by
    conv_lhs => rw [htake]
    simp only [List.cons_append, List.append_assoc, nil_append]
  rw [hsplit, receiveAll_append]
  · have hbits : (s.receiveBits (false ::
        (f.payload byte).take (f.dataBits + f.parityBits))).receiveRegisterUpdateBit true =
        s.receiveBits (false :: f.payload byte) := by
      conv_rhs => rw [htake, ← List.cons_append, receiveBits, foldl_append]
      rfl
    rw [receiveAll, hbits, hcomplete.full]
    simp only [if_true, hstop, character, hbyte, hframing, hparity hkeeps]
  · intro k hk
    rw [length_cons, length_take] at hk
    rw [take_succ_cons, take_take, Nat.min_eq_left (by omega)]
    exact (h.receiving_take byte (by omega)).full

/-! ## Round trip -/

/-- Shift the pending bits out of the transmit register, at most `n`. -/
def shiftOut : ℕ → Serial → List Bool × Serial
  | 0, s => ([], s)
  | n + 1, s =>
      if s.traEmpty then ([], s)
      else
        let bit := s.transmitRegisterGetDataBit
        (bit.1 :: (shiftOut n bit.2).1, (shiftOut n bit.2).2)

/-- Set up a byte and shift its frame out; no frame has more bits than the register. -/
def transmit (byte : BitVec 8) (s : Serial) : List Bool × Serial :=
  shiftOut 16 (s.transmitRegisterSetup byte)

/-- The frames of bytes back to back. -/
def transmitAll : List (BitVec 8) → Serial → List Bool
  | [], _ => []
  | byte :: bytes, s => (s.transmit byte).1 ++ transmitAll bytes (s.transmit byte).2

theorem shiftOut_eq {s : Serial} {n : ℕ} (h : TransmitRegister s) (hn : s.pendingBits.length ≤ n) :
    (shiftOut n s).1 = s.pendingBits ∧ (∀ f, s.Formatted f → (shiftOut n s).2.Formatted f) := by
  induction n generalizing s with
  | zero => exact ⟨(eq_nil_of_length_eq_zero (by omega)).symm, fun _ hf ↦ hf⟩
  | succ n ih =>
    by_cases hempty : s.traEmpty
    · simp only [shiftOut, if_pos hempty]
      exact ⟨by rw [pendingBits, if_pos hempty], fun _ hf ↦ hf⟩
    · have hne : s.traEmpty = false := by simpa using hempty
      have hcons := pendingBits_eq_cons h hne
      have hsnd := transmitRegisterGetDataBit_snd s
      have hnext : TransmitRegister s.transmitRegisterGetDataBit.2 := by
        have hlt := h.transmitted_lt hne
        have hle := h.count_le hne
        rw [hsnd, hne, Bool.or_false]
        constructor
        · intro hlast
          have := of_decide_eq_false hlast
          show s.traBitCountTransmitted + 1 < s.traBitCount
          omega
        · exact fun _ ↦ hle
      rw [hcons, length_cons] at hn
      obtain ⟨hbits, hformat⟩ := ih hnext (by omega)
      simp only [shiftOut, if_neg hempty]
      refine ⟨by rw [hbits, ← hcons], fun f hf ↦ hformat f ?_⟩
      rw [hsnd]
      exact ⟨hf.startBitCount, hf.wordLength, hf.parity, hf.stopBitCount, hf.minRxStopBitCount⟩

theorem Formatted.frameBits_eq (h : s.Formatted f) (byte : BitVec 8) :
    s.frameBits byte =
      false :: f.payload byte ++ List.replicate ((stopBitCounts f.stopBits).1 - 1) true := by
  obtain ⟨n, hn⟩ : ∃ n, (stopBitCounts f.stopBits).1 = n + 1 := by
    have hne := f.stopBits_ne_zero
    cases hstop : f.stopBits with
    | zero => exact absurd hstop hne
    | one => exact ⟨0, rfl⟩
    | onePointFive => exact ⟨1, rfl⟩
    | two => exact ⟨1, rfl⟩
  rw [frameBits, h.startBitCount, h.wordLength, h.parity, h.stopBitCount, hn,
    FrameFormat.payload, Nat.add_sub_cancel]
  simp only [map_const', length_range, List.replicate_succ, List.replicate_zero,
    List.append_assoc, List.cons_append, nil_append]

theorem Formatted.dataFrame (h : s.Formatted f) : DataFrame s := by
  have hcounts : 1 ≤ (stopBitCounts f.stopBits).1 ∧ (stopBitCounts f.stopBits).1 ≤ 2 := by
    have hne := f.stopBits_ne_zero
    cases hstop : f.stopBits <;> first | exact absurd hstop hne | decide
  exact ⟨h.startBitCount, h.wordLength ▸ ⟨f.five_le_dataBits, f.dataBits_le_eight⟩,
    h.stopBitCount ▸ hcounts⟩

theorem Formatted.transmit (h : s.Formatted f) (byte : BitVec 8) :
    (s.transmit byte).1 = s.frameBits byte ∧ (s.transmit byte).2.Formatted f := by
  obtain ⟨hpos, hlen⟩ := h.dataFrame.length_frameBits byte
  have hpending := pendingBits_transmitRegisterSetup (s := s) byte (by omega)
  obtain ⟨hbits, hformat⟩ := shiftOut_eq (n := 16)
    (transmitRegister_transmitRegisterSetup (s := s) byte (by omega) (by omega))
    (by rw [hpending]; omega)
  refine ⟨by rw [Serial.transmit, hbits, hpending], hformat f ?_⟩
  rw [transmitRegisterSetup_eq]
  exact ⟨h.startBitCount, h.wordLength, h.parity, h.stopBitCount, h.minRxStopBitCount⟩

theorem receiveAll_transmitAll {t r : Serial} (ht : t.Formatted f) (hr : r.Listening f)
    {bytes : List (BitVec 8)} (hkeeps : ∀ byte ∈ bytes, f.KeepsParity byte) :
    (receiveAll (transmitAll bytes t) r).1 = bytes.map fun byte ↦ ⟨f.mask byte, false, false⟩ := by
  induction bytes generalizing t r with
  | nil => rfl
  | cons byte bytes ih =>
    obtain ⟨hbits, hformat⟩ := ht.transmit byte
    rw [transmitAll, hbits, ht.frameBits_eq]
    obtain ⟨r', hr', hfirst⟩ := hr.receiveAll_frame (hkeeps byte (mem_cons_self ..)) _
      (transmitAll bytes (t.transmit byte).2)
    rw [hfirst, ih hformat hr' fun b hb ↦ hkeeps b (mem_cons_of_mem _ hb), map_cons]

/-- **Serial frame round trip.** The receiver is full after the start bit, the data bits, the parity
bit and one stop bit, and the character it extracts there is the byte cut down to the data bits,
with no framing error and, if the parity of the byte is that of its data bits, no parity error.
Frames sent back to back are received as their bytes. -/
theorem frame_round_trip (f : FrameFormat) (t r : Serial) (hr : r.Idle) :
    (∀ byte : BitVec 8,
      ((t.withFormat f).transmit byte).1.length =
        1 + f.dataBits + f.parityBits + (stopBitCounts f.stopBits).1 ∧
      (∀ k ≤ 1 + f.dataBits + f.parityBits + 1,
        ((r.withFormat f).receiveBits (((t.withFormat f).transmit byte).1.take k)).rcvFull = true ↔
          k = 1 + f.dataBits + f.parityBits + 1) ∧
      ∀ s, s = ((r.withFormat f).receiveBits (((t.withFormat f).transmit byte).1.take
            (1 + f.dataBits + f.parityBits + 1))).receiveRegisterExtract →
        s.rcvByteReceived = f.mask byte ∧ s.rcvFramingError = false ∧
          (f.KeepsParity byte → s.rcvParityError = false)) ∧
    ∀ bytes : List (BitVec 8), (∀ byte ∈ bytes, f.KeepsParity byte) →
      (receiveAll (transmitAll bytes (t.withFormat f)) (r.withFormat f)).1 =
        bytes.map fun byte ↦ ⟨f.mask byte, false, false⟩ := by
  have ht := formatted_withFormat f t
  have hr := listening_withFormat f hr
  refine ⟨fun byte ↦ ?_, fun bytes hkeeps ↦ receiveAll_transmitAll ht hr hkeeps⟩
  have hlen := f.length_payload byte
  have hstop : 1 ≤ (stopBitCounts f.stopBits).1 := ht.stopBitCount ▸ ht.dataFrame.stopBitCount.1
  rw [(ht.transmit byte).1, ht.frameBits_eq]
  have htake : ∀ k ≤ 1 + f.dataBits + f.parityBits + 1,
      (false :: f.payload byte ++ List.replicate ((stopBitCounts f.stopBits).1 - 1) true).take k =
        (false :: f.payload byte).take k := fun k hk ↦
    take_append_of_le_length (by rw [length_cons]; omega)
  refine ⟨?_, fun k hk ↦ ?_, ?_⟩
  · rw [length_append, length_cons, length_replicate]
    omega
  · rw [htake k hk, hr.full_iff byte (by omega)]
    omega
  · rintro s rfl
    rw [htake _ (Nat.le_refl _), take_of_length_le (by rw [length_cons]; omega)]
    exact (hr.complete byte).extract

/-- Seven data bits and even parity. -/
def sevenEven (stopBits : StopBits) (h : stopBits ≠ .zero) : FrameFormat :=
  ⟨7, .even, stopBits, by decide, by decide, h⟩

/-- Two characters between two fresh interfaces. -/
theorem frame_round_trip_seven_even :
    (receiveAll (transmitAll [0x41#8, 0x7f#8] (withFormat (sevenEven .two (by decide)) {}))
      (withFormat (sevenEven .two (by decide)) {})).1 =
      [⟨0x41#8, false, false⟩, ⟨0x7f#8, false, false⟩] :=
  (frame_round_trip (sevenEven .two (by decide)) {} {} idle_default).2
    [0x41#8, 0x7f#8] (by unfold FrameFormat.KeepsParity; decide)

/-- With two stop bits the receiver is full before the last of the eleven bits of a frame, and a bit
above the data width makes a parity error. -/
theorem frame_round_trip_not_exact :
    ((withFormat (sevenEven .two (by decide)) {}).transmit 0x41#8).1.length = 11 ∧
      (receiveBits (withFormat (sevenEven .two (by decide)) {})
        (((withFormat (sevenEven .two (by decide)) {}).transmit 0x41#8).1.take 10)).rcvFull = true ∧
      (receiveAll ((withFormat (sevenEven .one (by decide)) {}).transmit 0x80#8).1
        (withFormat (sevenEven .one (by decide)) {})).1 = [⟨0x00#8, false, true⟩] := by
  decide

end Serial

end RoscoEmulator
