import RoscoEmulator.Emu.Diserial
import RoscoEmulator.Lib.ShiftRegister

/-!
# Frames in the transmit register

`transmit_register_setup` shifts the bits of a frame into the register one at a time and counts
them; `transmit_register_get_data_bit` reads them back by position, first in first out. `frameBits`
is the frame as a list, and `pendingBits` what is still to be sent: setting up the register makes
the frame pending, and each bit read is the head of what is pending.
-/

namespace RoscoEmulator.Serial

open List ShiftRegister

/-- The bits of a byte's frame, in the order they are sent. -/
def frameBits (s : Serial) (dataByte : BitVec 8) : List Bool :=
  (range s.dfStartBitCount).map (fun _ ↦ false) ++
    (range s.dfWordLength).map (fun i ↦ dataByte.getLsbD i) ++
    (if s.dfParity ≠ .none then [parityBit s.dfParity dataByte] else []) ++
    (range s.dfStopBitCount).map (fun _ ↦ true)

/-- The bits of the register that are still to be sent. -/
def pendingBits (s : Serial) : List Bool :=
  if s.traEmpty then []
  else (range' s.traBitCountTransmitted (s.traBitCount - s.traBitCountTransmitted)).map
    fun i ↦ s.traRegisterData.getLsbD (s.traBitCount - 1 - i)

/-- The register has a bit to send whenever it is not marked empty, and never more bits than it is
wide. -/
structure TransmitRegister (s : Serial) : Prop where
  transmitted_lt : s.traEmpty = false → s.traBitCountTransmitted < s.traBitCount
  count_le : s.traEmpty = false → s.traBitCount ≤ 16

/-- A frame that the channels of the DUART use: one start bit, five to eight data bits, and one or
two stop bits. -/
structure DataFrame (s : Serial) : Prop where
  startBitCount : s.dfStartBitCount = 1
  wordLength : 5 ≤ s.dfWordLength ∧ s.dfWordLength ≤ 8
  stopBitCount : 1 ≤ s.dfStopBitCount ∧ s.dfStopBitCount ≤ 2

theorem DataFrame.length_frameBits {s : Serial} (h : DataFrame s) (dataByte : BitVec 8) :
    7 ≤ (s.frameBits dataByte).length ∧ (s.frameBits dataByte).length ≤ 12 := by
  obtain ⟨hstart, hword, hstop⟩ := h
  simp only [frameBits, length_append, length_map, length_range]
  split_ifs <;> simp only [length_nil, length_singleton] <;> omega

theorem dataFrame_setDataFrame {s : Serial} {dataBits : ℕ} {parity : Parity} {stopBits : StopBits}
    (hword : 5 ≤ dataBits ∧ dataBits ≤ 8) (hstop : stopBits ≠ .zero) :
    DataFrame (s.setDataFrame 1 dataBits parity stopBits) := by
  have hcounts : 1 ≤ (stopBitCounts stopBits).1 ∧ (stopBitCounts stopBits).1 ≤ 2 := by
    cases stopBits <;> first | exact absurd rfl hstop | decide
  simp only [setDataFrame]
  split_ifs with hchanged
  · -- an unchanged frame already has its one start bit
    have hstart : s.dfStartBitCount = 1 := by
      by_contra hne
      have : (1 != s.dfStartBitCount) = true := by simpa using Ne.symm hne
      simp [this] at hchanged
    exact ⟨hstart, hword, hcounts⟩
  · exact ⟨rfl, hword, hcounts⟩
  · exact ⟨rfl, hword, hcounts⟩

/-- The frame after a reset: eight data bits, no parity and one stop bit. -/
theorem dataFrame_setDataFrame_reset (s : Serial) : DataFrame (s.setDataFrame 1 8 .none .one) :=
  dataFrame_setDataFrame (by decide) (by decide)

/-! ## The transmitting half

Receiving changes nothing that the transmitter uses. -/

/-- The interface as it would be had it never received anything. -/
def transmitHalf (s : Serial) : Serial where
  dfStartBitCount := s.dfStartBitCount
  dfWordLength := s.dfWordLength
  dfParity := s.dfParity
  dfStopBitCount := s.dfStopBitCount
  traRegisterData := s.traRegisterData
  traEmpty := s.traEmpty
  traBitCountTransmitted := s.traBitCountTransmitted
  traBitCount := s.traBitCount
  traClock := s.traClock
  traRate := s.traRate
  traClockState := s.traClockState

/-- Two interfaces that agree on everything the transmitter uses. -/
structure SameTransmitter (s s' : Serial) : Prop where
  dfStartBitCount : s'.dfStartBitCount = s.dfStartBitCount
  dfWordLength : s'.dfWordLength = s.dfWordLength
  dfParity : s'.dfParity = s.dfParity
  dfStopBitCount : s'.dfStopBitCount = s.dfStopBitCount
  traRegisterData : s'.traRegisterData = s.traRegisterData
  traEmpty : s'.traEmpty = s.traEmpty
  traBitCountTransmitted : s'.traBitCountTransmitted = s.traBitCountTransmitted
  traBitCount : s'.traBitCount = s.traBitCount
  traClock : s'.traClock = s.traClock
  traRate : s'.traRate = s.traRate
  traClockState : s'.traClockState = s.traClockState

variable (dataByte : BitVec 8) {s' : Serial}

theorem sameTransmitter_of_transmitHalf {s : Serial} (h : s'.transmitHalf = s.transmitHalf) :
    SameTransmitter s s' := by
  simp only [transmitHalf, Serial.mk.injEq, true_and, and_true] at h
  obtain ⟨hstart, hword, hparity, hstop, hdata, hempty, hsent, hcount, hclock, hrate, hstate⟩ := h
  exact ⟨hstart, hword, hparity, hstop, hdata, hempty, hsent, hcount, hclock, hrate, hstate⟩

theorem SameTransmitter.dataFrame {s : Serial} (h : SameTransmitter s s') (hs : DataFrame s) :
    DataFrame s' :=
  ⟨h.dfStartBitCount ▸ hs.startBitCount, h.dfWordLength ▸ hs.wordLength,
    h.dfStopBitCount ▸ hs.stopBitCount⟩

theorem SameTransmitter.pendingBits {s : Serial} (h : SameTransmitter s s') :
    s'.pendingBits = s.pendingBits := by
  rw [Serial.pendingBits, Serial.pendingBits, h.traEmpty, h.traBitCount, h.traBitCountTransmitted,
    h.traRegisterData]

theorem SameTransmitter.frameBits {s : Serial} (h : SameTransmitter s s') :
    s'.frameBits = s.frameBits := by
  funext dataByte
  rw [Serial.frameBits, Serial.frameBits, h.dfStartBitCount, h.dfWordLength, h.dfParity,
    h.dfStopBitCount]

@[simp] theorem transmitHalf_receiveRegisterReset (s : Serial) :
    s.receiveRegisterReset.transmitHalf = s.transmitHalf := rfl

@[simp] theorem transmitHalf_receiveRegisterUpdateBit (bit : Bool) (s : Serial) :
    (s.receiveRegisterUpdateBit bit).transmitHalf = s.transmitHalf := by
  simp only [receiveRegisterUpdateBit]
  split_ifs <;> rfl

@[simp] theorem transmitHalf_receiveRegisterExtract (s : Serial) :
    s.receiveRegisterExtract.transmitHalf = s.transmitHalf := by
  simp only [receiveRegisterExtract]
  split
  · rfl
  all_goals split_ifs <;> rfl

@[simp] theorem transmitHalf_rxW (state : Bool) (s : Serial) :
    (s.rxW state).transmitHalf = s.transmitHalf := by
  have hbit : (receiveRegisterUpdateBit state { s with rcvLine := state }).transmitHalf =
      s.transmitHalf := transmitHalf_receiveRegisterUpdateBit state _
  simp only [rxW]
  split_ifs
  · rfl
  all_goals exact hbit

/-! ## Setting up the register -/

theorem foldl_transmitRegisterAddBit (bits : List Bool) (s : Serial) :
    bits.foldl (fun s bit ↦ s.transmitRegisterAddBit bit) s =
      { s with
        traRegisterData := shiftInAll s.traRegisterData bits
        traBitCount := s.traBitCount + bits.length } := by
  induction bits generalizing s with
  | nil => rfl
  | cons bit bits ih =>
    rw [foldl_cons, ih]
    simp only [transmitRegisterAddBit, length_cons, shiftInAll, foldl_cons, shiftIn]
    rw [Nat.add_assoc, Nat.add_comm 1]

theorem transmitRegisterSetup_eq (s : Serial) :
    s.transmitRegisterSetup dataByte =
      { s with
        traClock := if !s.traRate.isNever then .adjust s.traRate s.traRate else s.traClock
        traBitCountTransmitted := 0
        traEmpty := false
        traRegisterData := shiftInAll s.traRegisterData (s.frameBits dataByte)
        traBitCount := (s.frameBits dataByte).length } := by
  have hconst (n : ℕ) (bit : Bool) (s : Serial) :
      (range n).foldl (fun s _ ↦ s.transmitRegisterAddBit bit) s =
        ((range n).map fun _ ↦ bit).foldl (fun s bit ↦ s.transmitRegisterAddBit bit) s := by
    rw [foldl_map]
  have hdata (n : ℕ) (s : Serial) :
      (range n).foldl (fun s i ↦ s.transmitRegisterAddBit (dataByte.getLsbD i)) s =
        ((range n).map fun i ↦ dataByte.getLsbD i).foldl
          (fun s bit ↦ s.transmitRegisterAddBit bit) s := by
    rw [foldl_map]
  simp only [transmitRegisterSetup, hconst, hdata, foldl_transmitRegisterAddBit]
  by_cases hrate : s.traRate.isNever <;> by_cases hparity : s.dfParity = .none <;>
    simp [hrate, hparity, transmitRegisterAddBit, frameBits, shiftInAll, shiftIn] <;>
    omega

theorem pendingBits_transmitRegisterSetup {s : Serial} (hlen : (s.frameBits dataByte).length ≤ 16) :
    (s.transmitRegisterSetup dataByte).pendingBits = s.frameBits dataByte := by
  rw [transmitRegisterSetup_eq, pendingBits]
  refine ext_getElem (by simp) fun i hi hi' ↦ ?_
  simp only [Bool.false_eq_true, if_false, getElem_map, getElem_range', Nat.zero_add,
    Nat.one_mul]
  rw [getLsbD_shiftInAll _ _ (by omega), if_pos (by omega),
    show (s.frameBits dataByte).length - 1 - ((s.frameBits dataByte).length - 1 - i) = i by omega,
    getD_eq_getElem _ _ hi']

theorem transmitRegister_transmitRegisterSetup {s : Serial}
    (hpos : 0 < (s.frameBits dataByte).length) (hlen : (s.frameBits dataByte).length ≤ 16) :
    TransmitRegister (s.transmitRegisterSetup dataByte) := by
  rw [transmitRegisterSetup_eq]
  exact ⟨fun _ ↦ hpos, fun _ ↦ hlen⟩

/-! ## Reading it back -/

theorem transmitRegisterGetDataBit_snd (s : Serial) :
    s.transmitRegisterGetDataBit.2 =
      { s with
        traBitCountTransmitted := s.traBitCountTransmitted + 1
        traEmpty := decide (s.traBitCountTransmitted + 1 = s.traBitCount) || s.traEmpty } := by
  simp only [transmitRegisterGetDataBit]
  split_ifs with hlast <;> simp [hlast]

variable {s : Serial} (h : TransmitRegister s) (hne : s.traEmpty = false)
include h hne

/-- The bit read is the first of those pending. -/
theorem pendingBits_eq_cons : s.pendingBits =
    s.transmitRegisterGetDataBit.1 :: s.transmitRegisterGetDataBit.2.pendingBits := by
  have hlt := h.transmitted_lt hne
  simp only [pendingBits, hne, Bool.false_eq_true, if_false, transmitRegisterGetDataBit]
  rw [show s.traBitCount - s.traBitCountTransmitted =
      (s.traBitCount - (s.traBitCountTransmitted + 1)) + 1 by omega, range'_succ, map_cons]
  congr 1
  by_cases hlast : s.traBitCountTransmitted + 1 = s.traBitCount
  · simp [hlast]
  · simp [hlast]

end RoscoEmulator.Serial
