import RoscoEmulator.Util.BitstreamWriter

/-!
# The reader of bit streams

What the reader holds: the bits from its position on, as far as the accumulator goes. A refill of
the accumulator keeps that, but for one of a few bits that begins inside a byte: it forgets where in
the byte it began. -/

namespace RoscoEmulator.Util

open BitVec BitString

namespace BitstreamIn

/-- The reader is at a bit position, and the byte that it goes on with is the one behind the bits
that it has. -/
structure At (b : BitstreamIn) (pos : ℕ) : Prop where
  place : ∃ byte, b.doffset = byte % 2 ^ 32 ∧ pos + b.bits = 8 * byte + b.dbitoffs
  dbitoffs_lt : b.dbitoffs < 8
  bits_le : b.bits ≤ 32

/-- The reader is at a bit position of the source, and has the bits from there on that lie in front
of the limit. -/
structure Ready (b : BitstreamIn) (src : List (BitVec 8))
    (limit pos : ℕ) : Prop extends At b pos where
  data_eq : b.data = src
  pending : ∀ i < b.bits, pos + i < limit → b.buffer.getMsbD i = bitAt src (pos + i)
  clear : ∀ i, b.bits ≤ i → b.buffer.getMsbD i = false

variable {b : BitstreamIn} {src : List (BitVec 8)} {limit pos : ℕ}

theorem ready_start (src : List (BitVec 8)) (limit : ℕ) : (start src).Ready src limit 0 where
  place := ⟨0, rfl, rfl⟩
  dbitoffs_lt := Nat.zero_lt_succ 7
  bits_le := Nat.zero_le 32
  data_eq := rfl
  pending i hi := absurd hi (Nat.not_lt_zero i)
  clear _ _ := getMsbD_zero

theorem At.dbitoffs_eq (h : b.At pos) : (pos + b.bits) % 8 = b.dbitoffs := by
  obtain ⟨byte, -, hplace⟩ := h.place
  have hlt := h.dbitoffs_lt
  omega

/-! ## A refill -/

/-- The bits of a byte that have not been read stand at the top of its place. -/
theorem getMsbD_newbits (b : BitstreamIn) (i : ℕ) :
    b.newbits.getMsbD i = (decide (24 ≤ i ∧ i - 24 + b.dbitoffs < 8) &&
      bitAt b.data (8 * b.doffset + (i - 24 + b.dbitoffs))) := by
  have hmask : (0xff : BitVec 32).getLsbD (32 - 1 - i) = decide (32 - 1 - i < 8) := by
    rw [show (0xff : BitVec 32) = BitVec.ofNat 32 (2 ^ 8 - 1) from rfl, getLsbD_ofNat,
      Nat.testBit_two_pow_sub_one, decide_eq_true (by omega : 32 - 1 - i < 32), Bool.true_and]
  rw [newbits, getMsbD_eq_getLsbD, getLsbD_and, getLsbD_shiftLeft, getLsbD_setWidth, hmask]
  by_cases hin : 24 ≤ i ∧ i - 24 + b.dbitoffs < 8
  · rw [decide_eq_true hin, bitAt,
      show (8 * b.doffset + (i - 24 + b.dbitoffs)) / 8 = b.doffset by omega,
      show (8 * b.doffset + (i - 24 + b.dbitoffs)) % 8 =
      i - 24 + b.dbitoffs by omega, getMsbD_eq_getLsbD,
      show 8 - 1 - (i - 24 + b.dbitoffs) = 32 - 1 - i - b.dbitoffs by omega]
    simp [hin.2, show i < 32 by omega, show ¬ 32 - 1 - i < b.dbitoffs by omega,
      show 32 - 1 - i - b.dbitoffs <
      32 by omega, show 32 - 1 - i < 8 by omega, show 32 - 1 - i < 32 by omega]
  · rw [decide_eq_false hin, Bool.false_and]
    by_cases hlow : i < 24
    · rw [decide_eq_false (by omega : ¬ 32 - 1 - i < 8), Bool.and_false, Bool.and_false]
    · by_cases hhigh : i < 32
      · rw [decide_eq_true (by omega : 32 - 1 - i < b.dbitoffs)]
        simp
      · rw [decide_eq_false hhigh, Bool.false_and]

theorem data_fillStep (b : BitstreamIn) : b.fillStep.data = b.data := by
  rw [fillStep]
  split
  · rfl
  · rfl

/-- A round of the refill leaves the bits that are there, and puts new ones behind them. -/
theorem getMsbD_fillStep (hlt : b.bits < 32) {i : ℕ} (hi : i < 32) :
    b.fillStep.buffer.getMsbD i =
      (b.buffer.getMsbD i || (decide (b.bits ≤ i) && b.newbits.getMsbD (24 + (i - b.bits)))) := by
  have hlow : ∀ j < 24, b.newbits.getMsbD j = false := by
    intro j hj
    rw [getMsbD_newbits, decide_eq_false (by omega), Bool.false_and]
  rw [fillStep]
  split
  · rw [getMsbD_or, getMsbD_ushiftRight, decide_eq_true hi, Bool.true_and]
    congr 1
    by_cases hold : b.bits ≤ i
    · rw [decide_eq_true hold, decide_eq_false (by omega : ¬ i < 8 - (32 - b.bits)),
        show i - (8 - (32 - b.bits)) = 24 + (i - b.bits) by omega]
      rfl
    · rw [decide_eq_false hold, hlow _ (by omega)]
      simp
  · rw [getMsbD_or, getMsbD_shiftLeft]
    congr 1
    by_cases hold : b.bits ≤ i
    · rw [decide_eq_true hold, show i + (24 - b.bits) = 24 + (i - b.bits) by omega]
      rfl
    · rw [decide_eq_false hold, hlow _ (by omega)]
      rfl

/-- A round of the refill leaves a reader that is ready, unless it begins inside a byte with more
than 24 bits. -/
theorem Ready.fillStep (h : b.Ready src limit pos) (hlimit : limit ≤ 8 * 2 ^ 32) (hlt : b.bits < 32)
    (hgood : b.bits ≤ 24 ∨ b.dbitoffs = 0) : b.fillStep.Ready src limit pos := by
  obtain ⟨byte, hdoffset, hplace⟩ := h.place
  have hdbitoffs := h.dbitoffs_lt
  have hnew : ∀ i, b.bits ≤ i → i < 32 → b.fillStep.buffer.getMsbD i =
      (decide (i - b.bits + b.dbitoffs < 8) &&
      bitAt src (8 * b.doffset + (i - b.bits + b.dbitoffs))) := by
    intro i hle hi
    rw [getMsbD_fillStep hlt hi, h.clear i hle, getMsbD_newbits, decide_eq_true hle, h.data_eq,
      show 24 + (i - b.bits) - 24 = i - b.bits by omega]
    simp
  have hpending : ∀ i < 32, i - b.bits + b.dbitoffs < 8 → pos + i < limit →
      b.fillStep.buffer.getMsbD i = bitAt src (pos + i) := by
    intro i hi hbyte hin
    by_cases hold : i < b.bits
    · rw [getMsbD_fillStep hlt hi, h.pending i hold hin, decide_eq_false (by omega), Bool.false_and,
        Bool.or_false]
    · rw [hnew i (by omega) hi, decide_eq_true hbyte, Bool.true_and, hdoffset,
        Nat.mod_eq_of_lt (by omega),
        show 8 * byte + (i - b.bits + b.dbitoffs) = pos + i by omega]
  by_cases hlast : 32 < b.bits + 8
  · -- a part of a whole byte fills the accumulator up
    have hstep : b.fillStep.bits = 32 ∧ b.fillStep.dbitoffs = 32 - b.bits ∧
        b.fillStep.doffset = b.doffset := by
      rw [BitstreamIn.fillStep, if_pos hlast]
      exact ⟨rfl, rfl, rfl⟩
    refine ⟨⟨⟨byte, ?_, ?_⟩, ?_, ?_⟩, ?_, fun i hi hin ↦ ?_, fun i hi ↦ ?_⟩
    · exact hstep.2.2.trans hdoffset
    · omega
    · omega
    · omega
    · exact (data_fillStep b).trans h.data_eq
    · exact hpending i (by omega) (by omega) hin
    · exact getMsbD_of_ge _ _ (by omega)
  · -- the rest of the byte goes in
    have hstep : b.fillStep.bits = b.bits + (8 - b.dbitoffs) ∧ b.fillStep.dbitoffs = 0 ∧
        b.fillStep.doffset = (b.doffset + 1) % 2 ^ 32 := by
      rw [BitstreamIn.fillStep, if_neg hlast]
      exact ⟨rfl, rfl, rfl⟩
    refine ⟨⟨⟨byte + 1, ?_, ?_⟩, ?_, ?_⟩, ?_, fun i hi hin ↦ ?_, fun i hi ↦ ?_⟩
    · rw [hstep.2.2, hdoffset, Nat.mod_add_mod]
    · omega
    · omega
    · omega
    · exact (data_fillStep b).trans h.data_eq
    · exact hpending i (by omega) (by omega) hin
    · by_cases hi' : i < 32
      · rw [hnew i (by omega) hi', decide_eq_false (by omega), Bool.false_and]
      · exact getMsbD_of_ge _ _ (by omega)

/-- A refill that begins well fills the accumulator. -/
theorem Ready.fill (h : b.Ready src limit pos) (hlimit : limit ≤ 8 * 2 ^ 32) (fuel : ℕ)
    (hgood : b.bits < 32 → b.bits ≤ 24 ∨ b.dbitoffs = 0) (hfuel : 32 ≤ b.bits + fuel) :
    (BitstreamIn.fill fuel b).Ready src limit pos ∧ (BitstreamIn.fill fuel b).bits = 32 := by
  have hle := h.bits_le
  induction fuel generalizing b with
  | zero => exact ⟨h, by rw [BitstreamIn.fill]; omega⟩
  | succ fuel ih =>
    rw [BitstreamIn.fill]
    split
    · next hlt =>
      have hnext := h.fillStep hlimit hlt (hgood hlt)
      have hdbitoffs := h.dbitoffs_lt
      have hstep : (b.fillStep.bits = 32 ∨ b.fillStep.dbitoffs = 0) ∧ b.bits < b.fillStep.bits := by
        rw [BitstreamIn.fillStep]
        split
        · exact ⟨Or.inl rfl, hlt⟩
        · refine ⟨Or.inr rfl, ?_⟩
          show b.bits < b.bits + (8 - b.dbitoffs)
          omega
      exact ih hnext (by omega) (by omega) hnext.bits_le
    · exact ⟨h, by omega⟩

/-! ## A read -/

variable {numbits : ℕ}

theorem prepare_of_le (h : numbits ≤ b.bits) : b.prepare numbits = b := if_neg (by omega)

/-- A read whose refill begins well has the bits that it needs. -/
theorem Ready.prepare (h : b.Ready src limit pos) (hlimit : limit ≤ 8 * 2 ^ 32)
    (hle : b.bits < numbits) (hgood : b.bits ≤ 24 ∨ b.dbitoffs = 0) :
    (b.prepare numbits).Ready src limit pos ∧ (b.prepare numbits).bits = 32 := by
  rw [BitstreamIn.prepare, if_pos hle]
  exact h.fill hlimit 32 (fun _ ↦ hgood) (by omega)

/-- What a read returns are the first bits of the accumulator. -/
theorem front_eq {value : ℕ} (hle : numbits ≤ 32) (hvalue : value < 2 ^ numbits)
    (hbits : ∀ i < numbits, b.buffer.getMsbD i = value.testBit (numbits - 1 - i)) :
    b.front numbits = value := by
  rw [front]
  split
  · next hzero =>
    rw [hzero] at hvalue
    omega
  · refine eq_of_field hle hvalue (fun i hi ↦ ?_) fun i hi ↦ ?_
    · rw [getMsbD_ushiftRight, decide_eq_true (by omega : 32 - numbits + i < 32),
        decide_eq_false (by omega : ¬ 32 - numbits + i < 32 - numbits),
        Nat.add_sub_cancel_left, hbits i hi]
      rfl
    · rw [getMsbD_ushiftRight, decide_eq_true hi]
      simp

/-- A read of fewer than 32 bits that are there goes on behind them. -/
theorem Ready.remove (h : b.Ready src limit pos) (numbits : ℕ) (hle : numbits ≤ b.bits) :
    (b.remove numbits).Ready src limit (pos + numbits) := by
  obtain ⟨byte, hdoffset, hplace⟩ := h.place
  have hbits : (b.remove numbits).bits = b.bits - numbits := rfl
  have hbits_le := h.bits_le
  have hbuffer : ∀ i, (b.remove numbits).buffer.getMsbD i = b.buffer.getMsbD (i + numbits) :=
    fun i ↦ getMsbD_shiftLeft _ _
  refine ⟨⟨⟨byte, hdoffset, ?_⟩, h.dbitoffs_lt, by omega⟩, h.data_eq, fun i hi hin ↦ ?_,
    fun i hi ↦ ?_⟩
  · show pos + numbits + (b.remove numbits).bits = 8 * byte + b.dbitoffs
    omega
  · rw [hbuffer, h.pending _ (by omega) (by omega),
      show pos + (i + numbits) = pos + numbits + i by omega]
  · rw [hbuffer, h.clear _ (by omega)]

/-! ## The offset -/

/-- Whole bytes of the accumulator are given back. -/
theorem unread_add (fuel bits : ℕ) (hfuel : bits ≤ 8 * fuel + 7) (byte : ℕ) :
    unread fuel ((byte + bits / 8) % 2 ^ 32) bits = (byte % 2 ^ 32, bits % 8) := by
  induction fuel generalizing bits with
  | zero =>
    rw [unread, show bits / 8 = 0 by omega, Nat.add_zero, Nat.mod_eq_of_lt (by omega : bits < 8)]
  | succ fuel ih =>
    rw [unread]
    split
    · rw [show ((byte + bits / 8) % 2 ^ 32 + 2 ^ 32 - 1) % 2 ^ 32 = (byte + (bits - 8) / 8) % 2 ^
        32 by omega, ih _ (by omega), show (bits - 8) % 8 = bits % 8 by omega]
    · rw [show bits / 8 = 0 by omega, Nat.add_zero, Nat.mod_eq_of_lt (by omega : bits < 8)]

/-- The offset of a reader at a bit position is behind the byte that it is in. -/
theorem At.readOffset (h : b.At pos) (hpos : pos ≤ 8 * (2 ^ 32 - 1)) :
    b.readOffset = (pos + 7) / 8 := by
  obtain ⟨byte, hdoffset, hplace⟩ := h.place
  have hdbitoffs := h.dbitoffs_lt
  have hunread := unread_add b.bits b.bits (by omega) (byte - b.bits / 8)
  rw [show byte - b.bits / 8 + b.bits / 8 = byte by omega, ← hdoffset] at hunread
  rw [BitstreamIn.readOffset, hunread]
  dsimp only
  split
  · omega
  · omega

theorem flush_fst (b : BitstreamIn) : b.flush.1 = b.readOffset := rfl

end BitstreamIn

end RoscoEmulator.Util
