import RoscoEmulator.Lib.Crc
import RoscoEmulator.Util.Hashing

/-!
# The polynomial behind CRC-16

`crc16_creator::append` takes eight steps of the check register at once, from a table: it is the
register of the generator `X ^ 16 + X ^ 12 + X ^ 5 + 1`, fed with the bits of each byte from the
high end. `crc16_creator::simple` starts it at `0xffff`. `IsCrcXmodem` is the check of the same
generator with the register started at zero, the plain remainder; the two differ for every
message. -/

open Polynomial

namespace RoscoEmulator.Util

open ShiftRegister (msbBits length_msbBits length_flatMap_msbBits)

/-- The lower coefficients of the generator. -/
def crc16Poly : BitVec 16 := 0x1021

theorem generator_crc16Poly :
    Crc.generator crc16Poly = (X ^ 16 + (X ^ 12 + X ^ 5 + 1) : (ZMod 2)[X]) := by
  have hbits : ∀ i < 16, crc16Poly.getLsbD i = decide (i = 12 ∨ i = 5 ∨ i = 0) := by decide
  have hpoly : Crc.toPoly crc16Poly = (X ^ 12 + X ^ 5 + 1 : (ZMod 2)[X]) := by
    ext i
    rw [Crc.coeff_toPoly, coeff_add, coeff_add, coeff_X_pow, coeff_X_pow, coeff_one]
    by_cases hi : i < 16
    · rw [hbits i hi]
      interval_cases i <;> decide
    · rw [BitVec.getLsbD_of_ge _ i (by omega), if_neg (by omega), if_neg (by omega),
        if_neg (by omega)]
      rfl
  rw [Crc.generator, hpoly]

/-! ## The table -/

/-- A table entry is eight steps of its index. -/
theorem run_index (index : BitVec 8) :
    Crc.run crc16Poly (index ++ (0 : BitVec 8)) (List.replicate 8 false) =
      crc16Table.getD index.toNat 0 := by
  revert index
  decide +kernel

/-- The low half of the register reaches the high half untouched. -/
theorem run_low (low : BitVec 8) :
    Crc.run crc16Poly ((0 : BitVec 8) ++ low) (List.replicate 8 false) = low ++ (0 : BitVec 8) := by
  revert low
  decide +kernel

/-- A byte in the high half of the register cancels the same byte of the message. -/
theorem run_high_msbBits (byte : BitVec 8) :
    Crc.run crc16Poly (byte ++ (0 : BitVec 8)) (msbBits byte) = 0 := by
  revert byte
  decide +kernel

/-- **A byte of `append` is eight steps of the register.** -/
theorem crc16Append_eq (crc : BitVec 16) (byte : BitVec 8) :
    crc16Append crc byte = Crc.run crc16Poly crc (msbBits byte) := by
  let high : BitVec 8 := (crc >>> 8).setWidth 8
  let low : BitVec 8 := crc.setWidth 8
  have hsplit : crc = (byte ++ (0 : BitVec 8)) ^^^
      (((high ^^^ byte) ++ (0 : BitVec 8)) ^^^ ((0 : BitVec 8) ++ low)) := by
    refine BitVec.eq_of_getLsbD_eq fun i hi ↦ ?_
    simp only [BitVec.getLsbD_xor, BitVec.getLsbD_append, high, low, BitVec.getLsbD_setWidth,
      BitVec.getLsbD_ushiftRight]
    by_cases hlow : i < 8
    · simp [hlow]
    · have hhigh : i - 8 < 8 := by omega
      have hback : 8 + (i - 8) = i := by omega
      cases hbit : byte.getLsbD (i - 8) <;> simp [hlow, hhigh, hback]
  have hlow : crc <<< 8 = low ++ (0 : BitVec 8) := by
    refine BitVec.eq_of_getLsbD_eq fun i hi ↦ ?_
    simp only [BitVec.getLsbD_shiftLeft, BitVec.getLsbD_append, low, BitVec.getLsbD_setWidth]
    by_cases hlow : i < 8
    · simp [hlow]
    · have hhigh : i - 8 < 8 := by omega
      simp [hlow, hhigh, hi]
  -- the byte goes in with its copy in the register, and what is left goes on with no message
  calc crc16Append crc byte =
    (low ++ (0 : BitVec 8)) ^^^ crc16Table.getD (high ^^^ byte).toNat 0 := by
        rw [crc16Append, hlow]
    _ = Crc.run crc16Poly (byte ++ (0 : BitVec 8)) (msbBits byte) ^^^
          (Crc.run crc16Poly ((high ^^^ byte) ++ (0 : BitVec 8)) (List.replicate 8 false) ^^^
            Crc.run crc16Poly ((0 : BitVec 8) ++ low) (List.replicate 8 false)) := by
        rw [run_high_msbBits, run_index, run_low, BitVec.xor_comm]
        exact BitVec.zero_xor.symm
    _ = Crc.run crc16Poly crc (msbBits byte) := by
        conv_rhs => rw [hsplit, Crc.run_xor, Crc.run_xor, length_msbBits, List.length_replicate]

/-- `append` of a block of data. -/
theorem foldl_crc16Append (crc : BitVec 16) (bytes : List (BitVec 8)) :
    bytes.foldl crc16Append crc = Crc.run crc16Poly crc (bytes.flatMap msbBits) := by
  induction bytes generalizing crc with
  | nil => rfl
  | cons byte bytes ih =>
    rw [List.foldl_cons, ih, crc16Append_eq, List.flatMap_cons, Crc.run_append]

/-! ## The two checks -/

/-- The plain check of a block of data: the remainder of its bits, the high end of each byte first,
times `X ^ 16` by `X ^ 16 + X ^ 12 + X ^ 5 + 1`. -/
def IsCrcXmodem (bytes : List (BitVec 8)) (crc : BitVec 16) : Prop :=
  Crc.toPoly crc = (Crc.msgPoly (bytes.flatMap msbBits) * X ^ 16) %ₘ (X ^ 16 + (X ^ 12 + X ^ 5 + 1))

/-- It is what the register holds when it starts at zero. -/
theorem isCrcXmodem_iff (bytes : List (BitVec 8)) (crc : BitVec 16) :
    IsCrcXmodem bytes crc ↔ crc = bytes.foldl crc16Append 0 := by
  have hrun := Crc.toPoly_run crc16Poly 0 (bytes.flatMap msbBits)
  rw [Crc.toPoly_zero, zero_mul, zero_add, generator_crc16Poly, ← foldl_crc16Append] at hrun
  rw [IsCrcXmodem, ← hrun]
  exact ⟨Crc.toPoly_inj, congrArg _⟩

/-- **The check of `simple` is the plain check of no block of data.** -/
theorem not_isCrcXmodem_crc16 (bytes : List (BitVec 8)) : ¬ IsCrcXmodem bytes (crc16 bytes) := by
  rw [isCrcXmodem_iff, crc16, foldl_crc16Append, foldl_crc16Append]
  intro h
  have hinit := Crc.run_injective (by decide) h
  exact absurd hinit (by decide)

end RoscoEmulator.Util
