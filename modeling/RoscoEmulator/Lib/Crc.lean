import Mathlib
import RoscoEmulator.Lib.ShiftRegister

/-!
# Cyclic redundancy checks

A word of `w` bits is a polynomial over the field of two elements, bit `i` the coefficient of
`X ^ i`, and so is a message, its first bit the highest coefficient. The check of a message is the
remainder of the message times `X ^ w` by a monic generator of degree `w`, which is given by the
word of its other coefficients.

`step` is one step of the register that computes it: it multiplies by `X` modulo the generator and
takes in a bit of the message at the high end. `toPoly_run` says what the register holds after a
message, from any initial value. The register is linear in its value, so two initial values that
differ still differ after the same message when the generator has a constant term.
-/

open Polynomial

namespace RoscoEmulator.Crc

variable {w : ℕ}

/-! ## Words and messages as polynomials -/

/-- A bit as a coefficient. -/
def coeffBit (b : Bool) : ZMod 2 := if b then 1 else 0

@[simp] theorem coeffBit_false : coeffBit false = 0 := rfl

@[simp] theorem coeffBit_true : coeffBit true = 1 := rfl

theorem coeffBit_xor (a b : Bool) : coeffBit (a ^^ b) = coeffBit a + coeffBit b := by
  cases a <;> cases b <;> decide

theorem coeffBit_inj {a b : Bool} (h : coeffBit a = coeffBit b) : a = b := by
  cases a <;> cases b <;> first | rfl | exact absurd h (by decide)

/-- The polynomial of a word. -/
noncomputable def toPoly (x : BitVec w) : (ZMod 2)[X] :=
  ∑ i ∈ Finset.range w, monomial i (coeffBit (x.getLsbD i))

variable (g x y : BitVec w) (b : Bool) (bits : List Bool)

@[simp] theorem coeff_toPoly (i : ℕ) : (toPoly x).coeff i = coeffBit (x.getLsbD i) := by
  simp only [toPoly, finsetSum_coeff, coeff_monomial]
  rw [Finset.sum_ite_eq' (Finset.range w) i fun j ↦ coeffBit (x.getLsbD j)]
  split_ifs with hi
  · rfl
  · rw [BitVec.getLsbD_of_ge x i (by simpa using hi), coeffBit_false]

theorem toPoly_inj {x y : BitVec w} (h : toPoly x = toPoly y) : x = y := by
  refine BitVec.eq_of_getLsbD_eq fun i _ ↦ coeffBit_inj ?_
  rw [← coeff_toPoly, h, coeff_toPoly]

@[simp] theorem toPoly_zero : toPoly (0 : BitVec w) = 0 := by
  ext i
  simp

theorem toPoly_xor : toPoly (x ^^^ y) = toPoly x + toPoly y := by
  ext i
  rw [coeff_add, coeff_toPoly, coeff_toPoly, coeff_toPoly, BitVec.getLsbD_xor, coeffBit_xor]

theorem degree_toPoly_lt : (toPoly x).degree < w := by
  rw [degree_lt_iff_coeff_zero]
  intro i hi
  rw [coeff_toPoly, BitVec.getLsbD_of_ge x i hi, coeffBit_false]

/-- The polynomial of a message. -/
noncomputable def msgPoly (bits : List Bool) : (ZMod 2)[X] :=
  bits.foldl (fun p b ↦ p * X + C (coeffBit b)) 0

theorem msgPoly_concat (b : Bool) : msgPoly (bits ++ [b]) = msgPoly bits * X + C (coeffBit b) := by
  rw [msgPoly, List.foldl_append]
  rfl

/-! ## The register -/

/-- One step of the register, with the lower coefficients `g` of the generator. -/
def step (g x : BitVec w) (b : Bool) : BitVec w :=
  (x <<< 1) ^^^ if x.msb ^^ b then g else 0

/-- The register after a message. -/
def run (g x : BitVec w) (bits : List Bool) : BitVec w := bits.foldl (step g) x

@[simp] theorem run_nil : run g x [] = x := rfl

@[simp] theorem run_cons : run g x (b :: bits) = run g (step g x b) bits := rfl

theorem run_append (bits' : List Bool) : run g x (bits ++ bits') = run g (run g x bits) bits' :=
  List.foldl_append

/-! ### The remainder -/

/-- The generator. -/
noncomputable def generator (g : BitVec w) : (ZMod 2)[X] := X ^ w + toPoly g

theorem monic_generator : (generator g).Monic :=
  monic_X_pow_add (degree_toPoly_lt g)

theorem degree_generator : (generator g).degree = w := by
  have hlt : (toPoly g).degree < (X ^ w : (ZMod 2)[X]).degree := by
    rw [degree_X_pow]
    exact degree_toPoly_lt g
  rw [generator, degree_add_eq_left_of_degree_lt hlt, degree_X_pow]

/-- Multiplying by `X` shifts, and the highest bit becomes the coefficient of `X ^ w`. -/
theorem toPoly_mul_X : toPoly x * X = toPoly (x <<< 1) + C (coeffBit x.msb) * X ^ w := by
  ext i
  rw [coeff_add, coeff_C_mul_X_pow, coeff_toPoly, BitVec.getLsbD_shiftLeft]
  cases i with
  | zero =>
    rw [coeff_mul_X_zero]
    split_ifs with hw
    · subst hw
      simp [BitVec.msb_eq_getLsbD_last]
    · simp
  | succ n =>
    rw [coeff_mul_X, coeff_toPoly]
    split_ifs with hw
    · simp [← hw, BitVec.msb_eq_getLsbD_last]
    · by_cases hlt : n + 1 < w
      · simp [hlt]
      · simp [hlt, BitVec.getLsbD_of_ge x n (by omega)]

/-- One step multiplies by `X`, takes in a bit and subtracts a multiple of the generator. -/
theorem toPoly_step :
    toPoly (step g x b) + generator g * C (coeffBit (x.msb ^^ b)) =
      toPoly x * X + C (coeffBit b) * X ^ w := by
  have htwo (p : (ZMod 2)[X]) : p + p = 0 := CharTwo.add_self_eq_zero p
  have htap : toPoly (if x.msb ^^ b then g else 0) = toPoly g * C (coeffBit (x.msb ^^ b)) := by
    split_ifs with h
    · rw [h, coeffBit_true, C_1, mul_one]
    · rw [Bool.not_eq_true] at h
      rw [h, toPoly_zero, coeffBit_false, C_0, mul_zero]
  rw [step, toPoly_xor, htap, generator, toPoly_mul_X, coeffBit_xor, C_add]
  linear_combination htwo (toPoly g * (C (coeffBit x.msb) + C (coeffBit b)))

/-- What the register holds is the value and the message before, up to multiples of the
generator. -/
theorem exists_toPoly_run : ∃ q,
    toPoly (run g x bits) + generator g * q =
      toPoly x * X ^ bits.length + msgPoly bits * X ^ w := by
  -- induction on the last bit of the message, which is taken in last
  induction bits using List.reverseRecOn with
  | nil => exact ⟨0, by simp [msgPoly]⟩
  | append_singleton bits b ih =>
    obtain ⟨q, hq⟩ := ih
    refine ⟨C (coeffBit ((run g x bits).msb ^^ b)) + q * X, ?_⟩
    have hstep := toPoly_step g (run g x bits) b
    have hrun : run g x (bits ++ [b]) = step g (run g x bits) b := run_append g x bits [b]
    rw [hrun, msgPoly_concat, List.length_append, List.length_singleton]
    linear_combination hstep + X * hq

/-- **The register computes the remainder**. -/
theorem toPoly_run : toPoly (run g x bits) =
    (toPoly x * X ^ bits.length + msgPoly bits * X ^ w) %ₘ generator g := by
  obtain ⟨q, hq⟩ := exists_toPoly_run g x bits
  have hdegree : (toPoly (run g x bits)).degree < (generator g).degree := by
    rw [degree_generator]
    exact degree_toPoly_lt _
  exact (div_modByMonic_unique q _ (monic_generator g) ⟨hq, hdegree⟩).2.symm

/-! ### Linearity -/

theorem step_xor : step g (x ^^^ y) b = step g x b ^^^ step g y false := by
  have hshift : (x ^^^ y) <<< 1 = x <<< 1 ^^^ y <<< 1 := BitVec.shiftLeft_xor_distrib x y 1
  have htap : (if (x ^^^ y).msb ^^ b then g else 0) =
      (if x.msb ^^ b then g else 0) ^^^ if y.msb ^^ false then g else 0 := by
    rw [BitVec.msb_xor]
    cases x.msb <;> cases y.msb <;> cases b <;> simp
  rw [step, step, step, hshift, htap]
  ac_rfl

/-- The part of a register that is added to it goes on by itself. -/
theorem run_xor :
    run g (x ^^^ y) bits = run g x bits ^^^ run g y (List.replicate bits.length false) := by
  induction bits generalizing x y with
  | nil => rfl
  | cons b bits ih =>
    rw [run_cons, step_xor, ih]
    rfl

section Injective

variable {g x y : BitVec w} (hg : g.getLsbD 0 = true)
include hg

/-- A step can be undone: its lowest bit tells whether the generator was subtracted. -/
theorem step_injective {b : Bool} (h : step g x b = step g y b) : x = y := by
  have hlow (z : BitVec w) : (step g z b).getLsbD 0 = (z.msb ^^ b) := by
    rw [step, BitVec.getLsbD_xor, BitVec.getLsbD_shiftLeft]
    cases z.msb ^^ b <;> simp [hg]
  have hmsb : x.msb = y.msb := by
    have hbit := hlow x
    rw [h, hlow y] at hbit
    exact (Bool.xor_right_inj.mp (by rw [Bool.xor_comm, Bool.xor_comm b]; exact hbit)).symm
  have hshift : x <<< 1 = y <<< 1 := by
    rw [step, step, hmsb] at h
    exact (BitVec.xor_left_inj _).mp h
  refine BitVec.eq_of_getLsbD_eq fun i hi ↦ ?_
  by_cases hlast : i = w - 1
  · rw [hlast, ← BitVec.msb_eq_getLsbD_last, ← BitVec.msb_eq_getLsbD_last, hmsb]
  · have hbit := congrArg (·.getLsbD (i + 1)) hshift
    have hlt : i + 1 < w := by omega
    have hnot : ¬ i + 1 < 1 := by omega
    simp only [BitVec.getLsbD_shiftLeft, hlt, hnot, decide_true, decide_false, Bool.not_false,
      Bool.true_and, Nat.add_sub_cancel] at hbit
    exact hbit

/-- **Initial values that differ still differ after the same message.** -/
theorem run_injective {bits : List Bool} (h : run g x bits = run g y bits) : x = y := by
  induction bits generalizing x y with
  | nil => exact h
  | cons b bits ih => exact step_injective hg (ih h)

end Injective

end RoscoEmulator.Crc
