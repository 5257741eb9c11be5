import Mathlib

/-!
# Bit strings

Numbers as strings of bits, the most significant first, and the bits of a sequence of bytes by their
position. A string is read off as fields: `field w n` is a number in `w` bits, and `StartsAt` says
that a string stands in the bytes from a position on. -/

namespace RoscoEmulator.BitString

open List

/-- The low `w` bits of a number. -/
def field (w n : ℕ) : List Bool := (range w).map fun i ↦ n.testBit (w - 1 - i)

/-- A bit of a sequence of bytes, and zeros behind it. -/
def bitAt (bytes : List (BitVec 8)) (i : ℕ) : Bool := (bytes.getD (i / 8) 0).getMsbD (i % 8)

/-- The string stands in the bytes from a position on. -/
def StartsAt (bytes : List (BitVec 8)) (pos : ℕ) (s : List Bool) : Prop :=
  ∀ i < s.length, bitAt bytes (pos + i) = s.getD i false

@[simp] theorem length_field (w n : ℕ) : (field w n).length = w := by
  rw [field, length_map, length_range]

theorem getD_field {w n i : ℕ} (hi : i < w) : (field w n).getD i false = n.testBit (w - 1 - i) := by
  rw [getD_eq_getElem _ _ ((length_field w n).symm ▸ hi)]
  simp only [field, getElem_map, getElem_range]

/-- A field is the start of what it is the first part of. -/
theorem getD_field_append {w n i : ℕ} (hi : i < w) (s : List Bool) :
    (field w n ++ s).getD i false = n.testBit (w - 1 - i) := by
  rw [getD_append _ _ _ _ ((length_field w n).symm ▸ hi), getD_field hi]

/-- A number is known by the bits of a field that it fits into. -/
theorem eq_of_field {w n : ℕ} {x : BitVec 32} (hw : w ≤ 32) (hn : n < 2 ^ w)
    (hx : ∀ i < w, x.getMsbD (32 - w + i) = n.testBit (w - 1 - i))
    (hzero : ∀ i < 32 - w, x.getMsbD i = false) : x.toNat = n := by
  refine Nat.eq_of_testBit_eq fun j ↦ ?_
  rw [BitVec.testBit_toNat]
  by_cases hj : j < w
  · have hbit := hx (w - 1 - j) (by omega)
    rw [BitVec.getMsbD_eq_getLsbD, decide_eq_true (by omega), Bool.true_and] at hbit
    rw [show 32 - 1 - (32 - w + (w - 1 - j)) = j by omega,
      show w - 1 - (w - 1 - j) = j by omega] at hbit
    exact hbit
  · have hsmall : n.testBit j = false :=
      Nat.testBit_lt_two_pow (Nat.lt_of_lt_of_le hn (Nat.pow_le_pow_right (by decide) (by omega)))
    rw [hsmall]
    by_cases hj' : j < 32
    · have hbit := hzero (31 - j) (by omega)
      rw [BitVec.getMsbD_eq_getLsbD, decide_eq_true (by omega), Bool.true_and,
        show 32 - 1 - (31 - j) = j by omega] at hbit
      exact hbit
    · exact BitVec.getLsbD_of_ge x j (by omega)

namespace StartsAt

variable {bytes : List (BitVec 8)} {pos : ℕ} {s t : List Bool}

theorem right (h : StartsAt bytes pos (s ++ t)) : StartsAt bytes (pos + s.length) t := fun i hi ↦ by
  have hbit := h (s.length + i) (by rw [length_append]; omega)
  rw [← Nat.add_assoc] at hbit
  rw [hbit, getD_append_right _ _ _ _ (Nat.le_add_right _ _), Nat.add_sub_cancel_left]

end StartsAt

end RoscoEmulator.BitString
