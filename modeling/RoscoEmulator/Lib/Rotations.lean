import Mathlib.Data.Nat.Notation
import Mathlib.Tactic.SplitIfs

/-!
# Shifts and rotations, one bit at a time

Rotations by one bit add up, and a rotation of the low bits of a wider word is the union of two
shifts. Words are compared by their bits. -/

namespace RoscoEmulator

open Nat BitVec

variable {w W m n C i : ℕ}

/-- A remainder goes up, or back to zero. -/
theorem succ_mod (hw : 0 < w) (n : ℕ) :
    n % w + 1 = w ∧ (n + 1) % w = 0 ∨ n % w + 1 < w ∧ (n + 1) % w = n % w + 1 := by
  have hlt := mod_lt n hw
  have hmod : (n + 1) % w = (n % w + 1) % w := (mod_add_mod n w 1).symm
  rcases Nat.lt_or_eq_of_le (succ_le_of_lt hlt) with h | h
  · exact .inr ⟨h, hmod.trans (mod_eq_of_lt h)⟩
  · have hlast : n % w + 1 = w := h
    exact .inl ⟨hlast, hmod.trans (by rw [hlast, mod_self])⟩

variable (x : BitVec w)

/-- The bits of a rotation, by the place they come from. -/
theorem getLsbD_rotateLeft_eq (n : ℕ) (hi : i < w) :
    (x.rotateLeft n).getLsbD i = x.getLsbD (if i < n % w then w - n % w + i else i - n % w) := by
  rw [getLsbD_rotateLeft, decide_eq_true hi, Bool.true_and]
  split_ifs with h
  · rw [decide_eq_true h, cond_true]
  · rw [decide_eq_false h, cond_false]

theorem getLsbD_rotateRight_eq (n : ℕ) (hi : i < w) : (x.rotateRight n).getLsbD i =
    x.getLsbD (if i < w - n % w then n % w + i else i - (w - n % w)) := by
  rw [getLsbD_rotateRight, decide_eq_true hi, Bool.true_and]
  split_ifs with h
  · rw [decide_eq_true h, cond_true]
  · rw [decide_eq_false h, cond_false]

theorem rotateLeft_zero : x.rotateLeft 0 = x := by
  refine eq_of_getLsbD_eq fun i hi ↦ ?_
  rw [getLsbD_rotateLeft_eq x 0 hi, zero_mod, if_neg (Nat.not_lt_zero i), Nat.sub_zero]

theorem rotateRight_zero : x.rotateRight 0 = x := by
  refine eq_of_getLsbD_eq fun i hi ↦ ?_
  rw [getLsbD_rotateRight_eq x 0 hi, zero_mod, Nat.sub_zero, if_pos hi, Nat.zero_add]

/-- The bit that leaves the word comes back at its other end. -/
theorem getLsbD_rotateLeft_one (hw : 1 < w) (x : BitVec w) :
    (x.rotateLeft 1).getLsbD 0 = x.msb := by
  rw [getLsbD_rotateLeft_eq x 1 (by omega), mod_eq_of_lt hw, if_pos Nat.zero_lt_one,
    msb_eq_getLsbD_last, Nat.add_zero]

theorem msb_rotateRight_one (hw : 1 < w) (x : BitVec w) : (x.rotateRight 1).msb = x.getLsbD 0 := by
  rw [msb_eq_getLsbD_last, getLsbD_rotateRight_eq x 1 (by omega), mod_eq_of_lt hw,
    if_neg (Nat.lt_irrefl _), Nat.sub_self]

theorem rotateLeft_rotateLeft_one (hw : 1 < w) (x : BitVec w) (n : ℕ) :
    (x.rotateLeft n).rotateLeft 1 = x.rotateLeft (n + 1) := by
  refine eq_of_getLsbD_eq fun i hi ↦ ?_
  have hone : 1 % w = 1 := mod_eq_of_lt hw
  rw [getLsbD_rotateLeft_eq _ 1 hi, getLsbD_rotateLeft_eq x (n + 1) hi,
    getLsbD_rotateLeft_eq x n (by split_ifs <;> omega), hone]
  congr 1
  rcases succ_mod (zero_lt_of_lt hw) n with ⟨hlast, hnext⟩ | ⟨hless, hnext⟩ <;> rw [hnext] <;>
      split_ifs <;> omega

theorem rotateRight_rotateRight_one (hw : 1 < w) (x : BitVec w) (n : ℕ) :
    (x.rotateRight n).rotateRight 1 = x.rotateRight (n + 1) := by
  refine eq_of_getLsbD_eq fun i hi ↦ ?_
  have hone : 1 % w = 1 := mod_eq_of_lt hw
  rw [getLsbD_rotateRight_eq _ 1 hi, getLsbD_rotateRight_eq x (n + 1) hi,
    getLsbD_rotateRight_eq x n (by split_ifs <;> omega), hone]
  congr 1
  rcases succ_mod (zero_lt_of_lt hw) n with ⟨hlast, hnext⟩ | ⟨hless, hnext⟩ <;> rw [hnext] <;>
      split_ifs <;> omega

theorem getLsbD_rotateRight_msb (hw : 0 < w) (x : BitVec w) (n : ℕ) :
    (x.rotateRight n).msb = x.getLsbD (if n % w = 0 then w - 1 else n % w - 1) := by
  have hlt := mod_lt n hw
  rw [msb_eq_getLsbD_last, getLsbD_rotateRight_eq x n (sub_lt hw Nat.one_pos)]
  congr 1
  split_ifs <;> omega

theorem getLsbD_rotateLeft_zero (hw : 0 < w) (x : BitVec w) (n : ℕ) :
    (x.rotateLeft n).getLsbD 0 = x.getLsbD (if n % w = 0 then 0 else w - n % w) := by
  rw [getLsbD_rotateLeft_eq x n hw]
  congr 1
  split_ifs <;> omega

/-- An arithmetic shift leaves copies of the sign behind. -/
theorem getLsbD_sshiftRight_of_le {i : ℕ} (hi : i < w) (hn : w ≤ n + i + 1) :
    (x.sshiftRight n).getLsbD i = x.msb := by
  rw [getLsbD_sshiftRight, decide_eq_false (Nat.not_le_of_lt hi), Bool.not_false, Bool.true_and]
  split_ifs with h
  · rw [msb_eq_getLsbD_last]
    congr 1
    omega
  · rfl

/-- The low `m` bits of a word are rotated to the left by two shifts. -/
theorem getLsbD_shiftLeft_or_shiftRight {A : BitVec W}
    (hA : ∀ j, m ≤ j → A.getLsbD j = false) (hC : C ≤ m) (hm : m ≤ W) (hi : i < m) :
    (A <<< C ||| A >>> (m - C)).getLsbD i = A.getLsbD (if i < C then m - C + i else i - C) := by
  rw [getLsbD_or, getLsbD_shiftLeft, getLsbD_ushiftRight, decide_eq_true (by omega : i < W),
    Bool.true_and]
  split_ifs with h
  · rw [decide_eq_true h, Bool.not_true, Bool.false_and, Bool.false_or]
  · rw [decide_eq_false h, Bool.not_false, Bool.true_and, hA (m - C + i) (by omega), Bool.or_false]

theorem getLsbD_shiftRight_or_shiftLeft {A : BitVec W} (hA : ∀ j, m ≤ j → A.getLsbD j = false)
    (hC : C ≤ m) (hm : m ≤ W) (hi : i < m) : (A >>> C ||| A <<< (m - C)).getLsbD i =
      A.getLsbD (if i < m - C then C + i else i - (m - C)) := by
  rw [BitVec.or_comm, show A >>> C = A >>> (m - (m - C)) by rw [Nat.sub_sub_self hC],
    getLsbD_shiftLeft_or_shiftRight hA (sub_le m C) hm hi, Nat.sub_sub_self hC]

end RoscoEmulator
