import Mathlib.Data.Int.Notation
import Mathlib.Data.Nat.Notation

/-!
# Windows of bits

The bits of a word seen from another position, as a word of another width. Every shift of a word
that is then cut or extended is a window of it, as long as no bit is lost on the way, so that two
accesses at different widths can be compared by their positions alone. -/

namespace RoscoEmulator

open BitVec

variable {a b : ℕ}

/-- The bits of `x` from position `δ` on, and zeros where it has none. -/
def bitWindow (b : ℕ) (δ : ℤ) (x : BitVec a) : BitVec b :=
  if 0 ≤ δ then (x >>> δ.toNat).setWidth b else x.setWidth b <<< (-δ).toNat

theorem getLsbD_bitWindow (δ : ℤ) (x : BitVec a) (i : ℕ) :
    (bitWindow b δ x).getLsbD i = (decide (i < b ∧ 0 ≤ i + δ) && x.getLsbD (i + δ).toNat) := by
  unfold bitWindow
  split
  · next h =>
    rw [getLsbD_setWidth, getLsbD_ushiftRight,
      show δ.toNat + i = (i + δ).toNat by omega]
    congr 1
    exact decide_eq_decide.mpr ⟨fun hi ↦ ⟨hi, by omega⟩, fun hi ↦ hi.1⟩
  · next h =>
    rw [getLsbD_shiftLeft, getLsbD_setWidth]
    by_cases hi : i < b ∧ 0 ≤ i + δ
    · rw [decide_eq_true hi, decide_eq_true hi.1, decide_eq_false (by omega : ¬i < (-δ).toNat),
        decide_eq_true (by omega : i - (-δ).toNat < b),
        show i - (-δ).toNat = (i + δ).toNat by omega]
      rfl
    · rw [decide_eq_false hi, Bool.false_and]
      by_cases hb : i < b
      · rw [decide_eq_true (by omega : i < (-δ).toNat), Bool.not_true, Bool.and_false,
          Bool.false_and]
      · rw [decide_eq_false hb, Bool.false_and, Bool.false_and]

variable {δ : ℤ} (x : BitVec a) (k : ℕ)

/-- A bit of the window that is one of the word. -/
theorem getLsbD_bitWindow_of_eq {i j : ℕ} (hi : i < b) (hj : (i : ℤ) + δ = j) :
    (bitWindow b δ x).getLsbD i = x.getLsbD j := by
  rw [getLsbD_bitWindow, decide_eq_true ⟨hi, by omega⟩, Bool.true_and,
    show ((i : ℤ) + δ).toNat = j by omega]

/-- A set bit of the window is one of the word. -/
theorem exists_of_getLsbD_bitWindow {i : ℕ}
    {x : BitVec a} (h : (bitWindow b δ x).getLsbD i = true) :
    ∃ j : ℕ, (i : ℤ) + δ = j ∧ i < b ∧ x.getLsbD j = true := by
  rw [getLsbD_bitWindow, Bool.and_eq_true, decide_eq_true_eq] at h
  exact ⟨(i + δ).toNat, by omega, h.1.1, h.2⟩

/-- Two words are windows of one word at the same position if their bits are. -/
theorem eq_bitWindow {x : BitVec a} {y : BitVec b}
    (h : ∀ i < b, y.getLsbD i = (decide (0 ≤ i + δ) && x.getLsbD (i + δ).toNat)) :
    y = bitWindow b δ x := by
  refine eq_of_getLsbD_eq fun i hi ↦ ?_
  rw [h i hi, getLsbD_bitWindow]
  congr 1
  exact decide_eq_decide.mpr ⟨fun h ↦ ⟨hi, h⟩, fun h ↦ h.2⟩

theorem bitWindow_eq_zero (h : (a : ℤ) ≤ δ ∨ (b : ℤ) + δ ≤ 0) : bitWindow b δ x = 0 := by
  refine (eq_bitWindow fun i hi ↦ ?_).symm
  have hzero : (0 : BitVec b).getLsbD i = false := getLsbD_zero
  rw [hzero]
  rcases h with h | h
  · rw [getLsbD_of_ge x _ (by omega), Bool.and_false]
  · rw [decide_eq_false (by omega), Bool.false_and]

theorem bitWindow_zero : bitWindow b 0 x = x.setWidth b := by
  refine (eq_bitWindow fun i hi ↦ ?_).symm
  rw [getLsbD_setWidth, decide_eq_true hi, decide_eq_true (by omega),
    show ((i : ℤ) + 0).toNat = i by omega]

theorem setWidth_ushiftRight : (x >>> k).setWidth b = bitWindow b k x := by
  rw [bitWindow, if_pos (Int.natCast_nonneg k), Int.toNat_natCast]

theorem shiftLeft_setWidth : x.setWidth b <<< k = bitWindow b (-k) x := by
  refine eq_bitWindow fun i hi ↦ ?_
  rw [getLsbD_shiftLeft, getLsbD_setWidth, decide_eq_true hi, Bool.true_and]
  by_cases hk : i < k
  · rw [decide_eq_true hk, decide_eq_false (by omega : ¬0 ≤ (i : ℤ) + -k), Bool.not_true,
      Bool.false_and, Bool.false_and]
  · rw [decide_eq_false hk, decide_eq_true (by omega : i - k < b),
      decide_eq_true (by omega : 0 ≤ (i : ℤ) + -k),
      show ((i : ℤ) + -k).toNat = i - k by omega]
    rfl

/-- A left shift may be cut after it. -/
theorem setWidth_shiftLeft (h : b ≤ a) : (x <<< k).setWidth b = bitWindow b (-k) x := by
  rw [← shiftLeft_setWidth]
  refine eq_of_getLsbD_eq fun i hi ↦ ?_
  rw [getLsbD_setWidth, getLsbD_shiftLeft, getLsbD_shiftLeft, getLsbD_setWidth,
    decide_eq_true hi, decide_eq_true (by omega : i < a), decide_eq_true (by omega : i - k < b)]
  simp only [Bool.true_and]

/-- Shifted to the left, then right-justified. -/
theorem setWidth_ushiftRight_shiftLeft (j : ℕ) (h : b + j ≤ a) :
    ((x <<< k) >>> j).setWidth b = bitWindow b (j - k) x := by
  refine eq_bitWindow fun i hi ↦ ?_
  rw [getLsbD_setWidth, decide_eq_true hi, Bool.true_and, getLsbD_ushiftRight,
    getLsbD_shiftLeft, decide_eq_true (by omega : j + i < a), Bool.true_and]
  by_cases hk : j + i < k
  · rw [decide_eq_true hk, decide_eq_false (by omega : ¬0 ≤ (i : ℤ) + (j - k)), Bool.not_true,
      Bool.false_and, Bool.false_and]
  · rw [decide_eq_false hk, decide_eq_true (by omega : 0 ≤ (i : ℤ) + (j - k)),
      show ((i : ℤ) + (j - k)).toNat = j + i - k by omega, Bool.not_false]

/-- Shifted to the right, then right-justified. -/
theorem setWidth_ushiftRight_ushiftRight (j : ℕ) :
    ((x >>> k) >>> j).setWidth b = bitWindow b (j + k) x := by
  rw [← shiftRight_add, setWidth_ushiftRight, Int.natCast_add, Int.add_comm]

/-- Left-justified, then shifted to the right. -/
theorem ushiftRight_bitWindow (h : (a : ℤ) ≤ b + δ) :
    bitWindow b δ x >>> k = bitWindow b (k + δ) x := by
  refine eq_bitWindow fun i hi ↦ ?_
  rw [getLsbD_ushiftRight, getLsbD_bitWindow, show ((k + i : ℕ) : ℤ) + δ = i + (k + δ) by omega]
  by_cases hk : k + i < b
  · congr 1
    exact decide_eq_decide.mpr ⟨fun h ↦ by omega, fun h ↦ ⟨hk, by omega⟩⟩
  · rw [getLsbD_of_ge x _ (by omega), Bool.and_false, Bool.and_false]

/-- Left-justified, then shifted to the left. -/
theorem shiftLeft_bitWindow (h : δ ≤ 0) : bitWindow b δ x <<< k = bitWindow b (-k + δ) x := by
  refine eq_bitWindow fun i hi ↦ ?_
  rw [getLsbD_shiftLeft, decide_eq_true hi, Bool.true_and]
  by_cases hk : i < k
  · rw [decide_eq_true hk, decide_eq_false (by omega : ¬0 ≤ (i : ℤ) + (-k + δ)), Bool.not_true,
      Bool.false_and, Bool.false_and]
  · rw [decide_eq_false hk, getLsbD_bitWindow,
      show ((i - k : ℕ) : ℤ) + δ = i + (-k + δ) by omega, Bool.not_false, Bool.true_and]
    congr 1
    exact decide_eq_decide.mpr ⟨fun h ↦ h.2, fun h ↦ ⟨by omega, h⟩⟩

end RoscoEmulator
