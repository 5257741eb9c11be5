import Mathlib.Data.List.GetD
import Mathlib.Data.List.Induction

/-!
# Shift registers

A shift register of `w` bits takes a bit in at the low end and loses one at the high end. Bits that
have been shifted in are read back from the register by position: the last one in is bit `0`. A
register that has taken in at least `w` bits holds the last `w` of them and nothing of what it held
before.

`msbBits` are the bits of a register in the order in which they leave it, so that shifting them into
another register of the same width copies it. A sequence of words of one width is determined by its
bits, even behind a part of a word.
-/

namespace RoscoEmulator.ShiftRegister

open BitVec List

variable {w : ℕ}

/-- Shift one bit in. -/
def shiftIn (x : BitVec w) (bit : Bool) : BitVec w := (x <<< 1) ||| (ofBool bit).setWidth w

/-- Shift bits in, the head of the list first. -/
def shiftInAll (x : BitVec w) (bits : List Bool) : BitVec w := bits.foldl shiftIn x

variable (x : BitVec w) {i : ℕ}

@[simp] theorem shiftInAll_nil : shiftInAll x [] = x := rfl

theorem shiftInAll_concat (bits : List Bool) (bit : Bool) :
    shiftInAll x (bits ++ [bit]) = shiftIn (shiftInAll x bits) bit := by
  rw [shiftInAll, foldl_append]
  rfl

theorem getLsbD_shiftIn (bit : Bool) (hi : i < w) :
    (shiftIn x bit).getLsbD i = if i = 0 then bit else x.getLsbD (i - 1) := by
  rw [shiftIn, getLsbD_or, getLsbD_shiftLeft, getLsbD_setWidth,
    getLsbD_ofBool]
  split_ifs with h0
  · subst h0
    simp [hi]
  · have h1 : ¬i < 1 := by omega
    simp [hi, h0, h1]

theorem getLsbD_shiftInAll (bits : List Bool) (hi : i < w) :
    (shiftInAll x bits).getLsbD i =
      if i < bits.length then bits.getD (bits.length - 1 - i) false
      else x.getLsbD (i - bits.length) := by
  -- induction on the last bit shifted in
  induction bits using reverseRecOn generalizing i with
  | nil => simp
  | append_singleton bits bit ih =>
    rw [shiftInAll_concat, getLsbD_shiftIn _ _ hi, length_append, length_singleton]
    cases i with
    | zero => simp
    | succ i =>
      rw [if_neg (by omega), Nat.add_sub_cancel, ih (by omega)]
      split_ifs with h h' h'
      · rw [show bits.length + 1 - 1 - (i + 1) = bits.length - 1 - i by omega,
          getD_append _ _ _ _ (by omega)]
      · omega
      · omega
      · rw [show i + 1 - (bits.length + 1) = i - bits.length by omega]

/-! ## Words, high bit first -/

/-- The bits of a register, the high end first. -/
def msbBits (x : BitVec w) : List Bool := (range w).map x.getMsbD

@[simp] theorem length_msbBits : (msbBits x).length = w := by
  simp [msbBits]

theorem getElem?_msbBits (hi : i < w) : (msbBits x)[i]? = some (x.getMsbD i) := by
  simp [msbBits, hi]

theorem msbBits_inj {x y : BitVec w} (h : msbBits x = msbBits y) : x = y := by
  refine eq_of_getMsbD_eq fun i hi ↦ ?_
  have hget := congrArg (·[i]?) h
  simpa [getElem?_msbBits x hi, getElem?_msbBits y hi] using hget

/-- A register that is filled holds what was shifted in. -/
theorem msbBits_shiftInAll {bits : List Bool} (h : bits.length = w) :
    msbBits (shiftInAll x bits) = bits := by
  refine ext_getElem? fun i ↦ ?_
  by_cases hi : i < w
  · rw [getElem?_msbBits _ hi, getMsbD_eq_getLsbD, getLsbD_shiftInAll _ _ (by omega),
      if_pos (by omega), getD_eq_getElem?_getD, show bits.length - 1 - (w - 1 - i) = i by omega,
      List.getElem?_eq_getElem (by omega)]
    simp [hi]
  · rw [List.getElem?_eq_none (by simpa using hi), List.getElem?_eq_none (by omega)]

/-- Taking bits out at the high end, with `bits` entering at the low end. -/
theorem msb_shiftInAll {bits : List Bool} (h : bits.length < w) :
    (shiftInAll x bits).msb = x.getMsbD bits.length := by
  rw [msb_eq_getLsbD_last, getLsbD_shiftInAll _ _ (by omega), if_neg (by omega),
    getMsbD_eq_getLsbD, show w - 1 - bits.length = w - 1 - bits.length from rfl]
  simp [h]

theorem length_flatMap_msbBits (xs : List (BitVec w)) :
    (xs.flatMap msbBits).length = w * xs.length := by
  induction xs with
  | nil => rfl
  | cons x xs ih =>
    rw [flatMap_cons, length_append, ih, length_msbBits, length_cons, Nat.mul_succ]
    omega

/-- Words behind each other are determined by their bits. -/
theorem eq_of_flatMap_msbBits {xs ys : List (BitVec w)} {part : List Bool} (hpart : part.length < w)
    (h : ys.flatMap msbBits = xs.flatMap msbBits ++ part) : ys = xs ∧ part = [] := by
  induction xs generalizing ys with
  | nil =>
    cases ys with
    | nil => exact ⟨rfl, h.symm⟩
    | cons y ys =>
      have hlen := congrArg List.length h
      rw [flatMap_cons, length_append, length_msbBits, flatMap_nil,
        nil_append] at hlen
      omega
  | cons x xs ih =>
    cases ys with
    | nil =>
      have hlen := congrArg List.length h
      rw [flatMap_nil, flatMap_cons, length_append, length_append,
        length_msbBits, length_nil] at hlen
      omega
    | cons y ys =>
      rw [flatMap_cons, flatMap_cons, List.append_assoc] at h
      obtain ⟨hhead, htail⟩ := append_inj h (by simp)
      obtain ⟨rfl, hnil⟩ := ih htail
      exact ⟨by rw [msbBits_inj hhead], hnil⟩

end RoscoEmulator.ShiftRegister
