import Mathlib.Algebra.Order.Ring.Nat
import Mathlib.Data.List.Induction

/-!
# Big-endian numbers

Numbers as lists of bytes, the most significant first. The two directions are inverse to each other
as long as a number fits into the bytes that it is written to.
-/

namespace RoscoEmulator.BigEndian

open List

/-- The number in `bytes`. -/
def ofBytes (bytes : List (BitVec 8)) : ℕ := bytes.foldl (fun n byte ↦ n * 256 + byte.toNat) 0

/-- The low `count` bytes of `n`. -/
def toBytes : ℕ → ℕ → List (BitVec 8)
  | 0, _ => []
  | count + 1, n => toBytes count (n / 256) ++ [BitVec.ofNat 8 n]

variable (count : ℕ) (bytes : List (BitVec 8))

@[simp] theorem length_toBytes (n : ℕ) : (toBytes count n).length = count := by
  induction count generalizing n with
  | zero => rfl
  | succ count ih => rw [toBytes, length_append, ih, length_singleton]

theorem ofBytes_concat (byte : BitVec 8) :
    ofBytes (bytes ++ [byte]) = ofBytes bytes * 256 + byte.toNat := by
  rw [ofBytes, foldl_append]
  rfl

theorem ofBytes_lt : ofBytes bytes < 256 ^ bytes.length := by
  induction bytes using reverseRecOn with
  | nil => exact Nat.one_pos
  | append_singleton bytes byte ih =>
    rw [ofBytes_concat, length_append, length_singleton, Nat.pow_succ]
    omega

/-- What is written reads back, up to the bytes that there are. -/
theorem ofBytes_toBytes (n : ℕ) : ofBytes (toBytes count n) = n % 256 ^ count := by
  induction count generalizing n with
  | zero => rw [Nat.pow_zero, Nat.mod_one]; rfl
  | succ count ih =>
    have hpow : 256 ^ (count + 1) = 256 * 256 ^ count := Nat.pow_succ'
    rw [toBytes, ofBytes_concat, ih, BitVec.toNat_ofNat, hpow, Nat.mod_mul]
    omega

theorem ofBytes_toBytes_of_lt {count n : ℕ} (h : n < 256 ^ count) :
    ofBytes (toBytes count n) = n := by
  rw [ofBytes_toBytes, Nat.mod_eq_of_lt h]

theorem toBytes_ofBytes : toBytes bytes.length (ofBytes bytes) = bytes := by
  induction bytes using reverseRecOn with
  | nil => rfl
  | append_singleton bytes byte ih =>
    rw [length_append, length_singleton, toBytes, ofBytes_concat]
    congr 1
    · rw [show (ofBytes bytes * 256 + byte.toNat) / 256 = ofBytes bytes by omega, ih]
    · rw [singleton_inj]
      refine BitVec.eq_of_toNat_eq ?_
      rw [BitVec.toNat_ofNat]
      omega

theorem ofBytes_replicate_zero : ofBytes (replicate count 0) = 0 := by
  induction count with
  | zero => rfl
  | succ count ih =>
    rw [replicate_succ', ofBytes_concat, ih]
    rfl

end RoscoEmulator.BigEndian
