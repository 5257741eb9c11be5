import Mathlib.Data.Nat.Notation
import Mathlib.Tactic.SplitIfs

/-!
# The first one of a row of bits

A search from the start of a row. It finds the same place in a row with bits cleared if what it
would have found is not among them. -/

namespace RoscoEmulator

/-- The place of the first one among `n` bits, or `n`. -/
def firstOne (f : ℕ → Bool) : ℕ → ℕ
  | 0 => 0
  | n + 1 => if f 0 then 0 else firstOne (fun k ↦ f (k + 1)) n + 1

theorem firstOne_le (f : ℕ → Bool) (n : ℕ) : firstOne f n ≤ n := by
  induction n generalizing f with
  | zero => exact Nat.le_refl 0
  | succ n ih =>
    rw [firstOne]
    split_ifs
    · exact Nat.zero_le _
    · exact Nat.succ_le_succ (ih _)

variable {f : ℕ → Bool} {n : ℕ}

theorem firstOne_eq_iff {p : ℕ} (hp : p ≤ n) :
    firstOne f n = p ↔ (∀ j < p, f j = false) ∧ (p < n → f p = true) := by
  induction n generalizing f p with
  | zero =>
    rw [Nat.le_zero.mp hp]
    exact iff_of_true rfl ⟨fun _ h ↦ absurd h (Nat.not_lt_zero _),
      fun h ↦ absurd h (Nat.lt_irrefl 0)⟩
  | succ n ih =>
    rw [firstOne]
    cases hfirst : f 0 with
    | true =>
      rw [if_pos rfl]
      constructor
      · rintro rfl
        exact ⟨fun _ h ↦ absurd h (Nat.not_lt_zero _), fun _ ↦ hfirst⟩
      · rintro ⟨hbefore, -⟩
        exact (Nat.eq_zero_of_not_pos fun hpos ↦
          Bool.false_ne_true ((hbefore 0 hpos).symm.trans hfirst)).symm
    | false =>
      rw [if_neg Bool.false_ne_true]
      cases p with
      | zero =>
        exact iff_of_false (Nat.succ_ne_zero _) fun h ↦
          Bool.false_ne_true (hfirst.symm.trans (h.2 (Nat.succ_pos n)))
      | succ p =>
        rw [Nat.add_right_cancel_iff, ih (Nat.le_of_succ_le_succ hp), Nat.succ_lt_succ_iff]
        refine and_congr_left fun _ ↦ ?_
        constructor
        · intro h j hj
          cases j with
          | zero => exact hfirst
          | succ j => exact h j (Nat.lt_of_succ_lt_succ hj)
        · exact fun h j hj ↦ h (j + 1) (Nat.succ_lt_succ hj)

/-- Bits that are cleared do not count if the first one stays. -/
theorem firstOne_and_eq_iff {P : ℕ → Prop} [DecidablePred P] :
    firstOne (fun k ↦ decide (P k) && f k) n = firstOne f n ↔
      (firstOne f n < n → P (firstOne f n)) := by
  have hle := firstOne_le f n
  obtain ⟨hbefore, hone⟩ := (firstOne_eq_iff hle).mp rfl
  rw [firstOne_eq_iff hle]
  constructor
  · rintro ⟨-, hseen⟩ hlt
    exact of_decide_eq_true (Bool.and_eq_true_iff.mp (hseen hlt)).1
  · intro h
    refine ⟨fun j hj ↦ ?_, fun hlt ↦ ?_⟩
    · rw [hbefore j hj, Bool.and_false]
    · rw [hone hlt, decide_eq_true (h hlt), Bool.true_and]

theorem firstOne_congr {g : ℕ → Bool} (h : ∀ k < n, f k = g k) : firstOne f n = firstOne g n := by
  have hle := firstOne_le g n
  obtain ⟨hbefore, hone⟩ := (firstOne_eq_iff hle).mp rfl
  exact (firstOne_eq_iff hle).mpr
    ⟨fun j hj ↦ (h j (by omega)).trans (hbefore j hj), fun hlt ↦ (h _ hlt).trans (hone hlt)⟩

theorem firstOne_eq_self_iff : firstOne f n = n ↔ ∀ k < n, f k = false :=
  (firstOne_eq_iff (Nat.le_refl n)).trans (and_iff_left fun h ↦ absurd h (Nat.lt_irrefl n))

end RoscoEmulator
