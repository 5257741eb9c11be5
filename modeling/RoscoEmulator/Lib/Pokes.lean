import Mathlib.Data.List.Basic

/-!
# Rows of cells in a memory

Values stored one after the other in the cells of a row. The row is a map from places to addresses
that tells the first `n` places apart, so it may wrap around the end of the memory. What is stored
at different places can be stored in any order, and a row of values can be stored from either
end. -/

namespace RoscoEmulator

open Function

variable {κ β : Type*} [DecidableEq κ]

/-- Values go into the cells of a row, from a place on. -/
def pokes (place : ℕ → κ) : ℕ → List β → (κ → β) → κ → β
  | _, [], m => m
  | k, b :: bs, m => pokes place (k + 1) bs (update m (place k) b)

/-- The first `n` places are different cells. -/
def Apart (place : ℕ → κ) (n : ℕ) : Prop := ∀ i < n, ∀ j < n, place i = place j → i = j

variable {place : ℕ → κ} {n : ℕ}

theorem pokes_append (place : ℕ → κ) (k : ℕ) (bs cs : List β) (m : κ → β) :
    pokes place k (bs ++ cs) m = pokes place (k + bs.length) cs (pokes place k bs m) := by
  induction bs generalizing k m with
  | nil => rfl
  | cons b bs ih =>
    rw [List.cons_append, pokes, ih, pokes, List.length_cons, Nat.add_assoc, Nat.add_comm 1]

/-- Other cells keep their values. -/
theorem pokes_of_ne {k : ℕ} {bs : List β} {x : κ} (h : ∀ i < bs.length, place (k + i) ≠ x)
    (m : κ → β) : pokes place k bs m x = m x := by
  induction bs generalizing k m with
  | nil => rfl
  | cons b bs ih =>
    rw [pokes, ih]
    · exact update_of_ne (Ne.symm (h 0 (Nat.zero_lt_succ _))) _ _
    · intro i hi
      rw [Nat.add_assoc, Nat.add_comm 1]
      exact h (i + 1) (Nat.succ_lt_succ hi)

namespace Apart

variable (h : Apart place n)
include h

omit [DecidableEq κ] in
theorem ne {i j : ℕ} (hi : i < n) (hj : j < n) (hij : i ≠ j) : place i ≠ place j :=
  fun heq ↦ hij (h i hi j hj heq)

/-- Every value is found at its place. -/
theorem pokes_place {k i : ℕ} {bs : List β} (hi : i < bs.length) (hn : k + bs.length ≤ n)
    (m : κ → β) : pokes place k bs m (place (k + i)) = bs[i] := by
  induction bs generalizing k i m with
  | nil => exact absurd hi (Nat.not_lt_zero i)
  | cons b bs ih =>
    rw [List.length_cons] at hi hn
    cases i with
    | zero =>
      rw [pokes, pokes_of_ne fun j hj ↦ h.ne (by omega) (by omega) (by omega)]
      exact update_self _ _ _
    | succ i =>
      rw [pokes, show k + (i + 1) = k + 1 + i by omega, ih (by omega) (by omega)]
      rfl

theorem pokes_update {j k : ℕ} {bs : List β} (hjk : j < k) (hn : k + bs.length ≤ n) (b : β)
    (m : κ → β) :
    pokes place k bs (update m (place j) b) = update (pokes place k bs m) (place j) b := by
  induction bs generalizing k m with
  | nil => rfl
  | cons c bs ih =>
    rw [List.length_cons] at hn
    rw [pokes, pokes, update_comm (h.ne (by omega) (by omega) (by omega)),
      ih (Nat.lt_succ_of_lt hjk) (by omega)]

/-- Rows behind one another can be stored in any order. -/
theorem pokes_comm {j k : ℕ} {bs cs : List β} (hjk : j + bs.length ≤ k) (hn : k + cs.length ≤ n)
    (m : κ → β) :
    pokes place k cs (pokes place j bs m) = pokes place j bs (pokes place k cs m) := by
  induction bs generalizing j m with
  | nil => rfl
  | cons b bs ih =>
    rw [List.length_cons] at hjk
    rw [pokes, pokes, ih (by omega), h.pokes_update (by omega) hn]

/-- A row is stored from its end. -/
theorem pokes_append' {k : ℕ} {bs cs : List β} (hn : k + bs.length + cs.length ≤ n) (m : κ → β) :
    pokes place k bs (pokes place (k + bs.length) cs m) = pokes place k (bs ++ cs) m := by
  rw [pokes_append, h.pokes_comm (Nat.le_refl _) hn]

end Apart

end RoscoEmulator
