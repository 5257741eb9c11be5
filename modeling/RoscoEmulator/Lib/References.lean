import Mathlib.Data.Set.Finite.Basic
import Mathlib.Data.Fintype.Pigeonhole
import Mathlib.Data.Finset.Max

/-!
# References

A reference leads from a place to another one, or there is none at that place. Following references
ends if some number of steps leads nowhere. Where the places that are reached are finitely many, it
ends exactly if no place comes round again.
-/

namespace RoscoEmulator.References

open Option

variable {α : Type*} {next : α → Option α} {a b : α}

/-- The place that `k` steps lead to. -/
def follow (next : α → Option α) : ℕ → α → Option α
  | 0, a => some a
  | k + 1, a => (next a).bind (follow next k)

/-- Following references from a place ends. -/
def Ends (next : α → Option α) (a : α) : Prop := ∃ k, follow next k a = none

/-- No place that is reached comes round again. -/
def NoCycle (next : α → Option α) (a : α) : Prop :=
  ∀ i k b, 0 < k → follow next i a = some b → follow next k b ≠ some b

theorem follow_succ_of_some (h : next a = some b) (k : ℕ) :
    follow next (k + 1) a = follow next k b := by
  rw [follow, h, bind_some]

theorem follow_succ_of_none (h : next a = none) (k : ℕ) : follow next (k + 1) a = none := by
  rw [follow, h, bind_none]

theorem follow_add (i k : ℕ) (a : α) :
    follow next (i + k) a = (follow next i a).bind (follow next k) := by
  induction i generalizing a with
  | zero => rw [Nat.zero_add, follow, bind_some]
  | succ i ih =>
    rw [Nat.succ_add, follow, follow]
    cases next a with
    | none => rfl
    | some b => exact ih b

/-- What leads nowhere leads nowhere in more steps. -/
theorem follow_eq_none_of_le {i k : ℕ} (h : follow next i a = none) (hle : i ≤ k) :
    follow next k a = none := by
  obtain ⟨j, rfl⟩ := Nat.exists_eq_add_of_le hle
  rw [follow_add, h, bind_none]

theorem Ends.of_none (h : next a = none) : Ends next a := ⟨1, follow_succ_of_none h 0⟩

theorem ends_iff_of_some (h : next a = some b) : Ends next a ↔ Ends next b := by
  constructor
  · rintro ⟨k, hk⟩
    exact ⟨k, by rw [← follow_succ_of_some h]; exact follow_eq_none_of_le hk (Nat.le_succ k)⟩
  · rintro ⟨k, hk⟩
    exact ⟨k + 1, (follow_succ_of_some h k).trans hk⟩

/-- A place from which following ends does not come round again. -/
theorem Ends.noCycle (h : Ends next a) : NoCycle next a := by
  intro i k b hk hb hcycle
  have hround : ∀ n, follow next (n * k) b = some b := fun n ↦ by
    induction n with
    | zero => rw [Nat.zero_mul, follow]
    | succ n ih => rw [Nat.succ_mul, follow_add, ih, bind_some, hcycle]
  obtain ⟨j, hj⟩ := h
  have hnone : follow next (i + j * k) a = none :=
    follow_eq_none_of_le hj ((Nat.le_mul_of_pos_right j hk).trans (Nat.le_add_left _ _))
  rw [follow_add, hb, bind_some, hround] at hnone
  cases hnone

/-- Among finitely many places, one comes round again if following does not end. -/
theorem NoCycle.ends (h : NoCycle next a) {s : Set α} (hs : s.Finite)
    (hmem : ∀ k b, follow next k a = some b → b ∈ s) : Ends next a := by
  by_contra hends
  have hsome : ∀ k, ∃ b : s, follow next k a = some b.1 := fun k ↦ by
    cases hk : follow next k a with
    | none => exact absurd ⟨k, hk⟩ hends
    | some b => exact ⟨⟨b, hmem k b hk⟩, rfl⟩
  choose visited hvisited using hsome
  have : Finite s := hs
  obtain ⟨i, j, hne, heq⟩ := Finite.exists_ne_map_eq_of_infinite visited
  wlog hlt : i < j generalizing i j
  · exact this j i hne.symm heq.symm (by omega)
  obtain ⟨k, rfl⟩ := Nat.exists_eq_add_of_lt hlt
  have hback := hvisited (i + k + 1)
  rw [Nat.add_assoc, follow_add, hvisited i, bind_some, ← Nat.add_assoc, ← heq] at hback
  exact h i (k + 1) (visited i).1 (Nat.succ_pos k) (hvisited i) hback

/-- One number of steps is enough for finitely many places. -/
theorem exists_follow_eq_none {next : ℕ → Option ℕ} (n : ℕ) (h : ∀ a < n, Ends next a) :
    ∃ k, ∀ a < n, follow next k a = none := by
  induction n with
  | zero => exact ⟨0, fun a ha ↦ absurd ha (Nat.not_lt_zero a)⟩
  | succ n ih =>
    obtain ⟨k, hk⟩ := ih fun a ha ↦ h a (by omega)
    obtain ⟨j, hj⟩ := h n (Nat.lt_succ_self n)
    refine ⟨max j k, fun a ha ↦ ?_⟩
    rcases Nat.lt_succ_iff_lt_or_eq.mp ha with hlt | rfl
    · exact follow_eq_none_of_le (hk a hlt) (le_max_right _ _)
    · exact follow_eq_none_of_le hj (le_max_left _ _)

end RoscoEmulator.References
