import Mathlib.Data.Nat.Bitwise

/-!
# The submasks of a mask

The numbers whose bits are all in a mask are enumerated by a bit trick: the next one after `x` is
the difference of `x` and the mask, in `w` bits, with the bits outside the mask cleared. Starting at
zero this goes through all of them and comes back to zero. -/

namespace RoscoEmulator.Submask

open Nat List

/-- All bits of `x` are in `mask`. -/
def IsSubmask (x mask : ℕ) : Prop := x &&& mask = x

variable {w : ℕ} (a : ℕ) {x : ℕ} (b : ℕ) {mask : ℕ}

theorem isSubmask_iff : IsSubmask x mask ↔ ∀ i, x.testBit i = true → mask.testBit i = true := by
  constructor
  · intro h i hi
    rw [← h, testBit_and, Bool.and_eq_true] at hi
    exact hi.2
  · intro h
    refine eq_of_testBit_eq fun i ↦ ?_
    rw [testBit_and]
    rcases hi : x.testBit i with _ | _
    · rfl
    · rw [h i hi]
      rfl

theorem isSubmask_zero_right : IsSubmask x 0 ↔ x = 0 := by
  rw [IsSubmask, and_zero, eq_comm]

theorem IsSubmask.mod_eq_zero {k : ℕ} (h : IsSubmask x mask) (hmask : mask % 2 ^ k = 0) :
    x % 2 ^ k = 0 := by
  have hand : (x &&& mask) % 2 ^ k = x % 2 ^ k := congrArg (· % 2 ^ k) h
  rw [← hand, and_mod_two_pow, hmask, and_zero]

theorem IsSubmask.and_right (h : IsSubmask x mask) (y : ℕ) : IsSubmask (x &&& y) (mask &&& y) := by
  refine isSubmask_iff.mpr fun i hi ↦ ?_
  rw [testBit_and, Bool.and_eq_true] at hi ⊢
  exact ⟨isSubmask_iff.mp h i hi.1, hi.2⟩

theorem IsSubmask.of_and {y : ℕ} (h : IsSubmask x (mask &&& y)) : IsSubmask x mask := by
  refine isSubmask_iff.mpr fun i hi ↦ ?_
  have hbit := isSubmask_iff.mp h i hi
  rw [testBit_and, Bool.and_eq_true] at hbit
  exact hbit.1

theorem IsSubmask.or {y : ℕ} (hx : IsSubmask x mask) (hy : IsSubmask y mask) :
    IsSubmask (x ||| y) mask := by
  refine isSubmask_iff.mpr fun i hi ↦ ?_
  rw [testBit_or, Bool.or_eq_true] at hi
  rcases hi with hi | hi
  · exact isSubmask_iff.mp hx i hi
  · exact isSubmask_iff.mp hy i hi

theorem IsSubmask.le (h : IsSubmask x mask) : x ≤ mask := by
  rw [← h]
  exact and_le_right

/-! ## The lowest bit -/

theorem two_mul_and : 2 * a &&& 2 * b = 2 * (a &&& b) := by
  simpa [bit] using land_bit false a false b

theorem two_mul_add_one_and : (2 * a + 1) &&& (2 * b + 1) = 2 * (a &&& b) + 1 := by
  simpa [bit] using land_bit true a true b

theorem two_mul_and_add_one : 2 * a &&& (2 * b + 1) = 2 * (a &&& b) := by
  simpa [bit] using land_bit false a true b

theorem add_one_and_two_mul : (2 * a + 1) &&& 2 * b = 2 * (a &&& b) := by
  rw [Nat.and_comm, two_mul_and_add_one, Nat.and_comm]

/-! ## The next submask -/

/-- The submask after `x`, in `w` bits. -/
def next (w mask x : ℕ) : ℕ := x + (2 ^ w - mask) &&& mask

theorem next_even (x : ℕ) : next (w + 1) (2 * mask) (2 * x) = 2 * next w mask x := by
  have hsub : 2 * x + (2 ^ (w + 1) - 2 * mask) = 2 * (x + (2 ^ w - mask)) := by
    rw [pow_succ]
    omega
  rw [next, hsub, two_mul_and, next]

theorem next_odd_of_odd (hmask : mask < 2 ^ w) (x : ℕ) :
    next (w + 1) (2 * mask + 1) (2 * x + 1) = 2 * next w mask x := by
  have hsub : 2 * x + 1 + (2 ^ (w + 1) - (2 * mask + 1)) = 2 * (x + (2 ^ w - mask)) := by
    rw [pow_succ]
    omega
  rw [next, hsub, two_mul_and_add_one, next]

/-- The bits outside the mask, all set. -/
theorem add_compl_and (hmask : mask < 2 ^ w) (hx : IsSubmask x mask) :
    x + (2 ^ w - 1 - mask) &&& mask = x := by
  induction w generalizing mask x with
  | zero =>
    obtain rfl : mask = 0 := by simpa using hmask
    obtain rfl := isSubmask_zero_right.mp hx
    rfl
  | succ w ih =>
    have hbits := isSubmask_iff.mp hx
    have hmask' : mask / 2 < 2 ^ w := by
      rw [pow_succ] at hmask
      omega
    have hx' : IsSubmask (x / 2) (mask / 2) := by
      refine isSubmask_iff.mpr fun i hi ↦ ?_
      rw [← testBit_succ] at hi ⊢
      exact hbits (i + 1) hi
    have hlow := hbits 0
    have ih := ih hmask' hx'
    rw [pow_succ] at hmask ⊢
    simp only [testBit_zero, decide_eq_true_eq] at hlow
    obtain ⟨m, rfl | rfl⟩ : ∃ m, mask = 2 * m ∨ mask = 2 * m + 1 := ⟨mask / 2, by omega⟩
    · obtain ⟨y, rfl⟩ : ∃ y, x = 2 * y := ⟨x / 2, by omega⟩
      rw [Nat.mul_div_cancel_left m Nat.two_pos, Nat.mul_div_cancel_left y Nat.two_pos] at ih
      have hsum : 2 * y + (2 ^ w * 2 - 1 - 2 * m) = 2 * (y + (2 ^ w - 1 - m)) + 1 := by omega
      rw [hsum, add_one_and_two_mul, ih]
    · have hm : (2 * m + 1) / 2 = m := by omega
      rw [hm] at ih
      obtain ⟨y, rfl | rfl⟩ : ∃ y, x = 2 * y ∨ x = 2 * y + 1 := ⟨x / 2, by omega⟩
      · rw [Nat.mul_div_cancel_left y Nat.two_pos] at ih
        have hsum : 2 * y + (2 ^ w * 2 - 1 - (2 * m + 1)) = 2 * (y + (2 ^ w - 1 - m)) := by omega
        rw [hsum, two_mul_and_add_one, ih]
      · have hy : (2 * y + 1) / 2 = y := by omega
        rw [hy] at ih
        have hsum : 2 * y + 1 + (2 ^ w * 2 - 1 - (2 * m + 1)) = 2 * (y + (2 ^ w - 1 - m)) + 1 := by
          omega
        rw [hsum, two_mul_add_one_and, ih]

theorem next_odd_of_even (hmask : mask < 2 ^ w) (hx : IsSubmask x mask) :
    next (w + 1) (2 * mask + 1) (2 * x) = 2 * x + 1 := by
  have hsub : 2 * x + (2 ^ (w + 1) - (2 * mask + 1)) = 2 * (x + (2 ^ w - 1 - mask)) + 1 := by
    rw [pow_succ]
    omega
  rw [next, hsub, two_mul_add_one_and, add_compl_and hmask hx]

/-! ## The enumeration -/

/-- The submasks of a mask of `w` bits, in order. -/
def submasks : ℕ → ℕ → List ℕ
  | 0, _ => [0]
  | w + 1, mask =>
      if mask % 2 = 0 then (submasks w (mask / 2)).map (2 * ·)
      else (submasks w (mask / 2)).flatMap fun x ↦ [2 * x, 2 * x + 1]

theorem mem_submasks (hmask : mask < 2 ^ w) : x ∈ submasks w mask ↔ IsSubmask x mask := by
  induction w generalizing mask x with
  | zero =>
    obtain rfl : mask = 0 := by simpa using hmask
    rw [submasks, mem_singleton, isSubmask_zero_right]
  | succ w ih =>
    have hmask' : mask / 2 < 2 ^ w := by
      rw [pow_succ] at hmask
      omega
    rw [submasks]
    split_ifs with heven
    · obtain ⟨m, rfl⟩ : ∃ m, mask = 2 * m := ⟨mask / 2, by omega⟩
      rw [Nat.mul_div_cancel_left m Nat.two_pos] at hmask' ⊢
      simp only [mem_map, ih hmask', IsSubmask]
      constructor
      · rintro ⟨y, hy, rfl⟩
        rw [two_mul_and, hy]
      · intro hx
        obtain ⟨y, rfl | rfl⟩ : ∃ y, x = 2 * y ∨ x = 2 * y + 1 := ⟨x / 2, by omega⟩
        · rw [two_mul_and] at hx
          exact ⟨y, by omega, rfl⟩
        · rw [add_one_and_two_mul] at hx
          omega
    · obtain ⟨m, rfl⟩ : ∃ m, mask = 2 * m + 1 := ⟨mask / 2, by omega⟩
      have hm : (2 * m + 1) / 2 = m := by omega
      rw [hm] at hmask' ⊢
      simp only [mem_flatMap, ih hmask', IsSubmask, mem_cons, not_mem_nil, or_false]
      constructor
      · rintro ⟨y, hy, rfl | rfl⟩
        · rw [two_mul_and_add_one, hy]
        · rw [two_mul_add_one_and, hy]
      · intro hx
        obtain ⟨y, rfl | rfl⟩ : ∃ y, x = 2 * y ∨ x = 2 * y + 1 := ⟨x / 2, by omega⟩
        · rw [two_mul_and_add_one] at hx
          exact ⟨y, by omega, Or.inl rfl⟩
        · rw [two_mul_add_one_and] at hx
          exact ⟨y, by omega, Or.inr rfl⟩

theorem length_submasks_le (w mask : ℕ) : (submasks w mask).length ≤ mask + 1 := by
  induction w generalizing mask with
  | zero => simp [submasks]
  | succ w ih =>
    have hlen := ih (mask / 2)
    rw [submasks]
    split_ifs with heven
    · rw [length_map]
      omega
    · have hflat : ∀ l : List ℕ, (l.flatMap fun x ↦ [2 * x, 2 * x + 1]).length = 2 * l.length := by
        intro l
        induction l with
        | nil => rfl
        | cons x l ih =>
          rw [flatMap_cons, length_append, ih, length_cons]
          simp only [length_cons, length_nil]
          omega
      rw [hflat]
      omega

/-- A list of iterates of `f` up to the one that `f` takes to zero. -/
def IsRun (f : ℕ → ℕ) : List ℕ → Prop
  | [] => False
  | [x] => f x = 0
  | x :: y :: l => f x = y ∧ y ≠ 0 ∧ IsRun f (y :: l)

theorem IsRun.map_two_mul {f f' : ℕ → ℕ} (hf : ∀ x, f' (2 * x) = 2 * f x) {l : List ℕ}
    (h : IsRun f l) : IsRun f' (l.map (2 * ·)) := by
  induction l with
  | nil => exact h
  | cons x l ih =>
    rcases l with _ | ⟨y, l⟩
    · have hx : f x = 0 := h
      simp [IsRun, hf, hx]
    · obtain ⟨hx, hy, hrun⟩ := h
      have hnext : f' (2 * x) = 2 * y := by rw [hf, hx]
      have hne : 2 * y ≠ 0 := by omega
      exact ⟨hnext, hne, ih hrun⟩

theorem IsRun.flatMap_two_mul {f f' : ℕ → ℕ} {l : List ℕ} (heven : ∀ x ∈ l, f' (2 * x) = 2 * x + 1)
    (hodd : ∀ x, f' (2 * x + 1) = 2 * f x) (h : IsRun f l) :
    IsRun f' (l.flatMap fun x ↦ [2 * x, 2 * x + 1]) := by
  induction l with
  | nil => exact h
  | cons x l ih =>
    have hx' := heven x mem_cons_self
    rcases l with _ | ⟨y, l⟩
    · have hx : f x = 0 := h
      have hlast : f' (2 * x + 1) = 0 := by rw [hodd, hx]
      exact ⟨hx', by omega, hlast⟩
    · obtain ⟨hx, hy, hrun⟩ := h
      have hnext : f' (2 * x + 1) = 2 * y := by rw [hodd, hx]
      have hrest := ih (fun z hz ↦ heven z (mem_cons_of_mem x hz)) hrun
      have hne : 2 * y ≠ 0 := by omega
      exact ⟨hx', by omega, hnext, hne, hrest⟩

theorem isRun_submasks (hmask : mask < 2 ^ w) : IsRun (next w mask) (submasks w mask) := by
  induction w generalizing mask with
  | zero =>
    obtain rfl : mask = 0 := by simpa using hmask
    simp [submasks, IsRun, next]
  | succ w ih =>
    have hmask' : mask / 2 < 2 ^ w := by
      rw [pow_succ] at hmask
      omega
    have ih := ih hmask'
    rw [submasks]
    split_ifs with heven
    · obtain ⟨m, rfl⟩ : ∃ m, mask = 2 * m := ⟨mask / 2, by omega⟩
      rw [Nat.mul_div_cancel_left m Nat.two_pos] at ih ⊢
      exact ih.map_two_mul fun x ↦ next_even x
    · obtain ⟨m, rfl⟩ : ∃ m, mask = 2 * m + 1 := ⟨mask / 2, by omega⟩
      have hm : (2 * m + 1) / 2 = m := by omega
      rw [hm] at hmask' ih ⊢
      refine ih.flatMap_two_mul ?_ fun x ↦ next_odd_of_odd hmask' x
      intro x hx
      exact next_odd_of_even hmask' ((mem_submasks hmask').mp hx)

theorem head_submasks (w mask : ℕ) : ∃ l, submasks w mask = 0 :: l := by
  induction w generalizing mask with
  | zero => exact ⟨[], rfl⟩
  | succ w ih =>
    obtain ⟨l, hl⟩ := ih (mask / 2)
    rw [submasks, hl]
    split_ifs
    · exact ⟨_, rfl⟩
    · exact ⟨_, rfl⟩

end RoscoEmulator.Submask
