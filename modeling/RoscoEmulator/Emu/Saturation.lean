import RoscoEmulator.Emu.Attotime

/-!
# Emulated time as a number

A normalised time is a number of attoseconds, and the operations of `attotime` are the operations of
these numbers up to saturation: a result of `ATTOTIME_MAX_SECONDS` seconds or more is *never*. The
product is where this takes an argument. It is worked out digit by digit with nine decimal places
each, and no digit or carry leaves its 32 bits.

One product is not that of the numbers. *Never* stays *never* even if it is multiplied by zero,
since the operation looks at its time before it looks at the factor. -/

namespace RoscoEmulator.Attotime

open Nat

/-- Non-negative seconds of 32 bits and less than a second of attoseconds. -/
structure Normalised (t : Attotime) : Prop where
  seconds_nonneg : 0 ≤ t.seconds
  seconds_lt : t.seconds < 2 ^ 31
  attoseconds_nonneg : 0 ≤ t.attoseconds
  attoseconds_lt : t.attoseconds < attosecondsPerSecond

/-- The number of attoseconds of a time. -/
def toAttoseconds (t : Attotime) : ℤ := t.seconds * attosecondsPerSecond + t.attoseconds

/-- The time of a number of attoseconds, or `never` if it is too long. -/
def saturate (attos : ℤ) : Attotime :=
  if attotimeMaxSeconds * attosecondsPerSecond ≤ attos then never
  else ⟨attos / attosecondsPerSecond, attos % attosecondsPerSecond⟩

variable {t l r : Attotime}

theorem attosecondsPerSecond_eq : attosecondsPerSecond = 10 ^ 18 := rfl

theorem normalised_never : never.Normalised := by
  constructor <;> decide

/-! ## Times and numbers -/

theorem toAttoseconds_nonneg (h : t.Normalised) : 0 ≤ t.toAttoseconds := by
  obtain ⟨h1, -, h3, -⟩ := h
  rw [toAttoseconds, attosecondsPerSecond_eq]
  omega

variable {attos : ℤ} {factor : ℕ}

theorem normalised_saturate (h : 0 ≤ attos) : (saturate attos).Normalised := by
  rw [saturate]
  split_ifs with hlong
  · exact normalised_never
  · rw [attotimeMaxSeconds, attosecondsPerSecond_eq] at hlong
    constructor <;> simp only [attosecondsPerSecond_eq] <;> omega

/-- A time that has its seconds and its attoseconds is the time of their number. -/
theorem eq_saturate {s a : ℤ}
    (hs : s < attotimeMaxSeconds) (ha : 0 ≤ a) (ha' : a < attosecondsPerSecond)
    (h : attos = s * attosecondsPerSecond + a) : (⟨s, a⟩ : Attotime) = saturate attos := by
  rw [attotimeMaxSeconds] at hs
  rw [attosecondsPerSecond_eq] at ha' h
  rw [saturate, if_neg (by rw [attotimeMaxSeconds, attosecondsPerSecond_eq]; omega)]
  ext <;> simp only [attosecondsPerSecond_eq] <;> omega

theorem saturate_eq_never (h : attotimeMaxSeconds * attosecondsPerSecond ≤ attos) :
    saturate attos = never := if_pos h

/-- A time is never exactly if its number is too long. -/
theorem isNever_iff (h : t.Normalised) : attotimeMaxSeconds ≤ t.seconds ↔
    attotimeMaxSeconds * attosecondsPerSecond ≤ t.toAttoseconds := by
  obtain ⟨-, -, h3, h4⟩ := h
  rw [attosecondsPerSecond_eq] at h4
  rw [toAttoseconds, attotimeMaxSeconds, attosecondsPerSecond_eq]
  omega

/-! ## Comparison -/

theorem lt_iff_toAttoseconds (hl : l.Normalised) (hr : r.Normalised) :
    l < r ↔ l.toAttoseconds < r.toAttoseconds := by
  obtain ⟨-, -, hl3, hl4⟩ := hl
  obtain ⟨-, -, hr3, hr4⟩ := hr
  rw [attosecondsPerSecond_eq] at hl4 hr4
  rw [lt_iff, toAttoseconds, toAttoseconds, attosecondsPerSecond_eq]
  omega

theorem le_iff_toAttoseconds (hl : l.Normalised) (hr : r.Normalised) :
    l ≤ r ↔ l.toAttoseconds ≤ r.toAttoseconds := by
  rw [← not_lt, lt_iff_toAttoseconds hr hl, not_lt]

theorem eq_iff_toAttoseconds (hl : l.Normalised) (hr : r.Normalised) :
    l = r ↔ l.toAttoseconds = r.toAttoseconds := by
  rw [le_antisymm_iff, le_antisymm_iff, le_iff_toAttoseconds hl hr, le_iff_toAttoseconds hr hl]

/-! ## Addition -/

/-- The sum is that of the numbers. Its seconds are less than `2 ^ 31` before they are compared with
the limit, and its attoseconds less than `2 ^ 63`. -/
theorem add_eq_saturate (hl : l.Normalised) (hr : r.Normalised) :
    l + r = saturate (l.toAttoseconds + r.toAttoseconds) := by
  have hl' := toAttoseconds_nonneg hl
  have hr' := toAttoseconds_nonneg hr
  show add l r = _
  rw [add]
  by_cases hnever : attotimeMaxSeconds ≤ l.seconds ∨ attotimeMaxSeconds ≤ r.seconds
  · rw [if_pos hnever]
    rw [isNever_iff hl, isNever_iff hr] at hnever
    rw [saturate_eq_never (by omega)]
  rw [if_neg hnever]
  obtain ⟨-, -, hl3, hl4⟩ := hl
  obtain ⟨-, -, hr3, hr4⟩ := hr
  rw [attosecondsPerSecond_eq] at hl4 hr4
  by_cases hcarry : (attosecondsPerSecond : ℤ) ≤ l.attoseconds + r.attoseconds
  · simp only [if_pos hcarry]
    rw [attosecondsPerSecond_eq] at hcarry
    split_ifs with hlong
    · rw [attotimeMaxSeconds] at hlong
      rw [saturate_eq_never]
      rw [toAttoseconds, toAttoseconds, attotimeMaxSeconds, attosecondsPerSecond_eq]
      omega
    · refine eq_saturate (by omega) ?_ ?_ ?_
      · rw [attosecondsPerSecond_eq]
        omega
      · rw [attosecondsPerSecond_eq]
        omega
      · rw [toAttoseconds, toAttoseconds]
        ring
  · simp only [if_neg hcarry]
    split_ifs with hlong
    · rw [attotimeMaxSeconds] at hlong
      rw [saturate_eq_never]
      rw [toAttoseconds, toAttoseconds, attotimeMaxSeconds, attosecondsPerSecond_eq]
      omega
    · refine eq_saturate (by omega) (by omega) (by omega) ?_
      rw [toAttoseconds, toAttoseconds]
      ring

/-- The difference is that of the numbers, negative or not, unless the first time is never. -/
theorem sub_eq_saturate (hl : l.Normalised) (hr : r.Normalised)
    (hfin : l.seconds < attotimeMaxSeconds) :
    l - r = saturate (l.toAttoseconds - r.toAttoseconds) := by
  obtain ⟨-, -, hl3, hl4⟩ := hl
  obtain ⟨hr1, -, hr3, hr4⟩ := hr
  rw [attosecondsPerSecond_eq] at hl4 hr4
  show sub l r = _
  rw [sub, if_neg (by omega)]
  dsimp only
  split_ifs with hborrow
  · refine eq_saturate (by omega) ?_ ?_ ?_
    · rw [attosecondsPerSecond_eq]
      omega
    · rw [attosecondsPerSecond_eq]
      omega
    · rw [toAttoseconds, toAttoseconds]
      ring
  · refine eq_saturate (by omega) (by omega) (by rw [attosecondsPerSecond_eq]; omega) ?_
    rw [toAttoseconds, toAttoseconds]
    ring

/-! ## Multiplication -/

/-- The division is exact if the quotient has 32 bits. -/
theorem divu64x32Rem_eq {a b : ℕ} (hb : 0 < b) (hb' : b ≤ 2 ^ 32) (h : a / b < 2 ^ 32) :
    divu64x32Rem a b = (a / b, a % b) := by
  rw [divu64x32Rem, mod_eq_of_lt h]
  have hrem : a - b * (a / b) = a % b := Nat.sub_eq_of_eq_add (mod_add_div a b).symm
  have hlt : a % b < 2 ^ 32 := (mod_lt a hb).trans_le hb'
  simp only [hrem, mod_eq_of_lt hlt]

/-- **One digit of the product.** It and the carry, which stays below the factor, have 32 bits. -/
theorem divu64x32Rem_digit {carry digit : ℕ} (hcarry : carry < factor)
    (hdigit : digit < attosecondsPerSecondSqrt) (hf : factor < 2 ^ 32) : ∃ carry' digit',
    divu64x32Rem (carry + digit * factor) attosecondsPerSecondSqrt = (carry', digit') ∧
      carry' < factor ∧ digit' < attosecondsPerSecondSqrt ∧
      carry + digit * factor = carry' * attosecondsPerSecondSqrt + digit' := by
  have hpos : 0 < attosecondsPerSecondSqrt := by decide
  have hlt : (carry + digit * factor) / attosecondsPerSecondSqrt < factor := by
    rw [Nat.div_lt_iff_lt_mul hpos]
    calc carry + digit * factor < factor + digit * factor := Nat.add_lt_add_right hcarry _
      _ = (digit + 1) * factor := by ring
      _ ≤ attosecondsPerSecondSqrt * factor := Nat.mul_le_mul_right _ hdigit
      _ = factor * attosecondsPerSecondSqrt := Nat.mul_comm _ _
  exact ⟨_, _, divu64x32Rem_eq hpos (by decide) (hlt.trans hf), hlt, mod_lt _ hpos,
    (div_add_mod' _ _).symm⟩

theorem u64_eq {z : ℤ} (h : 0 ≤ z) (h' : z < 2 ^ 64) : u64 z = z.toNat := by
  rw [u64, Int.emod_eq_of_lt h h']

/-- The product is that of the numbers, unless *never* is multiplied by zero. -/
theorem mul_eq_saturate (ht : t.Normalised) (hf : factor < 2 ^ 32)
    (hzero : t.seconds < attotimeMaxSeconds ∨ factor ≠ 0) :
    t.mul factor = saturate (t.toAttoseconds * factor) := by
  rw [mul]
  split_ifs with hnever hfactor
  · have hfactor : factor ≠ 0 := hzero.resolve_left (Int.not_lt.mpr hnever)
    have hone : (1 : ℤ) ≤ factor := by omega
    rw [isNever_iff ht] at hnever
    rw [saturate_eq_never (hnever.trans (le_mul_of_one_le_right (toAttoseconds_nonneg ht) hone))]
  · rw [hfactor, cast_zero, mul_zero]
    rfl
  obtain ⟨h1, -, h3, h4⟩ := ht
  rw [attosecondsPerSecond_eq] at h4
  obtain ⟨s, hs⟩ := Int.eq_ofNat_of_zero_le h1
  obtain ⟨a, ha⟩ := Int.eq_ofNat_of_zero_le h3
  rw [attotimeMaxSeconds] at hnever
  have hsplit : divu64x32Rem (u64 t.attoseconds) attosecondsPerSecondSqrt =
      (a / attosecondsPerSecondSqrt, a % attosecondsPerSecondSqrt) := by
    rw [ha, u64_eq (by omega) (by omega), Int.toNat_natCast]
    refine divu64x32Rem_eq (by decide) (by decide) ?_
    rw [attosecondsPerSecondSqrt]
    omega
  have hattolo : a % attosecondsPerSecondSqrt < attosecondsPerSecondSqrt := mod_lt _ (by decide)
  have hattohi : a / attosecondsPerSecondSqrt < attosecondsPerSecondSqrt := by
    rw [attosecondsPerSecondSqrt]
    omega
  obtain ⟨carry, reslo, hlow, hcarry, hreslo, hloweq⟩ :=
    divu64x32Rem_digit (Nat.pos_of_ne_zero hfactor) hattolo hf
  obtain ⟨carry', reshi, hhigh, hcarry', hreshi, hhigheq⟩ := divu64x32Rem_digit hcarry hattohi hf
  have hsecs : u64 t.seconds % 2 ^ 32 = s := by
    rw [hs, u64_eq (by omega) (by omega), Int.toNat_natCast, mod_eq_of_lt (by omega)]
  rw [Nat.zero_add] at hlow hloweq
  simp only [hsplit, hlow, hhigh, hsecs]
  -- the digits put together are the product
  have hdigits : a = a / attosecondsPerSecondSqrt * attosecondsPerSecondSqrt +
      a % attosecondsPerSecondSqrt := (div_add_mod' _ _).symm
  have hproduct : (s * attosecondsPerSecond + a) * factor =
      (carry' + s * factor) * attosecondsPerSecond +
        (reslo + reshi * attosecondsPerSecondSqrt) := by
    rw [attosecondsPerSecond]
    calc (s * (attosecondsPerSecondSqrt * attosecondsPerSecondSqrt) + a) * factor
        = s * factor * (attosecondsPerSecondSqrt * attosecondsPerSecondSqrt) +
          a / attosecondsPerSecondSqrt * factor * attosecondsPerSecondSqrt +
          a % attosecondsPerSecondSqrt * factor := by
            conv_lhs => rw [hdigits]
            ring
      _ = s * factor * (attosecondsPerSecondSqrt * attosecondsPerSecondSqrt) +
          (carry + a / attosecondsPerSecondSqrt * factor) * attosecondsPerSecondSqrt + reslo := by
            rw [hloweq]
            ring
      _ = _ := by
            rw [hhigheq]
            ring
  have hnumber : t.toAttoseconds * factor = ((carry' + s * factor : ℕ) : ℤ) * attosecondsPerSecond +
      ((reslo + reshi * attosecondsPerSecondSqrt : ℕ) : ℤ) := by
    rw [toAttoseconds, hs, ha]
    exact_mod_cast hproduct
  have hattos : reslo + reshi * attosecondsPerSecondSqrt < attosecondsPerSecond := by
    rw [attosecondsPerSecond]
    rw [attosecondsPerSecondSqrt] at *
    omega
  have hattos' : ((reslo + reshi * attosecondsPerSecondSqrt : ℕ) : ℤ) < attosecondsPerSecond := by
    exact_mod_cast hattos
  split_ifs with hlong
  · rw [saturate_eq_never]
    rw [hnumber]
    have := mul_le_mul_of_nonneg_right hlong (Int.natCast_nonneg attosecondsPerSecond)
    omega
  · exact eq_saturate (by omega) (Int.natCast_nonneg _) hattos' hnumber

theorem mul_of_never (h : attotimeMaxSeconds ≤ t.seconds) (factor : ℕ) : t.mul factor = never := by
  rw [mul, if_pos h]

theorem normalised_mul (ht : t.Normalised) (hf : factor < 2 ^ 32) : (t.mul factor).Normalised := by
  by_cases hnever : attotimeMaxSeconds ≤ t.seconds
  · rw [mul_of_never hnever]
    exact normalised_never
  · rw [mul_eq_saturate ht hf (.inl (by omega))]
    exact normalised_saturate (mul_nonneg (toAttoseconds_nonneg ht) (Int.natCast_nonneg _))

/-! ## The operations -/

/-- Sums and comparisons of two times are those of their numbers of attoseconds. -/
structure ExactSums (l r : Attotime) : Prop where
  add : l + r = saturate (l.toAttoseconds + r.toAttoseconds)
  normalised : (l + r).Normalised
  eq_iff : l = r ↔ l.toAttoseconds = r.toAttoseconds
  lt_iff : l < r ↔ l.toAttoseconds < r.toAttoseconds
  le_iff : l ≤ r ↔ l.toAttoseconds ≤ r.toAttoseconds

/-- The product of a time and a factor is that of its number of attoseconds. -/
structure ExactProduct (t : Attotime) (factor : ℕ) : Prop where
  mul : t.mul factor = saturate (t.toAttoseconds * factor)
  normalised : (t.mul factor).Normalised

theorem exactSums_of_normalised (hl : l.Normalised) (hr : r.Normalised) : ExactSums l r where
  add := add_eq_saturate hl hr
  normalised := by
    rw [add_eq_saturate hl hr]
    exact normalised_saturate (Int.add_nonneg (toAttoseconds_nonneg hl) (toAttoseconds_nonneg hr))
  eq_iff := eq_iff_toAttoseconds hl hr
  lt_iff := lt_iff_toAttoseconds hl hr
  le_iff := le_iff_toAttoseconds hl hr

/-- **Arithmetic.** Sums and comparisons of normalised times are exact. So are products, unless
*never* is multiplied by zero, and a product with *never* is *never*. -/
theorem arithmetic_exact (hl : l.Normalised) (hr : r.Normalised) {factor : ℕ}
    (hf : factor < 2 ^ 32) :
    ExactSums l r ∧ (l.seconds < attotimeMaxSeconds ∨ factor ≠ 0 → ExactProduct l factor) ∧
      (attotimeMaxSeconds ≤ l.seconds → l.mul factor = never) :=
  ⟨exactSums_of_normalised hl hr, fun hzero ↦ ⟨mul_eq_saturate hl hf hzero, normalised_mul hl hf⟩,
    fun hnever ↦ mul_of_never hnever factor⟩

/-- The longest time that is not *never*, and *never*. -/
theorem arithmetic_exact_longest :
    ExactSums ⟨attotimeMaxSeconds - 1, attosecondsPerSecond - 1⟩ never ∧
      ExactProduct ⟨attotimeMaxSeconds - 1, attosecondsPerSecond - 1⟩ 2 := by
  have h : (⟨attotimeMaxSeconds - 1, attosecondsPerSecond - 1⟩ : Attotime).Normalised := by
    constructor <;> decide
  have hall := arithmetic_exact h normalised_never (show 2 < 2 ^ 32 by decide)
  exact ⟨hall.1, hall.2.1 (.inr (by decide))⟩

/-- *Never* times zero is *never*, and not the product of the numbers. -/
theorem not_exactProduct_never_zero : never.Normalised ∧ ¬ ExactProduct never 0 :=
  ⟨normalised_never, fun h ↦ absurd h.mul (by decide)⟩

end RoscoEmulator.Attotime
