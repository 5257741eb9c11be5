import RoscoEmulator.Emu.Ticks

/-!
# Division of emulated time

`operator/=` divides digit by digit, with nine decimal places each, and its quotient of the
attoseconds is exact before it is rounded. It is rounded up from a remainder of half the divisor on,
and half of an odd divisor is rounded down before that: the remainder below the half rounds up too.
`divides_iff` says that this is where the quotient is not the nearest one, which of the divisor 1 it
never is. -/

namespace RoscoEmulator.Attotime

open Nat

variable {t : Attotime} {n : ℕ}

/-! ## Digits -/

/-- **One digit of the quotient.** It and the remainder, which stays below the divisor, have 32
bits. -/
theorem divu64x32Rem_quotient {digit remainder : ℕ} (hdigit : digit < attosecondsPerSecondSqrt)
    (hr : remainder < n) (hn : n < 2 ^ 32) : ∃ digit' remainder',
    divu64x32Rem (digit + remainder * attosecondsPerSecondSqrt) n = (digit', remainder') ∧
      digit' < attosecondsPerSecondSqrt ∧ remainder' < n ∧
      digit + remainder * attosecondsPerSecondSqrt = digit' * n + remainder' := by
  have hpos : 0 < n := zero_lt_of_lt hr
  have hlt : (digit + remainder * attosecondsPerSecondSqrt) / n < attosecondsPerSecondSqrt := by
    rw [Nat.div_lt_iff_lt_mul hpos]
    calc digit + remainder * attosecondsPerSecondSqrt
        < attosecondsPerSecondSqrt + remainder * attosecondsPerSecondSqrt :=
        Nat.add_lt_add_right hdigit _
      _ = (remainder + 1) * attosecondsPerSecondSqrt := by ring
      _ ≤ n * attosecondsPerSecondSqrt := Nat.mul_le_mul_right _ hr
      _ = attosecondsPerSecondSqrt * n := Nat.mul_comm _ _
  exact ⟨_, _, divu64x32Rem_eq hpos hn.le (hlt.trans (by decide)), hlt, mod_lt _ hpos,
    (div_add_mod' _ _).symm⟩

theorem divu64x32Rem_attoseconds {a : ℕ} (ha : a < attosecondsPerSecond) :
    ∃ attohi attolo, divu64x32Rem a attosecondsPerSecondSqrt = (attohi, attolo) ∧
      attohi < attosecondsPerSecondSqrt ∧ attolo < attosecondsPerSecondSqrt ∧
      a = attohi * attosecondsPerSecondSqrt + attolo := by
  have hpos : 0 < attosecondsPerSecondSqrt := by decide
  have hlt : a / attosecondsPerSecondSqrt < attosecondsPerSecondSqrt := by
    rw [Nat.div_lt_iff_lt_mul hpos]
    exact ha
  exact ⟨_, _, divu64x32Rem_eq hpos (by decide) (hlt.trans (by decide)), hlt, mod_lt _ hpos,
    (div_add_mod' _ _).symm⟩

/-! ## The quotient -/

theorem div_eq_roundQuotient (ht : t.Elapsed) (hpos : 0 < n) (hn : n < 2 ^ 32) :
    ∃ secs attos remainder : ℕ, t.div n = roundQuotient n remainder secs attos ∧ secs < 10 ^ 9 ∧
      attos < attosecondsPerSecond ∧ remainder < n ∧
      t.toAttoseconds = ((secs * attosecondsPerSecond + attos) * n + remainder : ℕ) := by
  obtain ⟨⟨h1, -, h3, h4⟩, hfin⟩ := ht
  obtain ⟨s, hs⟩ := Int.eq_ofNat_of_zero_le h1
  obtain ⟨a, ha⟩ := Int.eq_ofNat_of_zero_le h3
  rw [attotimeMaxSeconds] at hfin
  have ha' : a < attosecondsPerSecond := by
    rw [ha] at h4
    exact_mod_cast h4
  have hs' : s < 10 ^ 9 := by omega
  obtain ⟨attohi, attolo, hsplit, hattohi, hattolo, hattos⟩ := divu64x32Rem_attoseconds ha'
  have hquot : s / n < 10 ^ 9 := (Nat.div_le_self s n).trans_lt hs'
  have hsecs : divu64x32Rem s n = (s / n, s % n) :=
    divu64x32Rem_eq hpos hn.le (hquot.trans (by decide))
  obtain ⟨reshi, r₁, hhigh, hreshi, hr₁, hhigheq⟩ :=
    divu64x32Rem_quotient hattohi (mod_lt s hpos) hn
  obtain ⟨reslo, r₂, hlow, hreslo, hr₂, hloweq⟩ := divu64x32Rem_quotient hattolo hr₁ hn
  have ha64 : u64 t.attoseconds = a := by
    have hlt : a < 10 ^ 18 := ha'
    rw [ha, u64_eq (by omega) (by omega), Int.toNat_natCast]
  have hs64 : u64 t.seconds = s := by rw [hs, u64_eq (by omega) (by omega), Int.toNat_natCast]
  have hs32 : s32 (s / n) = (s / n : ℕ) := if_pos (hquot.trans (by decide))
  have hdiv :
      t.div n = roundQuotient n r₂ (s / n : ℕ) (reslo + reshi * attosecondsPerSecondSqrt) := by
    rw [div, if_neg (by rw [attotimeMaxSeconds]; omega), if_neg hpos.ne']
    simp only [ha64, hs64, hsplit, hsecs, hhigh, hlow, hs32]
  refine ⟨s / n, reslo + reshi * attosecondsPerSecondSqrt, r₂, hdiv, hquot, ?_, hr₂, ?_⟩
  · rw [attosecondsPerSecond]
    rw [attosecondsPerSecondSqrt] at *
    omega
  · -- the digits put together are the quotient
    have hnumber : s * attosecondsPerSecond + a =
        (s / n * attosecondsPerSecond + (reslo + reshi * attosecondsPerSecondSqrt)) * n + r₂ := by
      rw [attosecondsPerSecond]
      calc s * (attosecondsPerSecondSqrt * attosecondsPerSecondSqrt) + a
          = s / n * n * (attosecondsPerSecondSqrt * attosecondsPerSecondSqrt) +
            (attohi + s % n * attosecondsPerSecondSqrt) * attosecondsPerSecondSqrt + attolo := by
              conv_lhs => rw [← div_add_mod' s n, hattos]
              ring
        _ = s / n * n * (attosecondsPerSecondSqrt * attosecondsPerSecondSqrt) +
            reshi * n * attosecondsPerSecondSqrt + (attolo + r₁ * attosecondsPerSecondSqrt) := by
              rw [hhigheq]
              ring
        _ = _ := by
              rw [hloweq]
              ring
    rw [toAttoseconds, hs, ha]
    exact_mod_cast hnumber

theorem toAttoseconds_roundQuotient {remainder attos : ℕ} {secs : ℤ}
    (hattos : attos < attosecondsPerSecond) : (roundQuotient n remainder secs attos).toAttoseconds =
      secs * attosecondsPerSecond + attos + if n / 2 ≤ remainder then 1 else 0 := by
  rw [roundQuotient]
  split_ifs with hround hcarry
  · have hall : (attos : ℤ) + 1 = attosecondsPerSecond := by omega
    rw [toAttoseconds, add_assoc, hall]
    ring
  · rw [toAttoseconds]
    ring
  · rw [toAttoseconds, add_zero]

/-- **The quotient**: that of the numbers, and one more from half the divisor on. -/
theorem toAttoseconds_div (ht : t.Elapsed) (hpos : 0 < n) (hn : n < 2 ^ 32) :
    (t.div n).toAttoseconds =
      t.toAttoseconds / n + if ((n / 2 : ℕ) : ℤ) ≤ t.toAttoseconds % n then 1 else 0 := by
  obtain ⟨secs, attos, remainder, hdiv, -, hattos, hr, hnumber⟩ := div_eq_roundQuotient ht hpos hn
  have hnpos : (0 : ℤ) < n := by exact_mod_cast hpos
  obtain ⟨hquot, hrem⟩ : t.toAttoseconds / n = (secs * attosecondsPerSecond + attos : ℕ) ∧
      t.toAttoseconds % n = remainder := by
    rw [Int.ediv_emod_unique hnpos]
    refine ⟨?_, Int.natCast_nonneg _, by exact_mod_cast hr⟩
    rw [hnumber]
    push_cast
    ring
  rw [hdiv, toAttoseconds_roundQuotient hattos, hquot, hrem]
  simp only [cast_le, cast_add, cast_mul]

theorem normalised_div (ht : t.Elapsed) (hpos : 0 < n) (hn : n < 2 ^ 32) :
    (t.div n).Normalised := by
  obtain ⟨secs, attos, remainder, hdiv, hsecs, hattos, -, -⟩ := div_eq_roundQuotient ht hpos hn
  have hattos' : (attos : ℤ) < attosecondsPerSecond := by exact_mod_cast hattos
  rw [hdiv, roundQuotient]
  split_ifs with hround hcarry
  · exact ⟨show (0 : ℤ) ≤ secs + 1 by omega, show (secs : ℤ) + 1 < 2 ^ 31 by omega, le_rfl,
      show (0 : ℤ) < attosecondsPerSecond by decide⟩
  · exact ⟨Int.natCast_nonneg _,
      show (secs : ℤ) < 2 ^ 31 by omega, show (0 : ℤ) ≤ attos + 1 by omega,
      show (attos : ℤ) + 1 < attosecondsPerSecond by omega⟩
  · exact ⟨Int.natCast_nonneg _, show (secs : ℤ) < 2 ^ 31 by omega, Int.natCast_nonneg _, hattos'⟩

/-! ## The nearest quotient -/

/-- `t / n` is the quotient, to the nearest attosecond. -/
structure Divides (t : Attotime) (n : ℕ) : Prop where
  nearest : 2 * |(t.div n).toAttoseconds * n - t.toAttoseconds| ≤ n
  one : n = 1 → t.div n = t
  mul_div : (t.mul n).isNever = false → (t.mul n).div n = t

/-- The error of the quotient, by the remainder. -/
theorem div_mul_sub (ht : t.Elapsed) (hpos : 0 < n) (hn : n < 2 ^ 32) :
    (t.div n).toAttoseconds * n - t.toAttoseconds =
      (if ((n / 2 : ℕ) : ℤ) ≤ t.toAttoseconds % n then (n : ℤ) else 0) - t.toAttoseconds % n := by
  rw [toAttoseconds_div ht hpos hn, add_mul]
  have hsplit : t.toAttoseconds / n * n = t.toAttoseconds - t.toAttoseconds % n :=
    eq_sub_of_add_eq (Int.ediv_mul_add_emod _ _)
  rw [hsplit]
  split_ifs <;> ring

/-- The error is half the divisor at most, unless the remainder is just below half of an odd
divisor. -/
theorem nearest_iff (ht : t.Elapsed) (hpos : 0 < n) (hn : n < 2 ^ 32) :
    2 * |(t.div n).toAttoseconds * n - t.toAttoseconds| ≤ n ↔
      2 * (t.toAttoseconds % n) + 1 ≠ n := by
  have hnpos : (0 : ℤ) < n := by exact_mod_cast hpos
  have hlo := Int.emod_nonneg t.toAttoseconds hnpos.ne'
  have hhi := Int.emod_lt_of_pos t.toAttoseconds hnpos
  rw [div_mul_sub ht hpos hn]
  generalize t.toAttoseconds % n = r at *
  split_ifs with hround
  · rw [abs_of_nonneg (by omega)]
    omega
  · rw [abs_of_nonpos (by omega)]
    omega

/-- A product that has not saturated is divided into what it is a product of, unless that adds the
attosecond of the divisor 1. -/
theorem mul_div_cancel (ht : t.Elapsed) (hone : 1 < n) (hn : n < 2 ^ 32)
    (hfin : (t.mul n).isNever = false) : (t.mul n).div n = t := by
  have hpos : 0 < n := zero_lt_of_lt hone
  have hmul := mul_eq_saturate ht.normalised hn (.inl ht.finite)
  have hlt : t.toAttoseconds * n < attotimeMaxSeconds * attosecondsPerSecond := by
    by_contra hlong
    rw [hmul, saturate_eq_never (Int.not_lt.mp hlong)] at hfin
    exact Bool.noConfusion hfin
  have hnumber : (t.mul n).toAttoseconds = t.toAttoseconds * n := by
    rw [hmul, toAttoseconds_saturate hlt]
  have helapsed : (t.mul n).Elapsed := (normalised_mul ht.normalised hn).elapsed hfin
  rw [eq_iff_toAttoseconds (normalised_div helapsed hpos hn) ht.normalised,
    toAttoseconds_div helapsed hpos hn,
    hnumber, Int.mul_emod_left, Int.mul_ediv_cancel _ (by omega), if_neg (by omega), add_zero]

theorem toAttoseconds_div_one (ht : t.Elapsed) : (t.div 1).toAttoseconds = t.toAttoseconds + 1 := by
  rw [toAttoseconds_div ht one_pos (by decide)]
  simp

/-- **Which quotients are the nearest ones**: those of every divisor and every remainder but the one
just below half of an odd divisor. -/
theorem divides_iff (ht : t.Elapsed) (hpos : 0 < n) (hn : n < 2 ^ 32) :
    t.Divides n ↔ 2 * (t.toAttoseconds % n) + 1 ≠ n := by
  constructor
  · exact fun h ↦ (nearest_iff ht hpos hn).mp h.nearest
  · intro h
    have hone : n ≠ 1 := by
      rintro rfl
      exact h (by simp)
    exact ⟨(nearest_iff ht hpos hn).mpr h, fun h ↦ absurd h hone, mul_div_cancel ht (by omega) hn⟩

theorem elapsed_second : (⟨1, 0⟩ : Attotime).Elapsed := by
  refine ⟨?_, by decide⟩
  constructor <;> decide

theorem divides_iff_halved : (⟨1, 0⟩ : Attotime).Divides 2 ↔
    2 * ((⟨1, 0⟩ : Attotime).toAttoseconds % (2 : ℕ)) + 1 ≠ (2 : ℕ) :=
  divides_iff elapsed_second (by decide) (by decide)

/-- A second divided by 1. -/
theorem not_divides_one :
    ¬ ∀ (t : Attotime) (n : ℕ), t.Elapsed → 0 < n → n < 2 ^ 32 → t.Divides n := by
  intro h
  have hone := (h ⟨1, 0⟩ 1 elapsed_second (by decide) (by decide)).one rfl
  have hnumber := toAttoseconds_div_one elapsed_second
  rw [hone] at hnumber
  exact absurd hnumber (by decide)

end RoscoEmulator.Attotime
