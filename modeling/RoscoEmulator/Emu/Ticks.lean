import RoscoEmulator.Emu.Saturation

/-!
# Durations in clock ticks

`as_ticks` counts the whole periods of a clock in a duration: the quotient of the attoseconds, times
the frequency, by the attoseconds of a second. Only the ticks of the last second saturate, so the
quotient is exact for few ticks. Between a duration of one tick or more and none there is one of a
single tick: a duration that only shrinks passes through it.
-/

namespace RoscoEmulator.Attotime

variable {t : Attotime} {frequency : ℕ}

/-- A time that the machine can be at. -/
structure Elapsed (t : Attotime) : Prop where
  normalised : t.Normalised
  finite : t.seconds < attotimeMaxSeconds

theorem Normalised.elapsed (h : t.Normalised) (hfin : t.isNever = false) : t.Elapsed :=
  ⟨h, Int.not_le.mp (of_decide_eq_false hfin)⟩

variable {attos : ℤ}

/-- A number of attoseconds that is not too long. -/
theorem toAttoseconds_saturate (hlt : attos < attotimeMaxSeconds * attosecondsPerSecond) :
    (saturate attos).toAttoseconds = attos := by
  rw [saturate, if_neg (Int.not_le.mpr hlt), toAttoseconds]
  exact Int.ediv_mul_add_emod attos _

theorem elapsed_saturate (h : 0 ≤ attos) (hlt : attos < attotimeMaxSeconds * attosecondsPerSecond) :
    (saturate attos).Elapsed := by
  refine ⟨normalised_saturate h, ?_⟩
  rw [← Int.not_le, isNever_iff (normalised_saturate h), toAttoseconds_saturate hlt]
  exact Int.not_le.mpr hlt

theorem Elapsed.toAttoseconds_lt (h : t.Elapsed) :
    t.toAttoseconds < attotimeMaxSeconds * attosecondsPerSecond := by
  rw [← Int.not_le, ← isNever_iff h.normalised]
  exact Int.not_le.mpr h.finite

/-! ## Ticks -/

/-- The ticks of the whole seconds, and those of the rest, which saturate. -/
theorem asTicks_eq (ht : t.Normalised) (hf : frequency < 2 ^ 32) :
    (t.asTicks frequency : ℤ) = t.seconds * frequency +
      min (t.attoseconds * frequency / attosecondsPerSecond) attotimeMaxSeconds := by
  obtain ⟨h1, h2, h3, h4⟩ := ht
  have hfrac : (⟨0, t.attoseconds⟩ : Attotime).Normalised :=
    ⟨le_refl 0, show (0 : ℤ) < 2 ^ 31 by decide, h3, h4⟩
  have hmul := mul_eq_saturate hfrac hf (.inl (show (0 : ℤ) < attotimeMaxSeconds by decide))
  have hattos : (⟨0, t.attoseconds⟩ : Attotime).toAttoseconds = t.attoseconds := by
    rw [toAttoseconds, zero_mul, zero_add]
  have hnonneg : 0 ≤ t.attoseconds * frequency := mul_nonneg h3 (Int.natCast_nonneg _)
  have hsecs : (mul ⟨0, t.attoseconds⟩ frequency).seconds =
      min (t.attoseconds * frequency / attosecondsPerSecond) attotimeMaxSeconds := by
    rw [hmul, hattos, saturate, attosecondsPerSecond_eq]
    split_ifs with hlong
    · rw [attotimeMaxSeconds] at hlong ⊢
      rw [never, attotimeMaxSeconds, min_eq_right (by omega)]
    · rw [attotimeMaxSeconds] at hlong ⊢
      rw [min_eq_left (by omega)]
  have hmin : 0 ≤ min (t.attoseconds * frequency / attosecondsPerSecond) attotimeMaxSeconds ∧
      min (t.attoseconds * frequency / attosecondsPerSecond) attotimeMaxSeconds ≤ 1000000000 := by
    rw [attosecondsPerSecond_eq, attotimeMaxSeconds]
    omega
  obtain ⟨s, hs⟩ := Int.eq_ofNat_of_zero_le h1
  obtain ⟨n, hn⟩ := Int.eq_ofNat_of_zero_le hmin.1
  have hs' : s < 2 ^ 31 := by omega
  have hprod : s * frequency ≤ 2 ^ 31 * 2 ^ 32 := Nat.mul_le_mul hs'.le hf.le
  rw [asTicks, hsecs, hn, hs, u64_eq (by omega) (by omega), u64_eq (by omega) (by omega)]
  simp only [Int.toNat_natCast]
  rw [Nat.mod_eq_of_lt (show s < 2 ^ 32 by omega), Nat.mod_eq_of_lt (show n < 2 ^ 32 by omega),
    Nat.mod_eq_of_lt (by omega)]
  push_cast
  rfl

/-- The quotient behind the ticks. -/
theorem toAttoseconds_mul_ediv (t : Attotime) (frequency : ℕ) :
    t.toAttoseconds * frequency / attosecondsPerSecond =
      t.seconds * frequency + t.attoseconds * frequency / attosecondsPerSecond := by
  have hsplit : t.toAttoseconds * frequency =
      t.attoseconds * frequency + t.seconds * frequency * attosecondsPerSecond := by
    rw [toAttoseconds]
    ring
  rw [hsplit, Int.add_mul_ediv_right _ _ (by decide), add_comm]

/-- Few ticks are counted exactly. -/
theorem asTicks_eq_ediv (ht : t.Normalised) (hf : frequency < 2 ^ 32)
    (hfew : t.toAttoseconds * frequency / attosecondsPerSecond ≤ attotimeMaxSeconds) :
    (t.asTicks frequency : ℤ) = t.toAttoseconds * frequency / attosecondsPerSecond := by
  have hsecs : 0 ≤ t.seconds * frequency := mul_nonneg ht.seconds_nonneg (Int.natCast_nonneg _)
  rw [toAttoseconds_mul_ediv] at hfew ⊢
  rw [asTicks_eq ht hf, min_eq_left (by omega)]

/-- There are no ticks in less than a period. -/
theorem asTicks_eq_zero_iff (ht : t.Normalised) (hf : frequency < 2 ^ 32) :
    t.asTicks frequency = 0 ↔ t.toAttoseconds * frequency < attosecondsPerSecond := by
  have hsecs : 0 ≤ t.seconds * frequency := mul_nonneg ht.seconds_nonneg (Int.natCast_nonneg _)
  have hticks := asTicks_eq ht hf
  have hdiv := toAttoseconds_mul_ediv t frequency
  rw [attotimeMaxSeconds] at hticks
  rw [attosecondsPerSecond_eq] at hticks hdiv ⊢
  omega

/-- A duration of one tick or more shrinks to one of a single tick. -/
theorem exists_one_tick (hf : frequency < 2 ^ 32)
    (h : (attosecondsPerSecond : ℤ) ≤ attos * frequency) :
    ∃ r : ℤ, 0 < r ∧ r ≤ attos ∧ r * frequency / attosecondsPerSecond = 1 := by
  rw [attosecondsPerSecond_eq] at h ⊢
  have hpos : (0 : ℤ) < frequency := by
    rcases Nat.eq_zero_or_pos frequency with hzero | hpos
    · rw [hzero] at h
      norm_num at h
    · exact_mod_cast hpos
  -- the least number of attoseconds in which the clock ticks
  obtain ⟨q, r, hr, hr', hqr⟩ : ∃ q r : ℤ, 0 ≤ r ∧ r < frequency ∧
      q * frequency + r = 10 ^ 18 + frequency - 1 :=
    ⟨_, _, Int.emod_nonneg _ hpos.ne', Int.emod_lt_of_pos _ hpos, Int.ediv_mul_add_emod _ _⟩
  refine ⟨q, ?_, ?_, by omega⟩
  · by_contra hneg
    have hle : q * frequency ≤ 0 := mul_nonpos_of_nonpos_of_nonneg (by omega) hpos.le
    omega
  · by_contra hgt
    have hle : (attos + 1) * frequency ≤ q * frequency :=
      mul_le_mul_of_nonneg_right (by omega) hpos.le
    rw [add_mul, one_mul] at hle
    omega

/-! ## Durations of the machine -/

theorem normalised_periods {secs n : ℕ} (hsecs : secs < 2 ^ 31) (hn : n < frequency) :
    (⟨secs, (n : ℤ) * (attosecondsPerSecond / frequency : ℕ)⟩ : Attotime).Normalised := by
  have hlt : n * (attosecondsPerSecond / frequency) < attosecondsPerSecond := by
    rcases Nat.eq_zero_or_pos (attosecondsPerSecond / frequency) with hzero | hpos
    · rw [hzero, Nat.mul_zero]
      decide
    · exact (Nat.mul_lt_mul_of_pos_right hn hpos).trans_le (Nat.mul_div_le _ _)
  constructor
  · exact Int.natCast_nonneg _
  · change (secs : ℤ) < 2 ^ 31
    omega
  · exact mul_nonneg (Int.natCast_nonneg _) (Int.natCast_nonneg _)
  · change (n : ℤ) * (attosecondsPerSecond / frequency : ℕ) < attosecondsPerSecond
    exact_mod_cast hlt

theorem normalised_fromTicks {ticks : ℕ} (hticks : ticks < 2 ^ 16) (hf : frequency ≤ 2 ^ 32) :
    (fromTicks ticks frequency).Normalised := by
  rw [fromTicks]
  split_ifs with hpos hlt
  · exact normalised_periods (by decide) hlt
  · have hquot : ticks / frequency < 2 ^ 16 := (Nat.div_le_self _ _).trans_lt hticks
    rw [divu64x32Rem_eq hpos hf (by omega)]
    have hsecs : s32 (ticks / frequency) = (ticks / frequency : ℕ) := if_pos (by omega)
    simp only [hsecs]
    exact normalised_periods (by omega) (Nat.mod_lt _ hpos)
  · exact normalised_never

theorem normalised_add {l r : Attotime} (hl : l.Normalised) (hr : r.Normalised) :
    (l + r).Normalised := by
  rw [add_eq_saturate hl hr]
  exact normalised_saturate (add_nonneg (toAttoseconds_nonneg hl) (toAttoseconds_nonneg hr))

end RoscoEmulator.Attotime
