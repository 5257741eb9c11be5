import RoscoEmulator.Emu.Ticks

/-!
# Ticks to durations and back

`from_ticks` takes the attoseconds of a tick, which it rounds down, and `as_ticks` rounds down
again. Both split off the whole seconds, which are exact. In the rest, of less than a second, the
attoseconds that are lost are fewer than the square of the frequency, so up to a frequency of a
thousand million they cost a tick at most. -/

namespace RoscoEmulator.Attotime

open Nat

variable {f n n' : ℕ}

theorem fromTicks_eq (hf : 0 < f) (hf' : f ≤ 2 ^ 32) (hn : n / f < 2 ^ 31) :
    fromTicks n f = ⟨(n / f : ℕ), ((n % f : ℕ) : ℤ) * (attosecondsPerSecond / f : ℕ)⟩ := by
  rw [fromTicks, if_pos hf]
  split_ifs with hlt
  · rw [div_eq_of_lt hlt, mod_eq_of_lt hlt]
    rfl
  · have hsecs : s32 (n / f) = (n / f : ℕ) := if_pos hn
    rw [divu64x32Rem_eq hf hf' (by omega)]
    simp only [hsecs]

/-- The ticks of less than a second come back but for one at most. -/
theorem ticks_of_rest {r : ℕ} (hr : r < f) (hf : f ≤ 10 ^ 9) :
    r * (attosecondsPerSecond / f) * f / attosecondsPerSecond ≤ r ∧
      r ≤ r * (attosecondsPerSecond / f) * f / attosecondsPerSecond + 1 ∧
      (f ∣ attosecondsPerSecond ∨ r = 0 →
      r * (attosecondsPerSecond / f) * f / attosecondsPerSecond = r) := by
  have hpos : 0 < attosecondsPerSecond := by decide
  have hsplit : attosecondsPerSecond / f * f + attosecondsPerSecond % f = attosecondsPerSecond :=
    div_add_mod' _ _
  have hlost : attosecondsPerSecond % f < f := mod_lt _ (zero_lt_of_lt hr)
  -- the attoseconds of the ticks, and those that are lost
  have hticks : r * (attosecondsPerSecond / f) * f + r * (attosecondsPerSecond % f) =
      r * attosecondsPerSecond := by
    rw [mul_assoc, ← mul_add, hsplit]
  have hfew : r * (attosecondsPerSecond % f) < attosecondsPerSecond := by
    calc r * (attosecondsPerSecond % f) ≤ r * f := Nat.mul_le_mul_left _ hlost.le
      _ < f * f := Nat.mul_lt_mul_of_pos_right hr (zero_lt_of_lt hr)
      _ ≤ 10 ^ 9 * 10 ^ 9 := Nat.mul_le_mul hf hf
      _ = attosecondsPerSecond := rfl
  refine ⟨?_, ?_, ?_⟩
  · rw [div_le_iff_le_mul_add_pred hpos, mul_comm attosecondsPerSecond]
    omega
  · rw [← add_div_right _ hpos, Nat.le_div_iff_mul_le hpos]
    omega
  · intro hexact
    have hzero : r * (attosecondsPerSecond % f) = 0 := by
      rcases hexact with hdvd | rfl
      · rw [mod_eq_zero_of_dvd hdvd, mul_zero]
      · rw [zero_mul]
    rw [hzero, add_zero] at hticks
    rw [hticks, Nat.mul_div_cancel _ hpos]

theorem asTicks_fromTicks (hf : 0 < f) (hf' : f ≤ 10 ^ 9) (hn : n / f < 10 ^ 9) :
    (fromTicks n f).asTicks f =
      n / f * f + n % f * (attosecondsPerSecond / f) * f / attosecondsPerSecond := by
  have hf32 : f < 2 ^ 32 := hf'.trans_lt (by decide)
  have hrest := mod_lt n hf
  have hle := (ticks_of_rest hrest hf').1
  rw [fromTicks_eq hf hf32.le (hn.trans (by decide))]
  have hticks :=
    asTicks_eq (normalised_periods (show n / f < 2 ^ 31 from hn.trans (by decide)) hrest) hf32
  have hmin : min (n % f * (attosecondsPerSecond / f) * f / attosecondsPerSecond) (10 ^ 9) =
      n % f * (attosecondsPerSecond / f) * f / attosecondsPerSecond :=
    min_eq_left (hle.trans (hrest.le.trans hf'))
  rw [attotimeMaxSeconds] at hticks
  dsimp only at hticks
  rw [← hmin]
  exact_mod_cast hticks

theorem fromTicks_lt (hf : 0 < f) (hf' : f ≤ 10 ^ 9) (hn : n / f < 10 ^ 9) (hn' : n' / f < 10 ^ 9)
    (h : n < n') : fromTicks n f < fromTicks n' f := by
  have hf32 : f ≤ 2 ^ 32 := hf'.trans (by decide)
  rw [fromTicks_eq hf hf32 (hn.trans (by decide)),
    fromTicks_eq hf hf32 (hn'.trans (by decide)), lt_iff]
  rcases (Nat.div_le_div_right h.le : n / f ≤ n' / f).lt_or_eq with hsecs | hsecs
  · exact .inl (Int.ofNat_lt.mpr hsecs)
  · refine .inr ⟨congrArg Int.ofNat hsecs, ?_⟩
    have hticks : n % f < n' % f := by
      have hn := div_add_mod n f
      have hn' := div_add_mod n' f
      rw [hsecs] at hn
      omega
    have htick : 0 < attosecondsPerSecond / f := Nat.div_pos (hf'.trans (by decide)) hf
    dsimp only
    exact_mod_cast Nat.mul_lt_mul_of_pos_right hticks htick

/-- The conversion of `n` ticks and back. -/
structure ConvertsTicks (f n : ℕ) : Prop where
  ge : n - 1 ≤ (fromTicks n f).asTicks f
  le : (fromTicks n f).asTicks f ≤ n
  exact : f ∣ 10 ^ 18 ∨ f ∣ n → (fromTicks n f).asTicks f = n
  strict : ∀ n', n < n' → n' / f < 10 ^ 9 → fromTicks n f < fromTicks n' f

/-- **Ticks are converted and back** with the loss of one tick at most. -/
theorem convertsTicks (hf : 0 < f) (hf' : f ≤ 10 ^ 9) (hn : n / f < 10 ^ 9) :
    ConvertsTicks f n := by
  obtain ⟨hle, hge, hexact⟩ := ticks_of_rest (mod_lt n hf) hf'
  have hsplit := div_add_mod' n f
  refine ⟨?_, ?_, ?_, fun n' h hn' ↦ fromTicks_lt hf hf' hn hn' h⟩
  · rw [asTicks_fromTicks hf hf' hn]
    omega
  · rw [asTicks_fromTicks hf hf' hn]
    omega
  · intro h
    rw [asTicks_fromTicks hf hf' hn, hexact (h.imp id mod_eq_zero_of_dvd), hsplit]

/-- Two seconds and two ticks of a clock of three hertz. -/
theorem convertsTicks_three : ConvertsTicks 3 8 := convertsTicks (by decide) (by decide) (by decide)

end RoscoEmulator.Attotime
