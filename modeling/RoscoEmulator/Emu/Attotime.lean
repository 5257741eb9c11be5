import Mathlib

/-!
# Emulated time

`attotime` is a pair of a 32-bit count of seconds and a 64-bit count of attoseconds. A value of a
thousand million seconds or more stands for *never*, and arithmetic saturates there. The operations
are transcribed with their intermediate machine widths; `u64` and `s32` are the conversions the
C++ code applies implicitly.

Comparison is lexicographic, and is a linear order on all pairs, normalised or not.
-/

namespace RoscoEmulator

/-- `ATTOSECONDS_PER_SECOND_SQRT`. -/
def attosecondsPerSecondSqrt : ℕ := 1000000000

/-- `ATTOSECONDS_PER_SECOND`. -/
def attosecondsPerSecond : ℕ := attosecondsPerSecondSqrt * attosecondsPerSecondSqrt

/-- `ATTOTIME_MAX_SECONDS`. -/
def attotimeMaxSeconds : ℤ := 1000000000

/-- An emulated time or duration. -/
@[ext] structure Attotime where
  seconds : ℤ
  attoseconds : ℤ
deriving DecidableEq, Repr, Inhabited

namespace Attotime

def zero : Attotime := ⟨0, 0⟩

def never : Attotime := ⟨attotimeMaxSeconds, 0⟩

def isZero (t : Attotime) : Bool := t.seconds == 0 && t.attoseconds == 0

def isNever (t : Attotime) : Bool := decide (attotimeMaxSeconds ≤ t.seconds)

/-! ## Comparison -/

instance : LT Attotime where
  lt l r := l.seconds < r.seconds ∨ l.seconds = r.seconds ∧ l.attoseconds < r.attoseconds

instance : LE Attotime where
  le l r := l.seconds < r.seconds ∨ l.seconds = r.seconds ∧ l.attoseconds ≤ r.attoseconds

theorem lt_iff {l r : Attotime} : l < r ↔
    l.seconds < r.seconds ∨ l.seconds = r.seconds ∧ l.attoseconds < r.attoseconds := Iff.rfl

theorem le_iff {l r : Attotime} : l ≤ r ↔
    l.seconds < r.seconds ∨ l.seconds = r.seconds ∧ l.attoseconds ≤ r.attoseconds := Iff.rfl

instance (l r : Attotime) : Decidable (l < r) := decidable_of_iff _ lt_iff.symm

instance (l r : Attotime) : Decidable (l ≤ r) := decidable_of_iff _ le_iff.symm

instance : LinearOrder Attotime where
  le_refl a := by rw [le_iff]; omega
  le_trans a b c := by rw [le_iff, le_iff, le_iff]; omega
  le_antisymm a b hab hba := by
    rw [le_iff] at hab hba
    ext <;> omega
  le_total a b := by rw [le_iff, le_iff]; omega
  lt_iff_le_not_ge a b := by rw [lt_iff, le_iff, le_iff]; omega
  toDecidableLE := inferInstance
  toDecidableLT := inferInstance
  toDecidableEq := inferInstance

/-! ## Arithmetic -/

/-- The conversion of a signed value to `u64`. -/
def u64 (z : ℤ) : ℕ := (z % 2 ^ 64).toNat

/-- The conversion of a `u32` to `s32`. -/
def s32 (n : ℕ) : ℤ := if n < 2 ^ 31 then n else n - 2 ^ 32

/-- `divu_64x32_rem`: the 32-bit quotient and remainder of a 64-bit division. -/
def divu64x32Rem (a b : ℕ) : ℕ × ℕ :=
  let res := a / b % 2 ^ 32
  (res, (a - b * res) % 2 ^ 32)

def add (left right : Attotime) : Attotime :=
  if attotimeMaxSeconds ≤ left.seconds ∨ attotimeMaxSeconds ≤ right.seconds then never
  else
    let attos := left.attoseconds + right.attoseconds
    let secs := left.seconds + right.seconds
    let result : Attotime :=
      if attosecondsPerSecond ≤ attos then ⟨secs + 1, attos - attosecondsPerSecond⟩
      else ⟨secs, attos⟩
    if attotimeMaxSeconds ≤ result.seconds then never else result

def sub (left right : Attotime) : Attotime :=
  if attotimeMaxSeconds ≤ left.seconds then never
  else
    let attos := left.attoseconds - right.attoseconds
    let secs := left.seconds - right.seconds
    if attos < 0 then ⟨secs - 1, attos + attosecondsPerSecond⟩ else ⟨secs, attos⟩

instance : Add Attotime := ⟨add⟩

instance : Sub Attotime := ⟨sub⟩

/-- `operator*=`: the attoseconds are scaled in two halves of nine digits each. -/
def mul (t : Attotime) (factor : ℕ) : Attotime :=
  if attotimeMaxSeconds ≤ t.seconds then never
  else if factor = 0 then zero
  else
    let (attohi, attolo) := divu64x32Rem (u64 t.attoseconds) attosecondsPerSecondSqrt
    let (temp, reslo) := divu64x32Rem (attolo * factor) attosecondsPerSecondSqrt
    let (temp, reshi) := divu64x32Rem (temp + attohi * factor) attosecondsPerSecondSqrt
    let temp : ℕ := temp + u64 t.seconds % 2 ^ 32 * factor
    if attotimeMaxSeconds ≤ temp then never
    else ⟨temp, (reslo + reshi * attosecondsPerSecondSqrt : ℕ)⟩

/-- The last step of `operator/=`: round up on the remainder, carrying into the seconds. -/
def roundQuotient (factor remainder : ℕ) (secs : ℤ) (attos : ℕ) : Attotime :=
  if factor / 2 ≤ remainder then
    if attosecondsPerSecond ≤ attos + 1 then ⟨secs + 1, 0⟩ else ⟨secs, attos + 1⟩
  else ⟨secs, attos⟩

/-- `operator/=`: a schoolbook division in three digits, rounded on the last remainder. -/
def div (t : Attotime) (factor : ℕ) : Attotime :=
  if attotimeMaxSeconds ≤ t.seconds then never
  else if factor = 0 then t
  else
    let (attohi, attolo) := divu64x32Rem (u64 t.attoseconds) attosecondsPerSecondSqrt
    let (secs, remainder) := divu64x32Rem (u64 t.seconds) factor
    let (reshi, remainder) :=
      divu64x32Rem (attohi + remainder * attosecondsPerSecondSqrt) factor
    let (reslo, remainder) :=
      divu64x32Rem (attolo + remainder * attosecondsPerSecondSqrt) factor
    roundQuotient factor remainder (s32 secs) (reslo + reshi * attosecondsPerSecondSqrt)

/-- `attotime::from_hz(int)`. -/
def fromHz (frequency : ℤ) : Attotime :=
  if 1 < frequency then ⟨0, attosecondsPerSecond / frequency⟩
  else if frequency = 1 then ⟨1, 0⟩
  else never

/-- `attotime::from_ticks`. -/
def fromTicks (ticks frequency : ℕ) : Attotime :=
  if 0 < frequency then
    let attosPerTick := attosecondsPerSecond / frequency
    if ticks < frequency then ⟨0, ticks * attosPerTick⟩
    else
      let (secs, remainder) := divu64x32Rem ticks frequency
      ⟨s32 secs, remainder * attosPerTick⟩
  else never

/-- `attotime::as_ticks`. -/
def asTicks (t : Attotime) (frequency : ℕ) : ℕ :=
  let fracticks := u64 (mul ⟨0, t.attoseconds⟩ frequency).seconds % 2 ^ 32
  (u64 t.seconds % 2 ^ 32 * frequency + fracticks) % 2 ^ 64

/-! ## Adding a duration -/

@[simp] theorem isNever_never : never.isNever = true := rfl

theorem seconds_roundQuotient_le (factor remainder : ℕ) (secs : ℤ) (attos : ℕ) :
    (roundQuotient factor remainder secs attos).seconds ≤ secs + 1 := by
  rw [roundQuotient]
  split_ifs
  · exact Int.le_refl _
  · exact Int.le_add_one (Int.le_refl _)
  · exact Int.le_add_one (Int.le_refl _)

/-- The seconds of a quotient: the integer quotient, plus at most the carry of the rounding. -/
theorem seconds_div_le {t : Attotime} {factor : ℕ} (ht : t.seconds < attotimeMaxSeconds)
    (hf : factor ≠ 0) : (t.div factor).seconds ≤ s32 (u64 t.seconds / factor % 2 ^ 32) + 1 := by
  rw [div, if_neg (Int.not_le.mpr ht), if_neg hf]
  exact seconds_roundQuotient_le _ _ _ _

/-- Half the bit time of a real baud rate is a real duration: this is what keeps the clock timers
of the serial interface running. -/
theorem isNever_div_two_fromHz {baud : ℤ} (h : 0 < baud) :
    ((fromHz baud).div 2).isNever = false := by
  have hsecs : (fromHz baud).seconds = 0 ∨ (fromHz baud).seconds = 1 := by
    rw [fromHz]
    split_ifs with h1 h2
    · exact Or.inl rfl
    · exact Or.inr rfl
    · omega
  have hlt : (fromHz baud).seconds < attotimeMaxSeconds := by
    rw [attotimeMaxSeconds]
    omega
  have hle := seconds_div_le hlt (show 2 ≠ 0 by decide)
  have hquot : s32 (u64 (fromHz baud).seconds / 2 % 2 ^ 32) = 0 := by
    rcases hsecs with hs | hs <;> rw [hs] <;> rfl
  rw [isNever, decide_eq_false_iff_not, attotimeMaxSeconds]
  omega

@[simp] theorem div_two_never : never.div 2 = never := rfl

/-- The half bit time that a baud rate sets is a real duration exactly if the rate is positive. -/
theorem isNever_halfBit_iff (baud : ℤ) :
    ((if baud ≠ 0 then fromHz baud else never).div 2).isNever = false ↔ 0 < baud := by
  constructor
  · intro h
    by_contra hpos
    have hrate : (if baud ≠ 0 then fromHz baud else never) = never := by
      rw [fromHz]
      split_ifs <;> first | rfl | omega
    rw [hrate] at h
    simp at h
  · intro hpos
    rw [if_pos (by omega)]
    exact isNever_div_two_fromHz hpos

end Attotime

end RoscoEmulator
