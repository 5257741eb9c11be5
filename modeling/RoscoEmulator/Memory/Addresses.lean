import RoscoEmulator.Lib.Submask
import RoscoEmulator.Memory.Dispatch

/-!
# Addresses and mirrors

The index of an address in a table is its position in the block of the table, in units. The loop
over the mirrors goes through all submasks of the mirror bits. An address is in some mirror of a
range exactly if it is in the range after some of its mirror bits have been cleared. -/

namespace RoscoEmulator.Memory

open Nat Submask

/-! ## Entries -/

theorem and_lowMask (lowBits a : ℕ) : a &&& lowMask lowBits = a % 2 ^ lowBits :=
  and_two_pow_sub_one_eq_mod a lowBits

variable {highBits lowBits k : ℕ}

theorem testBit_highMask (h : lowBits ≤ highBits) (i : ℕ) :
    (highMask highBits lowBits).testBit i = (decide (lowBits ≤ i) && decide (i < highBits)) := by
  rw [highMask, lowMask, testBit_xor, testBit_two_pow_sub_one, testBit_two_pow_sub_one]
  by_cases hlow : i < lowBits
  · have hhigh : i < highBits := hlow.trans_le h
    have hle : ¬ lowBits ≤ i := Nat.not_le.mpr hlow
    simp [hlow, hhigh, hle]
  · have hle : lowBits ≤ i := Nat.not_lt.mp hlow
    simp [hlow, hle]

theorem dispatchEntry_eq (h : lowBits ≤ highBits) (a : ℕ) :
    dispatchEntry highBits lowBits a = a % 2 ^ highBits / 2 ^ lowBits := by
  refine eq_of_testBit_eq fun i ↦ ?_
  rw [dispatchEntry, testBit_shiftRight, testBit_and, testBit_highMask h,
    testBit_div_two_pow, testBit_mod_two_pow, Nat.add_comm lowBits i]
  have hle : lowBits ≤ i + lowBits := Nat.le_add_left lowBits i
  simp [hle, Bool.and_comm]

theorem slot_eq (highBits lowBits : ℕ) (a : ℕ) : (a >>> lowBits) &&& (count highBits lowBits - 1) =
    a / 2 ^ lowBits % 2 ^ (highBits - lowBits) := by
  rw [count, and_two_pow_sub_one_eq_mod, shiftRight_eq_div_pow]

/-- `lookup` reads the entry that an access goes through. -/
theorem slot_eq_dispatchEntry (h : lowBits ≤ highBits) (a : ℕ) :
    (a >>> lowBits) &&& (count highBits lowBits - 1) = dispatchEntry highBits lowBits a := by
  have hpow : 2 ^ highBits = 2 ^ lowBits * 2 ^ (highBits - lowBits) := by
    rw [← Nat.pow_add, Nat.add_sub_cancel' h]
  rw [slot_eq, dispatchEntry_eq h, hpow, mod_mul_right_div_self]

theorem dispatchEntry_lt_count (h : lowBits ≤ highBits) (a : ℕ) :
    dispatchEntry highBits lowBits a < count highBits lowBits := by
  rw [← slot_eq_dispatchEntry h, slot_eq]
  exact mod_lt _ (Nat.two_pow_pos _)

section Block

variable {highBits unit a b : ℕ}

theorem le_iff_mod_le_mod (h : a / 2 ^ highBits = b / 2 ^ highBits) :
    a ≤ b ↔ a % 2 ^ highBits ≤ b % 2 ^ highBits := by
  have ha := div_add_mod a (2 ^ highBits)
  have hb := div_add_mod b (2 ^ highBits)
  rw [h] at ha
  omega

theorem mod_mod_unit (h : unit ≤ highBits) (a : ℕ) : a % 2 ^ highBits % 2 ^ unit = a % 2 ^ unit :=
  mod_mod_of_dvd a (Nat.pow_dvd_pow 2 h)

/-- In a block, the entries from that of the start of a range are those of the addresses from it. -/
theorem dispatchEntry_le_iff (h : unit ≤ highBits) (hblock : a / 2 ^ highBits = b / 2 ^ highBits)
    (ha : a % 2 ^ unit = 0) :
    dispatchEntry highBits unit a ≤ dispatchEntry highBits unit b ↔ a ≤ b := by
  rw [dispatchEntry_eq h, dispatchEntry_eq h, le_iff_mod_le_mod hblock,
    Nat.le_div_iff_mul_le (Nat.two_pow_pos unit)]
  have hmod : a % 2 ^ highBits % 2 ^ unit = 0 := (mod_mod_unit h a).trans ha
  rw [Nat.div_mul_cancel (dvd_of_mod_eq_zero hmod)]

/-- The entries up to that of the end of a range are those of the addresses up to it. -/
theorem le_dispatchEntry_iff (h : unit ≤ highBits) (hblock : a / 2 ^ highBits = b / 2 ^ highBits)
    (hb : b % 2 ^ unit = 2 ^ unit - 1) :
    dispatchEntry highBits unit a ≤ dispatchEntry highBits unit b ↔ a ≤ b := by
  rw [dispatchEntry_eq h, dispatchEntry_eq h, le_iff_mod_le_mod hblock]
  have hmod : b % 2 ^ highBits % 2 ^ unit = 2 ^ unit - 1 := (mod_mod_unit h b).trans hb
  have ha := div_add_mod (a % 2 ^ highBits) (2 ^ unit)
  have hb := div_add_mod (b % 2 ^ highBits) (2 ^ unit)
  rw [hmod] at hb
  constructor
  · intro hle
    have hmul := Nat.mul_le_mul_left (2 ^ unit) hle
    omega
  · intro hle
    exact Nat.div_le_div_right hle

end Block

/-! ## The loop over the mirrors -/

theorem mirrorOffsetsFrom_eq {hmirror fuel x : ℕ} {l : List ℕ} (hlt : hmirror < 2 ^ 32)
    (hrun : IsRun (next 32 hmirror) (x :: l)) (hfuel : (x :: l).length ≤ fuel) :
    mirrorOffsetsFrom hmirror fuel x = x :: l := by
  have hnext : ∀ y, (y + (1 + (2 ^ 32 - 1 - hmirror)) % 2 ^ 32) % 2 ^ 32 &&& hmirror =
      next 32 hmirror y := by
    intro y
    refine eq_of_testBit_eq fun i ↦ ?_
    rw [next, testBit_and, testBit_and, testBit_mod_two_pow]
    by_cases hi : i < 32
    · have hadd : (y + (1 + (2 ^ 32 - 1 - hmirror)) % 2 ^ 32) % 2 ^ 32 =
          (y + (2 ^ 32 - hmirror)) % 2 ^ 32 := by omega
      have hbit := congrArg (testBit · i) hadd
      simp only [testBit_mod_two_pow] at hbit
      simp only [hi, decide_true, Bool.true_and] at hbit ⊢
      rw [hbit]
    · have hbit : hmirror.testBit i = false :=
        testBit_lt_two_pow (hlt.trans_le (Nat.pow_le_pow_right Nat.two_pos (by omega)))
      simp [hbit]
  induction l generalizing fuel x with
  | nil =>
    rcases fuel with _ | fuel
    · simp at hfuel
    · have hx : next 32 hmirror x = 0 := hrun
      rw [mirrorOffsetsFrom]
      simp only [hnext, hx, if_true]
  | cons y l ih =>
    rcases fuel with _ | fuel
    · simp at hfuel
    · obtain ⟨hx, hy, hrun⟩ := hrun
      have ih := ih hrun (le_of_succ_le_succ hfuel)
      rw [mirrorOffsetsFrom]
      simp only [hnext, hx, if_neg hy, ih]

/-- The loop goes through the submasks of the mirror bits. -/
theorem mem_mirrorOffsets {hmirror offset : ℕ} (hlt : hmirror < 2 ^ 32) :
    offset ∈ mirrorOffsets hmirror ↔ IsSubmask offset hmirror := by
  obtain ⟨l, hl⟩ := head_submasks 32 hmirror
  have hrun := isRun_submasks hlt
  have hlength := length_submasks_le 32 hmirror
  rw [hl] at hrun hlength
  rw [mirrorOffsets, mirrorOffsetsFrom_eq hlt hrun hlength, ← hl, mem_submasks hlt]

/-! ## Ranges and their mirrors -/

/-- What a call that installs a handler is given: a range of the address space that is aligned, and
a mirror that has no bit in which the range varies. -/
structure Aligned (g : Geometry) (start stop mirror : ℕ) : Prop where
  le : start ≤ stop
  lt : stop < 2 ^ g.highBits
  start_mod : start % 2 ^ g.unit = 0
  stop_mod : stop % 2 ^ g.unit = 2 ^ g.unit - 1
  mirror_lt : mirror < 2 ^ g.highBits
  constant : ∀ i, mirror.testBit i = true → ∀ a, start ≤ a → a ≤ stop →
    a.testBit i = start.testBit i

/-- The address with some of the mirror bits cleared is in the range. -/
def Covers (start stop mirror address : ℕ) : Prop :=
  ∃ m, IsSubmask m mirror ∧ start ≤ ldiff address m ∧ ldiff address m ≤ stop

namespace Aligned

variable {g : Geometry} {start stop mirror : ℕ}

/-- A range is within a block of the size of each of its mirror bits. -/
theorem div_eq (h : Aligned g start stop mirror) {i : ℕ} (hi : mirror.testBit i = true) :
    start / 2 ^ i = stop / 2 ^ i := by
  by_contra hne
  have hpos := Nat.two_pow_pos i
  have hdiv : start / 2 ^ i < stop / 2 ^ i :=
    Nat.lt_of_le_of_ne (Nat.div_le_div_right h.le) hne
  -- the first multiple of `2 ^ i` after the start and the number before it differ in bit `i`
  set v := (start / 2 ^ i + 1) * 2 ^ i with hv
  have hvstop : v ≤ stop := (Nat.mul_le_mul_right _ hdiv).trans (div_mul_le_self stop (2 ^ i))
  have hstart : start < v := by
    have hlt := lt_div_mul_add (a := start) hpos
    rw [hv, Nat.add_mul, Nat.one_mul]
    exact hlt
  have hbit := h.constant i hi v hstart.le hvstop
  have hvdiv : v / 2 ^ i = start / 2 ^ i + 1 := Nat.mul_div_cancel _ hpos
  rw [testBit_eq_decide_div_mod_eq, hvdiv, testBit_eq_decide_div_mod_eq] at hbit
  simp only [decide_eq_decide] at hbit
  omega

/-- There is a block that the range is in and below which there is no mirror bit. -/
theorem exists_block (h : Aligned g start stop mirror) :
    ∃ k, start / 2 ^ k = stop / 2 ^ k ∧ mirror % 2 ^ k = 0 := by
  by_cases hmirror : mirror = 0
  · refine ⟨g.highBits, ?_, by simp [hmirror]⟩
    rw [div_eq_of_lt h.lt, div_eq_of_lt (h.le.trans_lt h.lt)]
  · have hexists : ∃ i, mirror.testBit i = true := exists_testBit_of_ne_zero hmirror
    refine ⟨Nat.find hexists, h.div_eq (Nat.find_spec hexists), ?_⟩
    refine eq_of_testBit_eq fun i ↦ ?_
    rw [testBit_mod_two_pow, zero_testBit]
    by_cases hi : i < Nat.find hexists
    · have hfalse : mirror.testBit i = false := by simpa using Nat.find_min hexists hi
      simp [hfalse]
    · simp [hi]

end Aligned

theorem mem_block_iff {s t y : ℕ} (h : s / 2 ^ k = t / 2 ^ k) :
    s ≤ y ∧ y ≤ t ↔ y / 2 ^ k = s / 2 ^ k ∧ s % 2 ^ k ≤ y % 2 ^ k ∧ y % 2 ^ k ≤ t % 2 ^ k := by
  constructor
  · rintro ⟨hs, ht⟩
    have hdiv : y / 2 ^ k = s / 2 ^ k :=
      Nat.le_antisymm ((Nat.div_le_div_right ht).trans h.ge) (Nat.div_le_div_right hs)
    exact ⟨hdiv, (le_iff_mod_le_mod hdiv.symm).mp hs, (le_iff_mod_le_mod (hdiv.trans h)).mp ht⟩
  · rintro ⟨hdiv, hs, ht⟩
    exact ⟨(le_iff_mod_le_mod hdiv.symm).mpr hs, (le_iff_mod_le_mod (hdiv.trans h)).mpr ht⟩

/-- Mirror bits leave the bits below a block alone. -/
theorem or_mem_block_iff {s t y offset : ℕ} (h : s / 2 ^ k = t / 2 ^ k)
    (hoffset : offset % 2 ^ k = 0) : s ||| offset ≤ y ∧ y ≤ t ||| offset ↔
      y / 2 ^ k = s / 2 ^ k ||| offset / 2 ^ k ∧ s % 2 ^ k ≤ y % 2 ^ k ∧ y % 2 ^ k ≤ t % 2 ^ k := by
  have hdiv : (s ||| offset) / 2 ^ k = (t ||| offset) / 2 ^ k := by
    rw [or_div_two_pow, or_div_two_pow, h]
  rw [mem_block_iff hdiv, or_div_two_pow, or_mod_two_pow, or_mod_two_pow, hoffset,
    or_zero, or_zero]

theorem ldiff_div_two_pow (a m k : ℕ) : ldiff a m / 2 ^ k = ldiff (a / 2 ^ k) (m / 2 ^ k) := by
  refine eq_of_testBit_eq fun i ↦ ?_
  simp only [testBit_div_two_pow, testBit_ldiff]

theorem ldiff_mod_two_pow {a m : ℕ} (hm : m % 2 ^ k = 0) : ldiff a m % 2 ^ k = a % 2 ^ k := by
  refine eq_of_testBit_eq fun i ↦ ?_
  have hbit := congrArg (testBit · i) hm
  simp only [testBit_mod_two_pow, zero_testBit, testBit_ldiff] at hbit ⊢
  rcases hi : decide (i < k) with _ | _
  · rfl
  · rw [hi, Bool.true_and] at hbit
    rw [hbit]
    simp

/-- An address is in some mirror of a range exactly if the range covers it. -/
theorem Aligned.covers_iff {g : Geometry} {start stop mirror a : ℕ}
    (h : Aligned g start stop mirror) : Covers start stop mirror a ↔
      ∃ offset, IsSubmask offset mirror ∧ start ||| offset ≤ a ∧ a ≤ stop ||| offset := by
  obtain ⟨k, hblock, hmirror⟩ := h.exists_block
  constructor
  · rintro ⟨m, hm, hmem⟩
    have hmod := hm.mod_eq_zero hmirror
    rw [mem_block_iff hblock, ldiff_div_two_pow, ldiff_mod_two_pow hmod] at hmem
    have hsub : IsSubmask (a &&& m) mirror := isSubmask_iff.mpr fun i hi ↦
      isSubmask_iff.mp hm i (by simp_all [testBit_and])
    refine ⟨a &&& m, hsub, ?_⟩
    rw [or_mem_block_iff hblock (hsub.mod_eq_zero hmirror), ← hmem.1]
    refine ⟨?_, hmem.2⟩
    refine eq_of_testBit_eq fun i ↦ ?_
    simp only [testBit_or, testBit_ldiff, testBit_div_two_pow, testBit_and]
    rcases a.testBit (i + k) <;> rcases m.testBit (i + k) <;> rfl
  · rintro ⟨offset, hoffset, hmem⟩
    rw [or_mem_block_iff hblock (hoffset.mod_eq_zero hmirror)] at hmem
    have hsub : IsSubmask (ldiff offset start) mirror := isSubmask_iff.mpr fun i hi ↦
      isSubmask_iff.mp hoffset i (by simp_all [testBit_ldiff])
    refine ⟨ldiff offset start, hsub, ?_⟩
    rw [mem_block_iff hblock, ldiff_div_two_pow,
      ldiff_mod_two_pow (hsub.mod_eq_zero hmirror), hmem.1]
    refine ⟨?_, hmem.2⟩
    refine eq_of_testBit_eq fun i ↦ ?_
    simp only [testBit_or, testBit_ldiff, testBit_div_two_pow]
    rcases start.testBit (i + k) <;> rcases offset.testBit (i + k) <;> rfl

end RoscoEmulator.Memory
