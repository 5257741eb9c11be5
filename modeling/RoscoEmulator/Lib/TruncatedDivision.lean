import Mathlib

/-!
# Truncated division

Quotients that are cut towards zero, with a remainder that has the sign of the dividend. Words are
read as numbers with or without a sign, and a number fits into words of a width if one of them is
read as it. The division of words is that of their numbers, but for one pair: the lowest number has
no negative. -/

namespace RoscoEmulator

open BitVec

/-- A quotient cut towards zero and its remainder. -/
structure IsQuotient (a b q r : ℤ) : Prop where
  eq : a = q * b + r
  lt : r.natAbs < b.natAbs
  sign : 0 ≤ a ∧ 0 ≤ r ∨ a ≤ 0 ∧ r ≤ 0

theorem isQuotient_iff {a b q r : ℤ} (hb : b ≠ 0) :
    IsQuotient a b q r ↔ q = a.tdiv b ∧ r = a.tmod b := by
  constructor
  · rintro ⟨heq, hlt, ⟨ha, hr⟩ | ⟨ha, hr⟩⟩
    · have hab : r + b * q = a := by rw [heq, Int.mul_comm, Int.add_comm]
      obtain ⟨hdiv, hmod⟩ := (Int.tdiv_tmod_unique ha hb).mpr ⟨hab, hr, by omega⟩
      exact ⟨hdiv.symm, hmod.symm⟩
    · have hab : r + b * q = a := by rw [heq, Int.mul_comm, Int.add_comm]
      obtain ⟨hdiv, hmod⟩ := (Int.tdiv_tmod_unique' ha hb).mpr ⟨hab, by omega, hr⟩
      exact ⟨hdiv.symm, hmod.symm⟩
  · rintro ⟨rfl, rfl⟩
    constructor
    · rw [Int.mul_comm, Int.add_comm, Int.tmod_add_mul_tdiv]
    · rw [Int.natAbs_tmod]
      exact Nat.mod_lt _ (Int.natAbs_pos.mpr hb)
    · rcases Int.le_total 0 a with ha | ha
      · exact .inl ⟨ha, Int.tmod_nonneg b ha⟩
      · refine .inr ⟨ha, ?_⟩
        have hneg := Int.tmod_nonneg b (Int.neg_nonneg_of_nonpos ha)
        rw [Int.neg_tmod] at hneg
        omega

/-! ## Numbers -/

/-- A word as a number, with or without a sign. -/
def number (signed : Bool) {w : ℕ} (x : BitVec w) : ℤ := if signed then x.toInt else x.toNat

variable {w : ℕ} {signed : Bool} {W : ℕ} {b : BitVec w}

theorem number_true (x : BitVec w) : number true x = x.toInt := rfl

theorem number_false (x : BitVec w) : number false x = x.toNat := rfl

theorem number_inj {x y : BitVec w} : number signed x = number signed y ↔ x = y := by
  cases signed with
  | true => exact toInt_inj
  | false => exact Int.ofNat_inj.trans toNat_inj

theorem setWidth_signExtend_of_le (h : w ≤ W) (y : BitVec w) : (y.signExtend W).setWidth w = y := by
  refine eq_of_getLsbD_eq fun i hi ↦ ?_
  rw [getLsbD_setWidth, getLsbD_signExtend, if_pos hi, decide_eq_true hi,
    decide_eq_true (Nat.lt_of_lt_of_le hi h), Bool.true_and, Bool.true_and]

/-- A word that is wider than it need be. -/
theorem signExtend_setWidth_iff (h : w ≤ W) (x : BitVec W) :
    (x.setWidth w).signExtend W = x ↔ ∃ y : BitVec w, number true y = number true x := by
  constructor
  · intro hx
    exact ⟨x.setWidth w, by rw [number_true, number_true, ← toInt_signExtend_of_le h, hx]⟩
  · rintro ⟨y, hy⟩
    have hext : y.signExtend W = x := eq_of_toInt_eq ((toInt_signExtend_of_le h).trans hy)
    rw [← hext, setWidth_signExtend_of_le h]

theorem toNat_lt_iff (x : BitVec W) :
    x.toNat < 2 ^ w ↔ ∃ y : BitVec w, number false y = number false x := by
  constructor
  · intro hx
    refine ⟨x.setWidth w, ?_⟩
    rw [number_false, number_false, toNat_setWidth, Nat.mod_eq_of_lt hx]
  · rintro ⟨y, hy⟩
    have hnat : y.toNat = x.toNat := Int.ofNat_inj.mp hy
    exact hnat ▸ y.isLt

/-- The word of a number that fits is cut from one that is wider. -/
theorem setWidth_of_number (h : w ≤ W) {x : BitVec W} {y : BitVec w}
    (hy : number signed y = number signed x) : x.setWidth w = y := by
  cases signed with
  | true =>
    have hext : y.signExtend W = x := eq_of_toInt_eq ((toInt_signExtend_of_le h).trans hy)
    rw [← hext, setWidth_signExtend_of_le h]
  | false =>
    have hnat : y.toNat = x.toNat := Int.ofNat_inj.mp hy
    refine eq_of_toNat_eq ?_
    rw [toNat_setWidth, ← hnat, Nat.mod_eq_of_lt y.isLt]

/-! ## Division -/

/-- The remainder fits where the divisor does. -/
theorem exists_number_tmod (hw : 0 < w) {a : ℤ} (hb : number signed b ≠ 0)
    (ha : signed = false → 0 ≤ a) : ∃ r : BitVec w, number signed r = a.tmod (number signed b) := by
  have habs := Nat.mod_lt a.natAbs (Int.natAbs_pos.mpr hb)
  rw [← Int.natAbs_tmod] at habs
  cases signed with
  | true =>
    have hle := le_toInt b
    have hlt := toInt_lt (x := b)
    rw [number_true] at habs ⊢
    exact ⟨BitVec.ofInt w (a.tmod b.toInt), toInt_ofInt_eq_self hw (by omega) (by omega)⟩
  | false =>
    have hnonneg := Int.tmod_nonneg b.toNat (ha rfl)
    have hlt := b.isLt
    rw [number_false] at habs ⊢
    rw [Int.natAbs_natCast] at habs
    refine ⟨BitVec.ofNat w (a.tmod b.toNat).natAbs, ?_⟩
    rw [number_false, toNat_ofNat, Nat.mod_eq_of_lt (Nat.lt_trans habs hlt),
      Int.natAbs_of_nonneg hnonneg]

/-- The pair of words with a quotient that is none. -/
theorem not_exists_number_tdiv (hw : 0 < w) (h : w ≤ W) :
    ¬∃ q : BitVec w, number true q = (number true (intMin W)).tdiv (-1) := by
  rintro ⟨q, hq⟩
  have hlt := toInt_lt (x := q)
  have hpow : (2 : ℤ) ^ (w - 1) ≤ 2 ^ (W - 1) := by
    exact_mod_cast Nat.pow_le_pow_right Nat.two_pos (by omega)
  rw [number_true, number_true, toInt_intMin_of_pos (Nat.lt_of_lt_of_le hw h), Int.tdiv_neg,
    Int.tdiv_one, Int.neg_neg] at hq
  omega

/-! ## The host -/

/-- A division of words with a sign: it has no result for a zero divisor or for the pair. -/
def hostSdiv {w : ℕ} (a b : BitVec w) : Option (BitVec w) :=
  if b = 0#w ∨ a = intMin w ∧ b = -1#w then none else some (a.sdiv b)

def hostSrem {w : ℕ} (a b : BitVec w) : Option (BitVec w) :=
  if b = 0#w ∨ a = intMin w ∧ b = -1#w then none else some (a.srem b)

def hostUdiv {w : ℕ} (a b : BitVec w) : Option (BitVec w) := if b = 0#w then none else some (a / b)

def hostUrem {w : ℕ} (a b : BitVec w) : Option (BitVec w) := if b = 0#w then none else some (a % b)

theorem exists_hostSdiv {a : BitVec w} (hb : b ≠ 0#w) (h : ¬(a = intMin w ∧ b = -1#w)) :
    ∃ q r, hostSdiv a b = some q ∧ hostSrem a b = some r ∧
      number true q = (number true a).tdiv (number true b) ∧
      number true r = (number true a).tmod (number true b) := by
  have hnot : ¬(b = 0#w ∨ a = intMin w ∧ b = -1#w) := not_or.mpr ⟨hb, h⟩
  exact ⟨a.sdiv b, a.srem b, if_neg hnot, if_neg hnot,
    toInt_sdiv_of_ne_or_ne a b (Decidable.not_and_iff_or_not.mp h), toInt_srem a b⟩

theorem exists_hostUdiv {a : BitVec w} (hb : b ≠ 0#w) :
    ∃ q r, hostUdiv a b = some q ∧ hostUrem a b = some r ∧
      number false q = (number false a).tdiv (number false b) ∧
      number false r = (number false a).tmod (number false b) :=
  ⟨a / b, a % b, if_neg hb, if_neg hb, congrArg Nat.cast toNat_udiv, congrArg Nat.cast toNat_umod⟩

/-! ## With or without a sign -/

def widen (signed : Bool) {w : ℕ} (W : ℕ) (x : BitVec w) : BitVec W :=
  if signed then x.signExtend W else x.setWidth W

theorem number_widen (h : w ≤ W) (signed : Bool) (x : BitVec w) :
    number signed (widen signed W x) = number signed x := by
  cases signed with
  | true => exact toInt_signExtend_of_le h
  | false => exact congrArg Nat.cast (toNat_setWidth_of_le h)

theorem widen_eq_neg_one (h : w ≤ W) {x : BitVec w} (hx : widen true W x = -1#W) : x = -1#w := by
  rw [← setWidth_signExtend_of_le h x, show x.signExtend W = -1#W from hx]
  refine eq_of_getLsbD_eq fun i hi ↦ ?_
  rw [neg_one_eq_allOnes, neg_one_eq_allOnes, getLsbD_setWidth, getLsbD_allOnes,
    getLsbD_allOnes, decide_eq_true hi, decide_eq_true (Nat.lt_of_lt_of_le hi h), Bool.true_and]

def hostDiv (signed : Bool) {w : ℕ} (a b : BitVec w) : Option (BitVec w) :=
  if signed then hostSdiv a b else hostUdiv a b

def hostRem (signed : Bool) {w : ℕ} (a b : BitVec w) : Option (BitVec w) :=
  if signed then hostSrem a b else hostUrem a b

theorem exists_hostDiv {signed : Bool} {w : ℕ} {a b : BitVec w} (hb : b ≠ 0#w)
    (h : ¬(signed = true ∧ a = intMin w ∧ b = -1#w)) :
    ∃ q r, hostDiv signed a b = some q ∧ hostRem signed a b = some r ∧
      number signed q = (number signed a).tdiv (number signed b) ∧
      number signed r = (number signed a).tmod (number signed b) := by
  cases signed with
  | true => exact exists_hostSdiv hb fun hpair ↦ h ⟨rfl, hpair⟩
  | false => exact exists_hostUdiv hb

/-- A wider word is not the lowest one, so the host divides what it has widened. -/
theorem widen_ne_intMin (hw : 0 < w) (h : w < W) (x : BitVec w) : widen true W x ≠ intMin W := by
  intro hx
  have hnumber := number_widen (Nat.le_of_lt h) true x
  have hlow := le_toInt x
  have hpow : (2 : ℤ) ^ (w - 1) < 2 ^ (W - 1) := by
    exact_mod_cast Nat.pow_lt_pow_right (by decide : 1 < 2) (by omega : w - 1 < W - 1)
  rw [hx, number_true, number_true, toInt_intMin_of_pos (Nat.zero_lt_of_lt h)] at hnumber
  omega

end RoscoEmulator
