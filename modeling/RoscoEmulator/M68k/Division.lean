import RoscoEmulator.Lib.TruncatedDivision
import RoscoEmulator.M68k.ExceptionReturn
import RoscoEmulator.M68k.Registers

/-!
# The division instructions

DIVS and DIVU with a word, and DIVS and DIVU with a double word by the extension word. The quotient
is computed before it is known to fit. DIVS with a word tests for the one pair of operands that the
host cannot divide, and takes the quotient to be zero there; the long form does not test. -/

namespace RoscoEmulator.M68k

open BitVec Processor

/-- What follows an instruction. -/
inductive Ending
  | next (s : Processor)
  /-- `m68ki_exception_trap`. -/
  | trap (vector : BitVec 32) (s : Processor)
  /-- A division that the host has no result for. -/
  | hostFault

/-- A division of the host, and what is done with its result. -/
def host {α : Type} : Option α → (α → Ending) → Ending
  | some a, k => k a
  | none, _ => .hostFault

namespace Processor

/-! ## Words -/

/-- The quotient and remainder of a word, and the condition codes. -/
def putWord (quotient remainder : BitVec 32) (s : Processor) : Processor :=
  { s with
    notZFlag := quotient
    nFlag := quotient >>> 8
    vFlag := 0#32 }.setDa s.dx (quotient &&& 0xffff#32 ||| remainder <<< 16)

/-- `m_v_flag = VFLAG_SET`. -/
def overflow (s : Processor) : Processor := { s with vFlag := 0x80#32 }

def clearC (s : Processor) : Processor := { s with cFlag := 0#32 }

/-- What DIVS makes of the lowest dividend and -1. -/
def putZero (s : Processor) : Processor :=
  { s with
    notZFlag := 0#32
    nFlag := 0#32
    vFlag := 0#32 }.setDa s.dx 0#32

/-- DIVS, with the word that it divides by. -/
def divsW (oper : BitVec 16) (s : Processor) : Ending :=
  let dst := s.da s.dx
  let src := oper.signExtend 32
  if src ≠ 0#32 then
    let s := s.clearC
    if dst = 0x80000000#32 ∧ src = -1#32 then .next s.putZero
    else
      host (hostSdiv dst src) fun quotient ↦
      host (hostSrem dst src) fun remainder ↦
      if quotient = (quotient.setWidth 16).signExtend 32 then .next (s.putWord quotient remainder)
      else .next s.overflow
  else .trap 5#32 s

/-- DIVU, with the word that it divides by. -/
def divuW (oper : BitVec 16) (s : Processor) : Ending :=
  let dst := s.da s.dx
  let src := oper.setWidth 32
  if src ≠ 0#32 then
    let s := s.clearC
    host (hostUdiv dst src) fun quotient ↦
    host (hostUrem dst src) fun remainder ↦
    if quotient < 0x10000#32 then .next (s.putWord quotient remainder)
    else .next s.overflow
  else .trap 5#32 s

/-- DIVS and DIVU of DY. -/
def x81c0DivsW (s : Processor) : Ending := s.divsW ((s.da s.dy).setWidth 16)

def x80c0DivuW (s : Processor) : Ending := s.divuW ((s.da s.dy).setWidth 16)

/-! ## Double words -/

/-- The register of the remainder, and of the high half of a dividend of 64 bits. -/
def dr (word2 : BitVec 16) : Fin 16 := dReg (word2.extractLsb' 0 3)

/-- The register of the quotient, and of the dividend or its low half. -/
def dq (word2 : BitVec 16) : Fin 16 := dReg (word2.extractLsb' 12 3)

/-- The remainder is written first. -/
def putLong (word2 : BitVec 16) (quotient remainder : BitVec 64) (s : Processor) : Processor :=
  { (s.setDa (dr word2) (remainder.setWidth 32)).setDa (dq word2) (quotient.setWidth 32) with
    nFlag := quotient.setWidth 32 >>> 24
    notZFlag := quotient.setWidth 32
    vFlag := 0#32
    cFlag := 0#32 }

def dividend64 (word2 : BitVec 16) (s : Processor) : BitVec 64 :=
  (s.da (dr word2)).setWidth 64 <<< 32 ||| (s.da (dq word2)).setWidth 64

/-- DIVS and DIVU with a double word, which bit 11 of the extension word tells apart. Bit 10 asks
for a dividend of 64 bits. -/
def divl (word2 : BitVec 16) (divisor : BitVec 32) (s : Processor) : Ending :=
  if divisor ≠ 0#32 then
    if word2.getLsbD 10 then
      let dividend := s.dividend64 word2
      if word2.getLsbD 11 then
        host (hostSdiv dividend (divisor.signExtend 64)) fun quotient ↦
        host (hostSrem dividend (divisor.signExtend 64)) fun remainder ↦
        if quotient ≠ (quotient.setWidth 32).signExtend 64 then .next s.overflow
        else .next (s.putLong word2 quotient remainder)
      else
        host (hostUdiv dividend (divisor.setWidth 64)) fun quotient ↦
        if 0xffffffff#64 < quotient then .next s.overflow
        else host (hostUrem dividend (divisor.setWidth 64)) fun remainder ↦
          .next (s.putLong word2 quotient remainder)
    else
      let dividend := s.da (dq word2)
      if word2.getLsbD 11 then
        host (hostSdiv (dividend.signExtend 64) (divisor.signExtend 64)) fun quotient ↦
        host (hostSrem (dividend.signExtend 64) (divisor.signExtend 64)) fun remainder ↦
        .next (s.putLong word2 quotient remainder)
      else
        host (hostUdiv (dividend.setWidth 64) (divisor.setWidth 64)) fun quotient ↦
        host (hostUrem (dividend.setWidth 64) (divisor.setWidth 64)) fun remainder ↦
        .next (s.putLong word2 quotient remainder)
  else .trap 5#32 s

/-- DIVS and DIVU with DY. -/
def x4c40Divl (word2 : BitVec 16) (s : Processor) : Ending := s.divl word2 (s.da s.dy)

end Processor

/-! ## What a division is for -/

/-- The division instructions, with the operands that are not in registers. -/
inductive DivInstruction
  | word (signed : Bool) (oper : BitVec 16)
  | long (word2 : BitVec 16) (divisor : BitVec 32)

namespace DivInstruction

def exec : DivInstruction → Processor → Ending
  | word true oper, s => s.divsW oper
  | word false oper, s => s.divuW oper
  | long word2 divisor, s => s.divl word2 divisor

def signed : DivInstruction → Bool
  | word signed _ => signed
  | long word2 _ => word2.getLsbD 11

/-- The width of the quotient and of the remainder. -/
def width : DivInstruction → ℕ
  | word _ _ => 16
  | long _ _ => 32

def divisor : DivInstruction → ℤ
  | word signed oper => number signed oper
  | long word2 divisor => number (word2.getLsbD 11) divisor

def dividend : DivInstruction → Processor → ℤ
  | word signed _, s => number signed (s.da s.dx)
  | long word2 _, s =>
    if word2.getLsbD 10 then number (word2.getLsbD 11) (s.dividend64 word2)
    else number (word2.getLsbD 11) (s.da (dq word2))

/-- The registers with a quotient and a remainder. The long form with one register for both keeps
the quotient. -/
def stored : (i : DivInstruction) → BitVec i.width → BitVec i.width → Processor → Fin 16 → BitVec 32
  | word _ _, q, r, s => Function.update s.da s.dx (r ++ q)
  | long word2 _, q, r, s => Function.update (Function.update s.da (dr word2) r) (dq word2) q

/-- A quotient that fits is stored with its remainder and tested, and V and C are clear. -/
structure Stores (i : DivInstruction) (s : Processor) (q : BitVec i.width) (r : ℤ)
    (s' : Processor) : Prop where
  da : ∃ remainder, number i.signed remainder = r ∧ s'.da = i.stored q remainder s
  vFlag : s'.vFlag.getLsbD 7 = false
  cFlag : s'.cFlag.getLsbD 8 = false
  nFlag : s'.nFlag.getLsbD 7 = q.msb
  zFlag : s'.notZFlag = 0#32 ↔ q = 0#_

/-- And one that does not sets V and leaves the registers. -/
structure Overflows (s s' : Processor) : Prop where
  da : s'.da = s.da
  vFlag : s'.vFlag.getLsbD 7 = true

structure Correct (i : DivInstruction) (s : Processor) : Prop where
  host : i.exec s ≠ .hostFault
  stores : ∀ q r, i.divisor ≠ 0 → IsQuotient (i.dividend s) i.divisor (number i.signed q) r →
    ∃ s', i.exec s = .next s' ∧ i.Stores s q r s'
  overflows : ∀ q r, i.divisor ≠ 0 → IsQuotient (i.dividend s) i.divisor q r →
    (¬∃ word : BitVec i.width, number i.signed word = q) →
    ∃ s', i.exec s = .next s' ∧ Overflows s s'

/-- The lowest dividend with a sign is divided by -1. -/
def Lowest : DivInstruction → Processor → Prop
  | word signed oper, s => signed = true ∧ oper = -1#16 ∧ s.da s.dx = intMin 32
  | long word2 divisor, s => word2.getLsbD 11 = true ∧ divisor = -1#32 ∧
    if word2.getLsbD 10 then s.dividend64 word2 = intMin 64
    else s.da (dq word2) = intMin 32

variable {i : DivInstruction} {s : Processor}

/-! ## Results that are computed before they are tested -/

variable {word2 : BitVec 16} {signed : Bool} {oper : BitVec 16} {divisor : BitVec 32} {W : ℕ}
  (Q : BitVec 32) {R : BitVec 32}

/-- The host computes in words of its own width, and a test tells whether the quotient fits. -/
theorem correct_of_exec (hW : i.width ≤ W) (hdivisor : i.divisor ≠ 0) {Q R : BitVec W}
    (hQ : number i.signed Q = (i.dividend s).tdiv i.divisor)
    (hR : number i.signed R = (i.dividend s).tmod i.divisor) {put kept : Processor} {P : Prop}
    [Decidable P] (hP : P ↔ ∃ word : BitVec i.width, number i.signed word = number i.signed Q)
    (hexec : i.exec s = if P then .next put else .next kept) (hover : P ∨ Overflows s kept)
    (hput : P → i.Stores s (Q.setWidth i.width) (number i.signed R) put) : i.Correct s where
  host := by
    rw [hexec]
    split_ifs <;> exact Ending.noConfusion
  stores q r _ hq := by
    obtain ⟨hdiv, hmod⟩ := (isQuotient_iff hdivisor).mp hq
    have hword := hdiv.trans hQ.symm
    have hfits := hP.mpr ⟨q, hword⟩
    have hstores := hput hfits
    rw [hexec, if_pos hfits]
    refine ⟨put, rfl, ?_⟩
    rwa [setWidth_of_number hW hword, hR, ← hmod] at hstores
  overflows q r _ hq hnone := by
    obtain ⟨hdiv, -⟩ := (isQuotient_iff hdivisor).mp hq
    have hnot : ¬P := fun h ↦ hnone (by rw [hdiv, ← hQ]; exact hP.mp h)
    rw [hexec, if_neg hnot]
    exact ⟨kept, rfl, hover.resolve_left hnot⟩

/-! ### Words -/

theorem append_eq (R : BitVec 32) :
    Q &&& 0xffff#32 ||| R <<< 16 = R.setWidth 16 ++ Q.setWidth 16 := by
  refine eq_of_getLsbD_eq fun i hi ↦ ?_
  have hmask : 0xffff#32 = (allOnes 16).setWidth 32 := by decide
  rw [getLsbD_or, getLsbD_and, getLsbD_shiftLeft, getLsbD_append, hmask,
    getLsbD_setWidth, getLsbD_setWidth, getLsbD_setWidth, getLsbD_allOnes]
  by_cases h : i < 16
  · rw [if_pos h, decide_eq_true h, decide_eq_true hi]
    simp
  · rw [if_neg h, decide_eq_false h, decide_eq_true hi, decide_eq_true (by omega : i - 16 < 16)]
    simp

theorem number_eq_zero {signed : Bool} {w : ℕ} {x : BitVec w} : number signed x = 0 ↔ x = 0#w := by
  have hzero : number signed (0#w) = 0 := by cases signed <;> simp [number]
  rw [← hzero, number_inj]

theorem setWidth_eq_zero_iff {w : ℕ} (h : w ≤ W) {Q : BitVec W}
    (hfit : ∃ word : BitVec w, number signed word = number signed Q) :
    Q = 0#W ↔ Q.setWidth w = 0#w := by
  obtain ⟨word, hword⟩ := hfit
  rw [setWidth_of_number h hword, ← @number_eq_zero signed W Q, ← hword, number_eq_zero]

theorem putWord_da (s : Processor) (Q R : BitVec 32) :
    (s.clearC.putWord Q R).da = Function.update s.da s.dx (R.setWidth 16 ++ Q.setWidth 16) := by
  rw [putWord, da_setDa_eq, append_eq]
  rfl

theorem nFlag_word : (Q >>> 8).getLsbD 7 = (Q.setWidth 16).msb := by
  rw [getLsbD_ushiftRight, msb_eq_getLsbD_last, getLsbD_setWidth]
  rfl

theorem putWord_stores {Q : BitVec 32}
    (hfit : ∃ word : BitVec 16, number signed word = number signed Q)
    (hR : ∃ word : BitVec 16, number signed word = number signed R) :
    (word signed oper).Stores s (Q.setWidth 16) (number signed R) (s.clearC.putWord Q R) where
  da := by
    obtain ⟨word, hword⟩ := hR
    refine ⟨word, hword, ?_⟩
    rw [putWord_da, setWidth_of_number (by decide) hword]
    rfl
  vFlag := by rw [putWord, vFlag_setDa, getLsbD_zero]
  cFlag := by
    rw [putWord, cFlag_setDa]
    exact getLsbD_zero
  nFlag := by
    rw [putWord, nFlag_setDa]
    exact nFlag_word Q
  zFlag := by
    rw [putWord, notZFlag_setDa]
    exact setWidth_eq_zero_iff (by decide) hfit

theorem overflows_overflow {s' : Processor} (h : s'.da = s.da) : Overflows s s'.overflow where
  da := h
  vFlag := (by decide : (0x80#32).getLsbD 7 = true)

theorem correct_of_zero (hdivisor : i.divisor = 0) (vector : BitVec 32) (s' : Processor)
    (hexec : i.exec s = .trap vector s') : i.Correct s where
  host := by
    rw [hexec]
    exact Ending.noConfusion
  stores _ _ h := absurd hdivisor h
  overflows _ _ h := absurd hdivisor h

theorem divsW_eq {Q : BitVec 32} (hsrc : oper.signExtend 32 ≠ 0#32)
    (hlowest : ¬(s.da s.dx = 0x80000000#32 ∧ oper.signExtend 32 = -1#32))
    (hdiv : hostSdiv (s.da s.dx) (oper.signExtend 32) = some Q)
    (hrem : hostSrem (s.da s.dx) (oper.signExtend 32) = some R) :
    s.divsW oper = if Q = (Q.setWidth 16).signExtend 32 then .next (s.clearC.putWord Q R)
      else .next s.clearC.overflow := by
  simp only [divsW, if_pos hsrc, if_neg hlowest, hdiv, hrem, host]

theorem divuW_eq {Q : BitVec 32} (hsrc : oper.setWidth 32 ≠ 0#32)
    (hdiv : hostUdiv (s.da s.dx) (oper.setWidth 32) = some Q)
    (hrem : hostUrem (s.da s.dx) (oper.setWidth 32) = some R) : s.divuW oper =
    if Q < 0x10000#32 then .next (s.clearC.putWord Q R) else .next s.clearC.overflow := by
  simp only [divuW, if_pos hsrc, hdiv, hrem, host]

theorem divsW_correct (h : ¬(word true oper).Lowest s) : (word true oper).Correct s := by
  by_cases hzero : oper = 0#16
  · refine correct_of_zero (number_eq_zero.mpr hzero) 5#32 s ?_
    rw [hzero]
    rfl
  · have hdivisor : number true oper ≠ 0 := mt number_eq_zero.mp hzero
    have hnumber : number true (oper.signExtend 32) = number true oper :=
      toInt_signExtend_of_le (by decide)
    have hsrc : oper.signExtend 32 ≠ 0#32 := mt number_eq_zero.mpr (hnumber.trans_ne hdivisor)
    have hlowest : ¬(s.da s.dx = intMin 32 ∧ oper.signExtend 32 = -1#32) := fun hpair ↦
      h ⟨rfl, widen_eq_neg_one (by decide) hpair.2, hpair.1⟩
    obtain ⟨Q, R, hdiv, hrem, hQ, hR⟩ := exists_hostSdiv hsrc hlowest
    rw [hnumber] at hQ hR
    have hword : ∃ word : BitVec 16, number true word = number true R := by
      rw [hR]
      exact exists_number_tmod (by decide) hdivisor nofun
    have hfits := eq_comm.trans (signExtend_setWidth_iff (by decide : 16 ≤ 32) Q)
    exact correct_of_exec (by decide : 16 ≤ 32) hdivisor hQ hR hfits (divsW_eq hsrc hlowest hdiv
      hrem) (.inr (overflows_overflow rfl)) fun hfit ↦ putWord_stores (hfits.mp hfit) hword

theorem number_setWidth {w : ℕ} (h : w ≤ W) (x : BitVec w) :
    number false (x.setWidth W) = number false x := by
  rw [number_false, number_false, toNat_setWidth_of_le h]

theorem divuW_correct : (word false oper).Correct s := by
  by_cases hzero : oper = 0#16
  · refine correct_of_zero (number_eq_zero.mpr hzero) 5#32 s ?_
    rw [hzero]
    rfl
  · have hdivisor : number false oper ≠ 0 := mt number_eq_zero.mp hzero
    have hnumber : number false (oper.setWidth 32) = number false oper :=
      number_setWidth (by decide) oper
    have hsrc : oper.setWidth 32 ≠ 0#32 := mt number_eq_zero.mpr (hnumber.trans_ne hdivisor)
    obtain ⟨Q, R, hdiv, hrem, hQ, hR⟩ := exists_hostUdiv (a := s.da s.dx) hsrc
    rw [hnumber] at hQ hR
    have hword : ∃ word : BitVec 16, number false word = number false R := by
      rw [hR]
      exact exists_number_tmod (by decide) hdivisor fun _ ↦ Int.natCast_nonneg _
    have hfits : Q < 0x10000#32 ↔ ∃ word : BitVec 16, number false word = number false Q :=
      toNat_lt_iff (w := 16) Q
    exact correct_of_exec (by decide : 16 ≤ 32) hdivisor hQ hR hfits (divuW_eq hsrc hdiv hrem)
      (.inr (overflows_overflow rfl)) fun hfit ↦ putWord_stores (hfits.mp hfit) hword

/-! ### Double words -/

theorem nFlag_long : (Q >>> 24).getLsbD 7 = Q.msb := by
  rw [getLsbD_ushiftRight, msb_eq_getLsbD_last]

theorem putLong_stores {Q R : BitVec 64}
    (hR : ∃ word : BitVec 32, number (word2.getLsbD 11) word = number (word2.getLsbD 11) R) :
    (long word2 divisor).Stores s (Q.setWidth 32) (number (word2.getLsbD 11) R)
      (s.putLong word2 Q R) where
  da := by
    obtain ⟨word, hword⟩ := hR
    refine ⟨word, hword, ?_⟩
    have hda : (s.putLong word2 Q R).da = ((s.setDa (dr word2) (R.setWidth 32)).setDa (dq word2)
      (Q.setWidth 32)).da := rfl
    rw [hda, da_setDa_eq, da_setDa_eq, setWidth_of_number (by decide) hword]
    rfl
  vFlag := getLsbD_zero
  cFlag := getLsbD_zero
  nFlag := nFlag_long (Q.setWidth 32)
  zFlag := Iff.rfl

theorem divl64_eq {Q R : BitVec 64} (hlong : word2.getLsbD 10 = true) (hzero : divisor ≠ 0#32)
    (hdiv : hostDiv (word2.getLsbD 11) (s.dividend64 word2) (widen (word2.getLsbD 11) 64 divisor) =
    some Q) (hrem : hostRem (word2.getLsbD 11) (s.dividend64 word2)
    (widen (word2.getLsbD 11) 64 divisor) = some R) : s.divl word2 divisor =
      if (if word2.getLsbD 11 then (Q.setWidth 32).signExtend 64 = Q else Q ≤ 0xffffffff#64) then
        .next (s.putLong word2 Q R) else .next s.overflow := by
  cases hsigned : word2.getLsbD 11 with
  | true =>
    rw [hsigned] at hdiv hrem
    have hdiv : hostSdiv (s.dividend64 word2) (divisor.signExtend 64) = some Q := hdiv
    have hrem : hostSrem (s.dividend64 word2) (divisor.signExtend 64) = some R := hrem
    simp only [divl, if_pos hzero, hlong, hsigned, if_true, hdiv, hrem, host, ne_eq,
      ite_not, eq_comm]
  | false =>
    rw [hsigned] at hdiv hrem
    have hdiv : hostUdiv (s.dividend64 word2) (divisor.setWidth 64) = some Q := hdiv
    have hrem : hostUrem (s.dividend64 word2) (divisor.setWidth 64) = some R := hrem
    simp only [divl, if_pos hzero, hlong, hsigned, if_true, Bool.false_eq_true, if_false, hdiv,
      hrem, host, ← BitVec.not_lt, ite_not]

theorem divl32_eq {Q R : BitVec 64} (hshort : word2.getLsbD 10 = false) (hzero : divisor ≠ 0#32)
    (hdiv : hostDiv (word2.getLsbD 11) (widen (word2.getLsbD 11) 64 (s.da (dq word2)))
      (widen (word2.getLsbD 11) 64 divisor) = some Q)
    (hrem : hostRem (word2.getLsbD 11) (widen (word2.getLsbD 11) 64 (s.da (dq word2)))
      (widen (word2.getLsbD 11) 64 divisor) = some R) : s.divl word2 divisor = .next
      (s.putLong word2 Q R) := by
  cases hsigned : word2.getLsbD 11 with
  | true =>
    rw [hsigned] at hdiv hrem
    have hdiv : hostSdiv ((s.da (dq word2)).signExtend 64) (divisor.signExtend 64) = some Q := hdiv
    have hrem : hostSrem ((s.da (dq word2)).signExtend 64) (divisor.signExtend 64) = some R := hrem
    simp only [divl, if_pos hzero, hshort, hsigned, Bool.false_eq_true, if_true, if_false,
      hdiv, hrem, host]
  | false =>
    rw [hsigned] at hdiv hrem
    have hdiv : hostUdiv ((s.da (dq word2)).setWidth 64) (divisor.setWidth 64) = some Q := hdiv
    have hrem : hostUrem ((s.da (dq word2)).setWidth 64) (divisor.setWidth 64) = some R := hrem
    simp only [divl, if_pos hzero, hshort, hsigned, Bool.false_eq_true, if_false, hdiv, hrem, host]

theorem dividend_nonneg (hsigned : word2.getLsbD 11 = false) :
    0 ≤ (long word2 divisor).dividend s := by
  rw [dividend, hsigned]
  split <;> exact Int.natCast_nonneg _

/-- The test of the long form with a dividend of 64 bits. -/
theorem fits_iff (signed : Bool) (Q : BitVec 64) :
    (if signed then (Q.setWidth 32).signExtend 64 = Q else Q ≤ 0xffffffff#64) ↔
      ∃ word : BitVec 32, number signed word = number signed Q := by
  cases signed with
  | true => exact signExtend_setWidth_iff (by decide) Q
  | false => exact (Nat.lt_succ_iff (n := 2 ^ 32 - 1)).symm.trans (toNat_lt_iff (w := 32) Q)

theorem long_correct (h : ¬(long word2 divisor).Lowest s) : (long word2 divisor).Correct s := by
  by_cases hzero : divisor = 0#32
  · refine correct_of_zero (number_eq_zero.mpr hzero) 5#32 s ?_
    rw [hzero]
    rfl
  · have hdivisor : number (word2.getLsbD 11) divisor ≠ 0 := mt number_eq_zero.mp hzero
    have hnumber := number_widen (by decide : 32 ≤ 64) (word2.getLsbD 11) divisor
    have hsrc : widen (word2.getLsbD 11) 64 divisor ≠ 0#64 :=
      mt number_eq_zero.mpr (hnumber.trans_ne hdivisor)
    have hword : ∀ R : BitVec 64, number (word2.getLsbD 11) R =
        ((long word2 divisor).dividend s).tmod (number (word2.getLsbD 11) divisor) →
          ∃ word : BitVec 32,
          number (word2.getLsbD 11) word = number (word2.getLsbD 11) R := fun R hR ↦ by
      rw [hR]
      exact exists_number_tmod (by decide) hdivisor dividend_nonneg
    rcases Bool.eq_false_or_eq_true (word2.getLsbD 10) with hlong | hshort
    · have hdividend : (long word2 divisor).dividend s =
          number (word2.getLsbD 11) (s.dividend64 word2) := if_pos hlong
      have hlowest : ¬(word2.getLsbD 11 = true ∧ s.dividend64 word2 = intMin 64 ∧
          widen (word2.getLsbD 11) 64 divisor = -1#64) := by
        rintro ⟨hsigned, hmin, hone⟩
        rw [hsigned] at hone
        exact h ⟨hsigned, widen_eq_neg_one (by decide) hone, by rwa [if_pos hlong]⟩
      obtain ⟨Q, R, hdiv, hrem, hQ, hR⟩ := exists_hostDiv hsrc hlowest
      rw [hnumber, ← hdividend] at hQ hR
      exact correct_of_exec (by decide : 32 ≤ 64) hdivisor hQ hR (fits_iff _ Q) (divl64_eq hlong
        hzero hdiv hrem) (.inr (overflows_overflow rfl)) fun _ ↦ putLong_stores (hword R hR)
    · have hdividend :
          (long word2 divisor).dividend s = number (word2.getLsbD 11) (s.da (dq word2)) :=
        if_neg (ne_true_of_eq_false hshort)
      have hwide := number_widen (by decide : 32 ≤ 64) (word2.getLsbD 11) (s.da (dq word2))
      have hlowest : ¬(word2.getLsbD 11 = true ∧ widen (word2.getLsbD 11) 64 (s.da (dq word2)) =
          intMin 64 ∧ widen (word2.getLsbD 11) 64 divisor = -1#64) := by
        rintro ⟨hsigned, hmin, -⟩
        rw [hsigned] at hmin
        exact widen_ne_intMin (by decide) (by decide) _ hmin
      obtain ⟨Q, R, hdiv, hrem, hQ, hR⟩ := exists_hostDiv hsrc hlowest
      rw [hnumber, hwide, ← hdividend] at hQ hR
      -- The quotient fits because a host with words of 32 bits would have it.
      obtain ⟨word, -, -, -, hfit, -⟩ :=
        @exists_hostDiv (word2.getLsbD 11) 32 (s.da (dq word2)) divisor
        hzero fun hpair ↦
        h ⟨hpair.1, hpair.2.2, by rw [if_neg (ne_true_of_eq_false hshort)]; exact hpair.2.1⟩
      rw [← hdividend] at hfit
      exact correct_of_exec (by decide : 32 ≤ 64) hdivisor hQ hR
        (iff_of_true trivial ⟨word, hfit.trans hQ.symm⟩)
        ((divl32_eq hshort hzero hdiv hrem).trans (if_pos trivial).symm) (.inl trivial : True ∨
        Overflows s s)
        fun _ ↦ putLong_stores (hword R hR)

/-! ## The lowest dividend -/

/-- A quotient that does not fit is not seen where V is clear. -/
theorem not_correct_of_vFlag (s' : Processor) (hdivisor : i.divisor ≠ 0)
    (hnone : ¬∃ word : BitVec i.width, number i.signed word = (i.dividend s).tdiv i.divisor)
    (hexec : i.exec s = .next s') (hv : s'.vFlag.getLsbD 7 = false) : ¬i.Correct s := by
  intro h
  obtain ⟨s'', hnext, hover⟩ :=
    h.overflows _ _ hdivisor ((isQuotient_iff hdivisor).mpr ⟨rfl, rfl⟩) hnone
  have heq : s' = s'' := Ending.next.inj (hexec.symm.trans hnext)
  rw [heq, hover.vFlag] at hv
  exact Bool.false_ne_true hv.symm

theorem word_not_correct (h : (word signed oper).Lowest s) : ¬(word signed oper).Correct s := by
  obtain ⟨rfl, rfl, hmin⟩ := h
  refine not_correct_of_vFlag s.clearC.putZero (by decide) ?_ ?_ ?_
  · rw [dividend, hmin]
    exact not_exists_number_tdiv (by decide) (by decide)
  · have hmin : s.da s.dx = 0x80000000#32 := hmin
    have hone : (-1#16).signExtend 32 = -1#32 := by decide
    simp only [exec, divsW, hone, hmin]
    rfl
  · rw [putZero, vFlag_setDa]
    exact getLsbD_zero

theorem long_not_correct (h : (long word2 divisor).Lowest s) : ¬(long word2 divisor).Correct s := by
  obtain ⟨hsigned, rfl, hmin⟩ := h
  have hone : (-1#32).signExtend 64 = -1#64 := by decide
  rcases Bool.eq_false_or_eq_true (word2.getLsbD 10) with hlong | hshort
  · rw [if_pos hlong] at hmin
    have hfault : hostSdiv (intMin 64) (-1#64) = none := by decide
    refine fun hcorrect ↦ hcorrect.host ?_
    simp only [exec, divl, hlong, hsigned, hmin, hone, hfault, host]
    rfl
  · rw [if_neg (ne_true_of_eq_false hshort)] at hmin
    have hdivisor : number (word2.getLsbD 11) (-1#32) ≠ 0 := mt number_eq_zero.mp (by decide)
    have hdiv : hostSdiv ((intMin 32).signExtend 64) (-1#64) = some 0x80000000#64 := by decide
    have hrem : hostSrem ((intMin 32).signExtend 64) (-1#64) = some 0#64 := by decide
    refine not_correct_of_vFlag (s.putLong word2 0x80000000#64 0#64) hdivisor ?_ ?_ getLsbD_zero
    · rw [dividend, if_neg (ne_true_of_eq_false hshort), divisor, signed, hsigned, hmin]
      exact not_exists_number_tdiv (by decide : 0 < 32) (by decide : 32 ≤ 32)
    · simp only [exec, divl, hshort, hsigned, hmin, hone, hdiv, hrem, host]
      rfl

/-- Divisions do what they are for, except of the lowest dividend by -1. -/
theorem correct_iff (i : DivInstruction) (s : Processor) : i.Correct s ↔ ¬i.Lowest s := by
  cases i with
  | word signed oper =>
    cases signed with
    | true => exact ⟨fun hcorrect h ↦ word_not_correct h hcorrect, divsW_correct⟩
    | false => exact ⟨fun _ h ↦ Bool.false_ne_true h.1, fun _ ↦ divuW_correct⟩
  | long word2 divisor => exact ⟨fun hcorrect h ↦ long_not_correct h hcorrect, long_correct⟩

/-- DIVS D0,D1 of 0x80000000 by -1. -/
def lowestByMinusOne : Processor :=
  { Core.idle .cpu000 false with
    ir := 0x83c0#16
    dar := fun i ↦ if i = 1 then 0x80000000#32 else 0xffff#32 }

/-- DIVS.L D0,D1:D2 of 0x8000000000000000 by -1. -/
def longLowestByMinusOne : Processor :=
  { Core.idle .cpu020 false with
    ir := 0x4c40#16
    dar := fun i ↦ if i = 0 then -1#32 else if i = 1 then 0x80000000#32 else 0#32 }

theorem not_correct_lowest :
    lowestByMinusOne.x81c0DivsW = (word true 0xffff#16).exec lowestByMinusOne ∧
      (long 0x2c01#16 (-1#32)).exec longLowestByMinusOne = .hostFault ∧
      ¬∀ (i : DivInstruction) (s : Processor), i.Correct s := by
  have hdx : lowestByMinusOne.da lowestByMinusOne.dx = intMin 32 := by decide
  have hdy : (lowestByMinusOne.da lowestByMinusOne.dy).setWidth 16 = 0xffff#16 := by decide
  refine ⟨congrArg (lowestByMinusOne.divsW ·) hdy, rfl, fun h ↦ ?_⟩
  exact word_not_correct ⟨rfl, rfl, hdx⟩ (h (word true 0xffff#16) lowestByMinusOne)

end DivInstruction

end RoscoEmulator.M68k
