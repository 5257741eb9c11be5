import RoscoEmulator.Lib.FirstOne
import RoscoEmulator.M68k.ExceptionReturn
import RoscoEmulator.M68k.FieldBits

/-!
# What bit field instructions do

An instruction reads the bits of its field that its accesses reach, and most of them reach all. An
offset in the instruction that is not brought below 8 may have its field end behind the fifth byte,
or have the fifth byte shifted out of the word. BFFFO may read one or two bytes of a field that goes
on behind them. -/

namespace RoscoEmulator.M68k

open Option Function BitVec

namespace Processor

variable {s : Processor} {ea : BitVec 32} {word2 : BitVec 16}

/-! ## Widths and masks -/

theorem fieldWidth_spec (word2 : BitVec 16) (s : Processor) :
    0 < (s.fieldWidth word2).toNat ∧ (s.fieldWidth word2).toNat ≤ 32 := by
  rw [fieldWidth, toNat_add, toNat_and, toNat_ofNat, toNat_ofNat]
  have hle :=
    Nat.and_le_right (n := ((if word2.getLsbD 5 then s.da (dReg (word2.extractLsb' 0 3)) else
    word2.setWidth 32) - 1#32).toNat) (m := 31 % 2 ^ 32)
  omega

variable {width offset : BitVec 32}

theorem toNat_sub_width (hw : width.toNat ≤ 32) : (32#32 - width).toNat = 32 - width.toNat := by
  rw [toNat_sub_of_le (BitVec.le_def.mpr hw)]
  rfl

theorem getMsbD_maskBase (hw : width.toNat ≤ 32) (q : ℕ) :
    (maskBase width).getMsbD q = decide (q < width.toNat) := by
  rw [maskBase, shiftLeft_eq', getMsbD_shiftLeft, toNat_sub_width hw,
    show 0xffffffff#32 = allOnes 32 from rfl, getMsbD_allOnes]
  exact decide_eq_decide.mpr (by omega)

/-- The mask of the field in the double word. -/
theorem getMsbD_maskLong (hw : width.toNat ≤ 32) {q : ℕ} (hq : q < 32) :
    (maskBase width >>> offset).getMsbD q =
      decide (offset.toNat ≤ q ∧ q < offset.toNat + width.toNat) := by
  rw [ushiftRight_eq', getMsbD_ushiftRight, getMsbD_maskBase hw, decide_eq_true hq, Bool.true_and,
    ← decide_not, ← Bool.decide_and]
  exact decide_eq_decide.mpr (by omega)

/-- What is left of a word for the fifth byte. -/
theorem getMsbD_fifth (a : BitVec 32) (ho : offset.toNat ≤ 8) {j : ℕ} (hj : j < 8) :
    ((a &&& 0xff#32) <<< (8#32 - offset)).getMsbD (24 + j) = a.getMsbD (32 + j - offset.toNat) := by
  have hmask : 0xff#32 = (allOnes 8).setWidth 32 := by decide
  have hshift : (8#32 - offset).toNat = 8 - offset.toNat := by
    rw [toNat_sub_of_le (BitVec.le_def.mpr ho)]
    rfl
  rw [shiftLeft_eq', getMsbD_shiftLeft, hshift, getMsbD_and, hmask, getMsbD_setWidth,
    getMsbD_allOnes, show 24 + j + (8 - offset.toNat) = 32 + j - offset.toNat by omega,
    decide_eq_true (by omega : 32 - 8 ≤ 32 + j - offset.toNat), Bool.true_and]
  by_cases h : 32 + j - offset.toNat < 32
  · rw [decide_eq_true (by omega), Bool.and_true]
  · rw [getMsbD_of_ge _ _ (Nat.le_of_not_lt h), Bool.false_and]

theorem getMsbD_maskByte (hw : width.toNat ≤ 32) (ho : offset.toNat ≤ 8) {j : ℕ} (hj : j < 8) :
    ((maskBase width &&& 0xff#32) <<< (8#32 - offset)).getMsbD (24 + j) =
      decide (32 + j < offset.toNat + width.toNat) := by
  rw [getMsbD_fifth _ ho hj, getMsbD_maskBase hw]
  exact decide_eq_decide.mpr (by omega)

/-! ## Reading a field -/

/-- A bit of the field is within the accesses, and stays in the word when the fifth byte is
shifted. -/
def Seen (o n k : ℕ) : Prop := o + k < n ∨ 32 ≤ o + k ∧ o + k < 40 ∧ 8 ≤ k

instance (o n k : ℕ) : Decidable (Seen o n k) := inferInstanceAs (Decidable (_ ∨ _))

theorem span_le (size : BitVec 32) : 8 ≤ span size ∧ span size ≤ 32 := by
  rw [span]
  split_ifs <;> decide

variable {o w k : ℕ}

theorem getMsbD_fifthByte (byte : BitVec 8) (hk : k < 32) :
    ((byte.setWidth 32 <<< offset) >>> 8).getMsbD k =
      (decide (8 ≤ k) &&
      (decide (32 ≤ offset.toNat + k) && byte.getMsbD (offset.toNat + k - 32))) := by
  rw [getMsbD_ushiftRight, shiftLeft_eq', getMsbD_shiftLeft, getMsbD_setWidth,
    decide_eq_true hk, Bool.true_and]
  by_cases h : 8 ≤ k
  · rw [decide_eq_false (Nat.not_lt_of_le h), decide_eq_true h, show k - 8 + offset.toNat + 8 - 32 =
      offset.toNat + k - 32 by omega]
    congr 2
    exact decide_eq_decide.mpr (by omega)
  · rw [decide_eq_true (Nat.lt_of_not_le h), decide_eq_false h]
    rfl

theorem getMsbD_byte_fifth (s : Core) (ea : BitVec 32) {q : ℕ} (hq : 32 ≤ q) :
    (s.byte (ea + 4#32)).getMsbD (q - 32) = (decide (q < 40) && s.bit ea q) := by
  by_cases h : q < 40
  · rw [Core.getMsbD_byte _ _ (by omega), ← Core.bit_add s ea 4, decide_eq_true h, Bool.true_and]
    congr 1
    omega
  · rw [getMsbD_of_ge _ _ (by omega), decide_eq_false h, Bool.false_and]

theorem exists_readField (h : s.cpuType.is010Less = false) (size ea : BitVec 32)
    (hw : width.toNat ≤ 32) (ho : offset.toNat < 32) :
    ∃ data s', s.readField size offset width ea = some (data, s') ∧ Kept s s' ∧
      ∀ k < width.toNat,
        data.getMsbD k =
        (decide (Seen offset.toNat (span size) k) && s.bit ea (offset.toNat + k)) := by
  obtain ⟨data, s', hread, hkept, hdata⟩ := exists_readData h size ea
  have hspan := span_le size
  have hlong : ∀ k, (data <<< offset).getMsbD k =
      (decide (offset.toNat + k < span size) && s.bit ea (offset.toNat + k)) := fun k ↦ by
    rw [shiftLeft_eq', getMsbD_shiftLeft, hdata, Nat.add_comm]
  have hsum : 32#32 < offset + width ↔ 32 < offset.toNat + width.toNat := by
    rw [lt_def, toNat_add, Nat.mod_eq_of_lt (by omega)]
    rfl
  rw [readField, hread]
  by_cases hfifth : 32#32 < offset + width
  · refine ⟨data <<< offset ||| ((s'.byte (ea + 4#32)).setWidth 32 <<< offset) >>> 8,
      s'.withCore (s'.access 1#16 Core.szByte), if_pos hfifth, ?_, fun k hk ↦ ?_⟩
    · exact hkept.trans (kept_access s' 1#16 Core.szByte)
    · rw [getMsbD_or, hlong, getMsbD_fifthByte _ (by omega)]
      by_cases hq : 32 ≤ offset.toNat + k
      · rw [getMsbD_byte_fifth _ _ hq, hkept.bit, decide_eq_true hq,
          Bool.true_and, ← Bool.and_assoc,
          ← Bool.and_or_distrib_right, ← Bool.decide_and, ← Bool.decide_or]
        refine congrArg (· && _) (decide_eq_decide.mpr ?_)
        rw [Seen]
        omega
      · rw [decide_eq_false hq, Bool.false_and, Bool.and_false, Bool.or_false]
        refine congrArg (· && _) (decide_eq_decide.mpr ?_)
        rw [Seen]
        omega
  · have hwithin := mt hsum.mpr hfifth
    refine ⟨data <<< offset, s', if_neg hfifth, hkept, fun k hk ↦ ?_⟩
    rw [hlong]
    refine congrArg (· && _) (decide_eq_decide.mpr ?_)
    rw [Seen]
    omega

/-! ## Offsets -/

theorem fieldOffset_of_immediate (h : word2.getLsbD 11 = false) : (s.fieldOffset word2).toNat < 32 ∧
    (s.fieldOffset word2).toInt = (s.fieldOffset word2).toNat := by
  have hlt : (s.fieldOffset word2).toNat < 32 := by
    rw [fieldOffset, if_neg (ne_true_of_eq_false h), toNat_and]
    exact Nat.lt_of_le_of_lt Nat.and_le_right (by decide)
  refine ⟨hlt, ?_⟩
  rw [toInt_eq_toNat_cond, if_pos (by omega)]

theorem exists_normalize (ea offset : BitVec 32) :
    ∃ ea' o, normalize ea offset = (ea', o) ∧ o.toNat < 8 ∧ BeginsAt ea offset.toInt ea' o.toNat :=
  ⟨_, _, rfl, (normalize_spec ea offset).1, (normalize_spec ea offset).2⟩

theorem exists_normalizeRegister (word2 : BitVec 16) (ea : BitVec 32) (s : Processor) :
    ∃ ea' o, normalizeRegister word2 ea (s.fieldOffset word2) = (ea', o) ∧
      BeginsAt ea (s.fieldOffset word2).toInt ea' o.toNat ∧
      (word2.getLsbD 11 = true ∧ o.toNat < 8 ∨
        word2.getLsbD 11 = false ∧ o = s.fieldOffset word2 ∧ o.toNat < 32) := by
  rcases Bool.eq_false_or_eq_true (word2.getLsbD 11) with hregister | himmediate
  · obtain ⟨ea', o, hr, hlt, hbegins⟩ := exists_normalize ea (s.fieldOffset word2)
    exact ⟨ea', o, (if_pos hregister).trans hr, hbegins, .inl ⟨hregister, hlt⟩⟩
  · obtain ⟨hlt, hint⟩ := fieldOffset_of_immediate (s := s) himmediate
    refine ⟨ea, s.fieldOffset word2, if_neg (ne_true_of_eq_false himmediate),
      ?_, .inr ⟨himmediate, rfl, hlt⟩⟩
    rw [hint]
    exact beginsAt_self ea _

section

variable {offset width : BitVec 32} (ho : offset.toNat = o) (hw : width.toNat = w)
include ho hw

theorem span_add (hlt : o + w < 2 ^ 32) :
    span (offset + width) = if o + w ≤ 8 then 8 else if o + w ≤ 16 then 16 else 32 := by
  have hsum : (offset + width).toNat = o + w := by rw [toNat_add, ho, hw, Nat.mod_eq_of_lt hlt]
  simp only [span, le_def, hsum, toNat_ofNat]

/-- An offset that is below 8 leaves no bit of the field unseen. -/
theorem seen_of_lt (hlt : o < 8) (hle : w ≤ 32) (hk : k < w) :
    Seen o (span (offset + width)) k := by
  rw [span_add ho hw (by omega), Seen]
  split_ifs <;> omega

theorem seen_iff (hlt : o < 32) (hle : w ≤ 32) (hk : k < w) :
    Seen o (span (offset + width)) k ↔ o + k < 32 ∨ 8 ≤ k ∧ o + k < 40 := by
  rw [span_add ho hw (by omega), Seen]
  split_ifs <;> omega

end

end Processor

/-! ## What the instructions are for -/

/-- N and Z are those of a field. -/
structure Describes (f : ℕ → Bool) (w : ℕ) (s : Processor) : Prop where
  nFlag : s.nFlag.getLsbD 7 = f 0
  zFlag : s.notZFlag = 0#32 ↔ ∀ k < w, f k = false

/-- The field gets new bits, and every other bit of memory stays. -/
structure Changes (s s' : Processor) (ea : BitVec 32) (offset : ℤ) (w : ℕ)
    (new : ℕ → Bool) : Prop where
  field : ∀ k < w, s'.fieldBit ea offset k = new k
  other :
    ∀ l j, (∀ k < w, ¬(l = s.location (fieldAddress ea offset k) ∧ j = fieldIndex ea offset k)) →
    (s'.memory l).getMsbD j = (s.memory l).getMsbD j

/-- A value is a field with copies of a bit above it. -/
def IsExtension (value : BitVec 32) (fill : Bool) (f : ℕ → Bool) (w : ℕ) : Prop :=
  ∀ i < 32, value.getMsbD i = if i < 32 - w then fill else f (i - (32 - w))

inductive BitFieldOp
  | bftst | bfextu | bfexts | bfffo | bfins | bfset | bfclr | bfchg
deriving DecidableEq, Repr

namespace BitFieldOp

open Processor

def exec : BitFieldOp → BitVec 16 → BitVec 32 → Processor → Option Processor
  | bftst => xe8c0Bftst
  | bfextu => xe9c0Bfextu
  | bfexts => xebc0Bfexts
  | bfffo => xedc0Bfffo
  | bfins => xefc0Bfins
  | bfset => xeec0Bfset
  | bfclr => xecc0Bfclr
  | bfchg => xeac0Bfchg

/-- What an instruction leaves of a field, given as its offset, width and bits, and of a
register. -/
def Leaves (s s' : Processor) (ea : BitVec 32) (offset : ℤ) (w : ℕ) (f : ℕ → Bool) (r : Fin 16) :
    BitFieldOp → Prop
  | bftst => Describes f w s' ∧ s'.da = s.da ∧ s'.memory = s.memory
  | bfextu => Describes f w s' ∧
    (∃ value, IsExtension value false f w ∧ s'.da = update s.da r value) ∧ s'.memory = s.memory
  | bfexts => Describes f w s' ∧
    (∃ value, IsExtension value (f 0) f w ∧ s'.da = update s.da r value) ∧ s'.memory = s.memory
  | bfffo => Describes f w s' ∧ s'.da = update s.da r (BitVec.ofInt 32 (offset + firstOne f w)) ∧
    s'.memory = s.memory
  | bfins =>
    Describes (fun k ↦ (s.da r).getMsbD (32 - w + k)) w s' ∧ s'.da = s.da ∧
      Changes s s' ea offset w fun k ↦ (s.da r).getMsbD (32 - w + k)
  | bfset => Describes f w s' ∧ s'.da = s.da ∧ Changes s s' ea offset w fun _ ↦ true
  | bfclr => Describes f w s' ∧ s'.da = s.da ∧ Changes s s' ea offset w fun _ ↦ false
  | bfchg => Describes f w s' ∧ s'.da = s.da ∧ Changes s s' ea offset w fun k ↦ !f k

/-- An instruction does what it is for. -/
def Correct (op : BitFieldOp) (word2 : BitVec 16) (ea : BitVec 32) (s : Processor) : Prop :=
  ∃ s', op.exec word2 ea s = some s' ∧ op.Leaves s s' ea (s.fieldOffset word2).toInt
    (s.fieldWidth word2).toNat (s.fieldBit ea (s.fieldOffset word2).toInt) (fieldRegister word2)

variable {s : Processor} {ea : BitVec 32} {word2 : BitVec 16}

variable {op : BitFieldOp} {s' : Processor} {ea' : BitVec 32} {f : ℕ → Bool} {o w : ℕ}
    {new : ℕ → Bool}

theorem correct_iff_of_exec (h : op.exec word2 ea s = some s') :
    op.Correct word2 ea s ↔ op.Leaves s s' ea (s.fieldOffset word2).toInt (s.fieldWidth word2).toNat
      (s.fieldBit ea (s.fieldOffset word2).toInt) (fieldRegister word2) := by
  constructor
  · rintro ⟨s'', hexec, hleaves⟩
    rwa [Option.some.inj (h.symm.trans hexec)]
  · exact fun hleaves ↦ ⟨s', h, hleaves⟩

/-! ### Extraction -/

theorem getLsbD_nFlag (data : BitVec 32) : (data >>> 24).getLsbD 7 = data.getMsbD 0 := by
  rw [getLsbD_ushiftRight, getMsbD_eq_getLsbD]
  rfl

theorem eq_zero_iff {data : BitVec 32} : data = 0#32 ↔ ∀ i < 32, data.getMsbD i = false := by
  constructor
  · rintro rfl i _
    exact getMsbD_zero
  · intro h
    exact eq_of_getMsbD_eq fun i hi ↦ (h i hi).trans BitVec.getMsbD_zero.symm

theorem isExtension_eq_zero {value : BitVec 32} {fill : Bool} (hpos : 0 < w) (hle : w ≤ 32)
    (hfill : fill = true → f 0 = true) (h : IsExtension value fill f w) :
    value = 0#32 ↔ ∀ k < w, f k = false := by
  rw [eq_zero_iff]
  constructor
  · intro hzero k hk
    have hbit := h (32 - w + k) (by omega)
    rw [if_neg (by omega), Nat.add_sub_cancel_left, hzero _ (by omega)] at hbit
    exact hbit.symm
  · intro hzero i hi
    rw [h i hi]
    split_ifs with hin
    · cases fill with
      | false => rfl
      | true => exact absurd (hfill rfl) (ne_true_of_eq_false (hzero 0 hpos))
    · exact hzero _ (by omega)

/-- A shift of a field to the bottom of a word. -/
def Extends (shift : BitVec 32 → ℕ → BitVec 32) (fill : BitVec 32 → Bool) : Prop :=
  ∀ data n i, i < 32 → (shift data n).getMsbD i = if i < n then fill data else data.getMsbD (i - n)

theorem extends_ushiftRight : Extends (· >>> ·) fun _ ↦ false := by
  intro data n i hi
  rw [getMsbD_ushiftRight, decide_eq_true hi, Bool.true_and]
  split_ifs with h
  · rw [decide_eq_true h]
    rfl
  · rw [decide_eq_false h]
    rfl

theorem extends_sshiftRight : Extends sshiftRight fun data ↦ data.getMsbD 0 := by
  intro data n i hi
  rw [getMsbD_sshiftRight, decide_eq_true hi, Bool.true_and]
  rfl

/-- The bits that an extraction does not see are clear. -/
def Reaches (word2 : BitVec 16) (ea : BitVec 32) (s : Processor) : Prop :=
  word2.getLsbD 11 = true ∨
    ∀ k < (s.fieldWidth word2).toNat, s.fieldBit ea (s.fieldOffset word2).toInt k = true →
    (s.fieldOffset word2).toNat + k < 32 ∨ 8 ≤ k ∧ (s.fieldOffset word2).toNat + k < 40

theorem decide_and_eq_iff {P : Prop} [Decidable P] {b : Bool} :
    (decide P && b) = b ↔ (b = true → P) := by
  cases b <;> simp

/-- What the extractions compute: the bits of the field that are seen. -/
theorem exists_bfext (h : s.cpuType.is010Less = false) (shift : BitVec 32 → ℕ → BitVec 32)
    (word2 : BitVec 16) (ea : BitVec 32) :
    ∃ (data : BitVec 32) (s' : Processor), bfext shift word2 ea s =
        some ((s'.setField (data >>> 24) (shift data (32 - (s.fieldWidth word2).toNat))).setDa
        (fieldRegister word2)
          (shift data (32 - (s.fieldWidth word2).toNat))) ∧ Kept s s' ∧
      (Reaches word2 ea s ↔ ∀ k < (s.fieldWidth word2).toNat,
        data.getMsbD k = s.fieldBit ea (s.fieldOffset word2).toInt k) ∧
      data.getMsbD 0 = s.fieldBit ea (s.fieldOffset word2).toInt 0 := by
  obtain ⟨ea', o, hr, hbegins, hoffset⟩ := exists_normalizeRegister word2 ea s
  obtain ⟨hpos, hw⟩ := fieldWidth_spec word2 s
  have ho : o.toNat < 32 := by omega
  obtain ⟨data, s', hread, hkept, hdata⟩ := exists_readField h (o + s.fieldWidth word2) ea' hw ho
  have hseen : ∀ k < (s.fieldWidth word2).toNat, data.getMsbD k =
      (decide (Seen o.toNat (span (o + s.fieldWidth word2)) k) &&
      s.fieldBit ea (s.fieldOffset word2).toInt k) :=
    fun k hk ↦ by rw [hdata k hk, Core.fieldBit_eq hbegins]
  refine ⟨data, s', ?_, hkept, ?_, ?_⟩
  · simp only [bfext, hr, hread, bind_eq_bind, bind_some, toNat_sub_width hw]
  · have hreaches : Reaches word2 ea s ↔ ∀ k < (s.fieldWidth word2).toNat,
        s.fieldBit ea (s.fieldOffset word2).toInt k = true →
        Seen o.toNat (span (o + s.fieldWidth word2)) k := by
      rw [Reaches]
      rcases hoffset with ⟨hregister, hlt⟩ | ⟨himmediate, rfl, -⟩
      · exact iff_of_true (.inl hregister) fun k hk _ ↦ seen_of_lt rfl rfl hlt hw hk
      · rw [or_iff_right (ne_true_of_eq_false himmediate)]
        exact forall₂_congr fun k hk ↦ imp_congr_right fun _ ↦ (seen_iff rfl rfl ho hw hk).symm
    rw [hreaches]
    exact forall₂_congr fun k hk ↦ by rw [hseen k hk, decide_and_eq_iff]
  · have hfirst : Seen o.toNat (span (o + s.fieldWidth word2)) 0 :=
      (seen_iff rfl rfl ho hw hpos).mpr (.inl ho)
    rw [hseen 0 hpos, decide_eq_true hfirst, Bool.true_and]

theorem describes_field {data field : BitVec 32} {fill : Bool} (r : Fin 16) (value : BitVec 32)
    (hpos : 0 < w) (hle : w ≤ 32) (hfirst : data.getMsbD 0 = f 0) (hfill : fill = true → f 0 = true)
    (hfield : IsExtension field fill f w) :
      Describes f w ((s'.setField (data >>> 24) field).setDa r value) where
  nFlag := by
    rw [nFlag_setDa, setField, getLsbD_nFlag, hfirst]
  zFlag := by
    rw [notZFlag_setDa]
    exact isExtension_eq_zero hpos hle hfill hfield

theorem isExtension_shift {shift : BitVec 32 → ℕ → BitVec 32} {fill : BitVec 32 → Bool}
    (hshift : Extends shift fill) (hle : w ≤ 32) (data : BitVec 32) :
    IsExtension (shift data (32 - w)) (fill data) f w ↔ ∀ k < w, data.getMsbD k = f k := by
  constructor
  · intro h k hk
    have hbit := h (32 - w + k) (by omega)
    rwa [hshift _ _ _ (by omega), if_neg (by omega), if_neg (by omega),
      Nat.add_sub_cancel_left] at hbit
  · intro h i hi
    rw [hshift _ _ _ hi]
    split_ifs with hin
    · rfl
    · exact h _ (by omega)

theorem bfext_correct_iff {shift : BitVec 32 → ℕ → BitVec 32} {fill : BitVec 32 → Bool}
    {t : Bool → Bool} (h : s.cpuType.is010Less = false)
    (hexec : op.exec word2 ea s = bfext shift word2 ea s) (hshift : Extends shift fill)
    (hfill : ∀ data, fill data = t (data.getMsbD 0)) (htop : t false = false)
    (hleaves : ∀ s', op.Leaves s s' ea (s.fieldOffset word2).toInt (s.fieldWidth word2).toNat
        (s.fieldBit ea (s.fieldOffset word2).toInt) (fieldRegister word2) ↔
      Describes (s.fieldBit ea (s.fieldOffset word2).toInt) (s.fieldWidth word2).toNat s' ∧
        (∃ value, IsExtension value (t (s.fieldBit ea (s.fieldOffset word2).toInt 0))
          (s.fieldBit ea (s.fieldOffset word2).toInt) (s.fieldWidth word2).toNat ∧
            s'.da = update s.da (fieldRegister word2) value) ∧ s'.memory = s.memory) :
    op.Correct word2 ea s ↔ Reaches word2 ea s := by
  obtain ⟨hpos, hw⟩ := fieldWidth_spec word2 s
  obtain ⟨data, s', hrun, hkept, hreaches, hfirst⟩ := exists_bfext h shift word2 ea
  rw [correct_iff_of_exec (hexec.trans hrun), hleaves, hreaches]
  have hda : ∀ value, ((s'.setField (data >>> 24) value).setDa (fieldRegister word2) value).da =
      update s.da (fieldRegister word2) value := fun value ↦ by
    rw [da_setDa_eq, ← hkept.da]
    rfl
  constructor
  · rintro ⟨-, ⟨value, hvalue, hregister⟩, -⟩
    rw [hda] at hregister
    have heq := congrFun hregister (fieldRegister word2)
    rw [update_self, update_self] at heq
    rw [← heq, ← hfirst, ← hfill] at hvalue
    exact (isExtension_shift hshift hw data).mp hvalue
  · intro hall
    have hextension := (isExtension_shift hshift hw data).mpr hall
    rw [hfill, hfirst] at hextension
    refine ⟨describes_field _ _ hpos hw hfirst ?_ hextension, ⟨_, hextension, hda _⟩, ?_⟩
    · cases s.fieldBit ea (s.fieldOffset word2).toInt 0 with
      | false => exact fun htrue ↦ absurd (htop.symm.trans htrue) Bool.false_ne_true
      | true => exact fun _ ↦ rfl
    · rw [memory_setDa]
      exact hkept.memory

theorem bfextu_correct_iff (h : s.cpuType.is010Less = false) :
    bfextu.Correct word2 ea s ↔ Reaches word2 ea s :=
  bfext_correct_iff (t := fun _ ↦ false) h rfl extends_ushiftRight (fun _ ↦ rfl) rfl fun _ ↦ Iff.rfl

theorem bfexts_correct_iff (h : s.cpuType.is010Less = false) :
    bfexts.Correct word2 ea s ↔ Reaches word2 ea s :=
  bfext_correct_iff (t := id) h rfl extends_sshiftRight (fun _ ↦ rfl) rfl fun _ ↦ Iff.rfl

/-! ### Changes -/

theorem changes_of_wrote {offset : ℤ} {bits : ℕ → Bool} (hwrote : Wrote s s' ea' bits)
    (hbegins : BeginsAt ea offset ea' o) (hle : o + w ≤ 40)
    (hbits : ∀ q < 40, bits q = if o ≤ q ∧ q < o + w then new (q - o) else s.bit ea' q) :
    Changes s s' ea offset w new where
  field k hk := by
    rw [Core.fieldBit_eq hbegins, hwrote.core.bit _ (by omega), hbits _ (by omega),
      if_pos (by omega), Nat.add_sub_cancel_left]
  other l j hother := by
    by_cases hl : ∃ i < 5, l = s.location (ea' + BitVec.ofNat 32 i)
    · obtain ⟨i, hi, rfl⟩ := hl
      by_cases hj : j < 8
      · have hbit := hwrote.core.bit (8 * i + j) (by omega)
        have hnot : ¬(o ≤ 8 * i + j ∧ 8 * i + j < o + w) := by
          rintro ⟨hlow, hhigh⟩
          refine hother (8 * i + j - o) (by omega) ?_
          rw [(hbegins _).1, (hbegins _).2, show o + (8 * i + j - o) = 8 * i + j by omega]
          exact ⟨by rw [show (8 * i + j) / 8 = i by omega], by omega⟩
        rw [hbits _ (by omega), if_neg hnot, Core.bit, Core.bit, Core.byte, Core.byte,
          Core.location,
          hwrote.core.cpuType,
          show (8 * i + j) / 8 = i by omega, show (8 * i + j) % 8 = j by omega] at hbit
        exact hbit
      · rw [getMsbD_of_ge _ _ (Nat.le_of_not_lt hj), getMsbD_of_ge _ _ (Nat.le_of_not_lt hj)]
    · rw [hwrote.core.other l fun i hi h ↦ hl ⟨i, hi, h⟩]

/-- The field in the double word, and behind it. -/
def newBits (s : Processor) (ea : BitVec 32) (o w n : ℕ) (new : ℕ → Bool) (q : ℕ) : Bool :=
  if q < n then if o ≤ q ∧ q < o + w then new (q - o) else s.bit ea q else s.bit ea q

theorem exists_writeField (h : s.cpuType.is010Less = false) {size : BitVec 32}
    (hsize : o + w ≤ span size ∨ 32 ≤ span size) (data : BitVec 32) (new : ℕ → Bool) (hdata : ∀ q <
    span size, data.getMsbD q = if o ≤ q ∧ q < o + w then new (q - o) else s.bit ea q) :
    ∃ s', s.writeData size ea data = some s' ∧ Wrote s s' ea (newBits s ea o w 32 new) := by
  have hspan := span_le size
  obtain ⟨s', hwrite, hwrote⟩ := exists_writeData h size ea data
  refine ⟨s', hwrite, hwrote.congr fun q hq ↦ ?_⟩
  rw [newBits]
  by_cases hin : q < span size
  · rw [if_pos hin, if_pos (by omega), hdata q hin]
  · rw [if_neg hin]
    by_cases hlong : q < 32
    · rw [if_pos hlong, if_neg (by omega)]
    · rw [if_neg hlong]

/-- The fifth byte is as it was when it is read again. -/
theorem getMsbD_fifth_wrote
    {j : ℕ} (hj : j < 8) (hwrote : Wrote s s' ea (newBits s ea o w 32 new)) :
    (s'.byte (ea + 4#32)).getMsbD j = s.bit ea (32 + j) := by
  have hbyte := getMsbD_byte_fifth s'.toCore ea (q := 32 + j) (by omega)
  rwa [Nat.add_sub_cancel_left, decide_eq_true (by omega), Bool.true_and,
    hwrote.core.bit _ (by omega), newBits, if_neg (by omega)] at hbyte

theorem wrote_fifth (hwrote : Wrote s s' ea (newBits s ea o w 32 new)) (ho : o ≤ 32)
    (data : BitVec 32) (hdata : ∀ j < 8,
      data.getMsbD (24 + j) = if 32 + j < o + w then new (32 + j - o) else s.bit ea (32 + j)) :
    Wrote s ((s'.withCore (s'.access 1#16 Core.szByte)).write8 (ea + 4#32) (data.setWidth 8)) ea
      (newBits s ea o w 40 new) := by
  have hread := (kept_access s' 1#16 Core.szByte).wrote ea
  refine ((hwrote.trans hread).trans (wrote_write8_fifth _ ea (data.setWidth 8))).congr fun q hq ↦
    ?_
  rw [newBits, if_pos hq]
  by_cases hlong : q < 32
  · have hbit := (hwrote.trans hread).core.bit q hq
    rw [hwrote.core.bit q hq, newBits, if_pos hlong] at hbit
    rw [if_pos hlong, hbit]
  · rw [if_neg hlong, getMsbD_setWidth, decide_eq_true (by omega), Bool.true_and,
      show q - 32 + 32 - 8 =
      24 + (q - 32) by omega, hdata _ (by omega), show 32 + (q - 32) = q by omega]
    exact if_congr (by omega) rfl rfl

/-- An operation that changes the bits under a mask. -/
def IsMasked (op : BitVec 32 → BitVec 32 → BitVec 32) (n : Bool → Bool) : Prop :=
  ∀ a m q, q < 32 → (op a m).getMsbD q = if m.getMsbD q then n (a.getMsbD q) else a.getMsbD q

theorem isMasked_or : IsMasked (· ||| ·) fun _ ↦ true := by
  intro a m q _
  rw [getMsbD_or]
  cases m.getMsbD q <;> simp

theorem isMasked_andNot : IsMasked (· &&& ~~~·) fun _ ↦ false := by
  intro a m q hq
  rw [getMsbD_and, getMsbD_not, decide_eq_true hq]
  cases m.getMsbD q <;> simp

theorem isMasked_xor : IsMasked (· ^^^ ·) Bool.not := by
  intro a m q _
  rw [getMsbD_xor]
  cases m.getMsbD q <;> simp

section Fields

variable {size width offset data : BitVec 32}

theorem long_eq_zero (hsize : offset.toNat + width.toNat ≤ span size ∨ 32 ≤ span size)
    (hw : width.toNat ≤ 32) (hdata : ∀ q, data.getMsbD q = (decide (q < span size) && s.bit ea q)) :
    data &&& maskBase width >>> offset = 0#32 ↔
      ∀ k < width.toNat, offset.toNat + k < 32 → s.bit ea (offset.toNat + k) = false := by
  have hspan := span_le size
  rw [eq_zero_iff]
  constructor
  · intro h k hk hlong
    have hbit := h (offset.toNat + k) hlong
    rwa [getMsbD_and, getMsbD_maskLong hw hlong, hdata, decide_eq_true (by omega),
      decide_eq_true (by omega), Bool.true_and, Bool.and_true] at hbit
  · intro h q hq
    rw [getMsbD_and, getMsbD_maskLong hw hq, hdata]
    by_cases hin : offset.toNat ≤ q ∧ q < offset.toNat + width.toNat
    · have hbit := h (q - offset.toNat) (by omega) (by omega)
      rw [show offset.toNat + (q - offset.toNat) = q by omega] at hbit
      rw [hbit, Bool.and_false, Bool.false_and]
    · rw [decide_eq_false hin, Bool.and_false]

theorem byte_eq_zero {byte : BitVec 8} (ho : offset.toNat ≤ 8) (hw : width.toNat ≤ 32)
    (hbyte : ∀ j < 8, byte.getMsbD j = s.bit ea (32 + j)) :
    byte.setWidth 32 &&& (maskBase width &&& 0xff#32) <<< (8#32 - offset) = 0#32 ↔
      ∀ k < width.toNat, 32 ≤ offset.toNat + k → s.bit ea (offset.toNat + k) = false := by
  rw [eq_zero_iff]
  constructor
  · intro h k hk hlong
    have hbit := h (24 + (offset.toNat + k - 32)) (by omega)
    rwa [getMsbD_and, getMsbD_maskByte hw ho (by omega), getMsbD_setWidth,
      decide_eq_true (by omega : 32 - 8 ≤ 24 + (offset.toNat + k - 32)), Bool.true_and,
      show 24 + (offset.toNat + k - 32) + 8 - 32 =
          offset.toNat + k - 32 by omega, hbyte _ (by omega),
      show 32 + (offset.toNat + k - 32) =
          offset.toNat + k by omega, decide_eq_true (by omega), Bool.and_true] at hbit
  · intro h q hq
    rw [getMsbD_and, getMsbD_setWidth]
    by_cases hlow : 24 ≤ q
    · obtain ⟨j, rfl⟩ := Nat.exists_eq_add_of_le hlow
      rw [getMsbD_maskByte hw ho (by omega), show 24 + j + 8 - 32 = j by omega, hbyte _ (by omega)]
      by_cases hin : 32 + j < offset.toNat + width.toNat
      · have hbit := h (32 + j - offset.toNat) (by omega) (by omega)
        rw [show offset.toNat + (32 + j - offset.toNat) = 32 + j by omega] at hbit
        rw [hbit, Bool.and_false, Bool.false_and]
      · rw [decide_eq_false hin, Bool.and_false]
    · rw [decide_eq_false (by omega), Bool.false_and, Bool.false_and]

theorem field_eq_zero {byte : BitVec 8}
    (hsize : offset.toNat + width.toNat ≤ span size ∨ 32 ≤ span size) (ho : offset.toNat ≤ 8)
    (hw : width.toNat ≤ 32) (hdata : ∀ q, data.getMsbD q = (decide (q < span size) && s.bit ea q))
    (hbyte : ∀ j < 8, byte.getMsbD j = s.bit ea (32 + j)) : data &&& maskBase width >>> offset |||
        byte.setWidth 32 &&& (maskBase width &&& 0xff#32) <<< (8#32 - offset) = 0#32 ↔
      ∀ k < width.toNat, s.bit ea (offset.toNat + k) = false := by
  rw [or_eq_zero_iff, long_eq_zero hsize hw hdata, byte_eq_zero ho hw hbyte]
  constructor
  · rintro ⟨hbelow, habove⟩ k hk
    rcases Nat.lt_or_ge (offset.toNat + k) 32 with hlt | hge
    · exact hbelow k hk hlt
    · exact habove k hk hge
  · exact fun hzero ↦ ⟨fun k hk _ ↦ hzero k hk, fun k hk _ ↦ hzero k hk⟩

theorem field_eq_zero_of_le (hsize : offset.toNat + width.toNat ≤ span size ∨ 32 ≤ span size)
    (hw : width.toNat ≤ 32) (hdata : ∀ q, data.getMsbD q = (decide (q < span size) && s.bit ea q))
    (hle : offset.toNat + width.toNat ≤ 32) : data &&& maskBase width >>> offset = 0#32 ↔
    ∀ k < width.toNat, s.bit ea (offset.toNat + k) = false := by
  rw [long_eq_zero hsize hw hdata]
  exact ⟨fun hzero k hk ↦ hzero k hk (by omega), fun hzero k hk _ ↦ hzero k hk⟩

theorem lt_add_iff (ho : offset.toNat < 32) (hw : width.toNat ≤ 32) :
    32#32 < width + offset ↔ 32 < offset.toNat + width.toNat := by
  rw [lt_def, toNat_add, Nat.mod_eq_of_lt (by omega), Nat.add_comm]
  rfl

variable {s' : Processor} {o : ℕ}

theorem wrote_setField {bits : ℕ → Bool} (h : Wrote s s' ea bits) (nFlag notZFlag : BitVec 32) :
    Wrote s (s'.setField nFlag notZFlag) ea bits :=
  ⟨h.da, h.core.cpuType, h.core.a7, h.core.bit, h.core.other⟩

theorem newBits_kept (h : Kept s s') (o w n : ℕ) (new : ℕ → Bool) :
    newBits s' ea o w n new = newBits s ea o w n new := by
  funext q
  rw [newBits, newBits, h.bit]

/-- Where there is no fifth byte the field is in the double word. -/
theorem newBits_of_le {w : ℕ} (h : o + w ≤ 32) (new : ℕ → Bool) (q : ℕ) :
    newBits s ea o w 32 new q = newBits s ea o w 40 new q := by
  rw [newBits, newBits]
  split_ifs <;> first | rfl | omega

theorem exists_modifyAt (h : s.cpuType.is010Less = false) (ea : BitVec 32)
    {op : BitVec 32 → BitVec 32 → BitVec 32} {n : Bool → Bool} (hop : IsMasked op n)
    (hsize : offset.toNat + width.toNat ≤ span size ∨ 32 ≤ span size) (ho : offset.toNat < 8)
    (hw : width.toNat ≤ 32) : ∃ s', s.modifyAt op size width ea offset = some s' ∧
      Describes (fun k ↦ s.bit ea (offset.toNat + k)) width.toNat s' ∧ Wrote s s' ea
      (newBits s ea offset.toNat width.toNat 40 fun k ↦ n (s.bit ea (offset.toNat + k))) := by
  obtain ⟨data, s₁, hread, hkept, hdata⟩ := exists_readData h size ea
  have hspan := span_le size
  have hlong : ∀ q < span size, (op data (maskBase width >>> offset)).getMsbD q =
      if offset.toNat ≤ q ∧ q < offset.toNat + width.toNat
      then n (s₁.bit ea (offset.toNat + (q - offset.toNat)))
      else s₁.bit ea q := by
    intro q hq
    rw [hop _ _ _ (by omega), getMsbD_maskLong hw (by omega), hdata, decide_eq_true hq,
      Bool.true_and, hkept.bit]
    by_cases hin : offset.toNat ≤ q ∧ q < offset.toNat + width.toNat
    · rw [if_pos (decide_eq_true hin), if_pos hin,
        show offset.toNat + (q - offset.toNat) = q by omega]
    · rw [if_neg (fun hmask ↦ hin (of_decide_eq_true hmask)), if_neg hin]
  have h₁ : s₁.cpuType.is010Less = false := by rwa [hkept.cpuType]
  obtain ⟨s₂, hwrite, hwrote⟩ :=
    exists_writeField h₁ hsize _ (fun k ↦ n (s₁.bit ea (offset.toNat + k))) hlong
  have hnFlag : (((data <<< offset) >>> 24).getLsbD 7) = s.bit ea (offset.toNat + 0) := by
    rw [getLsbD_nFlag, shiftLeft_eq', getMsbD_shiftLeft, Nat.zero_add, hdata,
      decide_eq_true (by omega)]
    rfl
  rw [modifyAt, hread]
  simp only [bind_eq_bind, bind_some, hwrite]
  by_cases hfifth : 32#32 < width + offset
  · have hbyte : ∀ j < 8, (s₂.byte (ea + 4#32)).getMsbD j = s.bit ea (32 + j) := fun j hj ↦ by
      rw [getMsbD_fifth_wrote hj hwrote, hkept.bit]
    have hfield : ∀ j < 8, (op ((s₂.byte (ea + 4#32)).setWidth 32)
        ((maskBase width &&& 0xff#32) <<< (8#32 - offset))).getMsbD (24 + j) =
        if 32 + j < offset.toNat + width.toNat
          then n (s₁.bit ea (offset.toNat + (32 + j - offset.toNat)))
        else s₁.bit ea (32 + j) := by
      intro j hj
      rw [hop _ _ _ (by omega), getMsbD_maskByte hw ho.le hj, getMsbD_setWidth,
        decide_eq_true (by omega : 32 - 8 ≤ 24 + j), Bool.true_and,
        show 24 + j + 8 - 32 = j by omega, hbyte j hj,
        hkept.bit, show offset.toNat + (32 + j - offset.toNat) = 32 + j by omega]
      exact if_congr decide_eq_true_iff rfl rfl
    have hall := wrote_setField ((hkept.wrote ea).trans (wrote_fifth hwrote (by omega) _ hfield))
      ((data <<< offset) >>> 24) (data &&& maskBase width >>> offset |||
        (s₂.byte (ea + 4#32)).setWidth 32 &&& (maskBase width &&& 0xff#32) <<< (8#32 - offset))
    rw [newBits_kept hkept, hkept.bit] at hall
    exact ⟨_, if_pos hfifth, ⟨hnFlag, field_eq_zero hsize ho.le hw hdata hbyte⟩, hall⟩
  · have hle : offset.toNat + width.toNat ≤ 32 :=
      Nat.le_of_not_lt (mt (lt_add_iff (by omega) hw).mpr hfifth)
    have hall :=
      wrote_setField ((hkept.wrote ea).trans (hwrote.congr fun q _ ↦ newBits_of_le hle _ q))
      ((data <<< offset) >>> 24) (data &&& maskBase width >>> offset)
    rw [newBits_kept hkept, hkept.bit] at hall
    exact ⟨_, if_neg hfifth, ⟨hnFlag, field_eq_zero_of_le hsize hw hdata hle⟩, hall⟩

theorem fieldBit_funext {s : Core} {ea ea' : BitVec 32} {offset : ℤ}
    (h : BeginsAt ea offset ea' o) : (fun k ↦ s.bit ea' (o + k)) = s.fieldBit ea offset :=
  funext fun k ↦ (Core.fieldBit_eq h k).symm

theorem changes_of_newBits {ea' : BitVec 32} {offset : ℤ} {w : ℕ} {new : ℕ → Bool}
    (hwrote : Wrote s s' ea' (newBits s ea' o w 40 new)) (hbegins : BeginsAt ea offset ea' o)
    (hle : o + w ≤ 40) : Changes s s' ea offset w new :=
  changes_of_wrote hwrote hbegins hle fun q hq ↦ by rw [newBits, if_pos hq]

/-- An access of the size of the field covers it, or all of a double word. -/
theorem size_covers (ho : offset.toNat < 32) (hw : width.toNat ≤ 32) :
    offset.toNat + width.toNat ≤ span (offset + width) ∨ 32 ≤ span (offset + width) := by
  rw [span_add rfl rfl (by omega)]
  split_ifs <;> omega

end Fields

theorem modify_correct {f : BitVec 32 → BitVec 32 → BitVec 32} {n : Bool → Bool}
    {size o : BitVec 32} (h : s.cpuType.is010Less = false) (hf : IsMasked f n) (ho : o.toNat < 8)
    (hbegins : BeginsAt ea (s.fieldOffset word2).toInt ea' o.toNat)
    (hsize : o.toNat + (s.fieldWidth word2).toNat ≤ span size ∨ 32 ≤ span size)
    (hexec : op.exec word2 ea s = s.modifyAt f size (s.fieldWidth word2) ea' o)
    (hleaves : ∀ s', op.Leaves s s' ea (s.fieldOffset word2).toInt (s.fieldWidth word2).toNat
        (s.fieldBit ea (s.fieldOffset word2).toInt) (fieldRegister word2) ↔
      Describes (s.fieldBit ea (s.fieldOffset word2).toInt)
      (s.fieldWidth word2).toNat s' ∧ s'.da = s.da ∧
        Changes s s' ea (s.fieldOffset word2).toInt (s.fieldWidth word2).toNat
          fun k ↦ n (s.fieldBit ea (s.fieldOffset word2).toInt k)) : op.Correct word2 ea s := by
  obtain ⟨-, hw⟩ := fieldWidth_spec word2 s
  obtain ⟨s', hrun, hdescribes, hwrote⟩ := exists_modifyAt h ea' hf hsize ho hw
  have hbits : (fun k ↦ n (s.bit ea' (o.toNat + k))) = fun k ↦
      n (s.fieldBit ea (s.fieldOffset word2).toInt k) :=
    funext fun k ↦ by rw [Core.fieldBit_eq hbegins]
  rw [fieldBit_funext hbegins] at hdescribes
  rw [hbits] at hwrote
  exact ⟨s', hexec.trans hrun,
    (hleaves s').mpr ⟨hdescribes, hwrote.da, changes_of_newBits hwrote hbegins (by omega)⟩⟩

section

variable (h : s.cpuType.is010Less = false)
include h

theorem bfset_correct : bfset.Correct word2 ea s := by
  obtain ⟨ea', o, hr, ho, hbegins⟩ := exists_normalize ea (s.fieldOffset word2)
  obtain ⟨-, hw⟩ := fieldWidth_spec word2 s
  refine modify_correct h isMasked_or ho hbegins (size_covers (by omega) hw) ?_ fun _ ↦ Iff.rfl
  rw [exec, xeec0Bfset, bfmodify, hr]

theorem bfclr_correct : bfclr.Correct word2 ea s := by
  obtain ⟨ea', o, hr, ho, hbegins⟩ := exists_normalize ea (s.fieldOffset word2)
  obtain ⟨-, hw⟩ := fieldWidth_spec word2 s
  refine modify_correct h isMasked_andNot ho hbegins (size_covers (by omega) hw) ?_ fun _ ↦ Iff.rfl
  rw [exec, xecc0Bfclr, bfmodify, hr]

theorem bfchg_correct : bfchg.Correct word2 ea s := by
  obtain ⟨ea', o, hr, ho, hbegins⟩ := exists_normalize ea (s.fieldOffset word2)
  refine modify_correct h isMasked_xor ho hbegins
    (.inr (by decide : 32 ≤ span 32#32)) ?_ fun _ ↦ Iff.rfl
  rw [exec, xeac0Bfchg, hr]
  rfl

/-- BFTST reads as the instructions that change a field do. -/
theorem bftst_correct : bftst.Correct word2 ea s := by
  obtain ⟨ea', o, hr, ho, hbegins⟩ := exists_normalize ea (s.fieldOffset word2)
  obtain ⟨hpos, hw⟩ := fieldWidth_spec word2 s
  obtain ⟨data, s', hread, hkept, hdata⟩ := exists_readData h (o + s.fieldWidth word2) ea'
  have hspan := span_le (o + s.fieldWidth word2)
  have hsize := size_covers (by omega : o.toNat < 32) hw
  have hmask : (0x80000000#32 >>> o).getMsbD o.toNat = true := by
    rw [ushiftRight_eq', getMsbD_ushiftRight, Nat.sub_self, decide_eq_true (by omega),
      decide_eq_false (Nat.lt_irrefl _)]
    decide
  have hnFlag :
      (((data &&& 0x80000000#32 >>> o) <<< o) >>> 24).getLsbD 7 = s.bit ea' (o.toNat + 0) := by
    rw [getLsbD_nFlag, shiftLeft_eq', getMsbD_shiftLeft, Nat.zero_add, getMsbD_and, hmask,
      Bool.and_true, hdata, decide_eq_true (by omega)]
    rfl
  have hrun : bftst.exec word2 ea s = if 32#32 < s.fieldWidth word2 + o then
      some ((s'.withCore (s'.access 1#16 Core.szByte)).setField
        (((data &&& 0x80000000#32 >>> o) <<< o) >>> 24)
        (data &&& maskBase (s.fieldWidth word2) >>> o |||
          (s'.byte (ea' + 4#32)).setWidth 32 &&&
          (maskBase (s.fieldWidth word2) &&& 0xff#32) <<< (8#32 - o)))
      else some (s'.setField (((data &&& 0x80000000#32 >>> o) <<< o) >>> 24)
        (data &&& maskBase (s.fieldWidth word2) >>> o)) := by
    simp only [exec, xe8c0Bftst, hr, hread, bind_eq_bind, bind_some]
    rfl
  by_cases hfifth : 32#32 < s.fieldWidth word2 + o
  · have hbyte : ∀ j < 8, (s'.byte (ea' + 4#32)).getMsbD j = s.bit ea' (32 + j) := fun j hj ↦ by
      have hfifth := getMsbD_byte_fifth s'.toCore ea' (q := 32 + j) (by omega)
      rwa [Nat.add_sub_cancel_left, decide_eq_true (by omega), Bool.true_and, hkept.bit] at hfifth
    have hall := hkept.trans (kept_access s' 1#16 Core.szByte)
    refine ⟨_, hrun.trans (if_pos hfifth), ?_, hall.da, hall.memory⟩
    rw [← fieldBit_funext hbegins]
    exact ⟨hnFlag, field_eq_zero hsize ho.le hw hdata hbyte⟩
  · have hle : o.toNat + (s.fieldWidth word2).toNat ≤ 32 :=
      Nat.le_of_not_lt (mt (lt_add_iff (by omega) hw).mpr hfifth)
    refine ⟨_, hrun.trans (if_neg hfifth), ?_, hkept.da, hkept.memory⟩
    rw [← fieldBit_funext hbegins]
    exact ⟨hnFlag, field_eq_zero_of_le hsize hw hdata hle⟩

end

/-! ### BFFFO -/

theorem findOne_eq (data : BitVec 32) (n : ℕ) (offset : BitVec 32) : findOne data n offset =
    if offset.toInt + firstOne (fun k ↦ data.getLsbD (n - 1 - k)) n < 2 ^ 31 then
      some (offset + BitVec.ofNat 32 (firstOne (fun k ↦ data.getLsbD (n - 1 - k)) n))
      else none := by
  have hlt := toInt_lt (x := offset)
  induction n generalizing offset with
  | zero =>
    rw [findOne, firstOne, if_pos (by omega), BitVec.add_zero]
  | succ n ih =>
    have hstep : (fun k ↦ data.getLsbD (n + 1 - 1 - (k + 1))) = fun k ↦
        data.getLsbD (n - 1 - k) := by
      funext k
      congr 1
      omega
    rw [findOne, firstOne, hstep, show n + 1 - 1 - 0 = n from rfl]
    by_cases hbit : data.getLsbD n = true
    · rw [if_pos hbit, if_pos hbit, if_pos (by omega), BitVec.add_zero]
    · rw [if_neg hbit, if_neg hbit]
      by_cases hmax : offset = 0x7fffffff#32
      · have hint : (0x7fffffff#32).toInt = 2 ^ 31 - 1 := by decide
        rw [if_pos hmax, hmax, hint, if_neg (by omega)]
      · have hnat : offset.toNat ≠ 0x7fffffff := fun h ↦ hmax (eq_of_toNat_eq h)
        have hint : (offset + 1#32).toInt = offset.toInt + 1 := by
          rw [toInt_eq_toNat_cond, toInt_eq_toNat_cond, toNat_add, toNat_ofNat]
          split_ifs <;> omega
        rw [if_neg hmax, ih _ toInt_lt, hint, BitVec.add_assoc, ofNat_add_ofNat, Nat.add_comm 1]
        refine if_congr ?_ rfl rfl
        omega

/-- The first one is in the bytes that are read, and its place is a number with a sign. -/
def FindsFirst (word2 : BitVec 16) (ea : BitVec 32) (s : Processor) : Prop :=
  let offset := (s.fieldOffset word2).toInt
  let first := firstOne (s.fieldBit ea offset) (s.fieldWidth word2).toNat
  offset + first < 2 ^ 31 ∧ (first < (s.fieldWidth word2).toNat →
    (offset % 8).toNat + first < span (s.fieldOffset word2 + s.fieldWidth word2) ∨
    32 ≤ (offset % 8).toNat + first)

theorem index_of_beginsAt {offset : ℤ} (h : BeginsAt ea offset ea' o) (ho : o < 8) :
    (offset % 8).toNat = o := by
  have hindex := (h 0).2
  rw [fieldIndex, Nat.add_zero, Nat.mod_eq_of_lt ho] at hindex
  omega

theorem bfffo_correct_iff (h : s.cpuType.is010Less = false) :
    bfffo.Correct word2 ea s ↔ FindsFirst word2 ea s := by
  obtain ⟨ea', o, hr, ho, hbegins⟩ := exists_normalize ea (s.fieldOffset word2)
  obtain ⟨hpos, hw⟩ := fieldWidth_spec word2 s
  obtain ⟨data, s', hread, hkept, hdata⟩ :=
    exists_readField h (s.fieldOffset word2 + s.fieldWidth word2) ea' hw (by omega : o.toNat < 32)
  have hspan := span_le (s.fieldOffset word2 + s.fieldWidth word2)
  have hseen : ∀ k < (s.fieldWidth word2).toNat,
      Seen o.toNat (span (s.fieldOffset word2 + s.fieldWidth word2)) k ↔
      ((s.fieldOffset word2).toInt % 8).toNat + k <
      span (s.fieldOffset word2 + s.fieldWidth word2) ∨
        32 ≤ ((s.fieldOffset word2).toInt % 8).toNat + k := fun k hk ↦ by
    rw [index_of_beginsAt hbegins ho, Seen]
    omega
  have hfirst : firstOne (fun k ↦ (data >>> (32#32 - s.fieldWidth word2)).getLsbD
      ((s.fieldWidth word2).toNat - 1 - k)) (s.fieldWidth word2).toNat = firstOne (fun k ↦
        decide (Seen o.toNat (span (s.fieldOffset word2 + s.fieldWidth word2)) k) &&
          s.fieldBit ea (s.fieldOffset word2).toInt k) (s.fieldWidth word2).toNat :=
          firstOne_congr fun k hk ↦ by
    rw [Core.fieldBit_eq hbegins, ← hdata k hk, ushiftRight_eq', getLsbD_ushiftRight,
      toNat_sub_width hw, getMsbD_eq_getLsbD, decide_eq_true (by omega), Bool.true_and]
    congr 1
    omega
  have hsame := firstOne_and_eq_iff (f := s.fieldBit ea (s.fieldOffset word2).toInt)
    (P := Seen o.toNat (span (s.fieldOffset word2 + s.fieldWidth word2)))
    (n := (s.fieldWidth word2).toNat)
  have hle := firstOne_le (s.fieldBit ea (s.fieldOffset word2).toInt) (s.fieldWidth word2).toNat
  have hleSeen := firstOne_le
    (fun k ↦ decide (Seen o.toNat (span (s.fieldOffset word2 + s.fieldWidth word2)) k) &&
    s.fieldBit ea (s.fieldOffset word2).toInt k) (s.fieldWidth word2).toNat
  have hrun : bfffo.exec word2 ea s =
      (findOne (data >>> (32#32 - s.fieldWidth word2)) (s.fieldWidth word2).toNat
      (s.fieldOffset word2)).bind fun found ↦ some ((s'.setField (data >>> 24)
        (data >>> (32#32 - s.fieldWidth word2))).setDa (fieldRegister word2) found) := by
    simp only [exec, xedc0Bfffo, hr, hread, bind_eq_bind, bind_some]
  rw [findOne_eq, hfirst] at hrun
  have hda : ∀ found, ((s'.setField (data >>> 24) (data >>> (32#32 - s.fieldWidth word2))).setDa
      (fieldRegister word2) found).da = update s.da (fieldRegister word2) found := fun found ↦ by
    rw [da_setDa_eq, ← hkept.da]
    rfl
  have hoffset : ∀ p, BitVec.ofInt 32 ((s.fieldOffset word2).toInt + (p : ℕ)) =
      s.fieldOffset word2 + BitVec.ofNat 32 p := fun p ↦ by
    rw [ofInt_add, ofInt_toInt, ofInt_natCast]
  rw [FindsFirst]
  constructor
  · rintro ⟨s'', hexec, -, hregister, -⟩
    rw [hrun] at hexec
    split_ifs at hexec with hlt
    · rw [bind_some] at hexec
      rw [← Option.some.inj hexec, hda, hoffset] at hregister
      have hfound := congrFun hregister (fieldRegister word2)
      rw [update_self, update_self, BitVec.add_right_inj] at hfound
      have hnat := congrArg BitVec.toNat hfound
      rw [toNat_ofNat, toNat_ofNat, Nat.mod_eq_of_lt (by omega),
        Nat.mod_eq_of_lt (by omega)] at hnat
      refine ⟨hnat ▸ hlt, fun hone ↦ (hseen _ hone).mp (hsame.mp hnat hone)⟩
    · exact absurd hexec.symm (some_ne_none _)
  · rintro ⟨hlt, hone⟩
    have hnat := hsame.mpr fun hfirst ↦ (hseen _ hfirst).mpr (hone hfirst)
    rw [hnat, if_pos hlt, bind_some] at hrun
    refine ⟨_, hrun, ⟨?_, ?_⟩, (hda _).trans (by rw [hoffset]), ?_⟩
    · have hzero :
          Seen o.toNat (span (s.fieldOffset word2 + s.fieldWidth word2)) 0 := .inl (by omega)
      rw [nFlag_setDa, setField, getLsbD_nFlag, hdata 0 hpos, decide_eq_true hzero,
        Core.fieldBit_eq hbegins]
      rfl
    · have hextension := (isExtension_shift extends_ushiftRight hw data).mpr fun k hk ↦
        (hdata k hk).trans (by rw [← Core.fieldBit_eq hbegins])
      rw [notZFlag_setDa, ← firstOne_eq_self_iff, ← hnat, firstOne_eq_self_iff, setField,
        ushiftRight_eq', toNat_sub_width hw]
      exact isExtension_eq_zero hpos hw (fun h ↦ absurd h Bool.false_ne_true) hextension
    · rw [memory_setDa]
      exact hkept.memory

/-! ### BFINS -/

section Insertion

variable {width offset value : BitVec 32}

theorem shiftByte_of_le (a : BitVec 32) (ho : offset.toNat ≤ 8) :
    shiftByte a offset = some ((a &&& 0xff#32) <<< (8#32 - offset)) := by
  have hsub : (8#32 - offset).toNat = 8 - offset.toNat := by
    rw [toNat_sub_of_le (BitVec.le_def.mpr ho)]
    rfl
  refine if_neg fun h ↦ ?_
  have hneg : (8#32 - offset).toInt < 0 := BitVec.slt_iff_toInt_lt.mp h
  rw [toInt_eq_toNat_cond, if_pos (by omega)] at hneg
  omega

theorem shiftByte_of_gt (a : BitVec 32) (ho : 8 < offset.toNat) (hlt : offset.toNat < 32) :
    shiftByte a offset = none := by
  have hsub : (8#32 - offset).toNat = 2 ^ 32 + 8 - offset.toNat := by
    rw [toNat_sub, toNat_ofNat]
    omega
  refine if_pos (BitVec.slt_iff_toInt_lt.mpr ?_)
  rw [toInt_eq_toNat_cond, if_neg (by omega), hsub]
  exact (by omega : ((2 ^ 32 + 8 - offset.toNat : ℕ) : ℤ) - (2 ^ 32 : ℕ) < 0)

/-- What is inserted, at the top of a word. -/
theorem getMsbD_insertBase (hw : width.toNat ≤ 32) (k : ℕ) :
    (value <<< (32#32 - width)).getMsbD k = value.getMsbD (32 - width.toNat + k) := by
  rw [shiftLeft_eq', getMsbD_shiftLeft, toNat_sub_width hw, Nat.add_comm]

theorem getMsbD_insertLong (hw : width.toNat ≤ 32) {q : ℕ} (hq : q < 32) {data mask : BitVec 32}
    {b : Bool} (hdata : data.getMsbD q = b)
    (hmask : mask.getMsbD q = decide (offset.toNat ≤ q ∧ q < offset.toNat + width.toNat)) :
    (data &&& ~~~mask ||| (value <<< (32#32 - width)) >>> offset).getMsbD q =
      if offset.toNat ≤ q ∧ q < offset.toNat + width.toNat
      then value.getMsbD (32 - width.toNat + (q - offset.toNat)) else b := by
  rw [getMsbD_or, getMsbD_and, getMsbD_not, hmask, hdata, ushiftRight_eq',
    getMsbD_ushiftRight, getMsbD_insertBase hw, decide_eq_true hq]
  by_cases hlow : offset.toNat ≤ q
  · rw [decide_eq_false (Nat.not_lt_of_le hlow)]
    by_cases hhigh : q < offset.toNat + width.toNat
    · rw [if_pos ⟨hlow, hhigh⟩, decide_eq_true ⟨hlow, hhigh⟩]
      simp
    · rw [if_neg (fun h ↦ hhigh h.2), decide_eq_false (fun h ↦ hhigh h.2),
        getMsbD_of_ge _ _ (by omega)]
      simp
  · rw [if_neg (fun h ↦ hlow h.1), decide_eq_false (fun h ↦ hlow h.1),
      decide_eq_true (Nat.lt_of_not_le hlow)]
    simp

theorem getMsbD_insertByte (hw : width.toNat ≤ 32) (ho : offset.toNat ≤ 8) {byte : BitVec 8} {j : ℕ}
    (hj : j < 8) {b : Bool} (hbyte : byte.getMsbD j = b) :
    (byte.setWidth 32 &&& ~~~((maskBase width &&& 0xff#32) <<< (8#32 - offset)) |||
        (value <<< (32#32 - width) &&& 0xff#32) <<< (8#32 - offset)).getMsbD (24 + j) =
      if 32 + j < offset.toNat + width.toNat
      then value.getMsbD (32 - width.toNat + (32 + j - offset.toNat)) else b := by
  rw [getMsbD_or, getMsbD_and, getMsbD_not, getMsbD_maskByte hw ho hj, getMsbD_fifth _ ho hj,
    getMsbD_insertBase hw, getMsbD_setWidth, decide_eq_true (by omega : 32 - 8 ≤ 24 + j),
    show 24 + j + 8 - 32 = j by omega, hbyte, decide_eq_true (by omega : 24 + j < 32)]
  by_cases hin : 32 + j < offset.toNat + width.toNat
  · rw [if_pos hin, decide_eq_true hin]
    simp
  · rw [if_neg hin, decide_eq_false hin, getMsbD_of_ge _ _ (by omega)]
    simp

theorem insertBase_eq_zero (hw : width.toNat ≤ 32) : value <<< (32#32 - width) = 0#32 ↔
    ∀ k < width.toNat, value.getMsbD (32 - width.toNat + k) = false := by
  rw [eq_zero_iff]
  constructor
  · intro h k hk
    rw [← getMsbD_insertBase hw]
    exact h k (by omega)
  · intro h k hk
    rw [getMsbD_insertBase hw]
    by_cases hin : k < width.toNat
    · exact h k hin
    · exact getMsbD_of_ge _ _ (by omega)

end Insertion

/-- The fifth byte can be written. -/
def Inserts (word2 : BitVec 16) (s : Processor) : Prop :=
  word2.getLsbD 11 = true ∨ (s.fieldOffset word2).toNat ≤ 8 ∨
    (s.fieldOffset word2).toNat + (s.fieldWidth word2).toNat ≤ 32

theorem bfins_correct_iff (h : s.cpuType.is010Less = false) :
    bfins.Correct word2 ea s ↔ Inserts word2 s := by
  obtain ⟨ea', o, hr, hbegins, hoffset⟩ := exists_normalizeRegister word2 ea s
  obtain ⟨hpos, hw⟩ := fieldWidth_spec word2 s
  have ho : o.toNat < 32 := by omega
  obtain ⟨data, s₁, hread, hkept, hdata⟩ := exists_readData h (o + s.fieldWidth word2) ea'
  have hspan := span_le (o + s.fieldWidth word2)
  have hinserts : Inserts word2 s ↔ o.toNat ≤ 8 ∨ o.toNat + (s.fieldWidth word2).toNat ≤ 32 := by
    rw [Inserts]
    rcases hoffset with ⟨hregister, hlt⟩ | ⟨himmediate, rfl, -⟩
    · exact iff_of_true (.inl hregister) (.inl hlt.le)
    · exact or_iff_right (ne_true_of_eq_false himmediate)
  have hlong : ∀ q < span (o + s.fieldWidth word2),
      (data &&& ~~~(maskBase (s.fieldWidth word2) >>> o) |||
      (s.da (fieldRegister word2) <<< (32#32 - s.fieldWidth word2)) >>> o).getMsbD q =
        if o.toNat ≤ q ∧ q < o.toNat + (s.fieldWidth word2).toNat then
          (s.da (fieldRegister word2)).getMsbD (32 - (s.fieldWidth word2).toNat + (q - o.toNat))
        else s₁.bit ea' q := fun q hq ↦
    getMsbD_insertLong hw (by omega) (by rw [hdata, decide_eq_true hq, hkept.bit, Bool.true_and])
      (getMsbD_maskLong hw (by omega))
  have h₁ : s₁.cpuType.is010Less = false := by rwa [hkept.cpuType]
  obtain ⟨s₂, hwrite, hwrote⟩ := exists_writeField h₁ (size_covers ho hw) _
    (fun k ↦ (s.da (fieldRegister word2)).getMsbD (32 - (s.fieldWidth word2).toNat + k)) hlong
  have hrun : bfins.exec word2 ea s = if 32#32 < s.fieldWidth word2 + o then
      (shiftByte (maskBase (s.fieldWidth word2)) o).bind fun maskByte ↦
      (shiftByte (s.da (fieldRegister word2) <<< (32#32 - s.fieldWidth word2)) o).bind
        fun insertByte ↦
      some (((s₂.withCore (s₂.access 1#16 Core.szByte)).write8 (ea' + 4#32)
          (((s₂.byte (ea' + 4#32)).setWidth 32 &&& ~~~maskByte ||| insertByte).setWidth 8)).setField
        ((s.da (fieldRegister word2) <<< (32#32 - s.fieldWidth word2)) >>> 24)
        (s.da (fieldRegister word2) <<< (32#32 - s.fieldWidth word2) ||| insertByte &&& maskByte))
      else some (s₂.setField ((s.da (fieldRegister word2) <<< (32#32 - s.fieldWidth word2)) >>> 24)
        (s.da (fieldRegister word2) <<< (32#32 - s.fieldWidth word2))) := by
    simp only [exec, xefc0Bfins, hr, hread, bind_eq_bind, bind_some,
      BitVec.add_comm (s.fieldWidth word2) o, hwrite]
    rfl
  have hnFlag : ((s.da (fieldRegister word2) <<< (32#32 - s.fieldWidth word2)) >>> 24).getLsbD 7 =
      (s.da (fieldRegister word2)).getMsbD (32 - (s.fieldWidth word2).toNat + 0) := by
    rw [getLsbD_nFlag, getMsbD_insertBase hw]
  rw [hinserts]
  by_cases hfifth : 32#32 < s.fieldWidth word2 + o
  · rw [if_pos hfifth] at hrun
    have hover := (lt_add_iff ho hw).mp hfifth
    rw [or_iff_left (Nat.not_le_of_lt hover)]
    by_cases hin : o.toNat ≤ 8
    · rw [shiftByte_of_le _ hin, shiftByte_of_le _ hin, bind_some, bind_some] at hrun
      have hfield : ∀ j < 8, ((s₂.byte (ea' + 4#32)).setWidth 32 &&&
          ~~~((maskBase (s.fieldWidth word2) &&& 0xff#32) <<< (8#32 - o)) |||
            (s.da (fieldRegister word2) <<< (32#32 - s.fieldWidth word2) &&& 0xff#32) <<<
            (8#32 - o)).getMsbD (24 + j) =
              if 32 + j < o.toNat + (s.fieldWidth word2).toNat then
                (s.da (fieldRegister word2)).getMsbD
                  (32 - (s.fieldWidth word2).toNat + (32 + j - o.toNat))
              else s₁.bit ea' (32 + j) := fun j hj ↦
        getMsbD_insertByte hw hin hj (getMsbD_fifth_wrote hj hwrote)
      have hall := (hkept.wrote ea').trans (wrote_fifth hwrote (by omega) _ hfield)
      rw [newBits_kept hkept] at hall
      refine iff_of_true ⟨_, hrun, ⟨hnFlag, ?_⟩, hall.da,
        changes_of_newBits (wrote_setField hall _ _) hbegins (by omega)⟩ hin
      refine BitVec.or_eq_zero_iff.trans
        ((and_iff_left_of_imp fun hzero ↦ ?_).trans (insertBase_eq_zero hw))
      rw [hzero, zero_and, shiftLeft_eq', zero_shiftLeft, zero_and]
    · rw [shiftByte_of_gt _ (Nat.lt_of_not_le hin) ho, bind_none] at hrun
      refine iff_of_false ?_ hin
      rintro ⟨s', hexec, -⟩
      exact some_ne_none s' (hexec.symm.trans hrun)
  · rw [if_neg hfifth] at hrun
    have hwithin : o.toNat + (s.fieldWidth word2).toNat ≤ 32 :=
      Nat.le_of_not_lt (mt (lt_add_iff ho hw).mpr hfifth)
    have hall := (hkept.wrote ea').trans (hwrote.congr fun q _ ↦ newBits_of_le hwithin _ q)
    rw [newBits_kept hkept] at hall
    exact iff_of_true ⟨_, hrun, ⟨hnFlag, insertBase_eq_zero hw⟩, hall.da,
      changes_of_newBits (wrote_setField hall _ _) hbegins (by omega)⟩ (.inr hwithin)

/-! ## All of them -/

/-- What an instruction needs of its offset, its width and its field. -/
def Covered (word2 : BitVec 16) (ea : BitVec 32) (s : Processor) : BitFieldOp → Prop
  | bftst | bfset | bfclr | bfchg => True
  | bfextu | bfexts => Reaches word2 ea s
  | bfffo => FindsFirst word2 ea s
  | bfins => Inserts word2 s

/-- On the processors that have the instructions, which can access words at odd addresses. -/
theorem correct_iff_covered (op : BitFieldOp) (word2 : BitVec 16) (ea : BitVec 32) (s : Processor)
    (h : s.cpuType.is010Less = false) : op.Correct word2 ea s ↔ op.Covered word2 ea s := by
  cases op with
  | bftst => exact iff_of_true (bftst_correct h) trivial
  | bfextu => exact bfextu_correct_iff h
  | bfexts => exact bfexts_correct_iff h
  | bfffo => exact bfffo_correct_iff h
  | bfins => exact bfins_correct_iff h
  | bfset => exact iff_of_true (bfset_correct h) trivial
  | bfclr => exact iff_of_true (bfclr_correct h) trivial
  | bfchg => exact iff_of_true (bfchg_correct h) trivial

/-- A memory of ones. -/
def ones : Processor :=
  { Core.idle .cpu020 false with
    memory := fun _ ↦ 0xff#8
    dar := fun _ ↦ 0#32 }

/-- BFEXTU (0x1000){0:8},D0 of ones. -/
theorem correct_iff_covered_ones : bfextu.Correct 0x0008#16 0x1000#32 ones := by
  refine (correct_iff_covered bfextu 0x0008#16 0x1000#32 ones (by decide)).mpr
    (Or.inr fun k hk _ ↦ Or.inl ?_)
  have hoffset : (ones.fieldOffset 0x0008#16).toNat = 0 := by decide
  have hwidth : (ones.fieldWidth 0x0008#16).toNat = 8 := by decide
  omega

theorem fieldBit_ones (ea : BitVec 32) (offset : ℤ) (k : ℕ) : ones.fieldBit ea offset k = true := by
  have hindex : fieldIndex ea offset k < 8 := by
    rw [fieldIndex]
    omega
  rw [Core.fieldBit, show ones.byte _ = allOnes 8 from rfl, getMsbD_allOnes, decide_eq_true hindex]

/-- BFEXTU (0x1000){9:32},D0 of ones. -/
theorem not_correct_ones :
    ¬∀ (op : BitFieldOp) (word2 : BitVec 16) (ea : BitVec 32) (s : Processor),
      s.cpuType.is010Less = false → op.Correct word2 ea s := by
  intro h
  rcases (bfextu_correct_iff (by decide)).mp (h bfextu 0x0240#16 0x1000#32 ones (by decide))
      with hregister | hreaches
  · exact absurd hregister (by decide)
  · exact absurd (hreaches 31 (by decide) (fieldBit_ones _ _ _)) (by decide)

end BitFieldOp

end RoscoEmulator.M68k
