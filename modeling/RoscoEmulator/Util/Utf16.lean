import Mathlib.Data.Int.Notation
import Mathlib.Data.List.Basic

/-!
# UTF-16

`utf16_from_uchar` and `uchar_from_utf16` of the utility library, with the variants of swapped
bytes. The decoder takes a pair of surrogates for a character of sixteen planes. The encoder refuses
the last of them, although its characters are valid. -/

namespace RoscoEmulator.Util

open Nat

/-- `uchar_isvalid`. -/
def ucharIsvalid (uchar : BitVec 32) : Bool :=
  uchar < 0x110000#32 && !(0xd800#32 ≤ uchar && uchar ≤ 0xdfff#32)

namespace Utf16

/-- `utf16_from_uchar`: the result and the units that are written. -/
def utf16FromUchar (count : ℕ) (uchar : BitVec 32) : ℤ × List (BitVec 16) :=
  if ¬ ucharIsvalid uchar then (-1, [])
  else if uchar < 0x10000#32 then
    -- single word case
    if count < 1 then (-1, []) else (1, [uchar.setWidth 16])
  else if uchar < 0x100000#32 then
    -- double word case
    if count < 2 then (-1, [])
    else
      let uchar := uchar - 0x10000#32
      (2, [(((uchar >>> 10) &&& 0x3ff#32) ||| 0xd800#32).setWidth 16,
        ((uchar &&& 0x3ff#32) ||| 0xdc00#32).setWidth 16])
  else (-1, [])

/-- `uchar_from_utf16`: the result and the character, if one is written. The first unit is read even
of none. -/
def ucharFromUtf16 (utf16char : ℕ → BitVec 16) (count : ℕ) : ℤ × Option (BitVec 32) :=
  let rc : ℤ := if count = 0 then 0 else -1
  if 0xd800#16 ≤ utf16char 0 ∧ utf16char 0 ≤ 0xdbff#16 then
    -- the two-byte case
    if 1 < count ∧ 0xdc00#16 ≤ utf16char 1 ∧ utf16char 1 ≤ 0xdfff#16 then
      (2, some (0x10000#32 + (utf16char 0 &&& 0x3ff#16).setWidth 32 * 0x400#32 +
        (utf16char 1 &&& 0x3ff#16).setWidth 32))
    else (rc, none)
  else if utf16char 0 < 0xdc00#16 ∨ 0xdfff#16 < utf16char 0 then
    -- the one-byte case
    (1, some ((utf16char 0).setWidth 32))
  else (rc, none)

/-- `swapendian_int16`. -/
def swapendianInt16 (unit : BitVec 16) : BitVec 16 := (unit >>> 8) ||| (unit <<< 8)

/-- `utf16f_from_uchar`. -/
def utf16fFromUchar (count : ℕ) (uchar : BitVec 32) : ℤ × List (BitVec 16) :=
  let (rc, units) := utf16FromUchar count uchar
  let buf (i : ℕ) := units.getD i 0#16
  (rc, if 2 ≤ rc then [swapendianInt16 (buf 0), swapendianInt16 (buf 1)]
    else if 1 ≤ rc then [swapendianInt16 (buf 0)] else [])

/-- `uchar_from_utf16f`. -/
def ucharFromUtf16f (utf16char : ℕ → BitVec 16) (count : ℕ) : ℤ × Option (BitVec 32) :=
  ucharFromUtf16 (fun i ↦ if i < 2 ∧ i < count then swapendianInt16 (utf16char i) else 0#16) count

/-- A buffer after units were written to it. -/
def overwrite (buffer : ℕ → BitVec 16) (units : List (BitVec 16)) (i : ℕ) : BitVec 16 :=
  units.getD i (buffer i)

/-- A valid character comes back from a buffer of two units, by a decoder that is told of so many
units or more. -/
def RoundTripsBy (encode : ℕ → BitVec 32 → ℤ × List (BitVec 16))
    (decode : (ℕ → BitVec 16) → ℕ → ℤ × Option (BitVec 32)) (uchar : BitVec 32) : Prop :=
  ucharIsvalid uchar = true → 0 < (encode 2 uchar).1 ∧ ∀ (buffer : ℕ → BitVec 16) (count : ℕ),
    (encode 2 uchar).1 ≤ count →
      decode (overwrite buffer (encode 2 uchar).2) count = ((encode 2 uchar).1, some uchar)

/-- The round trip of a character, in both orders of bytes. -/
def RoundTrips (uchar : BitVec 32) : Prop :=
  RoundTripsBy utf16FromUchar ucharFromUtf16 uchar ∧
    RoundTripsBy utf16fFromUchar ucharFromUtf16f uchar

/-- What is accepted is encoded as the units that were consumed. -/
def Reencodes (utf16char : ℕ → BitVec 16) (count : ℕ) : Prop :=
  ∀ (rc : ℤ) (uchar : BitVec 32), ucharFromUtf16 utf16char count = (rc, some uchar) →
    utf16FromUchar 2 uchar = (rc, (List.range rc.toNat).map utf16char)

/-! ## Surrogates -/

section Surrogates

variable {n : ℕ}

theorem toNat_high (hn : n < 0x400) : (BitVec.ofNat 32 n ||| 0xd800#32).toNat = 0xd800 + n := by
  have hor : 2 ^ 10 * 54 + n = 2 ^ 10 * 54 ||| n := two_pow_add_eq_or_of_lt hn 54
  rw [BitVec.toNat_or, BitVec.toNat_ofNat, mod_eq_of_lt (by omega), Nat.or_comm]
  exact hor.symm

theorem toNat_low (hn : n < 0x400) : (BitVec.ofNat 32 n ||| 0xdc00#32).toNat = 0xdc00 + n := by
  have hor : 2 ^ 10 * 55 + n = 2 ^ 10 * 55 ||| n := two_pow_add_eq_or_of_lt hn 55
  rw [BitVec.toNat_or, BitVec.toNat_ofNat, mod_eq_of_lt (by omega), Nat.or_comm]
  exact hor.symm

theorem toNat_and_3ff {w : ℕ} (hw : 10 ≤ w) (x : BitVec w) :
    (x &&& BitVec.ofNat w 0x3ff).toNat = x.toNat % 0x400 := by
  have hlt : 2 ^ 10 ≤ 2 ^ w := Nat.pow_le_pow_right Nat.two_pos hw
  rw [BitVec.toNat_and, BitVec.toNat_ofNat, mod_eq_of_lt (by omega)]
  exact and_two_pow_sub_one_eq_mod x.toNat 10

theorem isvalid_iff (c : BitVec 32) :
    ucharIsvalid c = true ↔ c.toNat < 0x110000 ∧ ¬ (0xd800 ≤ c.toNat ∧ c.toNat ≤ 0xdfff) := by
  simp only [ucharIsvalid, Bool.and_eq_true, Bool.not_eq_true', decide_eq_true_eq, BitVec.lt_def,
    BitVec.le_def, Bool.and_eq_false_iff, decide_eq_false_iff_not]
  exact and_congr_right fun _ ↦ Decidable.not_and_iff_not_or_not.symm

/-! ## The encoder -/

variable {c : BitVec 32}

/-- A character of the first plane is its unit. -/
theorem utf16FromUchar_single (hvalid : ucharIsvalid c = true) (hlt : c.toNat < 0x10000) :
    utf16FromUchar 2 c = (1, [c.setWidth 16]) := by
  have hlt' : c < 0x10000#32 := hlt
  rw [utf16FromUchar, if_neg (not_not.mpr hvalid), if_pos hlt', if_neg (by decide)]

/-- A character of the planes from the second to the sixteenth is a pair of surrogates. -/
theorem utf16FromUchar_pair (hle : 0x10000 ≤ c.toNat) (hlt : c.toNat < 0x100000) :
    utf16FromUchar 2 c = (2, [BitVec.ofNat 16 (0xd800 + (c.toNat - 0x10000) / 0x400),
      BitVec.ofNat 16 (0xdc00 + (c.toNat - 0x10000) % 0x400)]) := by
  have hvalid : ucharIsvalid c = true := (isvalid_iff c).mpr (by omega)
  have hle' : ¬ c < 0x10000#32 := Nat.not_lt.mpr hle
  have hlt' : c < 0x100000#32 := hlt
  have hsub : (c - 0x10000#32).toNat = c.toNat - 0x10000 := BitVec.toNat_sub_of_le hle
  have hhigh :
      ((c - 0x10000#32) >>> 10) &&& 0x3ff#32 = BitVec.ofNat 32 ((c.toNat - 0x10000) / 0x400) := by
    refine BitVec.eq_of_toNat_eq ?_
    rw [toNat_and_3ff (by decide), BitVec.toNat_ushiftRight, hsub, BitVec.toNat_ofNat,
      shiftRight_eq_div_pow]
    omega
  have hlow : (c - 0x10000#32) &&& 0x3ff#32 = BitVec.ofNat 32 ((c.toNat - 0x10000) % 0x400) := by
    refine BitVec.eq_of_toNat_eq ?_
    rw [toNat_and_3ff (by decide), hsub, BitVec.toNat_ofNat]
    omega
  rw [utf16FromUchar, if_neg (not_not.mpr hvalid), if_neg hle', if_pos hlt', if_neg (by decide)]
  dsimp only
  rw [hhigh, hlow]
  refine congrArg (Prod.mk 2) (congrArg₂ (fun x y ↦ [x, y]) ?_ ?_)
  · rw [← toNat_high (by omega), BitVec.ofNat_toNat]
  · rw [← toNat_low (by omega), BitVec.ofNat_toNat]

/-- The characters of the last plane are refused. -/
theorem utf16FromUchar_last (hle : 0x100000 ≤ c.toNat) : utf16FromUchar 2 c = (-1, []) := by
  have hle' : ¬ c < 0x10000#32 := Nat.not_lt.mpr (by show 0x10000 ≤ _; omega)
  have hlast : ¬ c < 0x100000#32 := Nat.not_lt.mpr hle
  rw [utf16FromUchar, if_neg hle', if_neg hlast, ite_self]

/-! ## The decoder -/

variable {utf16char : ℕ → BitVec 16} {count : ℕ}

theorem ucharFromUtf16_single
    (h : ¬ (0xd800 ≤ (utf16char 0).toNat ∧ (utf16char 0).toNat ≤ 0xdfff)) :
    ucharFromUtf16 utf16char count = (1, some ((utf16char 0).setWidth 32)) := by
  have hhigh : ¬ (0xd800#16 ≤ utf16char 0 ∧ utf16char 0 ≤ 0xdbff#16) := by
    rintro ⟨hle, hge⟩
    exact h ⟨hle, Nat.le_trans hge (by decide)⟩
  have hlow : utf16char 0 < 0xdc00#16 ∨ 0xdfff#16 < utf16char 0 := by
    rw [BitVec.lt_def, BitVec.lt_def]
    show _ < 0xdc00 ∨ 0xdfff < _
    omega
  rw [ucharFromUtf16, if_neg hhigh, if_pos hlow]

theorem ucharFromUtf16_pair
    (hcount : 1 < count) (hhigh : 0xd800 ≤ (utf16char 0).toNat ∧ (utf16char 0).toNat ≤ 0xdbff)
    (hlow : 0xdc00 ≤ (utf16char 1).toNat ∧ (utf16char 1).toNat ≤ 0xdfff) :
    ucharFromUtf16 utf16char count = (2, some (BitVec.ofNat 32
      (0x10000 + ((utf16char 0).toNat - 0xd800) * 0x400 + ((utf16char 1).toNat - 0xdc00)))) := by
  have hsum : 0x10000#32 + (utf16char 0 &&& 0x3ff#16).setWidth 32 * 0x400#32 +
      (utf16char 1 &&& 0x3ff#16).setWidth 32 = BitVec.ofNat 32
        (0x10000 + ((utf16char 0).toNat - 0xd800) * 0x400 + ((utf16char 1).toNat - 0xdc00)) := by
    refine BitVec.eq_of_toNat_eq ?_
    simp only [BitVec.toNat_add, BitVec.toNat_mul, BitVec.toNat_setWidth, BitVec.toNat_ofNat,
      toNat_and_3ff (show 10 ≤ 16 by decide)]
    omega
  have hhigh' : 0xd800#16 ≤ utf16char 0 ∧ utf16char 0 ≤ 0xdbff#16 := hhigh
  have hlow' : 0xdc00#16 ≤ utf16char 1 ∧ utf16char 1 ≤ 0xdfff#16 := hlow
  rw [ucharFromUtf16, if_pos hhigh', if_pos ⟨hcount, hlow'⟩]
  exact congrArg (fun x ↦ ((2 : ℤ), some x)) hsum

/-- What is accepted is a unit that is no surrogate, or a pair of them. -/
theorem of_accepted {rc : ℤ} (h : ucharFromUtf16 utf16char count = (rc, some c)) :
    ¬ (0xd800 ≤ (utf16char 0).toNat ∧ (utf16char 0).toNat ≤ 0xdfff) ∨
      1 < count ∧ (0xd800 ≤ (utf16char 0).toNat ∧ (utf16char 0).toNat ≤ 0xdbff) ∧
        (0xdc00 ≤ (utf16char 1).toNat ∧ (utf16char 1).toNat ≤ 0xdfff) := by
  by_cases hsingle : ¬ (0xd800 ≤ (utf16char 0).toNat ∧ (utf16char 0).toNat ≤ 0xdfff)
  · exact Or.inl hsingle
  · by_cases hhigh : 0xd800#16 ≤ utf16char 0 ∧ utf16char 0 ≤ 0xdbff#16
    · rw [ucharFromUtf16, if_pos hhigh] at h
      by_cases hlow : 1 < count ∧ 0xdc00#16 ≤ utf16char 1 ∧ utf16char 1 ≤ 0xdfff#16
      · exact Or.inr ⟨hlow.1, hhigh, hlow.2⟩
      · rw [if_neg hlow] at h
        cases h
    · have hhigh' : ¬ (0xd800 ≤ (utf16char 0).toNat ∧ (utf16char 0).toNat ≤ 0xdbff) := hhigh
      have hlone : ¬ (utf16char 0 < 0xdc00#16 ∨ 0xdfff#16 < utf16char 0) := by
        rintro (hlt | hlt)
        · have hlt' : (utf16char 0).toNat < 0xdc00 := hlt
          omega
        · have hlt' : 0xdfff < (utf16char 0).toNat := hlt
          omega
      rw [ucharFromUtf16, if_neg hhigh, if_neg hlone] at h
      cases h

end Surrogates

/-! ## Round trips -/

theorem swapendianInt16_swapendianInt16 (unit : BitVec 16) :
    swapendianInt16 (swapendianInt16 unit) = unit := by
  refine BitVec.eq_of_getLsbD_eq fun i hi ↦ ?_
  simp only [swapendianInt16, BitVec.getLsbD_or, BitVec.getLsbD_ushiftRight,
    BitVec.getLsbD_shiftLeft]
  have hbeyond : unit.getLsbD (8 + (8 + i)) = false := BitVec.getLsbD_of_ge _ _ (by omega)
  by_cases h : i < 8
  · have hback : 8 + i - 8 = i := by omega
    have hin : 8 + i < 16 := by omega
    simp [h, hbeyond, hback, hin]
  · have hback : 8 + (i - 8) = i := by omega
    have hlow : i - 8 < 8 := by omega
    have hout : ¬ 8 + i < 16 := by omega
    simp [h, hi, hbeyond, hback, hlow, hout]

section RoundTrips

variable {encode : ℕ → BitVec 32 → ℤ × List (BitVec 16)}
  {decode : (ℕ → BitVec 16) → ℕ → ℤ × Option (BitVec 32)} {f : BitVec 16 → BitVec 16}

/-- The round trip of units that are turned in some way, and back. -/
theorem roundTripsBy_iff (hf : ∀ unit, f (f unit) = unit)
    (hencode : ∀ c, encode 2 c = ((utf16FromUchar 2 c).1, (utf16FromUchar 2 c).2.map f)) (hdecode :
    ∀ m count, 0 < count → ∃ m', decode m count = ucharFromUtf16 m' count ∧ m' 0 = f (m 0) ∧
      (1 < count → m' 1 = f (m 1))) (c : BitVec 32) :
    RoundTripsBy encode decode c ↔ ¬ (0x100000#32 ≤ c ∧ c ≤ 0x10ffff#32) := by
  have hlast : 0x100000#32 ≤ c ∧ c ≤ 0x10ffff#32 ↔
      0x100000 ≤ c.toNat ∧ c.toNat ≤ 0x10ffff := Iff.rfl
  rw [hlast]
  by_cases hin : 0x100000 ≤ c.toNat ∧ c.toNat ≤ 0x10ffff
  · refine iff_of_false (fun h ↦ ?_) (not_not_intro hin)
    have hpos := (h ((isvalid_iff c).mpr (by omega))).1
    rw [hencode, utf16FromUchar_last hin.1] at hpos
    exact absurd (show (0 : ℤ) < -1 from hpos) (by decide)
  · refine iff_of_true (fun hvalid ↦ ?_) hin
    have hrange := (isvalid_iff c).mp hvalid
    by_cases hplane : c.toNat < 0x10000
    · rw [hencode, utf16FromUchar_single hvalid hplane]
      refine ⟨Int.one_pos, fun buffer count hcount ↦ ?_⟩
      obtain ⟨m', heq, h0, -⟩ :=
        hdecode (overwrite buffer [f (c.setWidth 16)]) count (by dsimp only at hcount; omega)
      have hunit : m' 0 = c.setWidth 16 := h0.trans (hf _)
      have hnat : (c.setWidth 16).toNat = c.toNat :=
        (BitVec.toNat_setWidth _ _).trans (mod_eq_of_lt hplane)
      have hback : (c.setWidth 16).setWidth 32 = c :=
        BitVec.eq_of_toNat_eq ((BitVec.toNat_setWidth_of_le (by decide)).trans hnat)
      refine heq.trans ((ucharFromUtf16_single (by rw [hunit, hnat]; exact hrange.2)).trans ?_)
      rw [hunit, hback]
    · rw [hencode, utf16FromUchar_pair (by omega) (by omega)]
      refine ⟨show (0 : ℤ) < 2 by decide, fun buffer count hcount ↦ ?_⟩
      have hcount' : 1 < count := by dsimp only at hcount; omega
      obtain ⟨m', heq, h0, h1⟩ := hdecode (overwrite buffer
        [f (BitVec.ofNat 16 (0xd800 + (c.toNat - 0x10000) / 0x400)),
          f (BitVec.ofNat 16 (0xdc00 + (c.toNat - 0x10000) % 0x400))]) count (by omega)
      have hhigh : (m' 0).toNat = 0xd800 + (c.toNat - 0x10000) / 0x400 := by
        rw [h0.trans (hf _), BitVec.toNat_ofNat, mod_eq_of_lt (by omega)]
      have hlow : (m' 1).toNat = 0xdc00 + (c.toNat - 0x10000) % 0x400 := by
        rw [(h1 hcount').trans (hf _), BitVec.toNat_ofNat, mod_eq_of_lt (by omega)]
      refine heq.trans ((ucharFromUtf16_pair hcount' (by omega) (by omega)).trans ?_)
      refine congrArg (fun x ↦ ((2 : ℤ), some x)) (BitVec.eq_of_toNat_eq ?_)
      rw [BitVec.toNat_ofNat, hhigh, hlow]
      omega

end RoundTrips

theorem roundTrips_iff (c : BitVec 32) : RoundTrips c ↔ ¬ (0x100000#32 ≤ c ∧ c ≤ 0x10ffff#32) := by
  have hplain : RoundTripsBy utf16FromUchar ucharFromUtf16 c ↔
      ¬ (0x100000#32 ≤ c ∧ c ≤ 0x10ffff#32) :=
    roundTripsBy_iff (f := id) (fun _ ↦ rfl) (fun c ↦ by rw [List.map_id])
      (fun m _ _ ↦ ⟨m, rfl, rfl, fun _ ↦ rfl⟩) c
  have hflipped : RoundTripsBy utf16fFromUchar ucharFromUtf16f c ↔
      ¬ (0x100000#32 ≤ c ∧ c ≤ 0x10ffff#32) := by
    refine roundTripsBy_iff swapendianInt16_swapendianInt16 (fun c ↦ ?_) (fun m count hcount ↦
      ⟨_, rfl, if_pos ⟨by decide, hcount⟩, fun hcount' ↦ if_pos ⟨by decide, hcount'⟩⟩) c
    rw [utf16fFromUchar, utf16FromUchar]
    split_ifs <;> rfl
  rw [RoundTrips, hplain, hflipped, and_self]

/-- A pair of surrogates for a character of the last plane is not encoded again. -/
theorem reencodes_iff (utf16char : ℕ → BitVec 16) (count : ℕ) : Reencodes utf16char count ↔
    ¬ (1 < count ∧ (0xdbc0#16 ≤ utf16char 0 ∧ utf16char 0 ≤ 0xdbff#16) ∧
      (0xdc00#16 ≤ utf16char 1 ∧ utf16char 1 ≤ 0xdfff#16)) := by
  constructor
  · rintro h ⟨hcount, ⟨hle, hge⟩, hlow⟩
    have hle' : 0xdbc0 ≤ (utf16char 0).toNat := hle
    have hge' : (utf16char 0).toNat ≤ 0xdbff := hge
    have hencode := h _ _ (ucharFromUtf16_pair hcount ⟨by omega, hge'⟩ hlow)
    rw [utf16FromUchar_last (by rw [BitVec.toNat_ofNat]; omega)] at hencode
    exact absurd (show (-1 : ℤ) = 2 from congrArg Prod.fst hencode) (by decide)
  · intro hout rc c h
    rcases of_accepted h with hsingle | ⟨hcount, hhigh, hlow⟩
    · rw [ucharFromUtf16_single hsingle] at h
      obtain ⟨rfl, hc⟩ := Prod.mk.inj h
      obtain rfl := Option.some.inj hc
      have hnat : ((utf16char 0).setWidth 32).toNat = (utf16char 0).toNat :=
        BitVec.toNat_setWidth_of_le (by decide)
      have hlt := (utf16char 0).isLt
      rw [utf16FromUchar_single ((isvalid_iff _).mpr (by omega)) (by omega)]
      refine congrArg (fun x ↦ ((1 : ℤ), [x])) (BitVec.eq_of_toNat_eq ?_)
      rw [BitVec.toNat_setWidth, hnat, mod_eq_of_lt hlt]
    · rw [ucharFromUtf16_pair hcount hhigh hlow] at h
      obtain ⟨rfl, hc⟩ := Prod.mk.inj h
      obtain rfl := Option.some.inj hc
      have hplane : (utf16char 0).toNat < 0xdbc0 := by
        by_contra hle
        exact hout ⟨hcount, ⟨Nat.not_lt.mp hle, hhigh.2⟩, hlow⟩
      generalize hcode : 0x10000 + ((utf16char 0).toNat - 0xd800) * 0x400 +
        ((utf16char 1).toNat - 0xdc00) = code
      have hnat : (BitVec.ofNat 32 code).toNat = code := by
        rw [BitVec.toNat_ofNat]
        omega
      have hfirst : 0xd800 + (code - 0x10000) / 0x400 = (utf16char 0).toNat := by omega
      have hsecond : 0xdc00 + (code - 0x10000) % 0x400 = (utf16char 1).toNat := by omega
      rw [utf16FromUchar_pair (by omega) (by omega), hnat, hfirst, hsecond, BitVec.ofNat_toNat,
        BitVec.ofNat_toNat, BitVec.setWidth_eq, BitVec.setWidth_eq]
      rfl

/-- All characters but those of the last plane come back, and all units but their surrogates. -/
theorem roundTrips_and_reencodes_iff (uchar : BitVec 32) (utf16char : ℕ → BitVec 16) (count : ℕ) :
    (RoundTrips uchar ↔ ¬ (0x100000#32 ≤ uchar ∧ uchar ≤ 0x10ffff#32)) ∧
    (Reencodes utf16char count ↔
      ¬ (1 < count ∧ (0xdbc0#16 ≤ utf16char 0 ∧ utf16char 0 ≤ 0xdbff#16) ∧
        (0xdc00#16 ≤ utf16char 1 ∧ utf16char 1 ≤ 0xdfff#16))) :=
  ⟨roundTrips_iff uchar, reencodes_iff utf16char count⟩

/-- The last character of the last plane does not. -/
theorem not_roundTrips_last :
    ¬ ((∀ uchar, RoundTrips uchar) ∧ ∀ utf16char, Reencodes utf16char 2) := by
  rintro ⟨h, -⟩
  exact absurd ((h 0x10ffff#32).1 (by decide)).1 (by decide)

end Utf16

end RoscoEmulator.Util
