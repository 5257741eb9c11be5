import RoscoEmulator.M68k.Bytewise
import RoscoEmulator.M68k.PmmuEnable

/-!
# Misaligned accesses through the PMMU

An access by bytes translates the address of each of its bytes in order, stops at the first fault,
and then reads or writes the bytes. The accessors of the bus translate one address of each block of
256 bytes. They do what the accesses by bytes do, as long as the fields of the translation control
register fit. -/

namespace RoscoEmulator.M68k

open Nat BitVec

namespace Pmmu

/-! ## Accesses by bytes -/

/-- The physical addresses of the bytes of an access, in order; none if the translation of a byte
faults. -/
def translateBytes (rw : Bool) : List (BitVec 32) → Pmmu → Option (List (BitVec 32)) × Pmmu
  | [], m => (some [], m)
  | address :: addresses, m =>
      let (physical, m) := m.translateAddr address rw
      if m.buserrorOccurred ≠ 0#16 then (none, m)
      else
        match translateBytes rw addresses m with
        | (some physicals, m) => (some (physical :: physicals), m)
        | (none, m) => (none, m)

/-- A read of each byte at its own physical address. -/
def readBytewise (w : ℕ) (address : BitVec 32) (m : Pmmu) : BitVec w × Pmmu :=
  match m.translateBytes true (span address (w / 8)) with
  | (some physicals, m) => (bigEndian w (physicals.map (readByte m.program)), m)
  | (none, m) => (allOnes w, m)

/-- A write of each byte at its own physical address. -/
def writeBytewise {w : ℕ} (address : BitVec 32) (data : BitVec w) (m : Pmmu) : Pmmu :=
  match m.translateBytes false (span address (w / 8)) with
  | (some physicals, m) => { m with program := writeBytes physicals (dataBytes data) m.program }
  | (none, m) => m

/-- The accessors do what the accesses by bytes do, but for what only the last translation leaves:
the value, the state and the memory. After a fault in the translation of a byte the access reports
it, and the memory is what the translations leave. -/
structure Bytewise (address : BitVec 32) (m : Pmmu) : Prop where
  read16 : (m.read16 address).1 = (m.readBytewise 16 address).1 ∧
    (m.read16 address).2.forget = (m.readBytewise 16 address).2.forget
  read32 : (m.read32 address).1 = (m.readBytewise 32 address).1 ∧
    (m.read32 address).2.forget = (m.readBytewise 32 address).2.forget
  write16 :
    ∀ data : BitVec 16, (m.write16 address data).forget = (m.writeBytewise address data).forget
  write32 :
    ∀ data : BitVec 32, (m.write32 address data).forget = (m.writeBytewise address data).forget
  read16_fault :
    (m.translateBytes true (span address 2)).1 = none → (m.read16 address).2.buserrorOccurred ≠ 0#16
  read32_fault :
    (m.translateBytes true (span address 4)).1 = none → (m.read32 address).2.buserrorOccurred ≠ 0#16
  write16_fault : (m.translateBytes false (span address 2)).1 = none → ∀ data : BitVec 16,
    (m.write16 address data).buserrorOccurred ≠ 0#16 ∧
      (m.write16 address data).program = (m.translateBytes false (span address 2)).2.program
  write32_fault : (m.translateBytes false (span address 4)).1 = none → ∀ data : BitVec 32,
    (m.write32 address data).buserrorOccurred ≠ 0#16 ∧
      (m.write32 address data).program = (m.translateBytes false (span address 4)).2.program

/-! ## Translations of the bytes of a block -/

section Places

variable {a b r : BitVec 32}

theorem toNat_place (r a : BitVec 32) :
    (place r a).toNat = r.toNat / 256 * 256 + a.toNat % 256 := by
  have hlow : (a &&& 0xff#32).toNat = a.toNat % 2 ^ 8 := by
    rw [toNat_and]
    exact and_two_pow_sub_one_eq_mod a.toNat 8
  have hhigh : (r &&& 0xffffff00#32).toNat = r.toNat / 2 ^ 8 * 2 ^ 8 :=
    toNat_and_allOnes_shiftLeft r 8
  have hor :
      2 ^ 8 * (r.toNat / 2 ^ 8) + a.toNat % 2 ^ 8 = 2 ^ 8 * (r.toNat / 2 ^ 8) ||| a.toNat % 2 ^ 8 :=
    two_pow_add_eq_or_of_lt (mod_lt _ (by decide)) _
  have hvalue : (place r a).toNat = 2 ^ 8 * (r.toNat / 2 ^ 8) ||| a.toNat % 2 ^ 8 := by
    rw [place, toNat_or, hlow, hhigh, Nat.mul_comm]
  omega

/-- The next addresses of a block are at the next places. -/
theorem place_add {k : ℕ} (hplace : r = place r a) (hk : a.toNat % 256 + k < 256) :
    place r (a + BitVec.ofNat 32 k) = r + BitVec.ofNat 32 k := by
  have hr := r.isLt
  have ha := a.isLt
  have htoNat := congrArg BitVec.toNat hplace
  rw [toNat_place] at htoNat
  refine eq_of_toNat_eq ?_
  rw [toNat_place, toNat_add, toNat_add, toNat_ofNat]
  omega

theorem sameBlock_iff : SameBlock a b ↔ a.toNat / 256 = b.toNat / 256 := by
  rw [SameBlock, ← toNat_inj, toNat_ushiftRight, toNat_ushiftRight, shiftRight_eq_div_pow,
    shiftRight_eq_div_pow]

theorem sameBlock_add {k : ℕ} (hk : a.toNat % 256 + k < 256) :
    SameBlock a (a + BitVec.ofNat 32 k) := by
  have ha := a.isLt
  rw [sameBlock_iff, toNat_add, toNat_ofNat]
  omega

end Places

section Translate

variable {a b : BitVec 32} {rw : Bool} {m m' : Pmmu}

theorem translateAddr_congr (a : BitVec 32) (rw : Bool) (hm : m'.forget = m.forget) :
    (m'.translateAddr a rw).1 = (m.translateAddr a rw).1 ∧
      (m'.translateAddr a rw).2.forget = (m.translateAddr a rw).2.forget := by
  have hfc : m'.tmpFc = m.tmpFc := (congrArg tmpFc hm :)
  rw [translateAddr, translateAddr, hfc]
  exact translate_congr _ _ _ hm

theorem occurred_of_forget (hm : m'.forget = m.forget) : m'.buserrorOccurred = m.buserrorOccurred :=
  (congrArg buserrorOccurred hm :)

/-- A translation without a fault of a state whose counter is not at its end changes no counter. -/
theorem occurred_of_clear (hcount : m.buserrorOccurred ≠ 0xffff#16)
    (hclear : (m.translateAddr a rw).2.buserrorOccurred = 0#16) :
    (m.translateAddr a rw).2.buserrorOccurred = m.buserrorOccurred := by
  obtain h | h := occurred_translate a (m.tmpFc.setWidth 8) rw m
  · exact h
  · refine absurd ?_ hcount
    have hzero : m.buserrorOccurred + 1#16 = 0#16 := h.symm.trans hclear
    bv_omega

/-- A translation without a fault gives a place. -/
theorem translateAddr_place (hvalid : TcValid m.tc)
    (hsame : (m.translateAddr a rw).2.buserrorOccurred = m.buserrorOccurred) :
    (m.translateAddr a rw).1 = place (m.translateAddr a rw).1 a :=
  (translate_twin _ rw hvalid (show SameBlock a a from rfl)).2 hsame

theorem translateAddr_twin (rw : Bool) (hvalid : TcValid m.tc) (hblock : SameBlock a b) :
    (m.translateAddr b rw).2.forget = (m.translateAddr a rw).2.forget ∧
      ((m.translateAddr a rw).2.buserrorOccurred = m.buserrorOccurred →
        (m.translateAddr b rw).1 = place (m.translateAddr a rw).1 b) :=
  translate_twin _ rw hvalid hblock

/-- After a translation without a fault the addresses of the block are translated to their
places. -/
theorem translateAddr_block (hvalid : TcValid m.tc) (hblock : SameBlock a b)
    (hsame : (m.translateAddr a rw).2.buserrorOccurred = m.buserrorOccurred)
    (hm : m'.forget = (m.translateAddr a rw).2.forget) :
    (m'.translateAddr b rw).1 = place (m.translateAddr a rw).1 b ∧
      (m'.translateAddr b rw).2.forget = (m.translateAddr a rw).2.forget := by
  have hfc : m'.tmpFc = m.tmpFc :=
    (congrArg tmpFc hm :).trans
      (congrArg Registers.tmpFc (registers_translate false a (m.tmpFc.setWidth 8) rw m))
  rw [translateAddr, hfc]
  exact translate_block hvalid hblock hsame hm

end Translate

section TranslateBytes

variable {a : BitVec 32} {rw : Bool} {m m' : Pmmu}

theorem tc_translateAddr (a : BitVec 32) (rw : Bool) (m : Pmmu) :
    (m.translateAddr a rw).2.tc = m.tc :=
  congrArg Registers.tc (registers_translate false a (m.tmpFc.setWidth 8) rw m)

variable {as : List (BitVec 32)} {n : ℕ}

theorem translateBytes_cons_of_fault (h : (m.translateAddr a rw).2.buserrorOccurred ≠ 0#16) :
    m.translateBytes rw (a :: as) = (none, (m.translateAddr a rw).2) := by
  rw [translateBytes]
  exact if_pos h

theorem translateBytes_cons_of_some
    {ps : List (BitVec 32)} (h : (m.translateAddr a rw).2.buserrorOccurred = 0#16)
    (hrest : (m.translateAddr a rw).2.translateBytes rw as = (some ps, m')) :
    m.translateBytes rw (a :: as) = (some ((m.translateAddr a rw).1 :: ps), m') := by
  rw [translateBytes]
  dsimp only
  rw [if_neg (not_not_intro h), hrest]

theorem translateBytes_append_of_some {bs ps : List (BitVec 32)}
    (h : m.translateBytes rw as = (some ps, m')) : m.translateBytes rw (as ++ bs) =
      ((m'.translateBytes rw bs).1.map (ps ++ ·), (m'.translateBytes rw bs).2) := by
  induction as generalizing m ps with
  | nil =>
    obtain ⟨hps, rfl⟩ := Prod.mk.inj h
    rw [← Option.some.inj hps, List.nil_append]
    simp
  | cons a as ih =>
    rw [translateBytes] at h
    dsimp only at h
    split at h
    · cases (Prod.mk.inj h).1
    · next hclear =>
      rcases hrest : (m.translateAddr a rw).2.translateBytes rw as with ⟨_ | ps', m₁⟩
      · rw [hrest] at h
        cases (Prod.mk.inj h).1
      · rw [hrest] at h
        obtain ⟨hps, rfl⟩ := Prod.mk.inj h
        rw [List.cons_append, translateBytes]
        dsimp only
        rw [if_neg hclear, ih hrest, ← Option.some.inj hps]
        cases (m₁.translateBytes rw bs).1 <;> rfl

/-- After a translation without a fault the bytes of the block are translated to their places. -/
theorem translateBytes_settled (hvalid : TcValid m.tc)
    (hsame : (m.translateAddr a rw).2.buserrorOccurred = m.buserrorOccurred)
    (hclear : (m.translateAddr a rw).2.buserrorOccurred = 0#16) {k : ℕ}
    (hfit : a.toNat % 256 + k + n ≤ 256) (hm : m'.forget = (m.translateAddr a rw).2.forget) :
    ∃ m'', m'.translateBytes rw (span (a + BitVec.ofNat 32 k) n) =
        (some (span ((m.translateAddr a rw).1 + BitVec.ofNat 32 k) n), m'') ∧
      m''.forget = (m.translateAddr a rw).2.forget := by
  induction n generalizing k m' with
  | zero => exact ⟨m', rfl, hm⟩
  | succ n ih =>
    obtain ⟨haddr, hforget⟩ :=
      translateAddr_block hvalid (sameBlock_add (k := k) (by omega)) hsame hm
    rw [place_add (translateAddr_place hvalid hsame) (by omega)] at haddr
    obtain ⟨m'', hrest, hm''⟩ := ih (k := k + 1) (by omega) hforget
    refine ⟨m'', ?_, hm''⟩
    rw [ofNat_add, ← BitVec.add_assoc, ← BitVec.add_assoc] at hrest
    rw [span, translateBytes_cons_of_some ((occurred_of_forget hforget).trans hclear) hrest, haddr]
    rfl

variable (rw) in
/-- The bytes of a block: one translation decides whether they fault, and gives their places. -/
theorem translateBytes_block (hvalid : TcValid m.tc) (hcount : m.buserrorOccurred ≠ 0xffff#16)
    (hfit : a.toNat % 256 + (n + 1) ≤ 256) (hm : m'.forget = m.forget) :
    ((m.translateAddr a rw).2.buserrorOccurred ≠ 0#16 →
      ∃ m'', m'.translateBytes rw (span a (n + 1)) = (none, m'') ∧
      m''.forget = (m.translateAddr a rw).2.forget) ∧
    ((m.translateAddr a rw).2.buserrorOccurred = 0#16 →
    ∃ m'', m'.translateBytes rw (span a (n + 1)) =
      (some (span (m.translateAddr a rw).1 (n + 1)), m'') ∧
      m''.forget = (m.translateAddr a rw).2.forget) := by
  obtain ⟨haddr, hforget⟩ := translateAddr_congr a rw hm
  have hoccurred := occurred_of_forget hforget
  refine ⟨fun hfault ↦ ?_, fun hclear ↦ ?_⟩
  · refine ⟨_, ?_, hforget⟩
    rw [span, translateBytes_cons_of_fault (hoccurred.symm ▸ hfault)]
  · obtain ⟨m'', hrest, hm''⟩ := translateBytes_settled hvalid
      (occurred_of_clear hcount hclear) hclear (k := 1) (n := n) (by omega) hforget
    refine ⟨m'', ?_, hm''⟩
    rw [span, translateBytes_cons_of_some (hoccurred.trans hclear) hrest, haddr]
    rfl

/-- The bytes of two blocks, or of two parts of one: a translation for each part decides. -/
theorem translateBytes_split (hvalid : TcValid m.tc)
    (hcount : m.buserrorOccurred ≠ 0xffff#16) {j : ℕ} (hfit : a.toNat % 256 + (j + 1) ≤ 256)
    (hfit' : (a + BitVec.ofNat 32 (j + 1)).toNat % 256 + (n + 1) ≤ 256)
    (hclear : (m.translateAddr a rw).2.buserrorOccurred = 0#16)
    (hm : m'.forget = (m.translateAddr a rw).2.forget) :
    ((m'.translateAddr (a + BitVec.ofNat 32 (j + 1)) rw).2.buserrorOccurred ≠ 0#16 →
      ∃ m'', m.translateBytes rw (span a (j + 1 + (n + 1))) = (none, m'') ∧
        m''.forget = (m'.translateAddr (a + BitVec.ofNat 32 (j + 1)) rw).2.forget) ∧
    ((m'.translateAddr (a + BitVec.ofNat 32 (j + 1)) rw).2.buserrorOccurred = 0#16 →
      ∃ m'', m.translateBytes rw (span a (j + 1 + (n + 1))) =
          (some (span (m.translateAddr a rw).1 (j + 1) ++
            span (m'.translateAddr (a + BitVec.ofNat 32 (j + 1)) rw).1 (n + 1)), m'') ∧
        m''.forget = (m'.translateAddr (a + BitVec.ofNat 32 (j + 1)) rw).2.forget) := by
  obtain ⟨m₁, hfirst, hm₁⟩ := (translateBytes_block _ hvalid hcount hfit rfl).2 hclear
  have htc : m'.tc = m.tc := (congrArg tc hm :).trans (tc_translateAddr a rw m)
  have hzero : m'.buserrorOccurred = 0#16 := (occurred_of_forget hm).trans hclear
  obtain ⟨hfaulted, hgiven⟩ := translateBytes_block (m := m') rw (htc.symm ▸ hvalid)
    (by rw [hzero]; decide) hfit' (hm₁.trans hm.symm)
  rw [span_add, translateBytes_append_of_some hfirst]
  refine ⟨fun hfault ↦ ?_, fun hclear' ↦ ?_⟩
  · obtain ⟨m'', hrest, hm''⟩ := hfaulted hfault
    exact ⟨m'', by rw [hrest]; rfl, hm''⟩
  · obtain ⟨m'', hrest, hm''⟩ := hgiven hclear'
    exact ⟨m'', by rw [hrest]; rfl, hm''⟩

end TranslateBytes

/-! ## The read accessors -/

section Reads

variable {a : BitVec 32} {m m' : Pmmu}

theorem and_one_iff (a : BitVec 32) : a &&& 1#32 = 0#32 ↔ a.toNat % 2 = 0 := by
  rw [← toNat_inj, toNat_and]
  exact (and_one_is_mod a.toNat).congr_left

theorem and_three_iff (a : BitVec 32) : a &&& 3#32 = 0#32 ↔ a.toNat % 4 = 0 := by
  rw [← toNat_inj, toNat_and]
  exact (land_three a.toNat).congr_left

/-- The test of the 32-bit read accessor: the access is away from the end of a block. -/
theorem boundary_iff (a : BitVec 32) :
    (a + 3#32) &&& 0xfc#32 ≠ 0#32 ↔ 1 ≤ a.toNat % 256 ∧ a.toNat % 256 ≤ 252 := by
  have ha := a.isLt
  have hvalue : ((a + 3#32) &&& 0xfc#32).toNat = (a.toNat + 3) % 2 ^ 32 % 2 ^ 8 / 4 * 4 := by
    rw [show 0xfc#32 = 0xff#32 &&& ~~~3#32 by decide, ← BitVec.and_assoc, toNat_base, toNat_and,
      show (0xff#32).toNat = 2 ^ 8 - 1 by decide, and_two_pow_sub_one_eq_mod, toNat_add]
    rfl
  rw [Ne, ← toNat_inj, hvalue]
  show ¬ _ = 0 ↔ _
  omega

theorem readBytewise_of_none {w : ℕ} (h : m.translateBytes true (span a (w / 8)) = (none, m')) :
    m.readBytewise w a = (allOnes w, m') := by
  rw [readBytewise, h]

theorem readBytewise_of_some {w : ℕ} {ps : List (BitVec 32)}
    (h : m.translateBytes true (span a (w / 8)) = (some ps, m')) :
    m.readBytewise w a = (bigEndian w (ps.map (readByte m'.program)), m') := by
  rw [readBytewise, h]

theorem program_of_forget (hm : m'.forget = m.forget) : m'.program = m.program :=
  (congrArg program hm :)

/-- Reads with the same value and, but for what only the last translation leaves, the same state. -/
abbrev Alike {w : ℕ} (x y : BitVec w × Pmmu) : Prop := x.1 = y.1 ∧ x.2.forget = y.2.forget

/-- An access reaches the next block. -/
theorem next_mod {k : ℕ} (h : a.toNat % 256 + k = 256) :
    (a + BitVec.ofNat 32 k).toNat % 256 = 0 := by
  rw [toNat_add, toNat_ofNat]
  omega

/-- A translation without a fault keeps the place in a block. -/
theorem toNat_mod_translateAddr {rw : Bool} (hvalid : TcValid m.tc)
    (hcount : m.buserrorOccurred ≠ 0xffff#16)
    (hclear : (m.translateAddr a rw).2.buserrorOccurred = 0#16) :
    (m.translateAddr a rw).1.toNat % 256 = a.toNat % 256 := by
  have hplace :=
    congrArg BitVec.toNat (translateAddr_place hvalid (occurred_of_clear hcount hclear))
  rw [toNat_place] at hplace
  omega

theorem read16_eq (hvalid : TcValid m.tc) (henabled : m.enabled = true)
    (hcount : m.buserrorOccurred ≠ 0xffff#16)
    (a : BitVec 32) : Alike (m.read16 a) (m.readBytewise 16 a) := by
  rw [read16, if_pos henabled]
  dsimp only
  by_cases hfault : (m.translateAddr a true).2.buserrorOccurred ≠ 0#16
  · rw [if_pos hfault, readBytewise_of_none (w := 16) (translateBytes_cons_of_fault hfault)]
    exact ⟨rfl, rfl⟩
  have hclear := not_ne_iff.mp hfault
  have hmod := toNat_mod_translateAddr hvalid hcount hclear
  rw [if_neg hfault]
  by_cases heven : a &&& 1#32 = 0#32
  · have heven' := (and_one_iff a).mp heven
    obtain ⟨m', hbytes, hm'⟩ :=
      (translateBytes_block _ hvalid hcount (n := 1) (by omega) rfl).2 hclear
    rw [if_pos heven, readBytewise_of_some (w := 16) hbytes, readWord_bytes _ (by omega), bytesAt,
      program_of_forget hm']
    exact ⟨rfl, hm'.symm⟩
  · have hodd := mt (and_one_iff a).mpr heven
    rw [if_neg heven]
    obtain ⟨hfaulted, hgiven⟩ := translateBytes_split hvalid hcount (j := 0) (n := 0) (by omega)
      (by rw [toNat_add, toNat_ofNat]; omega) hclear rfl
    by_cases
      hfault' : ((m.translateAddr a true).2.translateAddr (a + 1#32) true).2.buserrorOccurred ≠ 0#16
    · obtain ⟨m', hbytes, hm'⟩ := hfaulted hfault'
      rw [if_pos hfault', readBytewise_of_none (w := 16) hbytes]
      exact ⟨rfl, hm'.symm⟩
    · obtain ⟨m', hbytes, hm'⟩ := hgiven (not_ne_iff.mp hfault')
      rw [if_neg hfault', readBytewise_of_some (w := 16) hbytes, program_of_forget hm']
      refine ⟨?_, hm'.symm⟩
      show _ = (0#16 <<< 8 ||| setWidth 16 _) <<< 8 ||| setWidth 16 _
      rw [BitVec.zero_shiftLeft, BitVec.zero_or]

theorem bigEndian_words (x y z u : BitVec 8) : (bigEndian 16 [x, y]).setWidth 32 <<< 16 |||
    (bigEndian 16 [z, u]).setWidth 32 = bigEndian 32 [x, y, z, u] := by
  have hx := x.isLt
  have hy := y.isLt
  have hz := z.isLt
  have hu := u.isLt
  refine eq_of_toNat_eq ?_
  rw [toNat_shiftLeft_or _ _ (by decide) (by rw [toNat_setWidth, toNat_bigEndian_word]; omega),
    toNat_setWidth, toNat_setWidth, toNat_bigEndian_word, toNat_bigEndian_word,
    toNat_bigEndian_dword]
  omega

theorem bigEndian_byte_word_byte (x y z u : BitVec 8) :
    x.setWidth 32 <<< 24 ||| (bigEndian 16 [y, z]).setWidth 32 <<< 8 ||| u.setWidth 32 =
      bigEndian 32 [x, y, z, u] := by
  have hx := x.isLt
  have hy := y.isLt
  have hz := z.isLt
  have hu := u.isLt
  have hlow : ((bigEndian 16 [y, z]).setWidth 32 <<< 8 ||| u.setWidth 32).toNat =
      y.toNat * 65536 + z.toNat * 256 + u.toNat := by
    rw [toNat_shiftLeft_or _ _ (by decide) (by rw [toNat_setWidth]; omega), toNat_setWidth,
      toNat_setWidth, toNat_bigEndian_word]
    omega
  refine eq_of_toNat_eq ?_
  rw [BitVec.or_assoc, toNat_shiftLeft_or _ _ (by decide) (by rw [hlow]; omega), hlow,
    toNat_setWidth, toNat_bigEndian_dword]
  omega

/-- Three translations in a block, not in order: the first one decides as the one of the block's
first byte. -/
theorem translateAddr_three {c d e : BitVec 32} (rw : Bool) (hvalid : TcValid m.tc)
    (hcount : m.buserrorOccurred ≠ 0xffff#16) (hd : SameBlock c d) (he : SameBlock c e) :
    (m.translateAddr d rw).2.forget = (m.translateAddr c rw).2.forget ∧
      ((m.translateAddr c rw).2.buserrorOccurred = 0#16 →
        (m.translateAddr c rw).1 = place (m.translateAddr c rw).1 c ∧
        ((m.translateAddr d rw).2.translateAddr c rw).1 = (m.translateAddr c rw).1 ∧
        (((m.translateAddr d rw).2.translateAddr c rw).2.translateAddr e rw).1 =
        place (m.translateAddr c rw).1 e ∧
        (((m.translateAddr d rw).2.translateAddr c rw).2.translateAddr e rw).2.forget =
          (m.translateAddr c rw).2.forget) := by
  obtain ⟨hforget, -⟩ := translateAddr_twin rw hvalid hd
  refine ⟨hforget, fun hclear ↦ ?_⟩
  have hsame := occurred_of_clear hcount hclear
  have hplace := translateAddr_place hvalid hsame
  obtain ⟨haddr, hforget'⟩ := translateAddr_block hvalid (show SameBlock c c from rfl) hsame hforget
  obtain ⟨haddr', hforget''⟩ := translateAddr_block hvalid he hsame hforget'
  exact ⟨hplace, haddr.trans hplace.symm, haddr', hforget''⟩

/-- The read accessor away from the end of a block, or at its start: one translation gives the
places of all bytes. -/
theorem read32_inside (hvalid : TcValid m.tc) (henabled : m.enabled = true)
    (hcount : m.buserrorOccurred ≠ 0xffff#16)
    (hclear : (m.translateAddr a true).2.buserrorOccurred = 0#16)
    (hfit : a.toNat % 256 ≤ 252) : Alike (m.read32 a) (m.readBytewise 32 a) := by
  have hmod := toNat_mod_translateAddr hvalid hcount hclear
  have hread : m.read32 a = (readDwordUnaligned (m.translateAddr a true).2.program
      (m.translateAddr a true).1, (m.translateAddr a true).2) := by
    rw [read32, if_pos henabled]
    dsimp only
    rw [if_neg (not_not_intro hclear)]
    by_cases hboundary : (a + 3#32) &&& 0xfc#32 ≠ 0#32
    · rw [if_pos hboundary]
    · have haligned : a.toNat % 4 = 0 := by
        have hnot := mt (boundary_iff a).mpr hboundary
        omega
      rw [if_neg hboundary, if_pos ((and_three_iff a).mpr haligned), readDword_eq,
        readDwordUnaligned_eq, if_pos (by omega)]
  obtain ⟨m', hbytes, hm'⟩ :=
    (translateBytes_block _ hvalid hcount (n := 3) (by omega) rfl).2 hclear
  rw [hread, readBytewise_of_some (w := 32) hbytes, readDwordUnaligned_bytes, bytesAt,
    program_of_forget hm']
  exact ⟨rfl, hm'.symm⟩

/-- A word at the end of a block, and one of the next block. -/
theorem read32_words (hvalid : TcValid m.tc) (henabled : m.enabled = true)
    (hcount : m.buserrorOccurred ≠ 0xffff#16)
    (hclear : (m.translateAddr a true).2.buserrorOccurred = 0#16)
    (hlast : a.toNat % 256 = 254) : Alike (m.read32 a) (m.readBytewise 32 a) := by
  have hmod := toNat_mod_translateAddr hvalid hcount hclear
  have htc : (m.translateAddr a true).2.tc = m.tc := tc_translateAddr a true m
  have hnext : (a + 2#32).toNat % 256 = 0 := next_mod (k := 2) (by omega)
  obtain ⟨hfaulted, hgiven⟩ := translateBytes_split hvalid hcount (j := 1) (n := 1) (by omega)
    (show (a + 2#32).toNat % 256 + _ ≤ _ by omega) hclear rfl
  rw [read32, if_pos henabled]
  dsimp only
  rw [if_neg (not_not_intro hclear), if_neg (mt (boundary_iff a).mp (by omega)),
    if_neg (mt (and_three_iff a).mp (by omega))]
  by_cases
    hfault : ((m.translateAddr a true).2.translateAddr (a + 2#32) true).2.buserrorOccurred ≠ 0#16
  · obtain ⟨m', hbytes, hm'⟩ := hfaulted hfault
    rw [if_pos hfault, readBytewise_of_none (w := 32) hbytes]
    exact ⟨rfl, hm'.symm⟩
  · have hmod' :=
      toNat_mod_translateAddr (htc.symm ▸ hvalid) (by rw [hclear]; decide) (not_ne_iff.mp hfault)
    obtain ⟨m', hbytes, hm'⟩ := hgiven (not_ne_iff.mp hfault)
    rw [if_neg hfault, if_pos ((and_one_iff a).mpr (by omega)), readBytewise_of_some (w :=
      32) hbytes, readWord_bytes _ (by omega), readWord_bytes _ (by omega), program_of_forget hm']
    exact ⟨bigEndian_words _ _ _ _, hm'.symm⟩

/-- What the accessor does with the translations of an odd address at the end of a block. -/
theorem read32_of_odd (henabled : m.enabled = true)
    (hclear : (m.translateAddr a true).2.buserrorOccurred = 0#16)
    (hlast : a.toNat % 256 = 253 ∨ a.toNat % 256 = 255) {v w x : BitVec 32 × Pmmu}
    (hv : (m.translateAddr a true).2.translateAddr (a + 2#32) true = v)
    (hw : v.2.translateAddr (a + 1#32) true = w) (hx : w.2.translateAddr (a + 3#32) true = x) :
    m.read32 a = if v.2.buserrorOccurred ≠ 0#16 then (allOnes 32, v.2)
      else if x.2.buserrorOccurred ≠ 0#16 then (allOnes 32, x.2)
      else ((readByte x.2.program (m.translateAddr a true).1).setWidth 32 <<< 24 |||
        (readWord x.2.program w.1).setWidth 32 <<< 8 |||
        (readByte x.2.program x.1).setWidth 32, x.2) := by
  have hboundary := mt (boundary_iff a).mp (by omega)
  have haligned := mt (and_three_iff a).mp (by omega)
  have heven := mt (and_one_iff a).mp (by omega)
  rw [read32, if_pos henabled]
  dsimp only
  rw [if_neg (not_not_intro hclear), if_neg hboundary, if_neg haligned, hv, if_neg heven, hw, hx]

section

variable (hvalid : TcValid m.tc) (henabled : m.enabled = true)
    (hcount : m.buserrorOccurred ≠ 0xffff#16)
include hvalid henabled hcount

theorem read32_three_one (hclear : (m.translateAddr a true).2.buserrorOccurred = 0#16)
    (hlast : a.toNat % 256 = 253) : Alike (m.read32 a) (m.readBytewise 32 a) := by
  have hmod := toNat_mod_translateAddr hvalid hcount hclear
  have hsame := occurred_of_clear hcount hclear
  obtain ⟨haddr2, hforget2⟩ :=
    translateAddr_block hvalid (sameBlock_add (k := 2) (by omega)) hsame rfl
  obtain ⟨haddr1, hforget1⟩ :=
    translateAddr_block hvalid (sameBlock_add (k := 1) (by omega)) hsame hforget2
  rw [place_add (translateAddr_place hvalid hsame) (by omega)] at haddr1
  have hnext : (a + 3#32).toNat % 256 = 0 := next_mod (k := 3) (by omega)
  have heven' : ((m.translateAddr a true).1 + 1#32).toNat % 2 = 0 := by
    rw [toNat_add]
    show (_ + 1) % _ % _ = 0
    omega
  obtain ⟨hfaulted, hgiven⟩ := translateBytes_split hvalid hcount (j := 2) (n := 0) (by omega)
    (show (a + 3#32).toNat % 256 + _ ≤ _ by omega) hclear hforget1
  rw [read32_of_odd henabled hclear (.inl hlast) rfl rfl rfl,
    if_neg (not_not_intro ((occurred_of_forget hforget2).trans hclear))]
  generalize ((m.translateAddr a true).2.translateAddr (a + BitVec.ofNat 32 2) true).2.translateAddr
    (a + BitVec.ofNat 32 1) true = w at *
  by_cases hfault : (w.2.translateAddr (a + 3#32) true).2.buserrorOccurred ≠ 0#16
  · obtain ⟨m', hbytes, hm'⟩ := hfaulted hfault
    rw [if_pos hfault, readBytewise_of_none (w := 32) hbytes]
    exact ⟨rfl, hm'.symm⟩
  · obtain ⟨m', hbytes, hm'⟩ := hgiven (not_ne_iff.mp hfault)
    rw [if_neg hfault, readBytewise_of_some (w := 32) hbytes, program_of_forget hm', haddr1,
      readWord_bytes _ heven']
    exact ⟨bigEndian_byte_word_byte _ _ _ _, hm'.symm⟩

theorem read32_one_three (hclear : (m.translateAddr a true).2.buserrorOccurred = 0#16)
    (hlast : a.toNat % 256 = 255) : Alike (m.read32 a) (m.readBytewise 32 a) := by
  have htc : (m.translateAddr a true).2.tc = m.tc := tc_translateAddr a true m
  have hvalid' : TcValid (m.translateAddr a true).2.tc := htc.symm ▸ hvalid
  have hcount' : (m.translateAddr a true).2.buserrorOccurred ≠ 0xffff#16 := by
    rw [hclear]
    decide
  have hnext : (a + 1#32).toNat % 256 = 0 := next_mod (k := 1) (by omega)
  have hsecond : a + 2#32 = a + 1#32 + BitVec.ofNat 32 1 := by
    rw [BitVec.add_assoc]
    rfl
  have hthird : a + 3#32 = a + 1#32 + BitVec.ofNat 32 2 := by
    rw [BitVec.add_assoc]
    rfl
  obtain ⟨hfaulted, hgiven⟩ := translateBytes_split hvalid hcount (j := 0) (n := 2) (by omega)
    (show (a + 1#32).toNat % 256 + _ ≤ _ by omega) hclear rfl
  obtain ⟨hforget2, hthree⟩ := translateAddr_three true hvalid' hcount'
    (hsecond ▸ sameBlock_add (by omega) : SameBlock (a + 1#32) (a + 2#32))
    (hthird ▸ sameBlock_add (by omega) : SameBlock (a + 1#32) (a + 3#32))
  have hmod : ((m.translateAddr a true).2.translateAddr (a + 1#32) true).2.buserrorOccurred = 0#16 →
      ((m.translateAddr a true).2.translateAddr (a + 1#32) true).1.toNat % 256 = 0 :=
    fun hclear' ↦ (toNat_mod_translateAddr hvalid' hcount' hclear').trans hnext
  rw [read32_of_odd henabled hclear (.inr hlast) rfl rfl rfl]
  change ((m.translateAddr a true).2.translateAddr (a + 1#32) true).2.buserrorOccurred ≠ 0#16 →
    _ at hfaulted
  change ((m.translateAddr a true).2.translateAddr (a + 1#32) true).2.buserrorOccurred = 0#16 →
    _ at hgiven
  generalize (m.translateAddr a true).2.translateAddr (a + 1#32) true = u at *
  generalize (m.translateAddr a true).2.translateAddr (a + 2#32) true = v at *
  generalize v.2.translateAddr (a + 1#32) true = w at *
  generalize w.2.translateAddr (a + 3#32) true = x at *
  by_cases hfault : u.2.buserrorOccurred ≠ 0#16
  · obtain ⟨m', hbytes, hm'⟩ := hfaulted hfault
    rw [if_pos ((occurred_of_forget hforget2).symm ▸ hfault), readBytewise_of_none (w := 32) hbytes]
    exact ⟨rfl, hforget2.trans hm'.symm⟩
  · have hclear' := not_ne_iff.mp hfault
    obtain ⟨hplace, haddr1, haddr3, hforget3⟩ := hthree hclear'
    obtain ⟨m', hbytes, hm'⟩ := hgiven hclear'
    rw [hthird, place_add hplace (by omega)] at haddr3
    rw [if_neg (not_not_intro ((occurred_of_forget hforget2).trans hclear')),
      if_neg (not_not_intro ((occurred_of_forget hforget3).trans hclear')), haddr1, haddr3,
      readBytewise_of_some (w := 32) hbytes, program_of_forget hforget3, program_of_forget hm',
      readWord_bytes _ (by have := hmod hclear'; omega)]
    refine ⟨?_, hforget3.trans hm'.symm⟩
    rw [show u.1 + BitVec.ofNat 32 2 = u.1 + 1#32 + 1#32 by rw [BitVec.add_assoc]; rfl]
    exact bigEndian_byte_word_byte _ _ _ _

theorem read32_eq (a : BitVec 32) : Alike (m.read32 a) (m.readBytewise 32 a) := by
  by_cases hfault : (m.translateAddr a true).2.buserrorOccurred ≠ 0#16
  · rw [read32, if_pos henabled]
    dsimp only
    rw [if_pos hfault, readBytewise_of_none (w := 32) (translateBytes_cons_of_fault hfault)]
    exact ⟨rfl, rfl⟩
  have hclear := not_ne_iff.mp hfault
  obtain hfit | hlast | hlast | hlast : a.toNat % 256 ≤ 252 ∨ a.toNat % 256 = 253 ∨
      a.toNat % 256 = 254 ∨ a.toNat % 256 = 255 := by omega
  · exact read32_inside hvalid henabled hcount hclear hfit
  · exact read32_three_one hvalid henabled hcount hclear hlast
  · exact read32_words hvalid henabled hcount hclear hlast
  · exact read32_one_three hvalid henabled hcount hclear hlast

end

end Reads

/-! ## The write accessors -/

section Writes

variable {a : BitVec 32} {m m' : Pmmu}

theorem writeAddr_of_fault (henabled : m.enabled = true)
    (hfault : (m.translateAddr a false).2.buserrorOccurred ≠ 0#16) :
    m.writeAddr a = (none, (m.translateAddr a false).2) := by
  rw [writeAddr, if_pos henabled]
  exact if_pos hfault

theorem writeAddr_of_clear (henabled : m.enabled = true)
    (hclear : (m.translateAddr a false).2.buserrorOccurred = 0#16) :
    m.writeAddr a = (some (m.translateAddr a false).1, (m.translateAddr a false).2) := by
  rw [writeAddr, if_pos henabled]
  exact if_neg (not_not_intro hclear)

theorem enabled_translateAddr (a : BitVec 32) (rw : Bool) (m : Pmmu) :
    (m.translateAddr a rw).2.enabled = m.enabled :=
  congrArg Registers.enabled (registers_translate false a (m.tmpFc.setWidth 8) rw m)

variable {w : ℕ} (data : BitVec 32) {k : ℕ} {mask : BitVec 32}

theorem writeBytewise_of_none (data : BitVec w)
    (h : m.translateBytes false (span a (w / 8)) = (none, m')) : m.writeBytewise a data = m' := by
  rw [writeBytewise, h]

theorem writeBytewise_of_some (data : BitVec w) {ps : List (BitVec 32)}
    (h : m.translateBytes false (span a (w / 8)) = (some ps, m')) :
    m.writeBytewise a data = { m' with program := writeBytes ps (dataBytes data) m'.program } := by
  rw [writeBytewise, h]

theorem forget_program (hm : m'.forget = m.forget) (program : Memory) :
    { m' with program }.forget = { m with program }.forget := by
  show { m'.forget with program } = { m.forget with program }
  rw [hm]

/-- The lanes of a mask are those of some bytes from a lane on. -/
def MaskLanes (mask : BitVec 32) (k n : ℕ) : Prop :=
  ∀ i < 4, lane mask i = if k ≤ i ∧ i < k + n then 0xff#8 else 0#8

/-- The lanes of the data have the bytes, from a lane on. -/
def DataLanes (data : BitVec 32) (k : ℕ) (bytes : List (BitVec 8)) : Prop :=
  ∀ j < bytes.length, lane data (k + j) = bytes.getD j 0#8

theorem DataLanes.nil (k : ℕ) : DataLanes data k [] := fun _ hj ↦ absurd hj (Nat.not_lt_zero _)

theorem DataLanes.cons {data : BitVec 32} {k : ℕ} {byte : BitVec 8} {bytes : List (BitVec 8)}
    (h : lane data k = byte) (hs : DataLanes data (k + 1) bytes) :
    DataLanes data k (byte :: bytes) := by
  intro j hj
  cases j with
  | zero => exact h
  | succ j =>
    rw [← Nat.add_assoc, Nat.add_right_comm]
    exact hs j (lt_of_succ_lt_succ hj)

instance (mask : BitVec 32) (k n : ℕ) : Decidable (MaskLanes mask k n) :=
  inferInstanceAs (Decidable (∀ i < 4, _))

/-- A write of a double word with the bytes of an access in its lanes. -/
theorem store_eq {r data : BitVec 32} {bytes : List (BitVec 8)} (hk : r.toNat % 4 = k)
    (hfit : k + bytes.length ≤ 4) (hmask : MaskLanes mask k bytes.length)
    (hdata : DataLanes data k bytes) (m : Pmmu) : m.store (r - BitVec.ofNat 32 k) data mask =
      { m with program := writeBytes (span r bytes.length) bytes m.program } := by
  subst hk
  rw [store, writeDword_eq_writeBytes (base_sub (Nat.le_refl _)) hfit hmask hdata]

theorem store_one_part {n : ℕ} {value : BitVec w} (hvalid : TcValid m.tc)
    (hcount : m.buserrorOccurred ≠ 0xffff#16)
    (hclear : (m.translateAddr a false).2.buserrorOccurred = 0#16) (hw : w / 8 = n + 1)
    (hlength : (dataBytes value).length = n + 1) (hk : a.toNat % 4 = k) (hfit : k + (n + 1) ≤ 4)
    {data : BitVec 32} (hmask : MaskLanes mask k (n + 1))
    (hdata : DataLanes data k (dataBytes value)) : ((m.translateAddr a false).2.store
    ((m.translateAddr a false).1 - BitVec.ofNat 32 k) data mask).forget =
      (m.writeBytewise a value).forget := by
  have hmod := toNat_mod_translateAddr hvalid hcount hclear
  obtain ⟨m', hbytes, hm'⟩ :=
    (translateBytes_block _ hvalid hcount (n := n) (by omega) rfl).2 hclear
  rw [← hw] at hbytes
  rw [writeBytewise_of_some value hbytes, program_of_forget hm', forget_program hm',
    store_eq (by omega) (hlength.symm ▸ hfit) (hlength.symm ▸ hmask) hdata, hlength, hw]

theorem store_two_parts {j n : ℕ} {value : BitVec w} (hvalid : TcValid m.tc)
    (henabled : m.enabled = true) (hcount : m.buserrorOccurred ≠ 0xffff#16)
    (hclear : (m.translateAddr a false).2.buserrorOccurred = 0#16) (hw : w / 8 = j + 1 + (n + 1))
    {first second : List (BitVec 8)} (hbytes : dataBytes value = first ++ second)
    (hfirst : first.length = j + 1) (hsecond : second.length = n + 1) (hk : a.toNat % 4 = k)
    (hfit : k + (j + 1) = 4) (hfit' : n + 1 ≤ 4) {data data' mask' : BitVec 32}
    (hmask : MaskLanes mask k (j + 1)) (hdata : DataLanes data k first)
    (hmask' : MaskLanes mask' 0 (n + 1)) (hdata' : DataLanes data' 0 second) :
    (match (m.translateAddr a false).2.writeAddr (a + BitVec.ofNat 32 (j + 1)) with
      | (none, m) => m
      | (some address, m') =>
          (m'.store ((m.translateAddr a false).1 - BitVec.ofNat 32 k) data mask).store address data'
            mask').forget =
      (m.writeBytewise a value).forget := by
  have hmod := toNat_mod_translateAddr hvalid hcount hclear
  have hvalid' : TcValid (m.translateAddr a false).2.tc :=
    (tc_translateAddr a false m).symm ▸ hvalid
  have henabled' := (enabled_translateAddr a false m).trans henabled
  have hcount' : (m.translateAddr a false).2.buserrorOccurred ≠ 0xffff#16 := by
    rw [hclear]
    decide
  have hnext : (a + BitVec.ofNat 32 (j + 1)).toNat % 4 = 0 := by
    rw [toNat_add, toNat_ofNat]
    omega
  obtain ⟨hfaulted, hgiven⟩ :=
    translateBytes_split (j := j) (n := n) hvalid hcount (by omega) (by omega) hclear
    rfl
  rw [← hw] at hfaulted hgiven
  by_cases hfault : ((m.translateAddr a false).2.translateAddr
      (a + BitVec.ofNat 32 (j + 1)) false).2.buserrorOccurred ≠ 0#16
  · obtain ⟨m', htranslated, hm'⟩ := hfaulted hfault
    rw [writeAddr_of_fault henabled' hfault, writeBytewise_of_none value htranslated]
    exact hm'.symm
  · have hclear' := not_ne_iff.mp hfault
    have hmod' := toNat_mod_translateAddr hvalid' hcount' hclear'
    obtain ⟨m', htranslated, hm'⟩ := hgiven hclear'
    rw [writeAddr_of_clear henabled' hclear', writeBytewise_of_some value htranslated, hbytes]
    dsimp only
    generalize (m.translateAddr a false).2.translateAddr
      (a + BitVec.ofNat 32 (j + 1)) false = u at *
    have hstore : ∀ m : Pmmu, m.store (u.1 - 0#32) data' mask' =
        { m with program := writeBytes (span u.1 second.length) second m.program } :=
      store_eq (by omega) (by omega) (hsecond.symm ▸ hmask') hdata'
    rw [BitVec.sub_zero] at hstore
    rw [store_eq (by omega) (by omega) (hfirst.symm ▸ hmask) hdata, hstore, program_of_forget hm',
      forget_program hm', writeBytes_append (by rw [length_span, hfirst]), hfirst, hsecond]

theorem dataBytes_word (data : BitVec 16) :
    dataBytes data = [(data >>> 8).setWidth 8, data.setWidth 8] := by
  show [(data >>> 8).setWidth 8, (data >>> 0).setWidth 8] = _
  rw [ushiftRight_zero]

theorem dataBytes_dword : dataBytes data = [lane data 0, lane data 1, lane data 2, lane data 3] :=
  rfl

theorem write16_eq (hvalid : TcValid m.tc) (henabled : m.enabled = true)
    (hcount : m.buserrorOccurred ≠ 0xffff#16) (a : BitVec 32) (data : BitVec 16) :
    (m.write16 a data).forget = (m.writeBytewise a data).forget := by
  rw [write16]
  by_cases hfault : (m.translateAddr a false).2.buserrorOccurred ≠ 0#16
  · rw [writeAddr_of_fault henabled hfault,
      writeBytewise_of_none (w := 16) data (translateBytes_cons_of_fault hfault)]
  have hclear := not_ne_iff.mp hfault
  have hand : (a &&& 3#32).toNat = a.toNat % 4 := by
    rw [toNat_and]
    exact land_three _
  rw [writeAddr_of_clear henabled hclear]
  dsimp only
  have hbytes := dataBytes_word data
  obtain hk | hk | hk | hk : a.toNat % 4 = 0 ∨ a.toNat % 4 = 1 ∨ a.toNat % 4 = 2 ∨
      a.toNat % 4 = 3 := by omega
  · rw [hand, hk, ← BitVec.sub_zero (m.translateAddr a false).1]
    refine store_one_part (n := 1) hvalid hcount hclear rfl rfl hk (by decide)
      (by decide +kernel) ?_
    rw [hbytes]
    exact .cons (lane_dwordFromWord data (by decide))
      (.cons (lane_dwordFromWord data (by decide)) (.nil _ _))
  · rw [hand, hk]
    refine store_one_part (n := 1) hvalid hcount hclear rfl rfl hk (by decide)
      (by decide +kernel) ?_
    rw [hbytes]
    exact .cons (lane_dwordFromUnalignedWord data (by decide))
      (.cons (lane_dwordFromUnalignedWord data (by decide)) (.nil _ _))
  · rw [hand, hk]
    refine store_one_part (n := 1) hvalid hcount hclear rfl rfl hk (by decide)
      (by decide +kernel) ?_
    rw [hbytes]
    exact .cons (lane_dwordFromWord data (by decide))
      (.cons (lane_dwordFromWord data (by decide)) (.nil _ _))
  · rw [hand, hk]
    exact store_two_parts (j := 0) (n := 0) hvalid henabled hcount hclear rfl
      (show dataBytes data = [(data >>> 8).setWidth 8] ++ [data.setWidth 8] from hbytes) rfl rfl hk
      rfl (by decide) (by decide +kernel) (.cons (lane_dwordFromUnalignedWord data (by decide))
      (.nil _ _)) (by decide +kernel) (.cons (lane_dwordFromByte _ (by decide)) (.nil _ _))

theorem bytes_of_halves :
    (((data >>> 16).setWidth 16) >>> 8).setWidth 8 = lane data 0 ∧
      ((data >>> 16).setWidth 16).setWidth 8 = lane data 1 ∧
      ((data.setWidth 16) >>> 8).setWidth 8 = lane data 2 ∧
      (data.setWidth 16).setWidth 8 = lane data 3 ∧ data.setWidth 8 = lane data 3 := by
  refine ⟨eq_of_toNat_eq ?_, eq_of_toNat_eq ?_, eq_of_toNat_eq ?_, eq_of_toNat_eq ?_,
    eq_of_toNat_eq ?_⟩
  all_goals
    simp only [toNat_lane, toNat_setWidth, toNat_ushiftRight, shiftRight_eq_div_pow]
    omega

/-- The data of the first write of the bytes behind an address that is one over a multiple of
four. -/
theorem lane_merged (hk : k < 3) :
    lane (data &&& 0xff000000#32 ||| (data &&& 0xffffff00#32) >>> 8) (k + 1) = lane data k := by
  have hupper : lane 0xff000000#32 (k + 1) = 0#8 :=
    (show ∀ k < 3, lane 0xff000000#32 (k + 1) = 0#8 by decide +kernel) k hk
  have hlower : lane 0xffffff00#32 k = allOnes 8 :=
    (show ∀ k < 3, lane 0xffffff00#32 k = allOnes 8 by decide +kernel) k hk
  have hshift := lane_shiftRight (data &&& 0xffffff00#32) (k := k) (n := 1) (by omega)
  rw [lane_or, lane_and, hupper, BitVec.and_zero, BitVec.zero_or, hshift, lane_and,
    hlower, and_allOnes]

theorem lane_rotateLeft (hk : k < 3) : lane (data.rotateLeft 8) k = lane data (k + 1) := by
  have hshift := lane_shiftLeft data (k := k) (n := 1) (by omega)
  have hzero : lane (data >>> 24) k = 0#8 := by
    have hlt := data.isLt
    have hcases : k = 0 ∨ k = 1 ∨ k = 2 := by omega
    refine eq_of_toNat_eq ?_
    rw [toNat_lane, toNat_ushiftRight, shiftRight_eq_div_pow]
    show _ = 0
    rcases hcases with rfl | rfl | rfl <;> omega
  have hrotate : data.rotateLeft 8 = data <<< (8 * 1) ||| data >>> 24 := rfl
  rw [hrotate, lane_or, hshift, hzero, BitVec.or_zero]

theorem write32_eq (hvalid : TcValid m.tc)
    (henabled : m.enabled = true) (hcount : m.buserrorOccurred ≠ 0xffff#16)
    (a data : BitVec 32) : (m.write32 a data).forget = (m.writeBytewise a data).forget := by
  rw [write32]
  by_cases hfault : (m.translateAddr a false).2.buserrorOccurred ≠ 0#16
  · rw [writeAddr_of_fault henabled hfault,
      writeBytewise_of_none (w := 32) data (translateBytes_cons_of_fault hfault)]
  have hclear := not_ne_iff.mp hfault
  have hand : (a &&& 3#32).toNat = a.toNat % 4 := by
    rw [toNat_and]
    exact land_three _
  obtain ⟨h0, h1, h2, h3, h3'⟩ := bytes_of_halves data
  rw [writeAddr_of_clear henabled hclear]
  dsimp only
  have hbytes := dataBytes_dword data
  obtain hk | hk | hk | hk : a.toNat % 4 = 0 ∨ a.toNat % 4 = 1 ∨ a.toNat % 4 = 2 ∨
      a.toNat % 4 = 3 := by omega
  · rw [hand, hk, ← BitVec.sub_zero (m.translateAddr a false).1]
    exact store_one_part (n := 3) hvalid hcount hclear rfl rfl hk (by decide) (by decide +kernel)
      (.cons rfl (.cons rfl (.cons rfl (.cons rfl (.nil _ _)))))
  · rw [hand, hk]
    exact store_two_parts (j := 2) (n := 0) hvalid henabled hcount hclear rfl
      (show dataBytes data = [lane data 0, lane data 1, lane data 2] ++
      [lane data 3] from hbytes) rfl rfl hk rfl (by decide) (by decide +kernel)
      (.cons (lane_merged data (by decide)) (.cons (lane_merged data (by decide))
        (.cons (lane_merged data (by decide)) (.nil _ _))))
      (by decide +kernel) (.cons ((lane_dwordFromByte _ (by decide)).trans h3') (.nil _ _))
  · rw [hand, hk]
    exact store_two_parts (j := 1) (n := 1) hvalid henabled hcount hclear rfl
      (show dataBytes data = [lane data 0, lane data 1] ++
      [lane data 2, lane data 3] from hbytes) rfl rfl hk rfl (by decide) (by decide +kernel)
      (.cons ((lane_dwordFromWord _ (by decide)).trans h0)
        (.cons ((lane_dwordFromWord _ (by decide)).trans h1) (.nil _ _)))
      (by decide +kernel)
      (.cons ((lane_dwordFromWord _ (by decide)).trans h2)
        (.cons ((lane_dwordFromWord _ (by decide)).trans h3) (.nil _ _)))
  · rw [hand, hk]
    exact store_two_parts (j := 0) (n := 2) hvalid henabled hcount hclear rfl
      (show dataBytes data = [lane data 0] ++ [lane data 1, lane data 2, lane data 3] from hbytes)
      rfl rfl hk rfl (by decide) (by decide +kernel)
      (.cons ((lane_dwordFromUnalignedWord _ (by decide)).trans h0) (.nil _ _)) (by decide +kernel)
      (.cons (lane_rotateLeft data (by decide)) (.cons (lane_rotateLeft data (by decide))
        (.cons (lane_rotateLeft data (by decide)) (.nil _ _))))

end Writes

/-! ## The accessors and the accesses by bytes -/

section Bytewise

variable {m : Pmmu}

theorem occurred_of_none
    {rw : Bool} {addresses : List (BitVec 32)} (h : (m.translateBytes rw addresses).1 = none) :
    (m.translateBytes rw addresses).2.buserrorOccurred ≠ 0#16 := by
  induction addresses generalizing m with
  | nil => cases h
  | cons address addresses ih =>
    by_cases hfault : (m.translateAddr address rw).2.buserrorOccurred ≠ 0#16
    · rwa [translateBytes_cons_of_fault hfault]
    · rw [translateBytes] at h ⊢
      dsimp only at h ⊢
      rw [if_neg hfault] at h ⊢
      rcases hrest : (m.translateAddr address rw).2.translateBytes rw addresses with ⟨_ | ps, m'⟩
      · have hm' := ih (congrArg Prod.fst hrest)
        rwa [hrest] at hm'
      · rw [hrest] at h
        cases h

/-- **Misaligned accesses through the PMMU.** With the translation on, the fields of the translation
control register as they must be, and the counter of faults not at its end, the 16- and 32-bit
accessors do what the accesses by bytes do, for every address, every state of the cache, every
tables and every data. -/
theorem bytewise_of_tcValid (m : Pmmu) (address : BitVec 32) (henabled : m.enabled = true)
    (hvalid : TcValid m.tc) (hcount : m.buserrorOccurred ≠ 0xffff#16) : m.Bytewise address := by
  have hread : ∀ n, (m.translateBytes true (span address (n / 8))).1 = none →
      (m.readBytewise n address).2.buserrorOccurred ≠ 0#16 := by
    intro n hnone
    have hfault := occurred_of_none hnone
    rcases hbytes : m.translateBytes true (span address (n / 8)) with ⟨_ | ps, m'⟩
    · rw [readBytewise_of_none hbytes]
      rwa [hbytes] at hfault
    · rw [hbytes] at hnone
      cases hnone
  have hwrite : ∀ {n : ℕ} (data : BitVec n) (result : Pmmu),
      (m.translateBytes false (span address (n / 8))).1 = none →
      result.forget = (m.writeBytewise address data).forget → result.buserrorOccurred ≠ 0#16 ∧
        result.program = (m.translateBytes false (span address (n / 8))).2.program := by
    intro n data result hnone hresult
    have hfault := occurred_of_none hnone
    rcases hbytes : m.translateBytes false (span address (n / 8)) with ⟨_ | ps, m'⟩
    · rw [writeBytewise_of_none data hbytes] at hresult
      rw [hbytes] at hfault
      exact ⟨(occurred_of_forget hresult).symm ▸ hfault, program_of_forget hresult⟩
    · rw [hbytes] at hnone
      cases hnone
  have h16 := read16_eq hvalid henabled hcount address
  have h32 := read32_eq hvalid henabled hcount address
  exact {
    read16 := h16
    read32 := h32
    write16 := write16_eq hvalid henabled hcount address
    write32 := write32_eq hvalid henabled hcount address
    read16_fault := fun hnone ↦ (occurred_of_forget h16.2).symm ▸ hread 16 hnone
    read32_fault := fun hnone ↦ (occurred_of_forget h32.2).symm ▸ hread 32 hnone
    write16_fault :=
    fun hnone data ↦ hwrite data _ hnone (write16_eq hvalid henabled hcount address data)
    write32_fault :=
    fun hnone data ↦ hwrite data _ hnone (write32_eq hvalid henabled hcount address data) }

/-- `PMOVE` of a pointer to a table of the short format to the root pointer. -/
def moveToCrp (table : BitVec 32) : Step := .pmove 0x4c00 ⟨0, 0, 0x80000002#32 ++ table⟩

/-- A table at 0x1000 whose entries are descriptors of a page at 0x5000, with bytes at 0x5002 and
after. -/
def onePage : Memory := fun location ↦
  if location = 0x5000#32 then 0x00001122#32 else if location = 0x5004#32 then 0x33440000#32
  else if location = 0x1000#32 ∨ location = 0x1010#32 then 0x5001#32 else 0#32

/-- The processor with the tables of `onePage`, after moves to the translation control register. -/
def withTables (values : List (BitVec 32)) : Pmmu :=
  Run.run step { new.reset with program := onePage } (moveToCrp 0x1000 :: values.map moveToTc)

theorem bytewise_withTables : (withTables [0x80c8c000]).Bytewise 0x12#32 :=
  bytewise_of_tcValid _ _ (by decide +kernel) (by decide +kernel) (by decide +kernel)

/-- A value whose fields make up too many bits, while the translation is on: the walk and the cache
translate the bytes of one page to different places. -/
theorem not_bytewise_rejected :
    (withTables [0x80c8c000, 0x808ff000]).enabled = true ∧
      ((withTables [0x80c8c000, 0x808ff000]).read32 0x12#32).1 = 0x11223344#32 ∧
      ((withTables [0x80c8c000, 0x808ff000]).readBytewise 32 0x12#32).1 = 0x11000000#32 ∧
      ¬ (withTables [0x80c8c000, 0x808ff000]).Bytewise 0x12#32 := by
  have hread : ((withTables [0x80c8c000, 0x808ff000]).read32 0x12#32).1 = 0x11223344#32 := by
    decide +kernel
  have hbytes :
      ((withTables [0x80c8c000, 0x808ff000]).readBytewise 32 0x12#32).1 = 0x11000000#32 := by
    decide +kernel
  refine ⟨by decide +kernel, hread, hbytes, fun h ↦ ?_⟩
  have heq := h.read32.1
  rw [hread, hbytes] at heq
  cases heq

end Bytewise

end Pmmu

end RoscoEmulator.M68k
