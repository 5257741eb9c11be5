import RoscoEmulator.M68k.TableWalk

/-!
# Addresses of one block

A page has at least 256 bytes, so the addresses of a block of 256 bytes are translated alike: two
states of the PMMU that agree still agree after translations of two addresses of the block, and the
results are in one block, at the places of the addresses. After a translation without a fault the
cache has the block, and another one changes nothing. -/

namespace RoscoEmulator.M68k

open Nat BitVec

/-- Two addresses in one block of 256 bytes. -/
def SameBlock (a b : BitVec 32) : Prop := a >>> 8 = b >>> 8

/-- The address in the block of a physical address that is at the place of an address. -/
def place (physical address : BitVec 32) : BitVec 32 :=
  physical &&& 0xffffff00#32 ||| address &&& 0xff#32

namespace SameBlock

variable {a b : BitVec 32}

theorem bit_eq (h : SameBlock a b) {i : ℕ} (hi : 8 ≤ i) : a.getLsbD i = b.getLsbD i := by
  have hbit := congrArg (getLsbD · (i - 8)) h
  simp only [getLsbD_ushiftRight, show 8 + (i - 8) = i by omega] at hbit
  exact hbit

theorem of_bits (h : ∀ i, 8 ≤ i → a.getLsbD i = b.getLsbD i) : SameBlock a b := by
  refine eq_of_getLsbD_eq fun i hi ↦ ?_
  rw [getLsbD_ushiftRight, getLsbD_ushiftRight]
  exact h _ (Nat.le_add_right 8 i)

theorem div_eq (h : SameBlock a b) {k : ℕ} (hk : 8 ≤ k) : a.toNat / 2 ^ k = b.toNat / 2 ^ k := by
  have hdiv : a.toNat / 2 ^ 8 = b.toNat / 2 ^ 8 := by
    have htoNat := congrArg BitVec.toNat h
    rwa [toNat_ushiftRight, toNat_ushiftRight, shiftRight_eq_div_pow,
      shiftRight_eq_div_pow] at htoNat
  rw [show k = 8 + (k - 8) by omega, Nat.pow_add, ← Nat.div_div_eq_div_mul, hdiv,
    Nat.div_div_eq_div_mul]

theorem shiftRight_eq (h : SameBlock a b) {k : ℕ} (hk : 8 ≤ k) : a >>> k = b >>> k := by
  refine eq_of_toNat_eq ?_
  rw [toNat_ushiftRight, toNat_ushiftRight, shiftRight_eq_div_pow, shiftRight_eq_div_pow,
    h.div_eq hk]

/-- A mask that covers whole blocks does not tell the addresses apart. -/
theorem and_eq (h : SameBlock a b) {mask : BitVec 32} (hmask : ∀ i < 8, mask.getLsbD i = false) :
    a &&& mask = b &&& mask := by
  refine eq_of_getLsbD_eq fun i hi ↦ ?_
  rw [getLsbD_and, getLsbD_and]
  by_cases hlow : i < 8
  · rw [hmask i hlow, Bool.and_false, Bool.and_false]
  · rw [h.bit_eq (by omega)]

end SameBlock

theorem getLsbD_place (physical address : BitVec 32) (i : ℕ) : (place physical address).getLsbD i =
    if i < 8 then address.getLsbD i else physical.getLsbD i := by
  have hmask : ∀ i < 32, (0xff#32).getLsbD i = decide (i < 8) ∧
      (0xffffff00#32).getLsbD i = !decide (i < 8) := by
    decide
  rw [place, getLsbD_or, getLsbD_and, getLsbD_and]
  by_cases hi : i < 32
  · rw [(hmask i hi).1, (hmask i hi).2]
    by_cases hlow : i < 8 <;> simp [hlow]
  · rw [getLsbD_of_ge _ _ (by omega), getLsbD_of_ge address _ (by omega)]
    simp

theorem eq_place {physical address result : BitVec 32}
    (hlow : ∀ i < 8, result.getLsbD i = address.getLsbD i)
    (hhigh : ∀ i, 8 ≤ i → result.getLsbD i = physical.getLsbD i) :
    result = place physical address := by
  refine eq_of_getLsbD_eq fun i hi ↦ ?_
  rw [getLsbD_place]
  split
  · next hlt => exact hlow i hlt
  · exact hhigh i (by omega)

theorem place_of_sameBlock {a b : BitVec 32} (h : SameBlock a b) : place a b = b :=
  (eq_place (fun _ _ ↦ rfl) fun _ hi ↦ (h.bit_eq hi).symm).symm

/-! ## Places in a page -/

section Page

variable {tc base a b : BitVec 32} {n : ℕ}

theorem toNat_page (tc base a : BitVec 32) (n : ℕ) :
    ((base &&& allOnes 32 <<< pageSize tc) + BitVec.ofNat 32 (a.toNat % 2 ^ n)).toNat =
      (a.toNat % 2 ^ n + 2 ^ pageSize tc * (base.toNat / 2 ^ pageSize tc)) % 2 ^ 32 := by
  have hle := mod_le a.toNat (2 ^ n)
  rw [toNat_add, toNat_and_allOnes_shiftLeft, toNat_ofNat,
    mod_eq_of_lt (by omega : a.toNat % 2 ^ n < _), Nat.add_comm, Nat.mul_comm]

/-- An address in a page has the low bits of the address that is translated. -/
theorem getLsbD_page (hle : pageSize tc ≤ n) (hn : n ≤ 32) {i : ℕ} (hi : i < pageSize tc) :
    ((base &&& allOnes 32 <<< pageSize tc) + BitVec.ofNat 32 (a.toNat % 2 ^ n)).getLsbD i =
      a.getLsbD i := by
  have hmod : (a.toNat % 2 ^ n + 2 ^ pageSize tc * (base.toNat / 2 ^ pageSize tc)) % 2 ^ 32 % 2 ^
      pageSize tc = a.toNat % 2 ^ pageSize tc := by
    rw [mod_mod_of_dvd _ (Nat.pow_dvd_pow 2 (hle.trans hn)), add_mul_mod_self_left,
      mod_mod_of_dvd _ (Nat.pow_dvd_pow 2 hle)]
  have hbit := congrArg (testBit · i) hmod
  simp only [testBit_mod_two_pow _ (pageSize tc), hi, decide_true, Bool.true_and] at hbit
  rwa [getLsbD, toNat_page]

theorem page_place (hsize : 8 ≤ pageSize tc) (hle : pageSize tc ≤ n) (hn : n ≤ 32)
    (hblock : SameBlock a b) :
    (base &&& allOnes 32 <<< pageSize tc) + BitVec.ofNat 32 (b.toNat % 2 ^ n) =
      place ((base &&& allOnes 32 <<< pageSize tc) + BitVec.ofNat 32 (a.toNat % 2 ^ n)) b := by
  have hoffset : a.toNat % 2 ^ n / 2 ^ 8 = b.toNat % 2 ^ n / 2 ^ 8 := by
    rw [show n = 8 + (n - 8) by omega, Nat.pow_add, mod_mul_right_div_self, mod_mul_right_div_self,
      hblock.div_eq (Nat.le_refl 8)]
  have hframe : 2 ^ pageSize tc * (base.toNat / 2 ^ pageSize tc) =
      2 ^ 8 * (2 ^ (pageSize tc - 8) * (base.toNat / 2 ^ pageSize tc)) := by
    rw [← Nat.mul_assoc, ← Nat.pow_add, show 8 + (pageSize tc - 8) = pageSize tc by omega]
  refine eq_place (fun i hi ↦ getLsbD_page hle hn (by omega)) fun i hi ↦ ?_
  have hdiv :
      (b.toNat % 2 ^ n + 2 ^ pageSize tc * (base.toNat / 2 ^ pageSize tc)) % 2 ^ 32 / 2 ^ 8 =
      (a.toNat % 2 ^ n + 2 ^ pageSize tc * (base.toNat / 2 ^ pageSize tc)) % 2 ^ 32 / 2 ^ 8 := by
    rw [hframe]
    omega
  have hbit := congrArg (testBit · (i - 8)) hdiv
  simp only [testBit_div_two_pow, show i - 8 + 8 = i by omega] at hbit
  rwa [getLsbD, getLsbD, toNat_page, toNat_page]

end Page

/-! ## The walk -/

namespace Walk

/-- Two walks that differ in the address only. -/
structure Twin (w w' : Walk) : Prop where
  level : w'.level = w.level
  bitpos : w'.bitpos = w.bitpos
  pageshift : w'.pageshift = w.pageshift
  type : w'.type = w.type
  table : w'.table = w.table
  resolved : w'.resolved = w.resolved
  sr : w'.sr = w.sr
  program : w'.program = w.program

variable {tc : BitVec 32} {fc : BitVec 8} {rw : Bool} {a b : BitVec 32}
    {fs : List Field} {w w' : Walk}

theorem headIndex_eq (hsize : 8 ≤ pageSize tc) (hblock : SameBlock a b)
    (fc : BitVec 8) (fs : List Field) :
    headIndex fc a (bitsLeft tc fs) fs = headIndex fc b (bitsLeft tc fs) fs := by
  cases fs with
  | nil => rfl
  | cons f fs =>
    cases f with
    | functionCode => rfl
    | bits k =>
      have hle : 8 ≤ bitsLeft tc (.bits k :: fs) - k := by
        rw [bitsLeft, List.map_cons, List.sum_cons]
        show 8 ≤ pageSize tc + (k + (fs.map Field.width).sum) - k
        omega
      rw [headIndex, headIndex, Field.index, Field.index, hblock.div_eq hle]

variable (fc rw) in
/-- A round keeps two walks for addresses of one block alike, and fetches from the same place. -/
theorem Twin.step (h : Twin w w') (hat : At tc a fs w) (hat' : At tc b fs w')
    (hfields : fields tc ≠ []) (hsize : 8 ≤ pageSize tc) (hblock : SameBlock a b)
    (haddr : w'.addrOut = w.addrOut) : Twin (w.step false tc fc rw) (w'.step false tc fc rw) ∧
      (w.type ≠ .page → (w'.step false tc fc rw).addrOut = (w.step false tc fc rw).addrOut) := by
  have hcheck : ∀ {v v' : Walk} (width : ℕ), Twin v v' →
      Twin (v.check false fc rw width) (v'.check false fc rw width) ∧
        (v.check false fc rw width).addrOut = v.addrOut ∧
        (v'.check false fc rw width).addrOut = v'.addrOut := by
    intro v v' width hv
    rw [check, check, hv.sr]
    split_ifs
    · exact ⟨⟨hv.level, hv.bitpos, hv.pageshift, hv.type, hv.table, rfl, rfl, hv.program⟩, rfl, rfl⟩
    · exact ⟨⟨hv.level, hv.bitpos, hv.pageshift, hv.type, hv.table, rfl, rfl, hv.program⟩, rfl, rfl⟩
    · exact ⟨⟨hv.level, hv.bitpos, hv.pageshift, hv.type, hv.table, rfl, rfl, hv.program⟩, rfl, rfl⟩
    · exact ⟨⟨hv.level, hv.bitpos, congrArg (· + width) hv.pageshift, hv.type, hv.table,
        hv.resolved, rfl, hv.program⟩, rfl, rfl⟩
  by_cases htype : w.type.IsTable
  · rw [step_of_isTable hat hfields htype, step_of_isTable hat' hfields (h.type ▸ htype), h.type,
      ← headIndex_eq hsize hblock]
    have hfetch : ∀ long indirect index,
        Twin (fetch long false fc rw indirect index { w with bitpos := w.bitpos - 4 })
            (fetch long false fc rw indirect index { w' with bitpos := w'.bitpos - 4 }) ∧
          (fetch long false fc rw indirect index { w' with bitpos := w'.bitpos - 4 }).addrOut =
            (fetch long false fc rw indirect index { w with bitpos := w.bitpos - 4 }).addrOut := by
      intro long indirect index
      rw [fetch, fetch, h.level, h.bitpos, h.table, h.sr, h.program]
      exact ⟨⟨rfl, rfl, h.pageshift, rfl, rfl, h.resolved, rfl, rfl⟩, rfl⟩
    obtain ⟨htwin, haddr'⟩ :=
      hfetch w.type.long (decide (fs.length = 1)) (headIndex fc a (bitsLeft tc fs) fs)
    obtain ⟨hchecked, hleft, hright⟩ := hcheck (headWidth fs) htwin
    exact ⟨hchecked, fun _ ↦ hright.trans (haddr'.trans hleft.symm)⟩
  · rw [Walk.step, Walk.step]
    rw [h.bitpos, h.type]
    cases hw : w.type with
    | invalid =>
      obtain ⟨hchecked, hleft, hright⟩ := hcheck (indexbits (indexFields tc) w.bitpos)
        (⟨h.level, rfl, h.pageshift, rfl, h.table, rfl, rfl, h.program⟩ : Twin
          ⟨w.level, w.bitpos - 4, w.pageshift, w.addrIn, .invalid, w.table, w.addrOut, true,
          srInvalid, w.program⟩
          ⟨w'.level, w.bitpos - 4, w'.pageshift, w'.addrIn, .invalid, w'.table, w'.addrOut, true,
            srInvalid, w'.program⟩)
      exact ⟨hchecked, fun _ ↦ hright.trans (haddr.trans hleft.symm)⟩
    | page =>
      refine ⟨?_, fun hne ↦ absurd rfl hne⟩
      refine (hcheck (indexbits (indexFields tc) w.bitpos) ?_).1
      exact ⟨h.level, rfl, h.pageshift, rfl, congrArg (· &&& allOnes 32 <<< pageSize tc) h.table,
        rfl, h.sr, h.program⟩
    | table4byte => exact absurd (.inl hw) htype
    | table8byte => exact absurd (.inr hw) htype

/-- The addresses of two walks that have ended: in a page, or not in a page and then the same. -/
def Ends (tc : BitVec 32) (rw : Bool) (a b : BitVec 32) (w w' : Walk) : Prop :=
  w'.addrOut = w.addrOut ∧ (w.resolved = false ∨ Pmmu.Faults rw w.sr) ∨
    Clean rw w.sr ∧ w.resolved = true ∧ ∃ base n, pageSize tc ≤ n ∧ n ≤ 32 ∧
      w.addrOut = (base &&& allOnes 32 <<< pageSize tc) + BitVec.ofNat 32 (a.toNat % 2 ^ n) ∧
      w'.addrOut = (base &&& allOnes 32 <<< pageSize tc) + BitVec.ofNat 32 (b.toNat % 2 ^ n)

theorem Twin.continues_iff (h : Twin w w') (limit : ℕ) :
    w'.Continues limit ↔ w.Continues limit := by
  rw [Continues, Continues, h.level, h.resolved]

variable (fc rw) in
/-- The loop keeps two walks for addresses of one block alike, by induction over its rounds. -/
theorem Twin.loop (hfields : fields tc ≠ []) (hsize : 8 ≤ pageSize tc) (hblock : SameBlock a b)
    (limit fuel : ℕ) (h : Twin w w') (hat : At tc a fs w) (hat' : At tc b fs w')
    (haddr : w'.addrOut = w.addrOut) (hclean : Clean rw w.sr) :
    Twin (Walk.loop false tc fc rw limit fuel w) (Walk.loop false tc fc rw limit fuel w') ∧
      Ends tc rw a b (Walk.loop false tc fc rw limit fuel w)
      (Walk.loop false tc fc rw limit fuel w') := by
  induction fuel generalizing w w' fs with
  | zero => exact ⟨h, .inl ⟨haddr, .inl hat.resolved⟩⟩
  | succ fuel ih =>
    obtain ⟨hstep, haddr'⟩ := h.step fc rw hat hat' hfields hsize hblock haddr
    have hlast : ∀ {v v' : Walk}, Twin v v' → v.resolved = true →
        ¬ v.Continues limit ∧ ¬ v'.Continues limit := by
      intro v v' hv hresolved
      exact ⟨not_continues_of_resolved hresolved,
        not_continues_of_resolved (hv.resolved.trans hresolved)⟩
    by_cases htype : w.type.IsTable
    · have htype' : w'.type.IsTable := h.type ▸ htype
      obtain ⟨d, hd⟩ : ∃ d, d = fetched w.program w.type.long (decide (fs.length = 1)) w.table
        (headIndex fc a (bitsLeft tc fs) fs) := ⟨_, rfl⟩
      have hd' : d = fetched w'.program w'.type.long (decide (fs.length = 1)) w'.table
          (headIndex fc b (bitsLeft tc fs) fs) := by
        rw [h.program, h.type, h.table, ← headIndex_eq hsize hblock]
        exact hd
      have hne : w.type ≠ .page := by
        rcases htype with htype | htype <;> rw [htype] <;> decide
      by_cases hviolates : d.Violates fc rw
      · obtain ⟨hresolved, hfaults⟩ := step_violates hat hfields htype hd hviolates
        obtain ⟨hstop, hstop'⟩ := hlast hstep hresolved
        rw [loop_of_not_continues hstop, loop_of_not_continues hstop']
        exact ⟨hstep, .inl ⟨haddr' hne, .inr hfaults⟩⟩
      · obtain ⟨hnext, hclean', -⟩ := step_descends hat hfields hclean htype hd hviolates
        obtain ⟨hnext', -⟩ := step_descends hat' hfields (h.sr.symm ▸ hclean) htype' hd' hviolates
        by_cases hgoes : (w.step false tc fc rw).Continues limit
        · rw [loop_of_continues hgoes, loop_of_continues ((hstep.continues_iff limit).mpr hgoes)]
          exact ih hstep hnext hnext' (haddr' hne) hclean'
        · rw [loop_of_not_continues hgoes, loop_of_not_continues fun hgoes' ↦
            hgoes ((hstep.continues_iff limit).mp hgoes')]
          exact ⟨hstep, .inl ⟨haddr' hne, .inl hnext.resolved⟩⟩
    cases hw : w.type with
    | invalid =>
      obtain ⟨hresolved, hsr, -⟩ := step_invalid tc fc rw hw
      obtain ⟨hstop, hstop'⟩ := hlast hstep hresolved
      rw [loop_of_not_continues hstop, loop_of_not_continues hstop']
      refine ⟨hstep, .inl ⟨haddr' (by rw [hw]; decide), .inr ?_⟩⟩
      rw [hsr]
      exact .inl (by decide)
    | page =>
      obtain ⟨hresolved, hsr, -, -, hpage⟩ := step_page fc hat hclean hw
      obtain ⟨-, -, -, -, hpage'⟩ := step_page fc hat' (h.sr.symm ▸ hclean) (h.type.trans hw)
      obtain ⟨hstop, hstop'⟩ := hlast hstep hresolved
      rw [loop_of_not_continues hstop, loop_of_not_continues hstop']
      rw [h.table] at hpage'
      exact ⟨hstep, .inr ⟨hsr.symm ▸ hclean, hresolved, w.table, bitsLeft tc fs,
        Nat.le_add_right _ _, hat.bits, hpage, hpage'⟩⟩
    | table4byte => exact absurd (.inl hw) htype
    | table8byte => exact absurd (.inr hw) htype

/-- The result of two walks for addresses of one block: alike, and without a fault at the places of
the addresses. -/
theorem tables_twin (hvalid : TcValid tc) (hblock : SameBlock a b) (fc : BitVec 8) (rw : Bool)
    (type : DescriptorType) (table : BitVec 32) (program : Memory) :
    (tables false tc b type table fc 7 rw 0 program).sr =
      (tables false tc a type table fc 7 rw 0 program).sr ∧
      (tables false tc b type table fc 7 rw 0 program).program =
        (tables false tc a type table fc 7 rw 0 program).program ∧
      ((tables false tc b type table fc 7 rw 0 program).addrOut =
          (tables false tc a type table fc 7 rw 0 program).addrOut ∧
          Pmmu.Faults rw (tables false tc a type table fc 7 rw 0 program).sr ∨
        Clean rw (tables false tc a type table fc 7 rw 0 program).sr ∧
          (∀ i < pageSize tc,
            (tables false tc a type table fc 7 rw 0 program).addrOut.getLsbD i = a.getLsbD i) ∧
          (tables false tc b type table fc 7 rw 0 program).addrOut =
            place (tables false tc a type table fc 7 rw 0 program).addrOut b) := by
  have hclean : Clean rw 0#16 := ⟨rfl, rfl, rfl, fun _ ↦ rfl⟩
  have hstart : Twin (start tc a type table 0 program) (start tc b type table 0 program) :=
    ⟨rfl, rfl, rfl, rfl, rfl, rfl, rfl, rfl⟩
  have hlevel :
      (Walk.loop false tc fc rw 7 (7 + 1) (start tc a type table 0 program)).level ≤ 7 + 1 :=
    level_loop_le false tc fc rw (show 0 < 7 by decide)
  obtain ⟨htwin, hends⟩ := hstart.loop fc rw hvalid.fields_ne_nil hvalid.1 hblock 7 (7 + 1)
    (at_start hvalid type table 0 program) (at_start hvalid type table 0 program) rfl hclean
  rw [tables, tables]
  generalize Walk.loop false tc fc rw 7 (7 + 1) (start tc a type table 0 program) =
    w at htwin hends hlevel ⊢
  generalize Walk.loop false tc fc rw 7 (7 + 1) (start tc b type table 0 program) =
    w' at htwin hends ⊢
  rw [htwin.sr, htwin.resolved, htwin.level, htwin.program]
  have hbit : ∀ (sr : BitVec 16) (k : ℕ), 4 ≤ k → k < 16 →
      (sr &&& 0xfff0#16 ||| BitVec.ofNat 16 w.level).getLsbD k = sr.getLsbD k := fun sr k hk hk' ↦
    getLsbD_level sr (by omega) hk hk'
  refine ⟨rfl, rfl, ?_⟩
  obtain ⟨haddr, hunresolved | hfaults⟩ | ⟨hclean', hresolved, base, n, hsize, hle, hout, hout'⟩ :=
    hends
  · refine .inl ⟨haddr, ?_⟩
    rw [faults_iff, hbit _ 10 (by decide) (by decide),
      if_pos ⟨by rw [hunresolved]; decide, by decide⟩,
      getLsbD_or, show srInvalid.getLsbD 10 = true by decide, Bool.or_true]
    exact .inl rfl
  · refine .inl ⟨haddr, ?_⟩
    rw [faults_iff] at hfaults ⊢
    rw [hbit _ 10 (by decide) (by decide), hbit _ 11 (by decide) (by decide),
      hbit _ 13 (by decide) (by decide)]
    by_cases hresolved : w.resolved = true
    · rw [if_neg fun hnot ↦ hnot.1 hresolved]
      exact hfaults
    · rw [if_pos ⟨hresolved, by decide⟩, getLsbD_or, show srInvalid.getLsbD 10 = true by decide,
        Bool.or_true]
      exact .inl rfl
  · refine .inr ⟨?_, ?_, ?_⟩
    rotate_left
    · intro i hi
      rw [hout]
      exact getLsbD_page hsize hle hi
    · rw [hout', hout]
      exact page_place hvalid.1 hsize hle hblock
    rw [if_neg fun hnot ↦ hnot.1 hresolved]
    obtain ⟨hbusError, hsupervisorOnly, hinvalid, hwriteProtect⟩ := hclean'
    refine ⟨?_, ?_, ?_, fun hrw ↦ ?_⟩
    · rwa [hbit _ 15 (by decide) (by decide)]
    · rwa [hbit _ 13 (by decide) (by decide)]
    · rwa [hbit _ 10 (by decide) (by decide)]
    · rw [hbit _ 11 (by decide) (by decide)]
      exact hwriteProtect hrw

end Walk

end RoscoEmulator.M68k
