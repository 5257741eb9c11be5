import RoscoEmulator.M68k.Pmmu

/-!
# The index fields of a walk

The walk through the tables keeps its place as the position of the next index field in the
translation control register. Here the place is the list of the levels that are left: one for the
function code, if the lookup by function code is on, and one for each index field up to the first
zero one. The address bits that are left are those of the fields and of the page. -/

namespace RoscoEmulator.M68k

open BitVec List

/-- A level of the tables: its index is the function code, or some bits of the address. -/
inductive Field
  | functionCode
  | bits (width : ℕ)
deriving DecidableEq

namespace Field

def width : Field → ℕ
  | .functionCode => 0
  | .bits width => width

/-- The index of an address at a level, with `n` bits of the address left. -/
def index (fc : BitVec 8) (address : BitVec 32) (n : ℕ) : Field → BitVec 32
  | .functionCode => fc.setWidth 32
  | .bits width => BitVec.ofNat 32 (address.toNat / 2 ^ (n - width) % 2 ^ width)

end Field

/-- The table index fields up to the first zero one. -/
def fields (tc : BitVec 32) : List ℕ := (tableIndices tc).takeWhile (· ≠ 0)

/-- All levels of the tables. -/
def levels (tc : BitVec 32) : List Field :=
  (if tc &&& tcFcl ≠ 0#32 then [.functionCode] else []) ++ (fields tc).map .bits

/-- The address bits that some levels and the page take. -/
def bitsLeft (tc : BitVec 32) (fs : List Field) : ℕ := pageSize tc + (fs.map Field.width).sum

variable {tc : BitVec 32}

/-! ## Fields as numbers -/

variable (x : BitVec 32)

theorem toNat_and_mask (k : ℕ) (hk : k ≤ 32) :
    (x &&& BitVec.ofNat 32 (2 ^ k - 1)).toNat = x.toNat % 2 ^ k := by
  have hlt : 2 ^ k - 1 < 2 ^ 32 := by
    have hle : 2 ^ k ≤ 2 ^ 32 := Nat.pow_le_pow_right (by decide) hk
    omega
  rw [toNat_and, toNat_ofNat, Nat.mod_eq_of_lt hlt, Nat.and_two_pow_sub_one_eq_mod]

theorem toNat_and_allOnes_shiftLeft (k : ℕ) :
    (x &&& allOnes 32 <<< k).toNat = x.toNat / 2 ^ k * 2 ^ k := by
  have heq : x &&& allOnes 32 <<< k = x >>> k <<< k := by
    refine eq_of_getLsbD_eq fun i hi ↦ ?_
    simp only [getLsbD_and, getLsbD_shiftLeft, getLsbD_ushiftRight, getLsbD_allOnes]
    by_cases hik : i < k
    · simp [hik]
    · simp [hik, show k + (i - k) = i by omega, hi, show i - k < 32 by omega]
  rw [heq, toNat_shiftLeft, toNat_ushiftRight, Nat.shiftLeft_eq, Nat.shiftRight_eq_div_pow]
  exact Nat.mod_eq_of_lt (Nat.lt_of_le_of_lt (Nat.div_mul_le_self _ _) x.isLt)

theorem toNat_nibble (shift : ℕ) : (x >>> shift &&& 0xf#32).toNat = x.toNat / 2 ^ shift % 16 := by
  have hmask := toNat_and_mask (x >>> shift) 4 (by decide)
  rw [toNat_ushiftRight, Nat.shiftRight_eq_div_pow] at hmask
  exact hmask

theorem tableIndex_eq (tc : BitVec 32) (shift : ℕ) :
    tableIndex tc shift = tc.toNat / 2 ^ shift % 16 :=
  toNat_nibble tc shift

theorem fields_eq (tc : BitVec 32) :
    fields tc = ([12, 8, 4, 0].map fun shift ↦ tc.toNat / 2 ^ shift % 16).takeWhile (· ≠ 0) := by
  rw [fields, tableIndices, map_congr_left fun shift _ ↦ tableIndex_eq tc shift]

/-- The fields that the walk reads, with the fields behind the first zero one cleared. -/
theorem toNat_indexFields_and_fields (tc : BitVec 32) :
    ∃ a b c d, a < 16 ∧ b < 16 ∧ c < 16 ∧ d < 16 ∧
      (Walk.indexFields tc).toNat = a * 2 ^ 12 + b * 2 ^ 8 + c * 2 ^ 4 + d ∧
      fields tc = [a, b, c, d].takeWhile (· ≠ 0) ∧
      (a = 0 → b = 0) ∧ (b = 0 → c = 0) ∧ (c = 0 → d = 0) := by
  have hbits : (tc &&& 0xffff#32).toNat = tc.toNat % 2 ^ 16 := toNat_and_mask tc 16 (by decide)
  have hnot (k : ℕ) (h : ~~~ BitVec.ofNat 32 (2 ^ k - 1) = allOnes 32 <<< k) :
      (tc &&& 0xffff#32 &&& ~~~ BitVec.ofNat 32 (2 ^ k - 1)).toNat =
        tc.toNat % 2 ^ 16 / 2 ^ k * 2 ^ k := by
    rw [h, toNat_and_allOnes_shiftLeft, hbits]
  have hzero : ∀ {x : BitVec 32}, x = 0#32 ↔ x.toNat = 0 := fun {x} ↦ by
    rw [← toNat_inj]
    rfl
  have hfields := fields_eq tc
  have hlow : (tc &&& 0xffff#32 &&& 0xf#32).toNat = (tc &&& 0xffff#32).toNat % 16 :=
    toNat_and_mask (tc &&& 0xffff#32) 4 (by decide)
  rw [Walk.indexFields]
  simp only [hzero, toNat_nibble, hbits, hlow]
  by_cases h12 : tc.toNat % 2 ^ 16 / 2 ^ 12 % 16 = 0
  · refine ⟨0, 0, 0,
      0, by decide, by decide, by decide, by decide, ?_, ?_, by omega, by omega, by omega⟩
    · rw [if_pos h12]
      exact (hnot 16 rfl).trans (by omega)
    · rw [hfields]
      simp [show tc.toNat / 4096 % 16 = 0 by omega]
  rw [if_neg h12]
  by_cases h8 : tc.toNat % 2 ^ 16 / 2 ^ 8 % 16 = 0
  · refine ⟨tc.toNat / 2 ^ 12 % 16, 0, 0,
      0, by omega, by decide, by decide, by decide, ?_, ?_, by omega, by omega, by omega⟩
    · rw [if_pos h8]
      exact (hnot 12 rfl).trans (by omega)
    · rw [hfields]
      simp [takeWhile_cons, show tc.toNat / 256 % 16 = 0 by omega]
  rw [if_neg h8]
  by_cases h4 : tc.toNat % 2 ^ 16 / 2 ^ 4 % 16 = 0
  · refine ⟨tc.toNat / 2 ^ 12 % 16, tc.toNat / 2 ^ 8 % 16, 0,
      0, by omega, by omega, by decide, by decide, ?_, ?_, by omega, by omega, by omega⟩
    · rw [if_pos h4]
      exact (hnot 8 rfl).trans (by omega)
    · rw [hfields]
      simp [takeWhile_cons, show tc.toNat / 16 % 16 = 0 by omega]
  rw [if_neg h4]
  by_cases h0 : tc.toNat % 2 ^ 16 % 16 = 0
  · refine ⟨tc.toNat / 2 ^ 12 % 16, tc.toNat / 2 ^ 8 % 16, tc.toNat / 2 ^ 4 % 16,
      0, by omega, by omega, by omega, by decide, ?_, ?_, by omega, by omega, by omega⟩
    · rw [if_pos h0]
      exact (hnot 4 rfl).trans (by omega)
    · rw [hfields]
      simp [show tc.toNat % 16 = 0 by omega]
  rw [if_neg h0]
  refine ⟨tc.toNat / 2 ^ 12 % 16, tc.toNat / 2 ^ 8 % 16, tc.toNat / 2 ^ 4 % 16,
    tc.toNat % 16, by omega, by omega, by omega, by omega, ?_, ?_, by omega, by omega, by omega⟩
  · rw [hbits]
    omega
  · rw [hfields]
    simp

/-! ## The place of a walk -/

namespace Walk

/-- The position of the index field at a level. -/
def positionAt (tc : BitVec 32) (position : ℤ) (fs : List Field) : Prop :=
  (tc &&& tcFcl ≠ 0#32 ∧ position = 16 ∧ fs = levels tc) ∨
    ∃ j : ℕ, position = 12 - 4 * j ∧ fs = ((fields tc).drop j).map .bits

theorem positionAt_start (tc : BitVec 32) :
    positionAt tc (if tc &&& tcFcl ≠ 0#32 then 16 else 12) (levels tc) := by
  by_cases hfcl : tc &&& tcFcl ≠ 0#32
  · rw [if_pos hfcl]
    exact .inl ⟨hfcl, rfl, rfl⟩
  · rw [if_neg hfcl]
    refine .inr ⟨0, rfl, ?_⟩
    rw [levels, if_neg hfcl]
    rfl

/-- The next position is that of the levels behind the first. -/
theorem positionAt.next {position : ℤ} {fs : List Field} (h : positionAt tc position fs) :
    positionAt tc (position - 4) fs.tail := by
  rcases h with ⟨hfcl, hposition, hfs⟩ | ⟨j, hposition, hfs⟩
  · refine .inr ⟨0, by omega, ?_⟩
    rw [hfs, levels, if_pos hfcl]
    rfl
  · refine .inr ⟨j + 1, by omega, ?_⟩
    rw [hfs, ← tail_drop, map_tail]

section

variable {l : List ℕ} (hl : ∀ j, l.getD j 0 = 0 → l.getD (j + 1) 0 = 0)

include hl

theorem getD_takeWhile (j : ℕ) : (l.takeWhile (· ≠ 0)).getD j 0 = l.getD j 0 := by
  induction l generalizing j with
  | nil => rfl
  | cons a l ih =>
    by_cases ha : a = 0
    · have hzero : (a :: l).getD j 0 = 0 := by
        induction j with
        | zero => exact ha
        | succ j ihj => exact hl j ihj
      rw [hzero, ha]
      rfl
    · rw [takeWhile_cons_of_pos (by simpa using ha)]
      cases j with
      | zero => rfl
      | succ j => exact ih (fun j ↦ hl (j + 1)) j

/-- A field is the last one if it is not zero and the next one is. -/
theorem length_takeWhile_eq_iff (j : ℕ) : (l.takeWhile (· ≠ 0)).length = j + 1 ↔
    l.getD j 0 ≠ 0 ∧ l.getD (j + 1) 0 = 0 := by
  rw [← getD_takeWhile hl, ← getD_takeWhile hl]
  have hne (i : ℕ) : (l.takeWhile (· ≠ 0)).getD i 0 = 0 ↔ (l.takeWhile (· ≠ 0)).length ≤ i := by
    refine ⟨fun h ↦ Nat.not_lt.mp fun hi ↦ ?_, getD_eq_default _ _⟩
    rw [getD_eq_getElem _ _ hi] at h
    have hmem := mem_takeWhile_imp (getElem_mem hi)
    exact absurd h (of_decide_eq_true hmem)
  rw [Ne, hne, hne]
  omega

end

theorem getD_succ_eq_zero {a b c d : ℕ} (hab : a = 0 → b = 0) (hbc : b = 0 → c = 0)
    (hcd : c = 0 → d = 0) (j : ℕ) (h : [a, b, c, d].getD j 0 = 0) :
    [a, b, c, d].getD (j + 1) 0 = 0 := by
  rcases j with _ | _ | _ | j
  · exact hab h
  · exact hbc h
  · exact hcd h
  · rfl

/-- The width that the walk reads for a position behind that of the function code. -/
theorem indexbits_eq (tc : BitVec 32) (j : ℕ) :
    indexbits (indexFields tc) (12 - 4 * j) = (fields tc).getD j 0 := by
  obtain ⟨a, b, c, d, ha, hb, hc, hd, hsum, hfields, hab, hbc, hcd⟩ :=
    toNat_indexFields_and_fields tc
  rw [indexbits, hfields, getD_takeWhile (getD_succ_eq_zero hab hbc hcd)]
  rcases j with _ | _ | _ | _ | j
  · rw [if_pos (by decide), toNat_nibble, hsum]
    show _ / 2 ^ 12 % 16 = a
    omega
  · rw [if_pos (by decide), toNat_nibble, hsum]
    show _ / 2 ^ 8 % 16 = b
    omega
  · rw [if_pos (by decide), toNat_nibble, hsum]
    show _ / 2 ^ 4 % 16 = c
    omega
  · rw [if_pos (by decide), toNat_nibble, hsum]
    show _ / 2 ^ 0 % 16 = d
    omega
  · rw [if_neg (by omega)]
    rfl

/-- The check for an indirect descriptor, at a position from which on there are other fields. -/
theorem indirect_of_pos (tc : BitVec 32) (k : ℕ) (hpos : 0 < k) (hk : k ≤ 12) :
    indirect (indexFields tc) k = true ↔
      indexbits (indexFields tc) k ≠ 0 ∧ (indexFields tc).toNat % 2 ^ k = 0 := by
  have hmask : (1#32 <<< k) - 1#32 = BitVec.ofNat 32 (2 ^ k - 1) := by
    have hmem : k ∈ range 13 := List.mem_range.mpr (by omega)
    exact (show ∀ k ∈ range 13, (1#32 <<< k) - 1#32 = BitVec.ofNat 32 (2 ^ k - 1) by decide) k hmem
  have hzero : indexFields tc &&& BitVec.ofNat 32 (2 ^ k - 1) = 0#32 ↔
      (indexFields tc).toNat % 2 ^ k = 0 := by
    rw [← toNat_inj, toNat_and_mask _ k (by omega)]
    rfl
  rw [indirect, Int.toNat_natCast, hmask, decide_eq_false (show ¬ (k : ℤ) ≤ 0 by omega),
    Bool.false_or, Bool.and_eq_true, bne_iff_ne, beq_iff_eq, hzero]

/-- The walk takes a table descriptor for an indirect one at the last of the index fields. -/
theorem indirect_eq (tc : BitVec 32) (j : ℕ) :
    indirect (indexFields tc) (12 - 4 * j) = true ↔ (fields tc).length = j + 1 := by
  have hbits := indexbits_eq tc j
  obtain ⟨a, b, c, d, ha, hb, hc, hd, hsum, hfields, hab, hbc, hcd⟩ :=
    toNat_indexFields_and_fields tc
  rw [hfields, getD_takeWhile (getD_succ_eq_zero hab hbc hcd)] at hbits
  rw [hfields, length_takeWhile_eq_iff (getD_succ_eq_zero hab hbc hcd)]
  rcases j with _ | _ | _ | _ | j
  · refine (indirect_of_pos tc 12 (by decide) (by decide)).trans ?_
    rw [show ((12 : ℕ) : ℤ) = 12 - 4 * ((0 : ℕ) : ℤ) by rfl, hbits, hsum]
    refine and_congr_right fun _ ↦ ?_
    show _ ↔ b = 0
    omega
  · refine (indirect_of_pos tc 8 (by decide) (by decide)).trans ?_
    rw [show ((8 : ℕ) : ℤ) = 12 - 4 * ((0 + 1 : ℕ) : ℤ) by rfl, hbits, hsum]
    refine and_congr_right fun _ ↦ ?_
    show _ ↔ c = 0
    omega
  · refine (indirect_of_pos tc 4 (by decide) (by decide)).trans ?_
    rw [show ((4 : ℕ) : ℤ) = 12 - 4 * ((0 + 1 + 1 : ℕ) : ℤ) by rfl, hbits, hsum]
    refine and_congr_right fun _ ↦ ?_
    show _ ↔ d = 0
    omega
  · rw [indirect, hbits]
    simp
  · rw [indirect, hbits]
    simp

theorem indexbits_functionCode (tc : BitVec 32) : indexbits (indexFields tc) 16 = 0 := by
  obtain ⟨a, b, c, d, ha, hb, hc, hd, hsum, -⟩ := toNat_indexFields_and_fields tc
  rw [indexbits, if_pos (by decide), toNat_nibble, hsum]
  show _ / 2 ^ 16 % 16 = 0
  omega

/-- The width of the first level. -/
def headWidth : List Field → ℕ
  | [] => 0
  | f :: _ => f.width

/-- The index of the first level; it is zero when no level is left. -/
def headIndex (fc : BitVec 8) (address : BitVec 32) (n : ℕ) : List Field → BitVec 32
  | [] => 0
  | f :: _ => f.index fc address n

namespace positionAt

variable {position : ℤ} {fs : List Field}

section

variable (h : positionAt tc position fs)
include h

theorem indexbits : Walk.indexbits (indexFields tc) position = headWidth fs := by
  rcases h with ⟨hfcl, hposition, hfs⟩ | ⟨j, hposition, hfs⟩
  · rw [hposition, hfs, levels, if_pos hfcl]
    exact indexbits_functionCode tc
  · rw [hposition, hfs, indexbits_eq]
    cases hdrop : (fields tc).drop j with
    | nil => exact getD_eq_default _ _ (List.drop_eq_nil_iff.mp hdrop)
    | cons k ks =>
      have hget : (fields tc)[j]? = some k := by rw [← List.head?_drop, hdrop, List.head?_cons]
      rw [getD_eq_getElem?_getD, hget]
      rfl

/-- The last level is the one whose table descriptors are indirect. -/
theorem indirect (hfields : fields tc ≠ []) :
    Walk.indirect (indexFields tc) position = true ↔ fs.length = 1 := by
  rcases h with ⟨hfcl, hposition, hfs⟩ | ⟨j, hposition, hfs⟩
  · refine iff_of_false (fun hindirect ↦ ?_) fun hlength ↦ ?_
    · rw [Walk.indirect, hposition, indexbits_functionCode] at hindirect
      cases hindirect
    · rw [hfs, levels, if_pos hfcl, length_append, length_map] at hlength
      have hpos := List.length_pos_iff.mpr hfields
      have hone : [Field.functionCode].length = 1 := rfl
      omega
  · rw [hposition, hfs, indirect_eq, length_map, length_drop]
    omega

theorem eq_functionCode_iff : position = 16 ↔ ∃ rest, fs = .functionCode :: rest := by
  rcases h with ⟨hfcl, hposition, hfs⟩ | ⟨j, hposition, hfs⟩
  · refine iff_of_true hposition ⟨(fields tc).map .bits, ?_⟩
    rw [hfs, levels, if_pos hfcl]
    rfl
  · refine iff_of_false (by omega) fun ⟨rest, hrest⟩ ↦ ?_
    rw [hfs] at hrest
    cases hdrop : (fields tc).drop j with
    | nil =>
      rw [hdrop] at hrest
      cases hrest
    | cons k ks =>
      rw [hdrop, map_cons] at hrest
      cases hrest

/-- The fields have at least one bit. -/
theorem pos_of_mem {k : ℕ} (hk : .bits k ∈ fs) : 0 < k := by
  have hmem : k ∈ fields tc := by
    rcases h with ⟨hfcl, -, hfs⟩ | ⟨j, -, hfs⟩
    · rw [hfs, levels, if_pos hfcl] at hk
      simpa using hk
    · rw [hfs, mem_map] at hk
      obtain ⟨k', hk', heq⟩ := hk
      rw [← Field.bits.inj heq]
      exact mem_of_mem_drop hk'
  have hne := mem_takeWhile_imp hmem
  rw [decide_eq_true_iff] at hne
  exact Nat.pos_of_ne_zero hne

end

end positionAt

/-- The address has been shifted by the bits that are gone; the top bits are the next index. -/
theorem shiftLeft_ushiftRight (address : BitVec 32) {n k : ℕ} (hk : k ≤ n) (hn : n ≤ 32) :
    (address <<< (32 - n)) >>> (32 - k) =
      BitVec.ofNat 32 (address.toNat / 2 ^ (n - k) % 2 ^ k) := by
  have hpow : 2 ^ 32 = 2 ^ n * 2 ^ (32 - n) := by rw [← Nat.pow_add, Nat.add_sub_cancel' hn]
  have hpow' : 2 ^ (32 - k) = 2 ^ (32 - n) * 2 ^ (n - k) := by
    rw [← Nat.pow_add]
    congr 1
    omega
  have hlt : address.toNat / 2 ^ (n - k) % 2 ^ k < 2 ^ 32 :=
    Nat.lt_of_lt_of_le (Nat.mod_lt _ (Nat.two_pow_pos k))
      (Nat.pow_le_pow_right (by decide) (by omega))
  refine eq_of_toNat_eq ?_
  rw [toNat_ushiftRight, toNat_shiftLeft, toNat_ofNat, Nat.mod_eq_of_lt hlt,
    Nat.shiftLeft_eq, Nat.shiftRight_eq_div_pow, hpow, Nat.mul_mod_mul_right,
    hpow', ← Nat.div_div_eq_div_mul, Nat.mul_div_cancel _ (Nat.two_pow_pos _)]
  have hsplit : 2 ^ n = 2 ^ (n - k) * 2 ^ k := by rw [← Nat.pow_add, Nat.sub_add_cancel hk]
  rw [hsplit, Nat.mod_mul_right_div_self]

theorem shiftLeft_ushiftRight_self (address : BitVec 32) {n : ℕ} (hn : n ≤ 32) :
    (address <<< (32 - n)) >>> (32 - n) = BitVec.ofNat 32 (address.toNat % 2 ^ n) := by
  rw [shiftLeft_ushiftRight address (Nat.le_refl n) hn, Nat.sub_self, Nat.pow_zero, Nat.div_one]

/-- The index that the walk takes is that of the first level. -/
theorem positionAt.index {position : ℤ} {fs : List Field} (h : positionAt tc position fs)
    (fc : BitVec 8) (address : BitVec 32) {n : ℕ} (hwidth : headWidth fs ≤ n) (hn : n ≤ 32) :
    (if position = 16 then fc.setWidth 32
      else if Walk.indexbits (indexFields tc) position ≠ 0 then
        (address <<< (32 - n)) >>> (32 - Walk.indexbits (indexFields tc) position)
      else 0#32) = headIndex fc address n fs := by
  rw [h.indexbits]
  rcases fs with _ | ⟨f | k, fs⟩
  · have hposition : position ≠ 16 := fun heq ↦ by
      obtain ⟨rest, hrest⟩ := h.eq_functionCode_iff.mp heq
      cases hrest
    rw [if_neg hposition]
    rfl
  · rw [if_pos (h.eq_functionCode_iff.mpr ⟨fs, rfl⟩)]
    rfl
  · have hposition : position ≠ 16 := fun heq ↦ by
      obtain ⟨rest, hrest⟩ := h.eq_functionCode_iff.mp heq
      cases hrest
    have hpos := h.pos_of_mem mem_cons_self
    rw [if_neg hposition, if_pos (show headWidth (.bits k :: fs) ≠ 0 from Nat.ne_of_gt hpos)]
    exact shiftLeft_ushiftRight address hwidth hn

end Walk

/-! ## Valid registers -/

/-- A register that fits has at least one index field, and its levels and its page take the address
bits behind the initial shift. -/
theorem TcValid.fields_ne_nil (h : TcValid tc) : fields tc ≠ [] := by
  intro hnil
  obtain ⟨-, hsum⟩ := h
  have hfields : (tableIndices tc).takeWhile (· ≠ 0) = [] := hnil
  have hsize : pageSize tc < 16 := by rw [pageSize, toNat_nibble]; exact Nat.mod_lt _ (by decide)
  have hshift : initialShift tc < 16 := by
    rw [initialShift, toNat_nibble]; exact Nat.mod_lt _ (by decide)
  rw [hfields, sum_nil] at hsum
  omega

theorem sum_width_levels (tc : BitVec 32) :
    ((levels tc).map Field.width).sum = (fields tc).sum := by
  have hmap : ((fields tc).map Field.bits).map Field.width = fields tc := by
    rw [map_map]
    exact map_id _
  rw [levels, map_append, hmap, sum_append]
  split <;> simp [Field.width]

theorem TcValid.bitsLeft_levels (h : TcValid tc) :
    initialShift tc + bitsLeft tc (levels tc) = 32 := by
  have hsum : pageSize tc + initialShift tc + (fields tc).sum = 32 := h.2
  rw [bitsLeft, sum_width_levels]
  omega

end RoscoEmulator.M68k
