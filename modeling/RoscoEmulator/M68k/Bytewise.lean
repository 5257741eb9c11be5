import RoscoEmulator.M68k.BusInterface

/-!
# Accesses by bytes

The bytes of an access in big-endian order, each at its own address. Reads and writes of a word or a
double word of the bus are reads and writes of its bytes. -/

namespace RoscoEmulator.M68k

open Function BitVec List

/-- The addresses of the bytes of an access. -/
def span (address : BitVec 32) : ℕ → List (BitVec 32)
  | 0 => []
  | n + 1 => address :: span (address + 1#32) n

/-- The value of bytes in big-endian order. -/
def bigEndian (w : ℕ) (bytes : List (BitVec 8)) : BitVec w :=
  bytes.foldl (fun value byte ↦ value <<< 8 ||| byte.setWidth w) 0#w

/-- The bytes of a value in big-endian order. -/
def dataBytes {w : ℕ} (data : BitVec w) : List (BitVec 8) :=
  (range (w / 8)).map fun k ↦ (data >>> (w - 8 - 8 * k)).setWidth 8

/-- The writes of bytes, in order. -/
def writeBytes : List (BitVec 32) → List (BitVec 8) → Memory → Memory
  | address :: addresses, byte :: bytes, program =>
    writeBytes addresses bytes (writeByte address byte program)
  | _, _, program => program

variable {program : Memory} {r : BitVec 32}

@[simp] theorem length_span (address : BitVec 32) (n : ℕ) : (span address n).length = n := by
  induction n generalizing address with
  | zero => rfl
  | succ n ih => rw [span, length_cons, ih]

theorem span_add (address : BitVec 32) (j n : ℕ) :
    span address (j + n) = span address j ++ span (address + BitVec.ofNat 32 j) n := by
  induction j generalizing address with
  | zero => rw [Nat.zero_add, span, nil_append, BitVec.add_zero]
  | succ j ih =>
    rw [Nat.succ_add, span, ih, span, List.cons_append, BitVec.add_assoc,
      Nat.add_comm j 1, ofNat_add]

variable {bytes : List (BitVec 8)}

theorem writeBytes_append {addresses addresses' : List (BitVec 32)} {bytes' : List (BitVec 8)}
    (hlength : addresses.length = bytes.length) (program : Memory) :
    writeBytes (addresses ++ addresses') (bytes ++ bytes') program =
      writeBytes addresses' bytes' (writeBytes addresses bytes program) := by
  induction addresses generalizing bytes program with
  | nil =>
    rw [eq_nil_of_length_eq_zero hlength.symm]
    rfl
  | cons address addresses ih =>
    cases bytes with
    | nil => cases hlength
    | cons byte bytes => exact ih (Nat.succ.inj hlength) _

/-! ## Values -/

theorem toNat_shiftLeft_or {w k : ℕ} (x y : BitVec w) (hk : k ≤ w) (hy : y.toNat < 2 ^ k) :
    (x <<< k ||| y).toNat = x.toNat % 2 ^ (w - k) * 2 ^ k + y.toNat := by
  have hshift : (x <<< k).toNat = (x.toNat % 2 ^ (w - k)) <<< k := by
    rw [toNat_shiftLeft, Nat.shiftLeft_eq, Nat.shiftLeft_eq, ← Nat.mul_mod_mul_right, ← Nat.pow_add,
      Nat.sub_add_cancel hk]
  rw [toNat_or, hshift, ← Nat.shiftLeft_add_eq_or_of_lt hy, Nat.shiftLeft_eq]

theorem toNat_bigEndian_word (x y : BitVec 8) :
    (bigEndian 16 [x, y]).toNat = x.toNat * 256 + y.toNat := by
  show ((0#16 <<< 8 ||| x.setWidth 16) <<< 8 ||| y.setWidth 16).toNat = _
  rw [zero_shiftLeft, zero_or, toNat_shiftLeft_or _ _ (by decide) (by rw [toNat_setWidth]; omega),
    toNat_setWidth, toNat_setWidth]
  omega

theorem toNat_bigEndian_dword (x y z u : BitVec 8) : (bigEndian 32 [x, y, z, u]).toNat =
    x.toNat * 16777216 + y.toNat * 65536 + z.toNat * 256 + u.toNat := by
  have hbyte : ∀ byte : BitVec 8, (byte.setWidth 32).toNat = byte.toNat ∧
      (byte.setWidth 32).toNat < 2 ^ 8 := by
    intro byte
    rw [toNat_setWidth]
    omega
  show ((((0#32 <<< 8 ||| x.setWidth 32) <<< 8 ||| y.setWidth 32) <<< 8 ||| z.setWidth 32) <<< 8 |||
    u.setWidth 32).toNat = _
  rw [zero_shiftLeft, zero_or, toNat_shiftLeft_or _ _ (by decide) (hbyte u).2,
    toNat_shiftLeft_or _ _ (by decide) (hbyte z).2, toNat_shiftLeft_or _ _ (by decide) (hbyte y).2,
    (hbyte x).1, (hbyte y).1, (hbyte z).1, (hbyte u).1]
  omega

/-! ## Reads -/

/-- The bytes from an address on. -/
def bytesAt (program : Memory) (address : BitVec 32) (n : ℕ) : List (BitVec 8) :=
  (span address n).map (readByte program)

theorem readByte_add (program : Memory) (r : BitVec 32) (j : ℕ) (h : r.toNat % 4 + j < 4) :
    readByte program (r + BitVec.ofNat 32 j) =
      lane (program (r &&& ~~~3#32)) (r.toNat % 4 + j) := by
  rw [readByte_eq, (base_add h).1, (base_add h).2]

theorem readByte_next (program : Memory) (r : BitVec 32) (j i : ℕ)
    (h : r.toNat % 4 + j = 4) (hi : i < 4) :
    readByte program (r + BitVec.ofNat 32 (j + i)) = lane (program ((r &&& ~~~3#32) + 4#32)) i := by
  have hbase : ((r &&& ~~~3#32) + 4#32).toNat % 4 = 0 := by
    rw [toNat_add, toNat_base]
    show (_ + 4) % _ % _ = 0
    omega
  obtain ⟨hword, hlane⟩ := base_add (r := (r &&& ~~~3#32) + 4#32) (j := i) (by omega)
  rw [ofNat_add, ← BitVec.add_assoc, base_next h, readByte_eq, hword, hlane, hbase, Nat.zero_add]
  congr 2
  refine eq_of_toNat_eq ?_
  rw [toNat_base]
  omega

theorem readWord_bytes (program : Memory) (heven : r.toNat % 2 = 0) :
    readWord program r = bigEndian 16 (bytesAt program r 2) := by
  have hfirst := readByte_eq program r
  have hsecond := readByte_add program r 1 (by omega)
  show _ = bigEndian 16 [readByte program r, readByte program (r + 1#32)]
  rw [readWord_eq program heven, hfirst, hsecond]
  refine eq_of_toNat_eq ?_
  rw [toNat_bigEndian_word, toNat_lane, toNat_lane, toNat_setWidth, toNat_ushiftRight,
    Nat.shiftRight_eq_div_pow]
  have hcases : r.toNat % 4 = 0 ∨ r.toNat % 4 = 2 := by omega
  rcases hcases with h | h <;> rw [h] <;> omega

theorem readDwordUnaligned_bytes (program : Memory) (r : BitVec 32) :
    readDwordUnaligned program r = bigEndian 32 (bytesAt program r 4) := by
  have hfirst := readByte_eq program r
  have hbyte := readByte_add program r
  have hnext := readByte_next program r
  have hspan : bytesAt program r 4 = [readByte program r, readByte program (r + BitVec.ofNat 32 1),
      readByte program (r + BitVec.ofNat 32 2), readByte program (r + BitVec.ofNat 32 3)] := by
    rw [bytesAt, span, span, span, span, span, BitVec.add_assoc, BitVec.add_assoc, BitVec.add_assoc]
    rfl
  rw [readDwordUnaligned_eq, hspan]
  generalize program (r &&& ~~~3#32) = d at *
  generalize program ((r &&& ~~~3#32) + 4#32) = e at *
  refine eq_of_toNat_eq ?_
  have hcases : r.toNat % 4 = 0 ∨ r.toNat % 4 = 1 ∨ r.toNat % 4 = 2 ∨ r.toNat % 4 = 3 := by omega
  rcases hcases with h | h | h | h
  · rw [hfirst, hbyte 1 (by omega), hbyte 2 (by omega), hbyte 3 (by omega), h, if_pos rfl,
      toNat_bigEndian_dword, toNat_lane, toNat_lane, toNat_lane, toNat_lane]
    omega
  · rw [hfirst, hbyte 1 (by omega), hbyte 2 (by omega), hnext 3 0 (by omega) (by omega), h,
      if_neg (by decide), toNat_bigEndian_dword, toNat_shiftLeft_or _ _ (by decide) ?_, toNat_lane,
      toNat_lane, toNat_lane, toNat_lane, toNat_ushiftRight, Nat.shiftRight_eq_div_pow]
    · omega
    · rw [toNat_ushiftRight, Nat.shiftRight_eq_div_pow]
      omega
  · rw [hfirst, hbyte 1 (by omega), hnext 2 0 (by omega) (by omega),
      hnext 2 1 (by omega) (by omega), h,
      if_neg (by decide), toNat_bigEndian_dword, toNat_shiftLeft_or _ _ (by decide) ?_, toNat_lane,
      toNat_lane, toNat_lane, toNat_lane, toNat_ushiftRight, Nat.shiftRight_eq_div_pow]
    · omega
    · rw [toNat_ushiftRight, Nat.shiftRight_eq_div_pow]
      omega
  · rw [hfirst, hnext 1 0 (by omega) (by omega), hnext 1 1 (by omega) (by omega),
      hnext 1 2 (by omega) (by omega), h,
      if_neg (by decide), toNat_bigEndian_dword, toNat_shiftLeft_or _ _ (by decide) ?_, toNat_lane,
      toNat_lane, toNat_lane, toNat_lane, toNat_ushiftRight, Nat.shiftRight_eq_div_pow]
    · omega
    · rw [toNat_ushiftRight, Nat.shiftRight_eq_div_pow]
      omega

/-! ## Writes -/

theorem writeByte_eq (r : BitVec 32) (byte : BitVec 8) (program : Memory) :
    ∃ d, writeByte r byte program = update program (r &&& ~~~3#32) d ∧
      ∀ i < 4, lane d i = if i = r.toNat % 4 then byte else lane (program (r &&& ~~~3#32)) i := by
  have hbase : r &&& 0xfffffffc#32 = r &&& ~~~3#32 := rfl
  have hword : r &&& ~~~3#32 &&& ~~~3#32 = r &&& ~~~3#32 := by
    rw [BitVec.and_assoc, BitVec.and_self]
  have hmask : ∀ k < 4, ∀ i < 4,
      lane (0xff000000#32 >>> (8 * k)) i = if i = k then 0xff#8 else 0#8 := by
    decide +kernel
  have hlane := Nat.mod_lt r.toNat (show 0 < 4 by decide)
  have hwrite : writeByte r byte program = update program (r &&& ~~~3#32)
      (program (r &&& ~~~3#32) &&& ~~~(0xff000000#32 >>> (8 * (r.toNat % 4))) |||
        dwordFromByte byte &&& 0xff000000#32 >>> (8 * (r.toNat % 4))) := by
    rw [writeByte, writeDword, hbase, hword, toNat_and, show (3#32).toNat = 3 from rfl, land_three]
  refine ⟨_, hwrite, fun i hi ↦ ?_⟩
  have hmask' := hmask _ hlane i hi
  by_cases h : i = r.toNat % 4
  · rw [if_pos h] at hmask' ⊢
    rw [lane_masked _ _ (.inl hmask'), if_pos hmask', lane_dwordFromByte byte hi]
  · rw [if_neg h] at hmask' ⊢
    rw [lane_masked _ _ (.inr hmask'), hmask', if_neg (by decide)]

/-- The writes of bytes in one double word. -/
theorem writeBytes_span (hfit : r.toNat % 4 + bytes.length ≤ 4) (program : Memory) :
    ∃ d, writeBytes (span r bytes.length) bytes program = update program (r &&& ~~~3#32) d ∧
      ∀ i < 4, lane d i =
      if r.toNat % 4 ≤ i ∧ i < r.toNat % 4 + bytes.length then bytes.getD (i - r.toNat % 4) 0#8
        else lane (program (r &&& ~~~3#32)) i := by
  induction bytes generalizing r program with
  | nil =>
    refine ⟨program (r &&& ~~~3#32), (update_eq_self _ _).symm, fun i _ ↦ ?_⟩
    rw [if_neg]
    rw [length_nil]
    omega
  | cons byte bytes ih =>
    obtain ⟨d, hd, hlanes⟩ := writeByte_eq r byte program
    rw [length_cons] at hfit
    show ∃ d', writeBytes (span (r + 1#32) bytes.length) bytes (writeByte r byte program) = _ ∧ _
    by_cases hlast : bytes = []
    · rw [hlast]
      refine ⟨d, hd, fun i hi ↦ ?_⟩
      rw [hlanes i hi]
      by_cases h : i = r.toNat % 4
      · rw [if_pos h, if_pos (by rw [length_singleton]; omega), h, Nat.sub_self]
        rfl
      · rw [if_neg h, if_neg (by rw [length_singleton]; omega)]
    · have hpos := List.length_pos_iff.mpr hlast
      obtain ⟨hbase, hlane⟩ := base_add (r := r) (j := 1) (by omega)
      obtain ⟨d', hd', hlanes'⟩ :=
        ih (r := r + 1#32) (by rw [hlane]; omega) (writeByte r byte program)
      refine ⟨d', ?_, fun i hi ↦ ?_⟩
      · rw [hd', hbase, hd, update_idem]
      · rw [hlanes' i hi, hlane, hbase, hd, update_self, hlanes i hi, length_cons]
        by_cases h : i = r.toNat % 4
        · rw [if_neg (by omega), if_pos h, if_pos (by omega), h, Nat.sub_self]
          rfl
        · by_cases hin : r.toNat % 4 + 1 ≤ i ∧ i < r.toNat % 4 + 1 + bytes.length
          · rw [if_pos hin, if_pos (by omega),
              show i - r.toNat % 4 = i - (r.toNat % 4 + 1) + 1 by omega]
            rfl
          · rw [if_neg hin, if_neg h, if_neg (by omega)]

theorem writeDword_eq_writeBytes {address data mask : BitVec 32}
    (haddress : address &&& ~~~3#32 = r &&& ~~~3#32) (hfit : r.toNat % 4 + bytes.length ≤ 4)
    (hmask : ∀ i < 4,
    lane mask i = if r.toNat % 4 ≤ i ∧ i < r.toNat % 4 + bytes.length then 0xff#8 else 0#8)
    (hdata : ∀ j < bytes.length, lane data (r.toNat % 4 + j) = bytes.getD j 0#8)
    (program : Memory) :
    writeDword address data mask program = writeBytes (span r bytes.length) bytes program := by
  obtain ⟨d, hd, hlanes⟩ := writeBytes_span hfit program
  rw [hd, writeDword, haddress]
  congr 1
  refine eq_of_lanes fun i hi ↦ ?_
  have hmask' := hmask i hi
  rw [hlanes i hi]
  by_cases h : r.toNat % 4 ≤ i ∧ i < r.toNat % 4 + bytes.length
  · rw [if_pos h] at hmask' ⊢
    have hlane := hdata (i - r.toNat % 4) (by omega)
    rw [show r.toNat % 4 + (i - r.toNat % 4) = i by omega] at hlane
    rw [lane_masked _ _ (.inl hmask'), if_pos hmask', hlane]
  · rw [if_neg h] at hmask' ⊢
    rw [lane_masked _ _ (.inr hmask'), hmask', if_neg (by decide)]

/-! ## The data of the write accessors -/

section Data

variable {k : ℕ}

theorem lanes_of_toNat {d : BitVec 32} {x y z u : BitVec 8}
    (h : d.toNat = x.toNat * 16777216 + y.toNat * 65536 + z.toNat * 256 + u.toNat) :
    lane d 0 = x ∧ lane d 1 = y ∧ lane d 2 = z ∧ lane d 3 = u := by
  refine ⟨eq_of_toNat_eq ?_, eq_of_toNat_eq ?_, eq_of_toNat_eq ?_, eq_of_toNat_eq ?_⟩
  all_goals
    rw [toNat_lane, h]
    omega

variable (data : BitVec 16)

theorem word_bytes :
    data.toNat = ((data >>> 8).setWidth 8).toNat * 256 + (data.setWidth 8).toNat := by
  rw [toNat_setWidth, toNat_setWidth, toNat_ushiftRight, Nat.shiftRight_eq_div_pow]
  omega

theorem lane_dwordFromWord (hk : k < 4) : lane (dwordFromWord data) k =
    if k % 2 = 0 then (data >>> 8).setWidth 8 else data.setWidth 8 := by
  have hvalue : (dwordFromWord data).toNat = data.toNat * 65536 + data.toNat := by
    rw [dwordFromWord, toNat_mul, toNat_setWidth, toNat_ofNat]
    omega
  obtain ⟨h0, h1, h2, h3⟩ := lanes_of_toNat (x := (data >>> 8).setWidth 8) (y := data.setWidth 8)
    (z := (data >>> 8).setWidth 8) (u := data.setWidth 8)
    (hvalue.trans (by rw [word_bytes data]; omega))
  have hcases : k = 0 ∨ k = 1 ∨ k = 2 ∨ k = 3 := by omega
  rcases hcases with rfl | rfl | rfl | rfl
  · exact h0
  · exact h1
  · exact h2
  · exact h3

theorem lane_shiftLeft (d : BitVec 32) {n : ℕ} (h : k + n < 4) :
    lane (d <<< (8 * n)) k = lane d (k + n) := by
  refine eq_of_getLsbD_eq fun i hi ↦ ?_
  rw [lane, lane, getLsbD_setWidth, getLsbD_setWidth, getLsbD_ushiftRight,
    getLsbD_ushiftRight, getLsbD_shiftLeft, decide_eq_true (by omega : 24 - 8 * k + i < 32),
    decide_eq_false (by omega : ¬ 24 - 8 * k + i < 8 * n),
    show 24 - 8 * k + i - 8 * n = 24 - 8 * (k + n) + i by omega]
  rfl

theorem lane_shiftRight (d : BitVec 32) {n : ℕ} (h : k + n < 4) :
    lane (d >>> (8 * n)) (k + n) = lane d k := by
  rw [lane, lane, ← shiftRight_add]
  congr 2
  omega

theorem lane_dwordFromUnalignedWord (hk : k < 4) : lane (dwordFromUnalignedWord data) k =
    if k = 2 then data.setWidth 8 else (data >>> 8).setWidth 8 := by
  have hdata := word_bytes data
  have hshift : (data.setWidth 32 <<< 8).toNat = data.toNat * 256 := by
    rw [toNat_shiftLeft, toNat_setWidth, Nat.shiftLeft_eq]
    omega
  have hsmear : ((data >>> 8).setWidth 32 * 0x01000001#32).toNat =
      ((data >>> 8).setWidth 8).toNat * 16777216 + ((data >>> 8).setWidth 8).toNat := by
    have hhigh : (data >>> 8).toNat = ((data >>> 8).setWidth 8).toNat := by
      rw [toNat_ushiftRight, Nat.shiftRight_eq_div_pow]
      omega
    rw [toNat_mul, toNat_setWidth, toNat_ofNat, hhigh]
    omega
  obtain ⟨h0, h1, h2, h3⟩ := lanes_of_toNat (x := 0#8) (y := (data >>> 8).setWidth 8)
    (z := data.setWidth 8) (u := 0#8) (hshift.trans (by rw [toNat_ofNat]; omega))
  obtain ⟨h0', h1', h2', h3'⟩ := lanes_of_toNat (x := (data >>> 8).setWidth 8) (y := 0#8) (z := 0#8)
    (u := (data >>> 8).setWidth 8) (hsmear.trans (by rw [toNat_ofNat]; omega))
  rw [dwordFromUnalignedWord, lane_or]
  have hcases : k = 0 ∨ k = 1 ∨ k = 2 ∨ k = 3 := by omega
  rcases hcases with rfl | rfl | rfl | rfl
  · rw [h0, h0', if_neg (by decide), zero_or]
  · rw [h1, h1', if_neg (by decide), or_zero]
  · rw [h2, h2', if_pos rfl, or_zero]
  · rw [h3, h3', if_neg (by decide), zero_or]

end Data

end RoscoEmulator.M68k
