import RoscoEmulator.Memory.Slots

/-!
# Accesses with flags

The accesses that return flags, against those that do not on the same bus, which collects the flags.
Writes are the same. Reads are the same as long as one or two accesses of the bus are enough; of
more, only the lowest word of the data is returned, and big endian the shifts to the right leave in
place only what lies in the last word. -/

namespace RoscoEmulator.Memory

namespace Access

variable {p : Access} {σ : Type}

/-! ## The same bus without flags -/

/-- A bus that collects the flags of its reads. -/
def collect (ropf : p.Ropf σ) : p.Rop (BitVec 16 × σ) := fun address mask st ↦
  ((ropf address mask st.2).1.1, st.1 ||| (ropf address mask st.2).1.2, (ropf address mask st.2).2)

/-- A bus that collects the flags of its writes. -/
def collectWrite (wopf : p.Wopf σ) : p.Wop (BitVec 16 × σ) := fun address data mask st ↦
  (st.1 ||| (wopf address data mask st.2).1, (wopf address data mask st.2).2)

/-- The flags belong to the state. -/
def assoc {α : Type} (r : (α × BitVec 16) × σ) : α × BitVec 16 × σ := (r.1.1, r.1.2, r.2)

theorem assoc_readFlags {w : ℕ} (ropf : p.Ropf σ) (address : BitVec 32) (curmask : p.Native)
    (place : p.Native → BitVec w) (r : (BitVec w × BitVec 16) × σ) :
    assoc (readFlags ropf address curmask place r) =
      read (collect ropf) address curmask place (assoc r) := by
  unfold readFlags read
  split <;> rfl

theorem memoryWriteGenericFlags_eq (wopf : p.Wopf σ) (address : BitVec 32) (data mask : p.Target)
    (st : σ) : memoryWriteGenericFlags p wopf address data mask st =
      memoryWriteGeneric p (collectWrite wopf) address data mask (0, st) := by
  unfold memoryWriteGenericFlags memoryWriteGeneric
  split
  · exact Prod.ext (BitVec.zero_or).symm rfl
  · split
    · exact Prod.ext (BitVec.zero_or).symm rfl
    · rfl

/-! ## Reads of a bus that is wide enough -/

theorem setWidth_setWidth_of_le {w w' : ℕ} (h : w ≤ w') (x : BitVec w) :
    (x.setWidth w').setWidth w = x := by
  rw [BitVec.setWidth_setWidth_of_le _ h, BitVec.setWidth_eq]

/-- Up to two accesses read what the plain template reads. -/
theorem memoryReadGenericFlags_wide (undefined : p.Native → ℕ → p.Target) (ropf : p.Ropf σ)
    (address : BitVec 32) (mask : p.Target) (st : σ) (hle : p.targetBytes ≤ p.nativeBytes) :
    assoc (memoryReadGenericFlags p undefined ropf address mask st) =
      memoryReadGeneric p (collect ropf) address mask (0, st) := by
  have hbits : p.targetBits ≤ p.nativeBits := Nat.mul_le_mul_left 8 hle
  cases hdirect : p.isDirect address with
  | true =>
    simp only [memoryReadGenericFlags, memoryReadGeneric, hdirect, if_true]
    exact Prod.ext rfl (Prod.ext (BitVec.zero_or).symm rfl)
  | false =>
    cases hsingle : p.isSingle address with
    | true =>
      simp only [memoryReadGenericFlags, memoryReadGeneric, hdirect, hsingle, if_true,
        Bool.false_eq_true, if_false]
      exact Prod.ext rfl (Prod.ext (BitVec.zero_or).symm rfl)
    | false =>
      cases hbig : p.big with
      | false =>
        simp only [memoryReadGenericFlags, memoryReadGeneric, hdirect, hsingle, hbig, if_pos hle,
          if_true, Bool.false_eq_true, if_false]
        simp only [setWidth_setWidth_of_le hbits]
        exact (assoc_readFlags ropf _ _ _ _).trans (congrArg _ (assoc_readFlags ropf _ _ _ _))
      | true =>
        simp only [memoryReadGenericFlags, memoryReadGeneric, hdirect, hsingle, hbig, if_pos hle,
          Bool.true_eq_false, Bool.false_eq_true, if_false]
        have hjustified : ∀ (r : (p.Native × BitVec 16) × σ) (r' : p.Native × BitVec 16 × σ),
            assoc r = r' → assoc (((r.1.1 >>> p.leftJustify).setWidth p.targetBits, r.1.2), r.2) =
              ((r'.1 >>> p.leftJustify).setWidth p.targetBits, r'.2) := by
          rintro r _ rfl
          rfl
        exact hjustified _ _
          ((assoc_readFlags ropf _ _ _ _).trans (congrArg _ (assoc_readFlags ropf _ _ _ _)))

/-! ## Reads of a narrower bus -/

/-- The reads of slots, with the data of each placed as given. -/
def placeRun (p : Access) (rop : p.Rop σ) (address : BitVec 32) (mask : p.Target)
    (place : ℕ → p.Native → p.Target) (N : ℕ) (st : σ) : p.Target × σ :=
  (List.range N).foldl (fun r q ↦
    read rop (p.slotAddress address q) (p.slotPart (p.offsbits address) mask q) (place q) r) (0, st)

/-- A read of a slot with flags. -/
def flagSlot (p : Access) (ropf : p.Ropf σ) (address : BitVec 32) (mask : p.Target)
    (place : ℕ → p.Native → p.Target) (r : (p.Target × BitVec 16) × σ) (q : ℕ) :
    (p.Target × BitVec 16) × σ :=
  readFlags ropf (p.slotAddress address q) (p.slotPart (p.offsbits address) mask q) (place q) r

/-- Where the reads with flags place the data. Little endian it is where the others do; big endian
it is shifted to the right. -/
def flaggedPlace (p : Access) (undefined : p.Native → ℕ → p.Target) (offsbits q : ℕ)
    (d : p.Native) : p.Target :=
  if p.big = false then bitWindow _ (-p.slotPosition offsbits q) d
  else if q = 0 then shiftRight p undefined d (p.targetBits - (p.nativeBits - offsbits))
  else if q ≤ p.maxSplitsMinusOne then
    d.setWidth _ >>> (p.targetBits - (p.nativeBits - offsbits) - q * p.nativeBits)
  else d.setWidth _ >>> (p.nativeBits - offsbits)

variable {ropf : p.Ropf σ} {address : BitVec 32} {mask : p.Target}
    {undefined : p.Native → ℕ → p.Target} {q : ℕ}

theorem readFlags_eq_flagSlot {a : BitVec 32} {curmask : p.Native} {place : p.Native → p.Target}
    {placed : ℕ → p.Native → p.Target} (haddress : a = p.slotAddress address q)
    (hmask : curmask = p.slotPart (p.offsbits address) mask q) (hplace : ∀ d, place d = placed q d)
    (r : (p.Target × BitVec 16) × σ) :
    readFlags ropf a curmask place r = flagSlot p ropf address mask placed r q := by
  rw [flagSlot, haddress, hmask, funext hplace]

theorem flagSlot_of_part_eq_zero
    {placed : ℕ → p.Native → p.Target} (h : p.slotPart (p.offsbits address) mask q = 0)
    (r : (p.Target × BitVec 16) × σ) : flagSlot p ropf address mask placed r q = r := by
  rw [flagSlot, readFlags, h, if_neg fun h ↦ h rfl]

theorem assoc_foldl_flagSlot (placed : ℕ → p.Native → p.Target) (N : ℕ) (st : σ) :
    assoc ((List.range N).foldl (flagSlot p ropf address mask placed) ((0, 0), st)) =
      placeRun p (collect ropf) address mask placed N (0, st) :=
  (List.foldl_hom assoc fun r _ ↦ (assoc_readFlags ropf _ _ _ r).symm).symm

/-- More than two accesses read the lowest word of what they place. -/
theorem memoryReadGenericFlags_many (undefined : p.Native → ℕ → p.Target) (ropf : p.Ropf σ)
    (address : BitVec 32) (mask : p.Target) (st : σ) (hlt : p.nativeBytes < p.targetBytes) :
    assoc (memoryReadGenericFlags p undefined ropf address mask st) =
      ((((placeRun p (collect ropf) address mask
      (flaggedPlace p undefined (p.offsbits address)) p.slotCount
          (0, st)).1).setWidth p.nativeBits).setWidth _,
        (placeRun p (collect ropf) address mask
        (flaggedPlace p undefined (p.offsbits address)) p.slotCount
          (0, st)).2) := by
  have hbits := p.maxSplits_mul_bits hlt
  have hoff := p.offsbits_lt address
  have hle : p.nativeBits ≤ p.targetBits := by omega
  rw [← assoc_foldl_flagSlot]
  have hcut : ∀ r r' : (p.Target × BitVec 16) × σ, r = r' →
      assoc (((r.1.1.setWidth p.nativeBits).setWidth p.targetBits, r.1.2), r.2) =
        (((assoc r').1.setWidth p.nativeBits).setWidth p.targetBits, (assoc r').2) := by
    rintro r _ rfl
    rfl
  cases hbig : p.big with
  | false =>
    have hzero := slotPosition_little_zero (p.offsbits address) hbig
    have hsucc := slotPosition_little_succ hbig hoff
    have hplace (q : ℕ) (d : p.Native) : flaggedPlace p undefined (p.offsbits address) q d =
        bitWindow _ (-p.slotPosition (p.offsbits address) q) d := if_pos hbig
    simp only [memoryReadGenericFlags, isDirect_of_lt hlt, isSingle_of_lt hlt, hbig,
      if_neg (Nat.not_le.mpr hlt), Bool.false_eq_true, if_false, if_true]
    refine hcut _ _ ?_
    rw [readFlags_eq_flagSlot (p.slotAddress_zero address).symm (part_shiftLeft_wide mask hle hzero)
        fun d ↦ (place_ushiftRight d hzero).trans (hplace 0 d).symm,
      loopLittle_slots fun q r ↦ readFlags_eq_flagSlot rfl (part_ushiftRight mask (hsucc q))
        (fun d ↦ (place_shiftLeft d (hsucc q)).trans (hplace (q + 1) d).symm) r]
    dsimp only
    refine foldl_slotCount hlt _ _ (fun _ ↦ ?_) fun hnone ↦ flagSlot_of_part_eq_zero ?_
    · exact readFlags_eq_flagSlot (next_slotAddress _ _ _) (part_ushiftRight mask (hsucc _))
        (fun d ↦ (place_shiftLeft d (hsucc _)).trans (hplace _ d).symm) _
    · rw [slotPart, hsucc]
      exact bitWindow_eq_zero _ (Or.inl (by omega))
  | true =>
    have hfirst : p.slotPosition (p.offsbits address) 0 =
        (p.targetBits - (p.nativeBits - p.offsbits address) : ℕ) := by
      rw [slotPosition_big_of_le hbig hlt hoff (Nat.zero_le _), Nat.zero_mul, Nat.sub_zero]
    have hlast := slotPosition_big_last hbig hlt hoff
    have hmiddle {q : ℕ} (hq : q < p.maxSplitsMinusOne) :=
      slotPosition_big_of_le (q := q + 1) hbig hlt hoff hq
    have hbig' : ¬p.big = false := Bool.eq_false_iff.not.mpr (not_not.mpr hbig)
    have hplaceFirst (d : p.Native) : flaggedPlace p undefined (p.offsbits address) 0 d =
        shiftRight p undefined d (p.targetBits - (p.nativeBits - p.offsbits address)) := by
      rw [flaggedPlace, if_neg hbig', if_pos rfl]
    have hplaceMiddle {q : ℕ} (hq : q < p.maxSplitsMinusOne) (d : p.Native) :
        flaggedPlace p undefined (p.offsbits address) (q + 1) d =
          d.setWidth _ >>>
          (p.targetBits - (p.nativeBits - p.offsbits address) - (q + 1) * p.nativeBits) := by
      rw [flaggedPlace, if_neg hbig', if_neg (Nat.succ_ne_zero q), if_pos (Nat.succ_le_of_lt hq)]
    have hplaceLast (d : p.Native) : flaggedPlace p undefined (p.offsbits address)
        (p.maxSplitsMinusOne + 1) d = d.setWidth _ >>> (p.nativeBits - p.offsbits address) := by
      rw [flaggedPlace, if_neg hbig', if_neg (Nat.succ_ne_zero _), if_neg (by omega)]
    simp only [memoryReadGenericFlags, isDirect_of_lt hlt, isSingle_of_lt hlt, hbig,
      if_neg (Nat.not_le.mpr hlt), Bool.false_eq_true, if_false, Bool.true_eq_false]
    refine hcut _ _ ?_
    rw [readFlags_eq_flagSlot (p.slotAddress_zero address).symm (part_ushiftRight mask hfirst)
        fun d ↦ (hplaceFirst d).symm,
      loopBig_slots fun q hq r ↦ readFlags_eq_flagSlot rfl (part_ushiftRight mask (hmiddle hq))
        (fun d ↦ (hplaceMiddle hq d).symm) r]
    dsimp only
    have hrest : p.targetBits - (p.nativeBits - p.offsbits address) - p.maxSplitsMinusOne *
        p.nativeBits = p.offsbits address := by
      omega
    rw [hrest]
    refine foldl_slotCount hlt _ _ (fun _ ↦ ?_) fun hnone ↦ flagSlot_of_part_eq_zero ?_
    · exact readFlags_eq_flagSlot (next_slotAddress _ _ _) (part_shiftLeft_wide mask hle hlast)
        (fun d ↦ (hplaceLast d).symm) _
    · rw [slotPart, hlast]
      exact bitWindow_eq_zero _ (Or.inr (by omega))

/-! ## What is placed -/

section Placed

variable {rop : p.Rop σ} {placed placed' : ℕ → p.Native → p.Target} {N : ℕ} {st : σ}

theorem placeRun_succ : placeRun p rop address mask placed (N + 1) st =
    read rop (p.slotAddress address N) (p.slotPart (p.offsbits address) mask N) (placed N)
      (placeRun p rop address mask placed N st) := by
  rw [placeRun, placeRun, List.range_succ, List.foldl_append, List.foldl_cons, List.foldl_nil]

/-- Where the data are placed makes no difference to the bus. -/
theorem placeRun_state_congr (placed placed' : ℕ → p.Native → p.Target) (N : ℕ) :
    (placeRun p rop address mask placed N st).2 = (placeRun p rop address mask placed' N st).2 := by
  induction N with
  | zero => rfl
  | succ N ih =>
    rw [placeRun_succ, placeRun_succ, read, read]
    split
    · exact congrArg (fun st ↦ (rop _ _ st).2) ih
    · exact ih

/-- The data of a slot. -/
def slotData (p : Access) (rop : p.Rop σ) (address : BitVec 32) (mask : p.Target) (st : σ)
    (q : ℕ) : p.Native :=
  (rop (p.slotAddress address q) (p.slotPart (p.offsbits address) mask q)
    (placeRun p rop address mask (fun _ _ ↦ 0) q st).2).1

theorem getLsbD_placeRun (j : ℕ) : (placeRun p rop address mask placed N st).1.getLsbD j = true ↔
    ∃ q < N, p.slotPart (p.offsbits address) mask q ≠ 0 ∧
      (placed q (slotData p rop address mask st q)).getLsbD j = true := by
  induction N with
  | zero => simp [placeRun]
  | succ N ih =>
    have hsucc : (∃ q < N + 1, p.slotPart (p.offsbits address) mask q ≠ 0 ∧
          (placed q (slotData p rop address mask st q)).getLsbD j = true) ↔
        (∃ q < N, p.slotPart (p.offsbits address) mask q ≠ 0 ∧
          (placed q (slotData p rop address mask st q)).getLsbD j = true) ∨
        p.slotPart (p.offsbits address) mask N ≠ 0 ∧
          (placed N (slotData p rop address mask st N)).getLsbD j = true := by
      constructor
      · rintro ⟨q, hq, h⟩
        rcases Nat.lt_succ_iff_lt_or_eq.mp hq with hq | rfl
        · exact Or.inl ⟨q, hq, h⟩
        · exact Or.inr h
      · rintro (⟨q, hq, h⟩ | h)
        · exact ⟨q, by omega, h⟩
        · exact ⟨N, by omega, h⟩
    rw [hsucc, ← ih, placeRun_succ, read]
    split
    · next hpart =>
      rw [BitVec.getLsbD_or, Bool.or_eq_true, and_iff_right hpart, slotData,
        placeRun_state_congr (fun _ _ ↦ 0) placed]
    · next hpart => rw [or_iff_left fun h ↦ hpart h.1]

end Placed

/-! ## Where the mask reaches -/

/-- A bit of the access that is read at all: all of them, unless the access is aligned and its
address is not. -/
def Covers (p : Access) (address : BitVec 32) (j : ℕ) : Prop :=
  p.aligned = true →
    if p.big then p.offsbits address ≤ j else j + p.offsbits address < p.targetBits

/-- The bits that the reads with flags leave in place. -/
def flagBits (p : Access) (address : BitVec 32) : ℕ :=
  if p.big = true ∧ p.offsbits address ≠ 0 then p.offsbits address else p.nativeBits

/-- The bus is wide enough, or what the mask selects lies in the bits that stay in place. -/
def StaysInPlace (p : Access) (address : BitVec 32) (mask : p.Target) : Prop :=
  p.targetBytes ≤ p.nativeBytes ∨
    ∀ j, mask.getLsbD j = true → p.Covers address j → j < p.flagBits address

theorem slotCount_mul (hlt : p.nativeBytes < p.targetBytes) : p.slotCount * p.nativeBits =
    if p.aligned then p.targetBits else p.targetBits + p.nativeBits := by
  have hbits := p.maxSplits_mul_bits hlt
  rw [slotCount, if_neg (Nat.not_le.mpr hlt)]
  split
  · rw [Nat.add_mul, Nat.one_mul, hbits]
  · rw [show p.maxSplitsMinusOne + 2 =
      p.maxSplitsMinusOne + 1 + 1 by omega, Nat.add_mul, Nat.add_mul, Nat.one_mul, hbits]

variable {j : ℕ}

theorem covers_iff (hlt : p.nativeBytes < p.targetBytes) (hj : j < p.targetBits) :
    p.Covers address j ↔
      ∃ q < p.slotCount, ∃ i < p.nativeBits,
      (i : ℤ) + p.slotPosition (p.offsbits address) q = j := by
  have hoff := p.offsbits_lt address
  have hcount := slotCount_mul hlt
  have hpos : 0 < p.nativeBits := by omega
  constructor
  · intro hcovers
    -- the place of the bit, counted from the start of the first slot
    obtain ⟨x, hx⟩ : ∃ x,
        x = (if p.big then p.targetBits - 1 - j else j) + p.offsbits address := ⟨_, rfl⟩
    have hlow := Nat.mod_lt x hpos
    have hdiv := Nat.div_add_mod' x p.nativeBits
    have hin : p.aligned = true → x < p.targetBits := fun haligned ↦ by
      have hcovered := hcovers haligned
      cases hbig : p.big with
      | false =>
        rw [hbig, if_neg Bool.false_ne_true] at hx hcovered
        omega
      | true =>
        rw [hbig, if_pos rfl] at hx hcovered
        omega
    have hxlt : x < p.slotCount * p.nativeBits := by
      rw [hcount]
      split
      · next haligned => exact hin haligned
      · split at hx <;> omega
    refine ⟨x / p.nativeBits, Nat.div_lt_of_lt_mul (by rwa [Nat.mul_comm]), ?_⟩
    cases hbig : p.big with
    | false =>
      rw [hbig, if_neg Bool.false_ne_true] at hx
      refine ⟨x % p.nativeBits, hlow, ?_⟩
      rw [slotPosition_little p hbig]
      omega
    | true =>
      rw [hbig, if_pos rfl] at hx
      refine ⟨p.nativeBits - 1 - x % p.nativeBits, by omega, ?_⟩
      rw [slotPosition_big p hbig]
      omega
  · rintro ⟨q, hq, i, hi, hij⟩ haligned
    have hmul := Nat.mul_le_mul_right p.nativeBits (Nat.succ_le_of_lt hq)
    rw [hcount, if_pos haligned, Nat.succ_mul] at hmul
    cases hbig : p.big with
    | false =>
      rw [slotPosition_little p hbig] at hij
      rw [if_neg Bool.false_ne_true]
      omega
    | true =>
      rw [slotPosition_big p hbig] at hij
      rw [if_pos rfl]
      omega

/-! ## Agreement -/

/-- The templates with flags agree with the plain ones: in what they write, in the data that the
mask selects, in the accesses of the bus, and in the flags, which are those of the accesses,
collected. A shift that is not defined may give anything. -/
def FlagsAgree (p : Access) (address : BitVec 32) (mask : p.Target) : Prop :=
  ∀ σ : Type,
    (∀ (undefined : p.Native → ℕ → p.Target) (ropf : p.Ropf σ) (st : σ),
      let flagged := memoryReadGenericFlags p undefined ropf address mask st
      let plain := memoryReadGeneric p (collect ropf) address mask (0, st)
      flagged.1.1 &&& mask = plain.1 &&& mask ∧ (flagged.1.2, flagged.2) = plain.2) ∧
    ∀ (wopf : p.Wopf σ) (data : p.Target) (st : σ),
      memoryWriteGenericFlags p wopf address data mask st =
        memoryWriteGeneric p (collectWrite wopf) address data mask (0, st)

theorem exists_of_part_ne_zero (hlt : p.nativeBytes < p.targetBytes) (hq : q < p.slotCount)
    (h : p.slotPart (p.offsbits address) mask q ≠ 0) :
    ∃ j, mask.getLsbD j = true ∧ p.Covers address j ∧
      ∃ i < p.nativeBits, (i : ℤ) + p.slotPosition (p.offsbits address) q = j := by
  obtain ⟨i, hi⟩ : ∃ i, (p.slotPart (p.offsbits address) mask q).getLsbD i = true := by
    by_contra hnone
    refine h (BitVec.eq_of_getLsbD_eq fun i _ ↦ ?_)
    rw [Bool.eq_false_iff.mpr fun hi ↦ hnone ⟨i, hi⟩]
    exact BitVec.getLsbD_zero.symm
  obtain ⟨j, hj, hlow, hmask⟩ := exists_of_getLsbD_bitWindow hi
  exact ⟨j, hmask,
    (covers_iff hlt (BitVec.lt_of_getLsbD hmask)).mpr ⟨q, hq, i, hlow, hj⟩, i, hlow, hj⟩

theorem flagBits_le (p : Access) (address : BitVec 32) : p.flagBits address ≤ p.nativeBits := by
  have hoff := p.offsbits_lt address
  unfold flagBits
  split <;> omega

theorem setWidth_shift_eq_bitWindow (d : p.Native) (hle : p.nativeBits ≤ p.targetBits) (k : ℕ) :
    d.setWidth _ >>> k = bitWindow p.targetBits k d := by
  rw [← bitWindow_zero, ushiftRight_bitWindow d k (by omega), Int.add_zero]

section

variable (hlt : p.nativeBytes < p.targetBytes)
include hlt

/-- Big endian, the slots that hold what stays in place are the last ones. -/
theorem slotPosition_nonpos (hbig : p.big = true) {i : ℕ}
    (hij : (i : ℤ) + p.slotPosition (p.offsbits address) q = j)
    (hj : j < p.flagBits address) : p.slotPosition (p.offsbits address) q ≤ 0 := by
  have hbits := p.maxSplits_mul_bits hlt
  have hoff := p.offsbits_lt address
  by_contra hpos
  rw [slotPosition_big p hbig] at hij hpos
  have hq : q ≤ p.maxSplitsMinusOne := by
    by_contra hq
    have hmul := Nat.mul_le_mul_right p.nativeBits (Nat.lt_of_not_le hq)
    rw [Nat.succ_mul] at hmul
    omega
  unfold flagBits at hj
  split at hj
  · have hmul := Nat.mul_le_mul_right p.nativeBits hq
    omega
  · next hzero =>
    have hoffset : p.offsbits address = 0 := by
      by_contra hne
      exact hzero ⟨hbig, hne⟩
    have hq' : q < p.maxSplitsMinusOne := by
      by_contra hq'
      rw [show q = p.maxSplitsMinusOne by omega] at hpos
      omega
    have hmul := Nat.mul_le_mul_right p.nativeBits hq'
    rw [Nat.succ_mul] at hmul
    omega

/-- They are placed where they belong. -/
theorem flaggedPlace_of_nonpos (hbig : p.big = true) (hq : q < p.slotCount)
    (hpos : p.slotPosition (p.offsbits address) q ≤ 0) (d : p.Native) : flaggedPlace p undefined
    (p.offsbits address) q d = bitWindow _ (-p.slotPosition (p.offsbits address) q) d := by
  have hbits := p.maxSplits_mul_bits hlt
  have hoff := p.offsbits_lt address
  have hle : p.nativeBits ≤ p.targetBits := by omega
  have hq0 : q ≠ 0 := by
    rintro rfl
    rw [slotPosition_big p hbig] at hpos
    have hmul := Nat.mul_lt_mul_of_pos_left hlt (by decide : 0 < 8)
    rw [nativeBits, targetBits] at *
    omega
  rw [flaggedPlace, if_neg (Bool.eq_false_iff.not.mpr (not_not.mpr hbig)), if_neg hq0]
  split
  · next hmiddle =>
    rw [slotPosition_big_of_le hbig hlt hoff hmiddle] at hpos ⊢
    rw [setWidth_shift_eq_bitWindow d hle]
    exact congrArg (fun δ ↦ bitWindow _ δ d) (by omega)
  · next hlast =>
    have hcount : p.slotCount ≤ p.maxSplitsMinusOne + 2 := by
      rw [slotCount, if_neg (Nat.not_le.mpr hlt)]
      split <;> omega
    obtain rfl : q = p.maxSplitsMinusOne + 1 := by omega
    rw [slotPosition_big_last hbig hlt hoff, setWidth_shift_eq_bitWindow d hle, Int.neg_neg]

theorem memoryReadGeneric_eq_placeRun (rop : p.Rop σ) (address : BitVec 32) (mask : p.Target)
    (st : σ) : memoryReadGeneric p rop address mask st =
      placeRun p rop address mask
      (fun q ↦ bitWindow _ (-p.slotPosition (p.offsbits address) q)) p.slotCount st :=
  memoryReadGeneric_many _ _ _ _ hlt

/-- What stays in place is read as by the plain template. -/
theorem readFlags_agree_of_many (undefined : p.Native → ℕ → p.Target) (ropf : p.Ropf σ)
    (address : BitVec 32) (mask : p.Target) (st : σ)
    (h : ∀ j, mask.getLsbD j = true → p.Covers address j → j < p.flagBits address) :
    (memoryReadGenericFlags p undefined ropf address mask st).1.1 &&& mask =
      (memoryReadGeneric p (collect ropf) address mask (0, st)).1 &&& mask := by
  have hflagged : (memoryReadGenericFlags p undefined ropf address mask st).1.1 =
      ((placeRun p (collect ropf) address mask (flaggedPlace p undefined (p.offsbits address))
        p.slotCount (0, st)).1.setWidth p.nativeBits).setWidth _ :=
    congrArg Prod.fst (memoryReadGenericFlags_many undefined ropf address mask st hlt)
  have hplain := memoryReadGeneric_eq_placeRun hlt (collect ropf) address mask (0, st)
  have hplaced : ∀ j,
      (placeRun p (collect ropf) address mask (flaggedPlace p undefined (p.offsbits address))
      p.slotCount (0, st)).1.getLsbD j = (placeRun p (collect ropf) address mask
        (fun q ↦ bitWindow _ (-p.slotPosition (p.offsbits address) q)) p.slotCount (0,
        st)).1.getLsbD j := by
    intro j
    rw [Bool.eq_iff_iff, getLsbD_placeRun, getLsbD_placeRun]
    refine exists_congr fun q ↦ and_congr_right fun hq ↦ and_congr_right fun hpart ↦ ?_
    cases hbig : p.big with
    | false => rw [flaggedPlace, if_pos hbig]
    | true =>
      obtain ⟨j', hmask, hcovers, i, _, hij⟩ := exists_of_part_ne_zero hlt hq hpart
      rw [flaggedPlace_of_nonpos hlt hbig hq
        (slotPosition_nonpos hlt hbig hij (h j' hmask hcovers))]
  refine BitVec.eq_of_getLsbD_eq fun j hj ↦ ?_
  rw [hflagged, hplain, BitVec.getLsbD_and, BitVec.getLsbD_and, BitVec.getLsbD_setWidth,
    BitVec.getLsbD_setWidth, hplaced, decide_eq_true hj, Bool.true_and]
  cases hmask : mask.getLsbD j with
  | false => rw [Bool.and_false, Bool.and_false]
  | true =>
    rw [Bool.and_true, Bool.and_true, Bool.and_eq_right_iff_imp, decide_eq_true_eq]
    intro hbit
    obtain ⟨q, hq, _, hwindow⟩ := (getLsbD_placeRun j).mp hbit
    obtain ⟨i, hi, _, hdata⟩ := exists_of_getLsbD_bitWindow hwindow
    have hcovers : p.Covers address j :=
      (covers_iff hlt hj).mpr ⟨q, hq, i, BitVec.lt_of_getLsbD hdata, by omega⟩
    exact Nat.lt_of_lt_of_le (h j hmask hcovers) (p.flagBits_le address)

end

/-- The bus that reads the mask. -/
def echo (p : Access) : p.Ropf Unit := fun _ mask st ↦ ((mask, 0), st)

theorem slotData_echo (q : ℕ) : slotData p (collect p.echo) address mask (0, ()) q =
    p.slotPart (p.offsbits address) mask q := rfl

theorem nativeBits_le_maxSplits_mul (hlt : p.nativeBytes < p.targetBytes) :
    p.nativeBits ≤ p.maxSplitsMinusOne * p.nativeBits := by
  have hmul := p.maxSplits_mul hlt
  have hpos : 0 < p.maxSplitsMinusOne := by
    by_contra hzero
    rw [show p.maxSplitsMinusOne = 0 by omega] at hmul
    omega
  exact Nat.le_mul_of_pos_left _ hpos

/-- From the bus that reads the mask, the uppermost bit that does not stay in place is not read with
flags. -/
theorem getLsbD_readFlags_echo (hlt : p.nativeBytes < p.targetBytes) (hout : p.flagBits address ≤ j)
    (hmax : ∀ j' > j, p.Covers address j' → mask.getLsbD j' = false) :
    (memoryReadGenericFlags p (fun _ _ ↦ 0) p.echo address mask ()).1.1.getLsbD j = false := by
  have hflagged : (memoryReadGenericFlags p (fun _ _ ↦ 0) p.echo address mask ()).1.1 =
      ((placeRun p (collect p.echo) address mask (flaggedPlace p (fun _ _ ↦ 0) (p.offsbits address))
        p.slotCount (0, ())).1.setWidth p.nativeBits).setWidth _ :=
    congrArg Prod.fst (memoryReadGenericFlags_many (fun _ _ ↦ 0) p.echo address mask () hlt)
  have hbits := p.maxSplits_mul_bits hlt
  have hsplits := nativeBits_le_maxSplits_mul hlt
  have hoff := p.offsbits_lt address
  have hle : p.nativeBits ≤ p.targetBits := by omega
  rw [hflagged, BitVec.getLsbD_setWidth, BitVec.getLsbD_setWidth]
  by_cases hj : p.nativeBits ≤ j
  · rw [decide_eq_false (by omega : ¬j < p.nativeBits), Bool.false_and, Bool.and_false]
  have hbig : p.big = true ∧ p.offsbits address ≠ 0 := by
    by_contra hnot
    rw [flagBits, if_neg hnot] at hout
    exact hj hout
  rw [flagBits, if_pos hbig] at hout
  refine Bool.eq_false_iff.mpr fun hbit ↦ ?_
  obtain ⟨q, hq, _, hplaced⟩ :=
    (getLsbD_placeRun j).mp (Bool.and_eq_true_iff.mp (Bool.and_eq_true_iff.mp hbit).2).2
  rw [slotData_echo, flaggedPlace,
    if_neg (Bool.eq_false_iff.not.mpr (not_not.mpr hbig.1))] at hplaced
  split at hplaced
  · -- the first slot is shifted out
    unfold shiftRight at hplaced
    split at hplaced
    · exact absurd hplaced (Bool.eq_false_iff.mp BitVec.getLsbD_zero)
    · rw [BitVec.getLsbD_setWidth, BitVec.getLsbD_ushiftRight, Bool.and_eq_true] at hplaced
      have hlow := BitVec.lt_of_getLsbD hplaced.2
      omega
  · split at hplaced
    · -- a slot in the middle holds what it took from above
      next hmiddle =>
      have hposition := slotPosition_big_of_le hbig.1 hlt hoff hmiddle
      rw [setWidth_shift_eq_bitWindow _ hle, ← hposition] at hplaced
      obtain ⟨i, hi, _, hpart⟩ := exists_of_getLsbD_bitWindow hplaced
      obtain ⟨j', hj', hlow, hmask⟩ := exists_of_getLsbD_bitWindow hpart
      have hcovers' : p.Covers address j' :=
        (covers_iff hlt (BitVec.lt_of_getLsbD hmask)).mpr ⟨q, hq, i, hlow, hj'⟩
      have hmul := Nat.mul_le_mul_right p.nativeBits hmiddle
      exact Bool.false_ne_true ((hmax j' (by omega) hcovers').symm.trans hmask)
    · -- the last slot does not reach so high
      rw [setWidth_shift_eq_bitWindow _ hle] at hplaced
      obtain ⟨i, hi, _, hpart⟩ := exists_of_getLsbD_bitWindow hplaced
      have hlow := BitVec.lt_of_getLsbD hpart
      omega

/-- From the bus that reads the mask, every selected bit that is read is set. -/
theorem getLsbD_read_echo (hlt : p.nativeBytes < p.targetBytes) (hmask : mask.getLsbD j = true)
    (hcovers : p.Covers address j) :
    (memoryReadGeneric p (collect p.echo) address mask (0, ())).1.getLsbD j = true := by
  have hj := BitVec.lt_of_getLsbD hmask
  obtain ⟨q, hq, i, hi, hij⟩ := (covers_iff hlt hj).mp hcovers
  have hpart : (p.slotPart (p.offsbits address) mask q).getLsbD i = true :=
    (getLsbD_bitWindow_of_eq mask hi hij).trans hmask
  rw [memoryReadGeneric_eq_placeRun hlt, getLsbD_placeRun]
  refine ⟨q, hq, fun hzero ↦ ?_, ?_⟩
  · rw [hzero] at hpart
    exact Bool.false_ne_true (BitVec.getLsbD_zero.symm.trans hpart)
  · rw [slotData_echo, getLsbD_bitWindow_of_eq _ hj
      (by omega : (j : ℤ) + -p.slotPosition (p.offsbits address) q = i)]
    exact hpart

/-- The bus that reads the mask shows what is not read with flags. -/
theorem staysInPlace_of_agree (h : p.FlagsAgree address mask) : p.StaysInPlace address mask := by
  by_contra hnot
  rw [StaysInPlace, not_or, Nat.not_le] at hnot
  obtain ⟨hlt, hout⟩ := hnot
  -- the uppermost selected bit that is read
  obtain ⟨j, ⟨hmask, hcovers, hj⟩, hmax⟩ := (measure fun j ↦ p.targetBits - j).wf.has_min
    {j | mask.getLsbD j = true ∧ p.Covers address j ∧ p.flagBits address ≤ j} (by
      by_contra hnone
      refine hout fun j hmask hcovers ↦ Nat.lt_of_not_le fun hj ↦ hnone ⟨j, hmask, hcovers, hj⟩)
  have hupper : ∀ j' > j, p.Covers address j' → mask.getLsbD j' = false := fun j' hj' hcovers' ↦
    Bool.eq_false_iff.mpr fun hmask' ↦ hmax j' ⟨hmask', hcovers', by omega⟩
      (show p.targetBits - j' < p.targetBits - j by have := BitVec.lt_of_getLsbD hmask'; omega)
  have hflagged := getLsbD_readFlags_echo hlt hj hupper
  have hplain := getLsbD_read_echo hlt hmask hcovers
  have hdata := congrArg (BitVec.getLsbD · j) ((h Unit).1 (fun _ _ ↦ 0) p.echo ()).1
  simp only [BitVec.getLsbD_and, hmask, Bool.and_true] at hdata
  exact Bool.false_ne_true (hflagged.symm.trans (hdata.trans hplain))

end Access

open Access

/-- The templates with flags agree with the plain ones just where the bus is wide enough or what the
mask selects stays in place. -/
theorem flagsAgree_iff_staysInPlace (p : Access) (address : BitVec 32) (mask : p.Target) :
    p.FlagsAgree address mask ↔ p.StaysInPlace address mask := by
  constructor
  · exact staysInPlace_of_agree
  · intro h σ
    refine ⟨fun undefined ropf st ↦ ?_,
      fun wopf data st ↦ memoryWriteGenericFlags_eq wopf address data mask st⟩
    by_cases hlt : p.nativeBytes < p.targetBytes
    · refine ⟨readFlags_agree_of_many hlt undefined ropf address mask st
        (h.resolve_left (by omega)), ?_⟩
      have hstate :=
        congrArg Prod.snd (memoryReadGenericFlags_many undefined ropf address mask st hlt)
      rw [memoryReadGeneric_eq_placeRun hlt]
      exact hstate.trans (placeRun_state_congr _ _ _)
    · have hwide := memoryReadGenericFlags_wide undefined ropf address mask st (by omega)
      exact ⟨congrArg (· &&& mask) (congrArg Prod.fst hwide), congrArg Prod.snd hwide⟩

/-- The bytes 0x11, 0x22, 0x33 and 0x44 from address zero on. -/
def elevens : dwordOnBytes.Ropf Unit :=
  fun address _ st ↦ ((BitVec.ofNat 8 (0x11 * (address.toNat + 1)), 0), st)

/-- Plainly they read as 0x11223344, with flags as 0x44. -/
theorem not_flagsAgree_dwordOnBytes : ¬dwordOnBytes.FlagsAgree 0 (0xffffffff#32 : BitVec 32) := by
  intro h
  have hflagged :
      (memoryReadGenericFlags dwordOnBytes (fun _ _ ↦ 0#32) elevens 0 0xffffffff#32 ()).1.1 =
      (0x44 : dwordOnBytes.Target) := by decide +kernel
  have hplain : (memoryReadGeneric dwordOnBytes (collect elevens) 0 0xffffffff#32 (0, ())).1 =
      (0x11223344 : dwordOnBytes.Target) := by
    decide +kernel
  have hagree := ((h Unit).1 (fun _ _ ↦ 0#32) elevens ()).1
  rw [hflagged, hplain] at hagree
  exact absurd hagree (by decide)

end RoscoEmulator.Memory
