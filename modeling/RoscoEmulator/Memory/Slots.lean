import RoscoEmulator.Lib.Window
import RoscoEmulator.Memory.Access

/-!
# The slots of an access

The words of the bus that an access lies in are its slots. Whatever branch of the templates is
taken, slot after slot is accessed with the window of the mask that lies in it, unless this window
is empty, and a slot's data are a window of those of the access. Where one access of the bus is
enough, it is slot zero, and it is made in any case. -/

namespace RoscoEmulator.Memory

open Bool BitVec List

namespace Access

variable (p : Access)

/-! ## Sizes -/

theorem nativeBytes_pos : 0 < p.nativeBytes := Nat.two_pow_pos _

theorem targetBytes_le : p.targetBytes ≤ 8 := Nat.pow_le_pow_right (by decide) p.targetWidth_le

/-- A wider access is made of whole words. -/
theorem maxSplits_mul (h : p.nativeBytes < p.targetBytes) :
    (p.maxSplitsMinusOne + 1) * p.nativeBytes = p.targetBytes := by
  have hle : p.width ≤ p.targetWidth := Nat.le_of_lt ((Nat.pow_lt_pow_iff_right (by decide)).mp h)
  have hdvd : p.nativeBytes ∣ p.targetBytes := Nat.pow_dvd_pow 2 hle
  have hpos : 0 < p.targetBytes / p.nativeBytes := Nat.div_pos (Nat.le_of_lt h) p.nativeBytes_pos
  rw [maxSplitsMinusOne, Nat.sub_add_cancel hpos, Nat.div_mul_cancel hdvd]

theorem maxSplits_mul_bits (h : p.nativeBytes < p.targetBytes) :
    p.maxSplitsMinusOne * p.nativeBits + p.nativeBits = p.targetBits := by
  have hmul := p.maxSplits_mul h
  rw [Nat.add_mul, Nat.one_mul] at hmul
  rw [nativeBits, targetBits, ← hmul, Nat.mul_left_comm, Nat.mul_add]

theorem toNat_and_low (x : BitVec 32) {w : ℕ} (hw : w ≤ 3) :
    (x &&& BitVec.ofNat 32 (2 ^ w - 1)).toNat = x.toNat % 2 ^ w := by
  have hle : 2 ^ w ≤ 2 ^ 3 := Nat.pow_le_pow_right (by decide) hw
  rw [toNat_and, toNat_ofNat, Nat.mod_eq_of_lt (by omega : 2 ^ w - 1 < 2 ^ 32),
    Nat.and_two_pow_sub_one_eq_mod]

variable (address : BitVec 32) (x : p.Target) (d : p.Native)

theorem offsbits_eq :
    p.offsbits address = 8 * ((p.offsetToByte address).toNat % p.nativeBytes) := by
  rw [offsbits, nativeBytes, toNat_and_low _ p.width_le]

theorem offsbits_lt : p.offsbits address < p.nativeBits := by
  rw [offsbits_eq, nativeBits]
  exact Nat.mul_lt_mul_of_pos_left (Nat.mod_lt _ p.nativeBytes_pos) (by decide)

/-! ## Slots -/

/-- The address of a slot. -/
def slotAddress (address : BitVec 32) (q : ℕ) : BitVec 32 :=
  p.base address + BitVec.ofNat 32 (q * p.nativeStep)

/-- The position of a slot's lowest bit among those of the access. -/
def slotPosition (offsbits q : ℕ) : ℤ :=
  if p.big then offsbits + p.targetBits - ((q + 1) * p.nativeBits : ℕ)
    else (q * p.nativeBits : ℕ) - offsbits

/-- What a slot holds of the data or the mask of the access. -/
def slotPart (offsbits : ℕ) (x : p.Target) (q : ℕ) : p.Native :=
  bitWindow _ (p.slotPosition offsbits q) x

/-- The slots that the templates go through where one access of the bus is not enough. -/
def slotCount : ℕ :=
  if p.targetBytes ≤ p.nativeBytes then 2
  else if p.aligned then p.maxSplitsMinusOne + 1 else p.maxSplitsMinusOne + 2

@[simp] theorem slotAddress_zero : p.slotAddress address 0 = p.base address := by
  rw [slotAddress, Nat.zero_mul, BitVec.add_zero]

theorem slotAddress_one : p.slotAddress address 1 = p.next (p.base address) := by
  rw [slotAddress, Nat.one_mul, next]

theorem next_slotAddress (q : ℕ) :
    p.next (p.slotAddress address q) = p.slotAddress address (q + 1) := by
  rw [next, slotAddress, slotAddress, Nat.add_mul, Nat.one_mul, ofNat_add, BitVec.add_assoc]

theorem slotPosition_little (h : p.big = false) (offsbits q : ℕ) :
    p.slotPosition offsbits q = (q * p.nativeBits : ℕ) - offsbits := by
  rw [slotPosition, h, if_neg (by decide)]

theorem slotPosition_big (h : p.big = true) (offsbits q : ℕ) : p.slotPosition offsbits q =
    offsbits + p.targetBits - (q * p.nativeBits + p.nativeBits : ℕ) := by
  rw [slotPosition, h, if_pos rfl, Nat.add_mul, Nat.one_mul]

/-! ## Shifts as windows -/

variable {p} {offsbits q k : ℕ}

theorem part_shiftLeft (hk : p.slotPosition offsbits q = -k) :
    x.setWidth _ <<< k = p.slotPart offsbits x q := by
  rw [slotPart, hk, shiftLeft_setWidth]

theorem part_shiftLeft_wide (hle : p.nativeBits ≤ p.targetBits)
    (hk : p.slotPosition offsbits q = -k) : (x <<< k).setWidth _ = p.slotPart offsbits x q := by
  rw [slotPart, hk, setWidth_shiftLeft _ _ hle]

theorem part_ushiftRight (hk : p.slotPosition offsbits q = k) :
    (x >>> k).setWidth _ = p.slotPart offsbits x q := by
  rw [slotPart, hk, setWidth_ushiftRight]

theorem part_justified_ushiftRight (hle : p.targetBits ≤ p.nativeBits)
    (hk : p.slotPosition offsbits q = k - p.leftJustify) :
    (x.setWidth _ <<< p.leftJustify) >>> k = p.slotPart offsbits x q := by
  rw [slotPart, hk, shiftLeft_setWidth,
    ushiftRight_bitWindow _ _ (by rw [leftJustify, if_pos hle]; omega)]
  rfl

theorem part_justified_shiftLeft (hk : p.slotPosition offsbits q = -k - p.leftJustify) :
    (x.setWidth _ <<< p.leftJustify) <<< k = p.slotPart offsbits x q := by
  rw [slotPart, hk, shiftLeft_setWidth, shiftLeft_bitWindow _ _ (by omega)]
  rfl

theorem place_ushiftRight (hk : p.slotPosition offsbits q = -k) :
    (d >>> k).setWidth _ = bitWindow p.targetBits (-p.slotPosition offsbits q) d := by
  rw [hk, Int.neg_neg, setWidth_ushiftRight]

theorem place_shiftLeft (hk : p.slotPosition offsbits q = k) :
    d.setWidth _ <<< k = bitWindow p.targetBits (-p.slotPosition offsbits q) d := by
  rw [hk, shiftLeft_setWidth]

theorem place_shiftLeft_wide (hle : p.targetBits ≤ p.nativeBits)
    (hk : p.slotPosition offsbits q = k) :
    (d <<< k).setWidth _ = bitWindow p.targetBits (-p.slotPosition offsbits q) d := by
  rw [hk, setWidth_shiftLeft _ _ hle]

theorem place_justified_shiftLeft (hle : p.targetBits ≤ p.nativeBits)
    (hk : p.slotPosition offsbits q = k - p.leftJustify) :
    ((d <<< k) >>> p.leftJustify).setWidth _ =
      bitWindow p.targetBits (-p.slotPosition offsbits q) d := by
  rw [hk,
    setWidth_ushiftRight_shiftLeft _ _ _ (by rw [leftJustify, if_pos hle]; omega), Int.neg_sub]

theorem place_justified_ushiftRight (hk : p.slotPosition offsbits q = -k - p.leftJustify) :
    ((d >>> k) >>> p.leftJustify).setWidth _ =
      bitWindow p.targetBits (-p.slotPosition offsbits q) d := by
  rw [hk, setWidth_ushiftRight_ushiftRight, Int.neg_sub, Int.sub_neg]

/-! ## Where the slots lie -/

variable (offsbits) in
theorem slotPosition_little_zero (h : p.big = false) : p.slotPosition offsbits 0 = -offsbits := by
  rw [slotPosition_little p h]
  omega

theorem slotPosition_little_succ (h : p.big = false) (hoff : offsbits < p.nativeBits) (q : ℕ) :
    p.slotPosition offsbits (q + 1) = (p.nativeBits - offsbits + q * p.nativeBits : ℕ) := by
  rw [slotPosition_little p h, Nat.add_mul]
  omega

theorem slotPosition_little_one (h : p.big = false) (hoff : offsbits < p.nativeBits) :
    p.slotPosition offsbits 1 = (p.nativeBits - offsbits : ℕ) := by
  rw [slotPosition_little_succ h hoff 0, Nat.zero_mul, Nat.add_zero]

variable (offsbits) in
/-- In a wider bus the first slot lies at the top of the first word. -/
theorem slotPosition_big_zero (h : p.big = true) (hle : p.targetBits ≤ p.nativeBits) :
    p.slotPosition offsbits 0 = offsbits - p.leftJustify := by
  rw [slotPosition_big p h, leftJustify, if_pos hle]
  omega

theorem slotPosition_big_one (h : p.big = true) (hle : p.targetBits ≤ p.nativeBits)
    (hoff : offsbits < p.nativeBits) :
    p.slotPosition offsbits 1 = -(p.nativeBits - offsbits : ℕ) - p.leftJustify := by
  rw [slotPosition_big p h, leftJustify, if_pos hle]
  omega

/-- In a narrower bus every slot but the last lies at the bottom of its word. -/
theorem slotPosition_big_of_le (h : p.big = true) (hlt : p.nativeBytes < p.targetBytes)
    (hoff : offsbits < p.nativeBits) (hq : q ≤ p.maxSplitsMinusOne) : p.slotPosition offsbits q =
    (p.targetBits - (p.nativeBits - offsbits) - q * p.nativeBits : ℕ) := by
  have hbits := p.maxSplits_mul_bits hlt
  have hmul := Nat.mul_le_mul_right p.nativeBits hq
  rw [slotPosition_big p h]
  omega

theorem slotPosition_big_first (h : p.big = true) (hlt : p.nativeBytes < p.targetBytes)
    (hoff : offsbits < p.nativeBits) :
    p.slotPosition offsbits 0 = (p.targetBits - (p.nativeBits - offsbits) : ℕ) := by
  rw [slotPosition_big_of_le h hlt hoff (Nat.zero_le _), Nat.zero_mul, Nat.sub_zero]

/-- In a narrower bus the last slot lies at the top of its word. -/
theorem slotPosition_big_last (h : p.big = true) (hlt : p.nativeBytes < p.targetBytes)
    (hoff : offsbits < p.nativeBits) :
    p.slotPosition offsbits (p.maxSplitsMinusOne + 1) = -(p.nativeBits - offsbits : ℕ) := by
  have hbits := p.maxSplits_mul_bits hlt
  rw [slotPosition_big p h, Nat.add_mul]
  omega

/-! ## The loops -/

section Loops

variable {α : Type} {access : BitVec 32 → ℕ → α → α} {f : α → ℕ → α} {address : BitVec 32}
    {offsbits k n : ℕ}

/-- A loop whose rounds access one slot after another. -/
theorem loop_slots {l : ℕ → BitVec 32 → ℕ → α → BitVec 32 × ℕ × α} {a : ℕ → BitVec 32} {o : ℕ → ℕ}
    (hzero : ∀ a o r, l 0 a o r = (a, o, r))
    (hsucc : ∀ k, ∀ q < n, ∀ r, l (k + 1) (a q) (o q) r = l k (a (q + 1)) (o (q + 1)) (f r (q + 1)))
    (r : α) : l n (a 0) (o 0) (f r 0) = (a n, o n, (range (n + 1)).foldl f r) := by
  have hrounds : ∀ k q, q + k = n →
      ∀ r, l k (a q) (o q) r = (a n, o n, (range' (q + 1) k).foldl f r) := by
    intro k
    induction k with
    | zero =>
      rintro q rfl r
      exact hzero _ _ _
    | succ k ih =>
      intro q hq r
      rw [hsucc k q (by omega), ih (q + 1) (by omega), range'_succ]
      rfl
  rw [hrounds n 0 (Nat.zero_add n), range_eq_range', range'_succ]
  rfl

theorem loopLittle_slots (h : ∀ q r,
    access (p.slotAddress address (q + 1)) (offsbits + q * p.nativeBits) r = f r (q + 1)) (r : α) :
    p.loopLittle access k (p.base address) offsbits (f r 0) =
      (p.slotAddress address k, offsbits + k * p.nativeBits, (range (k + 1)).foldl f r) := by
  have hloop := loop_slots (l := p.loopLittle access) (f := f) (a := p.slotAddress address)
    (o := fun q ↦ offsbits + q * p.nativeBits) (n := k) (fun _ _ _ ↦ rfl) (fun k q _ r ↦ ?_) r
  · rwa [slotAddress_zero, Nat.zero_mul, Nat.add_zero] at hloop
  · rw [loopLittle, next_slotAddress, h, Nat.add_mul, Nat.one_mul, Nat.add_assoc]

theorem loopBig_slots (h : ∀ q < k, ∀ r,
    access (p.slotAddress address (q + 1)) (offsbits - (q + 1) * p.nativeBits) r = f r (q + 1))
    (r : α) : p.loopBig access k (p.base address) offsbits (f r 0) =
      (p.slotAddress address k, offsbits - k * p.nativeBits, (range (k + 1)).foldl f r) := by
  have hloop := loop_slots (l := p.loopBig access) (f := f) (a := p.slotAddress address)
    (o := fun q ↦ offsbits - q * p.nativeBits) (n := k) (fun _ _ _ ↦ rfl) (fun k q hq r ↦ ?_) r
  · rwa [slotAddress_zero, Nat.zero_mul, Nat.sub_zero] at hloop
  · rw [loopBig, next_slotAddress, Nat.sub_sub, ← Nat.succ_mul, h q hq]

end Loops

/-! ## The templates as slots -/

section Reads

variable {σ : Type}

/-- The read of a slot. -/
def readSlot (p : Access) (rop : p.Rop σ) (address : BitVec 32) (offsbits : ℕ) (mask : p.Target)
    (r : p.Target × σ) (q : ℕ) : p.Target × σ :=
  read rop (p.slotAddress address q) (p.slotPart offsbits mask q)
    (bitWindow _ (-p.slotPosition offsbits q)) r

/-- The write of a slot. -/
def writeSlot (p : Access) (wop : p.Wop σ) (address : BitVec 32) (offsbits : ℕ)
    (data mask : p.Target) (st : σ) (q : ℕ) : σ :=
  write wop (p.slotAddress address q) (p.slotPart offsbits data q) (p.slotPart offsbits mask q) st

variable {rop : p.Rop σ} {address : BitVec 32}

theorem read_eq_readSlot {a : BitVec 32} {offsbits q : ℕ} {mask : p.Target} {curmask : p.Native}
    {place : p.Native → p.Target} (haddress : a = p.slotAddress address q)
    (hmask : curmask = p.slotPart offsbits mask q)
    (hplace : ∀ d, place d = bitWindow _ (-p.slotPosition offsbits q) d)
    (r : p.Target × σ) : read rop a curmask place r = readSlot p rop address offsbits mask r q := by
  rw [readSlot, haddress, hmask, funext hplace]

/-- What is read may be moved after it or before. -/
theorem read_map {w w' : ℕ} {curmask : p.Native} {place : p.Native → BitVec w}
    {f : BitVec w → BitVec w'} (hf : ∀ x y, f (x ||| y) = f x ||| f y) (r : BitVec w × σ) :
    (f (read rop address curmask place r).1, (read rop address curmask place r).2) =
      read rop address curmask (fun d ↦ f (place d)) (f r.1, r.2) := by
  unfold read
  split
  · rw [hf]
  · rfl

theorem setWidth_ushiftRight_or {w w' : ℕ} (k : ℕ) (x y : BitVec w) :
    ((x ||| y) >>> k).setWidth w' = (x >>> k).setWidth w' ||| (y >>> k).setWidth w' := by
  rw [ushiftRight_or_distrib, setWidth_or]

/-- The last slot is accessed unless the access is aligned or does not lie in it. -/
theorem foldl_slotCount (hlt : p.nativeBytes < p.targetBytes) {α : Type} (f : α → ℕ → α) (r : α)
    {c : Prop} [Decidable c] {x : α}
    (hlast : c → x = f ((range (p.maxSplitsMinusOne + 1)).foldl f r) (p.maxSplitsMinusOne + 1))
    (hnone : ¬c → ∀ r, f r (p.maxSplitsMinusOne + 1) = r) :
    (if p.aligned = false ∧ c then x else (range (p.maxSplitsMinusOne + 1)).foldl f r) =
      (range p.slotCount).foldl f r := by
  rw [slotCount, if_neg (Nat.not_le.mpr hlt)]
  cases haligned : p.aligned with
  | true => rw [if_neg fun h ↦ Bool.noConfusion h.1, if_pos rfl]
  | false =>
    have hsplit : (range (p.maxSplitsMinusOne + 2)).foldl f r =
        f ((range (p.maxSplitsMinusOne + 1)).foldl f r) (p.maxSplitsMinusOne + 1) := by
      rw [range_succ, foldl_append, foldl_cons, foldl_nil]
    rw [if_neg Bool.false_ne_true, hsplit]
    by_cases hc : c
    · rw [if_pos ⟨rfl, hc⟩, hlast hc]
    · rw [if_neg fun h ↦ hc h.2, hnone hc]

theorem readSlot_of_part_eq_zero {mask : p.Target} (h : p.slotPart offsbits mask q = 0)
    (r : p.Target × σ) : readSlot p rop address offsbits mask r q = r := by
  rw [readSlot, read, h, if_neg fun h ↦ h rfl]

theorem isDirect_of_lt (hlt : p.nativeBytes < p.targetBytes) (address : BitVec 32) :
    p.isDirect address = false := by
  rw [isDirect, decide_eq_false fun h ↦ absurd h.1 (by omega)]

theorem isSingle_of_lt (hlt : p.nativeBytes < p.targetBytes) (address : BitVec 32) :
    p.isSingle address = false := by
  rw [isSingle, decide_eq_false fun h ↦ absurd h.1 (by omega)]

theorem memoryReadGeneric_two (rop : p.Rop σ) (mask : p.Target)
    (st : σ) (hdirect : p.isDirect address = false) (hsingle : p.isSingle address = false)
    (hle : p.targetBytes ≤ p.nativeBytes) : memoryReadGeneric p rop address mask st =
      (range 2).foldl (readSlot p rop address (p.offsbits address) mask) (0, st) := by
  have hbits : p.targetBits ≤ p.nativeBits := Nat.mul_le_mul_left 8 hle
  have hoff := p.offsbits_lt address
  rw [show range 2 = [0, 1] from rfl, foldl_cons, foldl_cons, foldl_nil]
  cases hbig : p.big with
  | false =>
    have hzero := slotPosition_little_zero (p.offsbits address) hbig
    have hone := slotPosition_little_one hbig hoff
    simp only [memoryReadGeneric, hdirect, hsingle, hbig, if_pos hle, false_eq_true,
      if_false, if_true]
    rw [read_eq_readSlot (p.slotAddress_zero address).symm (part_shiftLeft mask hzero)
        fun d ↦ place_ushiftRight d hzero,
      read_eq_readSlot (p.slotAddress_one address).symm (part_ushiftRight mask hone)
        fun d ↦ place_shiftLeft_wide d hbits hone]
  | true =>
    have hzero := slotPosition_big_zero (p.offsbits address) hbig hbits
    have hone := slotPosition_big_one hbig hbits hoff
    have hstart : ((0 : p.Native) >>> p.leftJustify).setWidth p.targetBits = 0 :=
      (congrArg _ zero_ushiftRight).trans (setWidth_zero _ _)
    simp only [memoryReadGeneric, hdirect, hsingle, hbig, if_pos hle, false_eq_true, if_false,
      true_eq_false]
    rw [read_map (f := fun x ↦ (x >>> p.leftJustify).setWidth _) (setWidth_ushiftRight_or _),
      read_map (f := fun x ↦ (x >>> p.leftJustify).setWidth _) (setWidth_ushiftRight_or _)]
    dsimp only
    rw [hstart,
      read_eq_readSlot (p.slotAddress_zero address).symm
      (part_justified_ushiftRight mask hbits hzero)
        fun d ↦ place_justified_shiftLeft d hbits hzero,
      read_eq_readSlot (p.slotAddress_one address).symm (part_justified_shiftLeft mask hone)
        fun d ↦ place_justified_ushiftRight d hone]

theorem memoryReadGeneric_many (rop : p.Rop σ) (address : BitVec 32) (mask : p.Target) (st : σ)
    (hlt : p.nativeBytes < p.targetBytes) :
    memoryReadGeneric p rop address mask st =
      (range p.slotCount).foldl (readSlot p rop address (p.offsbits address) mask) (0, st) := by
  have hbits := p.maxSplits_mul_bits hlt
  have hoff := p.offsbits_lt address
  have hle : p.nativeBits ≤ p.targetBits := by omega
  cases hbig : p.big with
  | false =>
    have hzero := slotPosition_little_zero (p.offsbits address) hbig
    have hsucc := slotPosition_little_succ hbig hoff
    simp only [memoryReadGeneric, isDirect_of_lt hlt, isSingle_of_lt hlt, hbig,
      if_neg (Nat.not_le.mpr hlt), false_eq_true, if_false, if_true]
    rw [read_eq_readSlot (p.slotAddress_zero address).symm (part_shiftLeft_wide mask hle hzero)
        fun d ↦ place_ushiftRight d hzero,
      loopLittle_slots fun q r ↦
        read_eq_readSlot rfl (part_ushiftRight mask (hsucc q))
          (fun d ↦ place_shiftLeft d (hsucc q)) r]
    dsimp only
    refine foldl_slotCount hlt _ _ (fun _ ↦ ?_) fun hnone ↦ readSlot_of_part_eq_zero ?_
    · exact read_eq_readSlot (next_slotAddress _ _ _) (part_ushiftRight mask (hsucc _))
        (fun d ↦ place_shiftLeft d (hsucc _)) _
    · rw [slotPart, hsucc]
      exact bitWindow_eq_zero _ (Or.inl (by omega))
  | true =>
    have hfirst := slotPosition_big_first hbig hlt hoff
    have hlast := slotPosition_big_last hbig hlt hoff
    simp only [memoryReadGeneric, isDirect_of_lt hlt, isSingle_of_lt hlt, hbig,
      if_neg (Nat.not_le.mpr hlt), false_eq_true, if_false, true_eq_false]
    rw [read_eq_readSlot (p.slotAddress_zero address).symm (part_ushiftRight mask hfirst)
        fun d ↦ place_shiftLeft d hfirst,
      loopBig_slots fun q hq r ↦
        read_eq_readSlot rfl (part_ushiftRight mask (slotPosition_big_of_le hbig hlt hoff hq))
          (fun d ↦ place_shiftLeft d (slotPosition_big_of_le hbig hlt hoff hq)) r]
    dsimp only
    have hrest : p.targetBits - (p.nativeBits - p.offsbits address) - p.maxSplitsMinusOne *
        p.nativeBits = p.offsbits address := by
      omega
    rw [hrest]
    refine foldl_slotCount hlt _ _ (fun _ ↦ ?_) fun hnone ↦ readSlot_of_part_eq_zero ?_
    · exact read_eq_readSlot (next_slotAddress _ _ _) (part_shiftLeft_wide mask hle hlast)
        (fun d ↦ place_ushiftRight d hlast) _
    · rw [slotPart, hlast]
      exact bitWindow_eq_zero _ (Or.inr (by omega))

end Reads

section Writes

variable {σ : Type}

variable {address : BitVec 32}

theorem write_eq_writeSlot {wop : p.Wop σ}
    {a : BitVec 32} {data mask : p.Target} {curdata curmask : p.Native}
    (haddress : a = p.slotAddress address q) (hdata : curdata = p.slotPart offsbits data q)
    (hmask : curmask = p.slotPart offsbits mask q) (st : σ) :
    write wop a curdata curmask st = writeSlot p wop address offsbits data mask st q := by
  rw [writeSlot, haddress, hdata, hmask]

theorem writeSlot_of_part_eq_zero
    {wop : p.Wop σ} {data mask : p.Target} (h : p.slotPart offsbits mask q = 0) (st : σ) :
    writeSlot p wop address offsbits data mask st q = st := by
  rw [writeSlot, write, h, if_neg fun h ↦ h rfl]

theorem memoryWriteGeneric_two (wop : p.Wop σ) (data mask : p.Target) (st : σ)
    (hdirect : p.isDirect address = false) (hsingle : p.isSingle address = false)
    (hle : p.targetBytes ≤ p.nativeBytes) : memoryWriteGeneric p wop address data mask st =
      (range 2).foldl (writeSlot p wop address (p.offsbits address) data mask) st := by
  have hbits : p.targetBits ≤ p.nativeBits := Nat.mul_le_mul_left 8 hle
  have hoff := p.offsbits_lt address
  rw [show range 2 = [0, 1] from rfl, foldl_cons, foldl_cons, foldl_nil]
  cases hbig : p.big with
  | false =>
    have hzero := slotPosition_little_zero (p.offsbits address) hbig
    have hone := slotPosition_little_one hbig hoff
    simp only [memoryWriteGeneric, hdirect, hsingle, hbig, if_pos hle, false_eq_true,
      if_false, if_true]
    rw [write_eq_writeSlot (p.slotAddress_zero address).symm (part_shiftLeft data hzero)
        (part_shiftLeft mask hzero),
      write_eq_writeSlot (p.slotAddress_one address).symm (part_ushiftRight data hone)
        (part_ushiftRight mask hone)]
  | true =>
    have hzero := slotPosition_big_zero (p.offsbits address) hbig hbits
    have hone := slotPosition_big_one hbig hbits hoff
    simp only [memoryWriteGeneric, hdirect, hsingle, hbig, if_pos hle, false_eq_true, if_false,
      true_eq_false]
    rw [write_eq_writeSlot (p.slotAddress_zero address).symm
        (part_justified_ushiftRight data hbits hzero) (part_justified_ushiftRight mask hbits hzero),
      write_eq_writeSlot (p.slotAddress_one address).symm (part_justified_shiftLeft data hone)
        (part_justified_shiftLeft mask hone)]

theorem memoryWriteGeneric_many (wop : p.Wop σ) (address : BitVec 32) (data mask : p.Target)
    (st : σ) (hlt : p.nativeBytes < p.targetBytes) : memoryWriteGeneric p wop address data mask st =
      (range p.slotCount).foldl (writeSlot p wop address (p.offsbits address) data mask) st := by
  have hbits := p.maxSplits_mul_bits hlt
  have hoff := p.offsbits_lt address
  have hle : p.nativeBits ≤ p.targetBits := by omega
  cases hbig : p.big with
  | false =>
    have hzero := slotPosition_little_zero (p.offsbits address) hbig
    have hsucc := slotPosition_little_succ hbig hoff
    simp only [memoryWriteGeneric, isDirect_of_lt hlt, isSingle_of_lt hlt, hbig,
      if_neg (Nat.not_le.mpr hlt), false_eq_true, if_false, if_true]
    rw [write_eq_writeSlot (p.slotAddress_zero address).symm (part_shiftLeft_wide data hle hzero)
        (part_shiftLeft_wide mask hle hzero),
      loopLittle_slots fun q st ↦
        write_eq_writeSlot rfl (part_ushiftRight data (hsucc q))
          (part_ushiftRight mask (hsucc q)) st]
    dsimp only
    refine foldl_slotCount hlt _ _ (fun _ ↦ ?_) fun hnone ↦ writeSlot_of_part_eq_zero ?_
    · exact write_eq_writeSlot (next_slotAddress _ _ _) (part_ushiftRight data (hsucc _))
        (part_ushiftRight mask (hsucc _)) _
    · rw [slotPart, hsucc]
      exact bitWindow_eq_zero _ (Or.inl (by omega))
  | true =>
    have hfirst := slotPosition_big_first hbig hlt hoff
    have hlast := slotPosition_big_last hbig hlt hoff
    have hmiddle {q : ℕ} (hq : q < p.maxSplitsMinusOne) :=
      slotPosition_big_of_le (q := q + 1) hbig hlt hoff hq
    simp only [memoryWriteGeneric, isDirect_of_lt hlt, isSingle_of_lt hlt, hbig,
      if_neg (Nat.not_le.mpr hlt), false_eq_true, if_false, true_eq_false]
    rw [write_eq_writeSlot (p.slotAddress_zero address).symm (part_ushiftRight data hfirst)
        (part_ushiftRight mask hfirst),
      loopBig_slots fun q hq st ↦
        write_eq_writeSlot rfl (part_ushiftRight data (hmiddle hq))
          (part_ushiftRight mask (hmiddle hq)) st]
    dsimp only
    have hrest : p.targetBits - (p.nativeBits - p.offsbits address) - p.maxSplitsMinusOne *
        p.nativeBits = p.offsbits address := by
      omega
    rw [hrest]
    refine foldl_slotCount hlt _ _ (fun _ ↦ ?_) fun hnone ↦ writeSlot_of_part_eq_zero ?_
    · exact write_eq_writeSlot (next_slotAddress _ _ _) (part_shiftLeft_wide data hle hlast)
        (part_shiftLeft_wide mask hle hlast) _
    · rw [slotPart, hlast]
      exact bitWindow_eq_zero _ (Or.inr (by omega))

end Writes

end Access

end RoscoEmulator.Memory
