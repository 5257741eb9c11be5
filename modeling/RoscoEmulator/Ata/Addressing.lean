import RoscoEmulator.Ata.Storage

/-!
# The sectors of one command

A command of `n` sectors at the linear sector `L` should access `L`, `L + 1`, up to `L + n - 1`. The
drive advances its address register by register, so that each carry between the registers has to be
right. Three are not. In the 48-bit mode a carry out of the low three bytes goes into the head,
which the address does not use there, and not into the high-order-byte registers. On a track of 255
sectors the sector number wraps around to zero before it exceeds the sectors of the track. With more
than 16 heads the carry from head 15 leaves the four bits of the head. Besides, a CHS address is an
`int`, so sectors from `2 ^ 31` on have no CHS address.
-/

namespace RoscoEmulator.Ata

open Function BitVec List TaskFile

/-! ## Bytes -/

variable (x : BitVec 8)

theorem toNat_succ : (x + 1).toNat = (x.toNat + 1) % 256 := toNat_add x 1

theorem succ_eq_zero_iff : x + 1 = 0 ↔ x.toNat = 255 := by
  rw [← toNat_inj, toNat_succ]
  show (x.toNat + 1) % 256 = 0 ↔ _
  omega

/-- `m_device_head` with another head. -/
def withHead (deviceHead head : BitVec 8) : BitVec 8 := (deviceHead &&& ~~~0x0f#8) ||| head

theorem toNat_and_head : (x &&& 0x0f#8).toNat = x.toNat % 16 := by
  rw [toNat_and]
  exact Nat.and_two_pow_sub_one_eq_mod x.toNat 4

theorem and_head_of_lt {x : BitVec 8} (hx : x.toNat < 16) : x &&& 0x0f#8 = x := by
  rw [← toNat_inj, toNat_and_head, Nat.mod_eq_of_lt hx]

theorem withHead_and_head (deviceHead head : BitVec 8) :
    withHead deviceHead head &&& 0x0f#8 = head &&& 0x0f#8 := by
  rw [withHead, and_or_distrib_right, BitVec.and_assoc,
    show ~~~0x0f#8 &&& 0x0f#8 = 0#8 from rfl, and_zero, zero_or]

theorem withHead_and_lba {deviceHead head : BitVec 8} (h : head &&& 0x40#8 = 0) :
    withHead deviceHead head &&& 0x40#8 = deviceHead &&& 0x40#8 := by
  rw [withHead, and_or_distrib_right, BitVec.and_assoc,
    show ~~~0x0f#8 &&& 0x40#8 = 0x40#8 from rfl, h]
  exact or_zero

theorem and_lba_of_lt {x : BitVec 8} (hx : x.toNat ≤ 16) : x &&& 0x40#8 = 0 := by
  rcases Nat.lt_or_ge x.toNat 16 with hlt | hge
  · rw [← and_head_of_lt hlt, BitVec.and_assoc, show 0x0f#8 &&& 0x40#8 = 0#8 from rfl,
      and_zero]
    rfl
  · obtain rfl : x = 16#8 := eq_of_toNat_eq (by rw [Nat.le_antisymm hx hge]; rfl)
    rfl

namespace TaskFile

variable {t : TaskFile}

/-! ## Linear addresses -/

/-- The low three bytes of an LBA. -/
def low (t : TaskFile) : ℕ :=
  t.cylinderHigh.toNat * 65536 + t.cylinderLow.toNat * 256 + t.sectorNumber.toNat

/-- The linear sector that the registers stand for. -/
def linear (t : TaskFile) : ℕ :=
  if t.isLba then t.lbaHigh * 2 ^ 24 + t.low
  else (t.cylinder * t.numHeads.toNat + t.head.toNat) * t.numSectors.toNat +
    (t.sectorNumber.toNat - 1)

theorem head_lt (t : TaskFile) : t.head.toNat < 16 := by
  rw [head, toNat_and_head]
  exact Nat.mod_lt _ (by decide)

theorem low_lt (t : TaskFile) : t.low < 2 ^ 24 := by
  rw [low]
  omega

theorem cylinder_eq (t : TaskFile) :
    t.cylinder = t.cylinderHigh.toNat * 256 + t.cylinderLow.toNat := by
  rw [cylinder, ← Nat.shiftLeft_add_eq_or_of_lt t.cylinderLow.isLt, Nat.shiftLeft_eq]

theorem or_bytes {a b c : ℕ} (hb : b < 2 ^ 8) (hc : c < 2 ^ 8) :
    a <<< 16 ||| b <<< 8 ||| c = a * 65536 + b * 256 + c := by
  have hbc : b <<< 8 ||| c = b * 256 + c := by
    rw [← Nat.shiftLeft_add_eq_or_of_lt hc, Nat.shiftLeft_eq]
  rw [Nat.or_assoc, hbc, ← Nat.shiftLeft_add_eq_or_of_lt (by omega), Nat.shiftLeft_eq]
  omega

theorem lbaAddress_of_lba (h : t.isLba) : t.lbaAddress = t.linear := by
  have hlow : t.cylinderHigh.toNat <<< 16 ||| t.cylinderLow.toNat <<< 8 ||| t.sectorNumber.toNat =
      t.low := or_bytes t.cylinderLow.isLt t.sectorNumber.isLt
  rw [lbaAddress, if_pos h, linear, if_pos h, Nat.or_assoc, Nat.or_assoc, ← Nat.or_assoc _ _
    t.sectorNumber.toNat, hlow, ← Nat.shiftLeft_add_eq_or_of_lt t.low_lt, Nat.shiftLeft_eq]

theorem lbaAddress_of_chs (h : ¬ t.isLba) (hs : 1 ≤ t.sectorNumber.toNat)
    (hlt : t.linear < 2 ^ 32) : t.lbaAddress = t.linear ↔ t.linear < 2 ^ 31 := by
  have hlinear : (((t.cylinder * t.numHeads.toNat + t.head.toNat) * t.numSectors.toNat : ℕ) : ℤ) +
      (t.sectorNumber.toNat : ℤ) - 1 = t.linear := by
    rw [linear, if_neg h]
    omega
  rw [lbaAddress, if_neg h, chsAddress, hlinear, Int.bmod]
  have hmod : (t.linear : ℤ) % ((2 ^ 32 : ℕ) : ℤ) = t.linear := by omega
  rw [hmod]
  split <;> omega

/-! ## The next sector -/

/-- What `next_sector` leaves alone. -/
structure SameSetup (t u : TaskFile) : Prop where
  command : u.command = t.command
  numSectors : u.numSectors = t.numSectors
  numHeads : u.numHeads = t.numHeads
  sectorNumberHob : u.sectorNumberHob = t.sectorNumberHob
  cylinderLowHob : u.cylinderLowHob = t.cylinderLowHob
  cylinderHighHob : u.cylinderHighHob = t.cylinderHighHob

section

variable (t : TaskFile)

theorem nextLba_frame : SameSetup t t.nextLba.1 ∧ t.nextLba.1.deviceHead = t.deviceHead := by
  simp only [nextLba]
  split_ifs <;> exact ⟨⟨rfl, rfl, rfl, rfl, rfl, rfl⟩, rfl⟩

theorem nextChs_frame : SameSetup t t.nextChs.1 ∧ t.nextChs.1.deviceHead = t.deviceHead := by
  simp only [nextChs]
  split_ifs <;> exact ⟨⟨rfl, rfl, rfl, rfl, rfl, rfl⟩, rfl⟩

theorem sameSetup_nextSector : SameSetup t t.nextSector := by
  have hframe : SameSetup t (if t.isLba then t.nextLba else t.nextChs).1 := by
    split_ifs
    · exact t.nextLba_frame.1
    · exact t.nextChs_frame.1
  exact ⟨hframe.command, hframe.numSectors, hframe.numHeads, hframe.sectorNumberHob,
    hframe.cylinderLowHob, hframe.cylinderHighHob⟩

theorem deviceHead_nextSector : t.nextSector.deviceHead =
    withHead t.deviceHead (if t.isLba then t.nextLba else t.nextChs).2 := by
  have hframe : (if t.isLba then t.nextLba else t.nextChs).1.deviceHead = t.deviceHead := by
    split_ifs
    · exact t.nextLba_frame.2
    · exact t.nextChs_frame.2
  rw [nextSector, withHead, hframe]

theorem toNat_nextLba_head :
    t.nextLba.2.toNat = t.head.toNat + if t.low + 1 = 2 ^ 24 then 1 else 0 := by
  have hhead := t.head_lt
  have hlow : t.low = t.cylinderHigh.toNat * 65536 + t.cylinderLow.toNat * 256 +
    t.sectorNumber.toNat := rfl
  have hsucc : (t.head + 1).toNat = t.head.toNat + 1 := by
    rw [toNat_succ]
    omega
  simp only [nextLba, succ_eq_zero_iff]
  split_ifs <;> dsimp only <;> omega

theorem low_nextLba : t.nextLba.1.low = (t.low + 1) % 2 ^ 24 := by
  simp only [nextLba, succ_eq_zero_iff]
  split_ifs <;> simp only [low, toNat_succ] <;> omega

theorem isLba_nextSector (h : (if t.isLba then t.nextLba else t.nextChs).2.toNat ≤ 16) :
    t.nextSector.isLba = t.isLba := by
  rw [isLba, isLba, deviceHead_nextSector, withHead_and_lba (and_lba_of_lt h)]

theorem head_nextSector :
    t.nextSector.head = (if t.isLba then t.nextLba else t.nextChs).2 &&& 0x0f#8 := by
  rw [head, deviceHead_nextSector, withHead_and_head]

end

theorem nextSector_of_lba (h : t.isLba) :
    t.nextSector.isLba ∧ t.nextSector.low = (t.low + 1) % 2 ^ 24 ∧
      t.nextSector.head.toNat =
        (t.head.toNat + if t.low + 1 = 2 ^ 24 then 1 else 0) % 16 := by
  have hhead := t.toNat_nextLba_head
  have hle : t.nextLba.2.toNat ≤ 16 := by
    have := t.head_lt
    split at hhead <;> omega
  refine ⟨?_, ?_, ?_⟩
  · rw [isLba_nextSector _ (by rw [if_pos h]; exact hle)]
    exact h
  · rw [← low_nextLba]
    simp only [nextSector, if_pos h, low]
  · rw [head_nextSector, if_pos h, toNat_and_head, hhead]

theorem lbaHigh_nextSector_of_ext (h : t.command.isLba48) : t.nextSector.lbaHigh = t.lbaHigh := by
  have hsame := t.sameSetup_nextSector
  rw [lbaHigh, lbaHigh, hsame.command, if_pos h, if_pos h, hsame.cylinderHighHob,
    hsame.cylinderLowHob, hsame.sectorNumberHob]

theorem nextSector_of_track (h : ¬ t.isLba) (hs : t.sectorNumber.toNat < t.numSectors.toNat) :
    ¬ t.nextSector.isLba ∧ t.nextSector.sectorNumber.toNat = t.sectorNumber.toNat + 1 ∧
      t.nextSector.head = t.head ∧ t.nextSector.cylinder = t.cylinder := by
  have hnext : t.nextChs = ({ t with sectorNumber := t.sectorNumber + 1 }, t.head) := by
    rw [nextChs, if_neg]
    show ¬ t.numSectors < t.sectorNumber + 1
    rw [lt_def, toNat_succ]
    omega
  have hhead : (if t.isLba then t.nextLba else t.nextChs).2 = t.head := by rw [if_neg h, hnext]
  refine ⟨?_, ?_, ?_, ?_⟩
  · rw [isLba_nextSector _ (by rw [hhead]; exact Nat.le_of_lt t.head_lt)]
    exact h
  · simp only [nextSector, if_neg h, hnext, toNat_succ]
    omega
  · rw [head_nextSector, hhead, and_head_of_lt t.head_lt]
  · simp only [nextSector, if_neg h, hnext, cylinder]

theorem nextSector_of_end (h : ¬ t.isLba) (hs : t.sectorNumber = t.numSectors)
    (hS : t.numSectors.toNat < 255) : ¬ t.nextSector.isLba ∧ t.nextSector.sectorNumber.toNat = 1 ∧
      (t.head.toNat + 1 < t.numHeads.toNat → t.nextSector.head.toNat = (t.head.toNat + 1) % 16 ∧
        t.nextSector.cylinder = t.cylinder) ∧
      (t.head.toNat + 1 = t.numHeads.toNat → t.nextSector.head.toNat = 0 ∧
        t.nextSector.cylinder = (t.cylinder + 1) % 65536) := by
  have hhead := t.head_lt
  have hcarry : t.numSectors < t.sectorNumber + 1 := by
    rw [lt_def, toNat_succ, hs]
    omega
  have hsucc : (t.head + 1).toNat = t.head.toNat + 1 := by
    rw [toNat_succ]
    omega
  have hle : (if t.isLba then t.nextLba else t.nextChs).2.toNat ≤ 16 := by
    rw [if_neg h]
    simp only [nextChs, if_pos hcarry]
    split_ifs
    · exact Nat.zero_le _
    · exact Nat.zero_le _
    · rw [hsucc]
      omega
  refine ⟨?_, ?_, fun hlt ↦ ?_, fun heq ↦ ?_⟩
  · rw [isLba_nextSector _ hle]
    exact h
  · simp only [nextSector, if_neg h, nextChs, if_pos hcarry]
    split_ifs <;> rfl
  · have hmore : ¬ t.numHeads ≤ t.head + 1 := by
      rw [le_def, hsucc]
      omega
    refine ⟨?_, ?_⟩
    · rw [head_nextSector, if_neg h, toNat_and_head]
      simp only [nextChs, if_pos hcarry, if_neg hmore, hsucc]
    · simp only [nextSector, if_neg h, nextChs, if_pos hcarry, if_neg hmore, cylinder]
  · have hlast : t.numHeads ≤ t.head + 1 := by
      rw [le_def, hsucc]
      omega
    refine ⟨?_, ?_⟩
    · rw [head_nextSector, if_neg h, toNat_and_head]
      simp only [nextChs, if_pos hcarry, if_pos hlast]
      split_ifs <;> rfl
    · rw [cylinder_eq, cylinder_eq]
      simp only [nextSector, if_neg h, nextChs, if_pos hcarry, if_pos hlast, succ_eq_zero_iff]
      split_ifs <;> simp only [toNat_succ] <;> omega

theorem nextSector_of_wrap (h : ¬ t.isLba) (hs : t.sectorNumber.toNat = 255) :
    ¬ t.nextSector.isLba ∧ t.nextSector.sectorNumber.toNat = 0 ∧
      t.nextSector.head = t.head ∧ t.nextSector.cylinder = t.cylinder := by
  have hzero : t.sectorNumber + 1 = 0 := (succ_eq_zero_iff _).mpr hs
  have hnext : t.nextChs = ({ t with sectorNumber := 0 }, t.head) := by
    rw [nextChs, hzero, if_neg]
    rw [lt_def]
    exact Nat.not_lt_zero _
  have hhead : (if t.isLba then t.nextLba else t.nextChs).2 = t.head := by rw [if_neg h, hnext]
  refine ⟨?_, ?_, ?_, ?_⟩
  · rw [isLba_nextSector _ (by rw [hhead]; exact Nat.le_of_lt t.head_lt)]
    exact h
  · simp only [nextSector, if_neg h, hnext]
    rfl
  · rw [head_nextSector, hhead, and_head_of_lt t.head_lt]
  · simp only [nextSector, if_neg h, hnext, cylinder]

/-! ## Ranges of sectors -/

/-- A range of `n` sectors that a command can name: it lies in the address space of its mode, and a
CHS address is one of the geometry. -/
def Accepted (t : TaskFile) (n : ℕ) : Prop :=
  if t.isLba then t.linear + n ≤ if t.command.isLba48 then 2 ^ 48 else 2 ^ 28
  else 1 ≤ t.sectorNumber.toNat ∧ t.sectorNumber.toNat ≤ t.numSectors.toNat ∧
    t.head.toNat < t.numHeads.toNat ∧
    t.linear + n ≤ 65536 * t.numHeads.toNat * t.numSectors.toNat

instance (t : TaskFile) (n : ℕ) : Decidable (t.Accepted n) := by
  unfold Accepted
  infer_instance

/-- The `n` sectors need none of the carries that go wrong. -/
def CarriesFit (t : TaskFile) (n : ℕ) : Prop :=
  if t.isLba then t.command.isLba48 → t.low + n ≤ 2 ^ 24
  else (t.numSectors.toNat < 255 ∨ t.sectorNumber.toNat + n ≤ 256) ∧
    (t.numHeads.toNat ≤ 16 ∨
      t.head.toNat * t.numSectors.toNat + t.sectorNumber.toNat + n ≤ 16 * t.numSectors.toNat + 1) ∧
    t.linear + n ≤ 2 ^ 31

instance (t : TaskFile) (n : ℕ) : Decidable (t.CarriesFit n) := by
  unfold CarriesFit
  infer_instance

/-- The carries of a single step. -/
def GoodStep (t : TaskFile) : Prop :=
  if t.isLba then t.command.isLba48 → t.low + 1 < 2 ^ 24
  else ¬ t.sectorNumber.toNat = 255 ∧
    ¬ (16 < t.numHeads.toNat ∧ t.head.toNat = 15 ∧ t.sectorNumber = t.numSectors)

theorem linear_lt (h : ¬ t.isLba) : t.linear < 2 ^ 32 := by
  have h6 := t.head_lt
  rw [linear, if_neg h, cylinder_eq]
  have hc : (t.cylinderHigh.toNat * 256 + t.cylinderLow.toNat) * t.numHeads.toNat ≤ 65535 * 255 :=
    Nat.mul_le_mul (by omega) (by omega)
  have hx : ((t.cylinderHigh.toNat * 256 + t.cylinderLow.toNat) * t.numHeads.toNat +
      t.head.toNat) * t.numSectors.toNat ≤ (65535 * 255 + 15) * 255 :=
    Nat.mul_le_mul (by omega) (by omega)
  omega

variable {n : ℕ}

/-- The registers hold the linear sector of the start, unless it has no CHS address. -/
theorem lbaAddress_eq_iff (hacc : t.Accepted n) :
    t.lbaAddress = t.linear ↔ (t.isLba ∨ t.linear < 2 ^ 31) := by
  by_cases h : t.isLba
  · exact iff_of_true (lbaAddress_of_lba h) (Or.inl h)
  · rw [Accepted, if_neg h] at hacc
    rw [lbaAddress_of_chs h hacc.1 (linear_lt h)]
    exact (or_iff_right h).symm

theorem nextSector_good_lba (h : t.isLba) (hacc : t.Accepted (n + 2)) (hgood : t.GoodStep) :
    t.nextSector.linear = t.linear + 1 ∧ t.nextSector.Accepted (n + 1) ∧
      (t.nextSector.CarriesFit (n + 1) ↔ t.CarriesFit (n + 2)) := by
  obtain ⟨hlba, hlow, hhead⟩ := nextSector_of_lba h
  have hcommand := t.sameSetup_nextSector.command
  have hlt := t.low_lt
  rw [Accepted, if_pos h, linear, if_pos h] at hacc
  rw [GoodStep, if_pos h] at hgood
  simp only [Accepted, CarriesFit, linear, if_pos h, if_pos hlba, hcommand]
  by_cases hext : t.command.isLba48
  · have hstep := hgood hext
    rw [lbaHigh_nextSector_of_ext hext, hlow, Nat.mod_eq_of_lt hstep]
    rw [if_pos hext] at hacc ⊢
    refine ⟨by omega, by omega, ?_⟩
    simp only [hext, true_implies]
    omega
  · have hhigh : t.lbaHigh = t.head.toNat := by rw [lbaHigh, if_neg hext]
    have hhigh' : t.nextSector.lbaHigh = t.nextSector.head.toNat := by
      rw [lbaHigh, hcommand, if_neg hext]
    rw [if_neg hext, hhigh] at hacc
    rw [if_neg hext, hhigh, hhigh', hhead, hlow]
    have hlinear : (t.head.toNat + if t.low + 1 = 2 ^ 24 then 1 else 0) % 16 * 2 ^ 24 +
        (t.low + 1) % 2 ^ 24 = t.head.toNat * 2 ^ 24 + t.low + 1 := by
      split <;> omega
    have hspace : ∀ x, x + (n + 2) ≤ 2 ^ 28 → x + 1 + (n + 1) ≤ 2 ^ 28 := by
      intro x hx
      omega
    rw [hlinear]
    exact ⟨rfl, hspace _ hacc, iff_of_true (fun h' ↦ absurd h' hext) fun h' ↦ absurd h' hext⟩

theorem nextSector_good_chs (h : ¬ t.isLba) (hacc : t.Accepted (n + 2)) (hgood : t.GoodStep) :
    t.nextSector.linear = t.linear + 1 ∧ t.nextSector.Accepted (n + 1) ∧
      (t.nextSector.CarriesFit (n + 1) ↔ t.CarriesFit (n + 2)) := by
  have hsame := t.sameSetup_nextSector
  have hbound := t.head_lt
  rw [Accepted, if_neg h] at hacc
  rw [GoodStep, if_neg h] at hgood
  obtain ⟨hs1, hsS, hhH, hspace⟩ := hacc
  obtain ⟨hs255, hheads⟩ := hgood
  rcases Nat.lt_or_eq_of_le hsS with hlt | heq
  · -- the next sector of the same track
    obtain ⟨hlba, hsector, hhead, hcyl⟩ := nextSector_of_track h hlt
    have hlinear : t.nextSector.linear = t.linear + 1 := by
      rw [linear, linear, if_neg h, if_neg hlba, hsame.numHeads, hsame.numSectors, hsector, hhead,
        hcyl]
      omega
    simp only [Accepted, CarriesFit, if_neg h, if_neg hlba, hlinear, hsame.numHeads,
      hsame.numSectors, hsector, hhead]
    refine ⟨trivial, ⟨by omega, by omega, hhH, by omega⟩, ?_⟩
    omega
  · have hsec : t.sectorNumber = t.numSectors := eq_of_toNat_eq heq
    obtain ⟨hlba, hsector, hmore, hlast⟩ := nextSector_of_end h hsec (by omega)
    -- one track more in the linear address
    have htrack : ∀ p, (p + 1) * t.numSectors.toNat =
        p * t.numSectors.toNat + t.numSectors.toNat := fun p ↦ Nat.succ_mul p _
    rcases Nat.lt_or_eq_of_le hhH with hhead | hhead
    · -- the next track of the same cylinder
      obtain ⟨hhead', hcyl⟩ := hmore hhead
      have h16 : t.head.toNat + 1 < 16 := by
        by_contra hge
        exact hheads ⟨by omega, by omega, hsec⟩
      rw [Nat.mod_eq_of_lt h16] at hhead'
      have hlinear : t.nextSector.linear = t.linear + 1 := by
        rw [linear, linear, if_neg h, if_neg hlba, hsame.numHeads, hsame.numSectors, hsector,
          hhead', hcyl, ← Nat.add_assoc, htrack]
        omega
      simp only [Accepted, CarriesFit, if_neg h, if_neg hlba, hlinear, hsame.numHeads,
        hsame.numSectors, hsector, hhead', htrack]
      refine ⟨trivial, ⟨by omega, by omega, hhead, by omega⟩, ?_⟩
      omega
    · -- the first track of the next cylinder
      obtain ⟨hhead', hcyl⟩ := hlast hhead
      have hnext : (t.cylinder + 1) * t.numHeads.toNat =
          t.cylinder * t.numHeads.toNat + t.head.toNat + 1 := by
        rw [Nat.succ_mul]
        omega
      have hcyl' : t.cylinder + 1 < 65536 := by
        by_contra hge
        have hmul : 65536 * t.numHeads.toNat ≤ (t.cylinder + 1) * t.numHeads.toNat :=
          Nat.mul_le_mul_right _ (Nat.le_of_not_lt hge)
        have hmul' := Nat.mul_le_mul_right t.numSectors.toNat hmul
        rw [hnext, htrack] at hmul'
        rw [linear, if_neg h] at hspace
        omega
      rw [Nat.mod_eq_of_lt hcyl'] at hcyl
      have hlinear : t.nextSector.linear = t.linear + 1 := by
        rw [linear, linear, if_neg h, if_neg hlba, hsame.numHeads, hsame.numSectors, hsector,
          hhead', hcyl, Nat.add_zero, hnext, htrack]
        omega
      simp only [Accepted, CarriesFit, if_neg h, if_neg hlba, hlinear, hsame.numHeads,
        hsame.numSectors, hsector, hhead', Nat.zero_mul]
      refine ⟨trivial, ⟨by omega, by omega, by omega, by omega⟩, ?_⟩
      omega

theorem nextSector_good (hacc : t.Accepted (n + 2)) (hgood : t.GoodStep) :
    t.nextSector.linear = t.linear + 1 ∧ t.nextSector.Accepted (n + 1) ∧
      (t.nextSector.CarriesFit (n + 1) ↔ t.CarriesFit (n + 2)) := by
  by_cases h : t.isLba
  · exact nextSector_good_lba h hacc hgood
  · exact nextSector_good_chs h hacc hgood

theorem not_carriesFit (hacc : t.Accepted (n + 2)) (hbad : ¬ t.GoodStep) :
    ¬ t.CarriesFit (n + 2) := by
  rw [CarriesFit]
  rw [GoodStep] at hbad
  split_ifs at hbad ⊢ with h
  · intro hfit
    refine hbad fun hext ↦ ?_
    have := hfit hext
    omega
  · rw [Accepted, if_neg h] at hacc
    obtain ⟨hs1, hsS, hhH, -⟩ := hacc
    rintro ⟨hsectors, hheads, -⟩
    refine hbad ⟨by omega, ?_⟩
    rintro ⟨hH, hhead, hsec⟩
    rw [hhead, hsec] at hheads
    omega

theorem lbaAddress_nextSector_ne (hacc : t.Accepted (n + 2)) (hbad : ¬ t.GoodStep) :
    t.nextSector.lbaAddress ≠ t.linear + 1 := by
  rw [GoodStep] at hbad
  have hsame := t.sameSetup_nextSector
  split_ifs at hbad with h
  · obtain ⟨hext, hlow⟩ := Classical.not_imp.mp hbad
    obtain ⟨hlba, hlow', -⟩ := nextSector_of_lba h
    have hlt := t.low_lt
    rw [lbaAddress_of_lba hlba, linear, linear, if_pos h, if_pos hlba,
      lbaHigh_nextSector_of_ext hext, hlow']
    omega
  · rw [Accepted, if_neg h] at hacc
    obtain ⟨hs1, hsS, hhH, -⟩ := hacc
    have hlt := linear_lt h
    by_cases hs : t.sectorNumber.toNat = 255
    · -- the sector number is zero now
      obtain ⟨hlba, hsector, hhead, hcyl⟩ := nextSector_of_wrap h hs
      rw [linear, if_neg h] at hlt ⊢
      rw [lbaAddress, if_neg hlba, chsAddress, hcyl, hhead, hsector, hsame.numHeads,
        hsame.numSectors, Int.bmod]
      split <;> omega
    · -- the head is zero now
      obtain ⟨hH, hhead, hsec⟩ := Classical.not_not.mp (not_and.mp hbad hs)
      have hsec' : t.sectorNumber.toNat = t.numSectors.toNat := congrArg BitVec.toNat hsec
      obtain ⟨hlba, hsector, hmore, -⟩ := nextSector_of_end h hsec (by omega)
      obtain ⟨hhead', hcyl⟩ := hmore (by omega)
      have hx : (t.cylinder * t.numHeads.toNat + t.head.toNat) * t.numSectors.toNat =
          t.cylinder * t.numHeads.toNat * t.numSectors.toNat + 15 * t.numSectors.toNat := by
        rw [hhead, Nat.add_mul]
      rw [linear, if_neg h] at hlt ⊢
      rw [lbaAddress, if_neg hlba, chsAddress, hcyl, hhead', hsector, hsame.numHeads,
        hsame.numSectors, hhead, Nat.mod_self, Nat.add_zero, Int.bmod]
      rw [hx] at hlt
      rw [← hhead, hx]
      split <;> omega

/-! ## Whole transfers -/

/-- The registers as `process_command` leaves them. -/
def started (t : TaskFile) (n : ℕ) : TaskFile := { t with sectorsRemaining := n, accessed := [] }

/-- One sector of a transfer: its access and the count. -/
def sector (t : TaskFile) : TaskFile := t.access.countDown

theorem sectorsRequested_ne_zero (t : TaskFile) : t.sectorsRequested ≠ 0 := by
  have hzero : ∀ x : BitVec 8, x ≠ 0 → x.toNat ≠ 0 := fun x hx h ↦ hx (eq_of_toNat_eq h)
  rw [sectorsRequested]
  split_ifs with _ hcount hcount
  · rw [← Nat.shiftLeft_add_eq_or_of_lt t.sectorCount.isLt, Nat.shiftLeft_eq]
    rcases hcount with hhob | hlow
    · have := hzero _ hhob
      omega
    · have := hzero _ hlow
      omega
  · decide
  · exact hzero _ hcount
  · decide

theorem nextSector_logged (t : TaskFile) (log : List ℕ) :
    ({ t with accessed := log } : TaskFile).nextSector = { t.nextSector with accessed := log } := by
  simp only [nextSector, nextLba, nextChs, isLba, head]
  split_ifs <;> rfl

theorem sectorsRemaining_nextSector (t : TaskFile) :
    t.nextSector.sectorsRemaining = t.sectorsRemaining := by
  simp only [nextSector, nextLba, nextChs]
  split_ifs <;> rfl

theorem sectorsRemaining_access (t : TaskFile) :
    t.access.sectorsRemaining = t.sectorsRemaining := by
  simp only [access]
  split_ifs
  · exact sectorsRemaining_nextSector _
  · rfl

theorem sectorsRemaining_sector (t : TaskFile) :
    t.sector.sectorsRemaining = t.sectorsRemaining - 1 := by
  rw [sector, countDown]
  split_ifs with h
  · rw [sectorsRemaining_access]
  · rw [sectorsRemaining_access] at h ⊢
    omega

theorem accessed_sector (t : TaskFile) : t.sector.accessed = t.accessed ++ [t.lbaAddress] := by
  have haccess : t.access.accessed = t.accessed ++ [t.lbaAddress] := by
    simp only [access, nextSector_logged]
    split_ifs <;> rfl
  rw [sector, countDown]
  split_ifs <;> exact haccess

theorem sector_of_more (h : t.sectorsRemaining = n + 2) :
    ∃ count countHob, t.sector =
      { t.nextSector with
        accessed := t.accessed ++ [t.lbaAddress]
        sectorsRemaining := n + 1
        sectorCount := count
        sectorCountHob := countHob } := by
  have hmore : t.sectorsRemaining ≠ 1 := by omega
  have hremaining : t.nextSector.sectorsRemaining = n + 2 := by
    rw [sectorsRemaining_nextSector, h]
  refine ⟨BitVec.ofNat 8 (n + 1), BitVec.ofNat 8 ((n + 1) >>> 8), ?_⟩
  simp only [sector, access, countDown, nextSector_logged, if_pos hmore, hremaining]
  rw [if_pos (by omega)]
  rfl

theorem exists_accessed (t : TaskFile) (k : ℕ) :
    ∃ later, (sector^[k] t).accessed = t.accessed ++ later := by
  induction k generalizing t with
  | zero => exact ⟨[], (append_nil _).symm⟩
  | succ k ih =>
    obtain ⟨later, hlater⟩ := ih t.sector
    refine ⟨t.lbaAddress :: later, ?_⟩
    rw [iterate_succ_apply, hlater, accessed_sector, List.append_assoc,
      singleton_append]

/-- The sectors of a range are accessed one after the other exactly if they need none of the carries
that go wrong. The induction is on the number of sectors: a good step leads to the rest of the
range, and a bad one misses the sector behind it. -/
theorem accessed_iterate_sector (hn : t.sectorsRemaining = n + 1) (hacc : t.Accepted (n + 1)) :
    (sector^[n + 1] t).accessed = t.accessed ++ range' t.linear (n + 1) ↔
      t.CarriesFit (n + 1) := by
  induction n generalizing t with
  | zero =>
    have hhead := t.head_lt
    have hmul : t.head.toNat * t.numSectors.toNat ≤ 15 * t.numSectors.toNat :=
      Nat.mul_le_mul_right _ (by omega)
    have hlow := t.low_lt
    have hfit : t.CarriesFit 1 ↔ t.isLba ∨ t.linear < 2 ^ 31 := by
      rw [CarriesFit]
      split_ifs with h
      · exact iff_of_true (fun _ ↦ by omega) (Or.inl h)
      · rw [Accepted, if_neg h] at hacc
        rw [or_iff_right h]
        omega
    rw [hfit, ← lbaAddress_eq_iff hacc, iterate_succ_apply, iterate_zero_apply,
      accessed_sector, append_cancel_left_eq, range'_one, List.cons.injEq]
    exact and_iff_left rfl
  | succ n ih =>
    obtain ⟨count, countHob, hsector⟩ := sector_of_more hn
    have haccessed := t.accessed_sector
    rw [iterate_succ_apply, range'_succ]
    by_cases hgood : t.GoodStep
    · obtain ⟨hlinear, hacc', hfit⟩ := nextSector_good hacc hgood
      have hlinear' : t.sector.linear = t.linear + 1 := by rw [hsector]; exact hlinear
      have hrest := ih (t := t.sector) (by rw [hsector]) (by rw [hsector]; exact hacc')
      have hfit' : t.sector.CarriesFit (n + 1) ↔ t.CarriesFit (n + 2) := by
        rw [hsector]
        exact hfit
      rw [hfit', hlinear', haccessed, List.append_assoc, singleton_append] at hrest
      rw [← hrest]
      constructor
      · intro hlist
        obtain ⟨later, hlater⟩ := t.sector.exists_accessed (n + 1)
        have hhead : t.lbaAddress = t.linear := by
          rw [hlater, haccessed, List.append_assoc, append_cancel_left_eq,
            singleton_append, List.cons.injEq] at hlist
          exact hlist.1
        rw [hlist, hhead]
      · intro hlist
        have hL : t.isLba ∨ t.linear < 2 ^ 31 := by
          have hcarries := hrest.mp hlist
          rw [CarriesFit] at hcarries
          split_ifs at hcarries with h
          · exact Or.inl h
          · exact Or.inr (by omega)
        rw [hlist, (lbaAddress_eq_iff hacc).mpr hL]
    · refine iff_of_false (fun hlist ↦ ?_) (not_carriesFit hacc hgood)
      have hnext : t.sector.lbaAddress = t.nextSector.lbaAddress := by rw [hsector]; rfl
      obtain ⟨later, hlater⟩ := t.sector.sector.exists_accessed n
      rw [iterate_succ_apply, hlater, accessed_sector, haccessed, List.append_assoc,
        List.append_assoc, append_cancel_left_eq, singleton_append, singleton_append,
        List.cons.injEq, range'_succ, List.cons.injEq, hnext] at hlist
      exact lbaAddress_nextSector_ne hacc hgood hlist.2.1

end TaskFile

namespace Drive

variable {d : Drive}

theorem signal_frame (d : Drive) (last : Bool) :
    (d.signal last).task = d.task ∧ (d.signal last).phase = d.phase := by
  simp only [signal]
  split_ifs <;> exact ⟨rfl, rfl⟩

theorem task_finishedRead (d : Drive) : d.finishedRead.task = d.task.access :=
  (signal_frame _ _).1

theorem phase_finishedRead (d : Drive) : d.finishedRead.phase = .drq := rfl

theorem finishedWrite_frame (d : Drive) : d.finishedWrite.task = d.task.sector ∧
    (d.finishedWrite.phase =
      if 0 < d.task.sector.sectorsRemaining then .drq else .ready) := by
  have htask := (signal_frame { d with task := d.task.access, phase := .ready }
    (d.task.sectorsRemaining = 1)).1
  have hphase := (signal_frame { d with task := d.task.access, phase := .ready }
    (d.task.sectorsRemaining = 1)).2
  have hsector : d.task.access.countDown = d.task.sector := rfl
  by_cases hmore : 0 < d.task.sector.sectorsRemaining
  · simp only [finishedWrite, htask, hsector, if_pos hmore]
    exact ⟨trivial, trivial⟩
  · simp only [finishedWrite, htask, hsector, if_neg hmore]
    exact ⟨trivial, hphase⟩

theorem command_sector (t : TaskFile) : t.sector.command = t.command ∧
    t.access.command = t.command := by
  have haccess : t.access.command = t.command := by
    simp only [TaskFile.access, nextSector_logged]
    split_ifs
    · exact t.sameSetup_nextSector.command
    · rfl
  refine ⟨?_, haccess⟩
  rw [sector, TaskFile.countDown]
  split_ifs <;> exact haccess

theorem iterate_advance_of_ready (h : d.phase = .ready) (k : ℕ) : advance^[k] d = d :=
  iterate_fixed (by rw [advance, h]) k

/-- A transfer is over after some of `bound` events, and after all of them. -/
theorem iterate_advance_of_le {k bound : ℕ} (hle : k ≤ bound)
    (h : (advance^[k] d).phase = .ready) : advance^[bound] d = advance^[k] d := by
  rw [← Nat.sub_add_cancel hle, iterate_add_apply, iterate_advance_of_ready h]

/-- The rest of a read from the point on where the data of a sector lie in the buffer. -/
theorem exists_read {n : ℕ} {t : TaskFile} (hphase : d.phase = .drq) (htask : d.task = t.access)
    (hread : t.command.isRead) (hn : t.sectorsRemaining = n + 1) :
    ∃ k ≤ 2 * n + 1, (advance^[k] d).phase = .ready ∧
      (advance^[k] d).task = sector^[n + 1] t := by
  induction n generalizing d t with
  | zero =>
    have hstep : advance d = d.fillBuffer := by
      rw [advance, hphase, htask, (command_sector t).2, hread]
    have hremaining : ¬ 0 < d.task.countDown.sectorsRemaining := by
      rw [htask]
      show ¬ 0 < t.sector.sectorsRemaining
      rw [sectorsRemaining_sector]
      omega
    refine ⟨1, by omega, ?_⟩
    rw [iterate_one, hstep, fillBuffer, if_neg hremaining, iterate_succ_apply,
      iterate_zero_apply, sector, ← htask]
    exact ⟨rfl, rfl⟩
  | succ n ih =>
    have hstep : advance d = d.fillBuffer := by
      rw [advance, hphase, htask, (command_sector t).2, hread]
    have hsector : d.task.countDown = t.sector := by rw [htask, sector]
    have hcommand : t.sector.command = t.command := (command_sector t).1
    have hremaining : t.sector.sectorsRemaining = n + 1 := by
      rw [sectorsRemaining_sector]
      omega
    have hread' : t.sector.command.isRead := by rw [hcommand]; exact hread
    rw [fillBuffer, hsector, if_pos (by rw [hremaining]; omega)] at hstep
    split_ifs at hstep with hmultiple
    · obtain ⟨k, hk, hready, hdone⟩ := ih (d := advance d) (by rw [hstep, phase_finishedRead])
        (by rw [hstep, task_finishedRead]) hread' hremaining
      exact ⟨k + 1, by omega, by rwa [iterate_succ_apply],
        by rw [iterate_succ_apply, hdone, ← iterate_succ_apply]⟩
    · -- the busy timer runs before the sector is read
      have hbusy : advance (advance d) = (advance d).finishedRead := by
        rw [advance, hstep]
        rw [hread']
      obtain ⟨k, hk, hready, hdone⟩ := ih (d := advance (advance d))
        (by rw [hbusy, phase_finishedRead]) (by rw [hbusy, task_finishedRead, hstep]) hread'
        hremaining
      exact ⟨k + 2, by omega, by rwa [iterate_succ_apply, iterate_succ_apply],
        by rw [iterate_succ_apply, iterate_succ_apply, hdone,
          ← iterate_succ_apply]⟩

/-- A sector of a write takes one event or two. -/
theorem exists_write_sector (hphase : d.phase = .drq) (hwrite : d.task.command.isRead = false) :
    ∃ j ≤ 2, (advance^[j] d).task = d.task.sector ∧
      (advance^[j] d).phase = if 0 < d.task.sector.sectorsRemaining then .drq else .ready := by
  have hstep : advance d = d.processBuffer := by rw [advance, hphase, hwrite]
  rw [processBuffer] at hstep
  split_ifs at hstep with hmultiple
  · refine ⟨1, by omega, ?_⟩
    rw [iterate_one, hstep]
    exact finishedWrite_frame _
  · have hbusy : advance (advance d) = (advance d).finishedWrite := by
      rw [advance, hstep]
      rw [hwrite]
    refine ⟨2, by omega, ?_⟩
    rw [iterate_succ_apply, iterate_one, hbusy, hstep]
    exact finishedWrite_frame _

theorem exists_write {n : ℕ} (hphase : d.phase = .drq) (hwrite : d.task.command.isRead = false)
    (hn : d.task.sectorsRemaining = n + 1) :
    ∃ k ≤ 2 * (n + 1), (advance^[k] d).phase = .ready ∧
      (advance^[k] d).task = sector^[n + 1] d.task := by
  induction n generalizing d with
  | zero =>
    obtain ⟨j, hj, htask, hphase'⟩ := exists_write_sector hphase hwrite
    have hremaining := d.task.sectorsRemaining_sector
    refine ⟨j, by omega, ?_, ?_⟩
    · rw [hphase', if_neg (by omega)]
    · rw [htask, iterate_succ_apply, iterate_zero_apply]
  | succ n ih =>
    obtain ⟨j, hj, htask, hphase'⟩ := exists_write_sector hphase hwrite
    have hremaining := d.task.sectorsRemaining_sector
    rw [if_pos (by omega)] at hphase'
    obtain ⟨k, hk, hready, hdone⟩ := ih hphase'
      (by rw [htask, (command_sector d.task).1]; exact hwrite) (by rw [htask]; omega)
    refine ⟨k + j, by omega, ?_, ?_⟩
    · rw [iterate_add_apply]
      exact hready
    · rw [iterate_add_apply, hdone, htask, ← iterate_succ_apply]

/-- A command that the drive accepts runs to its end, sector by sector. -/
theorem transfer_eq (hext : d.task.command.isLba48 → d.lba48) :
    d.transfer.phase = .ready ∧
      d.transfer.task = sector^[d.task.sectorsRequested]
        (d.task.started d.task.sectorsRequested) := by
  obtain ⟨n, hn⟩ : ∃ n, d.task.sectorsRequested = n + 1 :=
    Nat.exists_eq_succ_of_ne_zero d.task.sectorsRequested_ne_zero
  have hsupported : ¬ (d.task.command.isLba48 ∧ ¬ d.lba48) := fun h ↦ h.2 (hext h.1)
  have hdone : ∃ k ≤ 2 * (n + 1), (advance^[k] d.processCommand).phase = .ready ∧
      (advance^[k] d.processCommand).task = sector^[n + 1] (d.task.started (n + 1)) := by
    by_cases hread : d.task.command.isRead
    · have hstart : d.processCommand.phase = .busy ∧ d.processCommand.task =
          d.task.started (n + 1) := by
        simp only [processCommand, if_neg hsupported, hn, TaskFile.started, if_pos hread]
        exact ⟨trivial, trivial⟩
      have hstep : advance d.processCommand = d.processCommand.finishedRead := by
        rw [advance, hstart.1, hstart.2, TaskFile.started]
        rw [hread]
      obtain ⟨k, hk, hready, hdone⟩ := exists_read (d := advance d.processCommand) (n := n)
        (t := d.task.started (n + 1)) (by rw [hstep, phase_finishedRead])
        (by rw [hstep, task_finishedRead, hstart.2]) hread rfl
      exact ⟨k + 1, by omega, by rwa [iterate_succ_apply],
        by rw [iterate_succ_apply, hdone]⟩
    · have hstart : d.processCommand.phase = .drq ∧ d.processCommand.task =
          d.task.started (n + 1) := by
        simp only [processCommand, if_neg hsupported, hn, TaskFile.started, if_neg hread]
        exact ⟨trivial, trivial⟩
      have hwrite : d.processCommand.task.command.isRead = false := by
        rw [hstart.2]
        exact Bool.not_eq_true _ ▸ hread
      rw [← hstart.2]
      exact exists_write hstart.1 hwrite (by rw [hstart.2]; rfl)
  obtain ⟨k, hk, hready, hdone⟩ := hdone
  rw [transfer, hn, iterate_advance_of_le hk hready]
  exact ⟨hready, hdone⟩

/-- A command of `n` sectors at the linear sector `L` accesses `L`, `L + 1`, up to `L + n - 1`
exactly if none of the carries that go wrong is needed: in the 48-bit mode the sectors have their
high three bytes in common; in the 28-bit mode always; and for a CHS address, a transfer that leaves
its track finds less than 255 sectors on it, a transfer that leaves head 15 finds no more heads, and
the sectors lie below `2 ^ 31`. -/
theorem transfer_sequential_iff (d : Drive) (hext : d.task.command.isLba48 → d.lba48)
    (hacc : d.task.Accepted d.task.sectorsRequested) :
    (d.transfer.phase = .ready ∧
      d.transfer.task.accessed = range' d.task.linear d.task.sectorsRequested) ↔
      d.task.CarriesFit d.task.sectorsRequested := by
  obtain ⟨n, hn⟩ : ∃ n, d.task.sectorsRequested = n + 1 :=
    Nat.exists_eq_succ_of_ne_zero d.task.sectorsRequested_ne_zero
  obtain ⟨hready, htask⟩ := transfer_eq hext
  rw [and_iff_right hready, htask, hn]
  rw [hn] at hacc
  exact accessed_iterate_sector
    (t := d.task.started (n + 1)) rfl hacc

/-- A drive before a command at the sector that the arguments give, by LBA. -/
def atLba (command : Command) (high low : BitVec 24) (count : BitVec 8) : Drive where
  task :=
    { command := command
      numSectors := 63
      numHeads := 16
      deviceHead := 0x40#8
      sectorCount := count
      sectorCountHob := 0
      sectorNumber := low.setWidth 8
      sectorNumberHob := high.setWidth 8
      cylinderLow := (low >>> 8).setWidth 8
      cylinderLowHob := (high >>> 8).setWidth 8
      cylinderHigh := (low >>> 16).setWidth 8
      cylinderHighHob := (high >>> 16).setWidth 8
      sectorsRemaining := 0
      accessed := [] }
  phase := .ready
  lba48 := true
  blockCount := 0
  sectorsUntilInt := 0
  irq := false
  dmarq := false
  err := false

/-- The last two sectors below a boundary of the low three bytes. -/
theorem transfer_sequential_below_boundary :
    (atLba .readSectorsExt 0 0xfffffe 2).transfer.phase = .ready ∧
      (atLba .readSectorsExt 0 0xfffffe 2).transfer.task.accessed = [0xfffffe, 0xffffff] :=
  (transfer_sequential_iff (atLba .readSectorsExt 0 0xfffffe 2) (by decide) (by decide)).mpr
    (by decide)

/-- Two sectors across the boundary: the second one is sector `0`. -/
theorem transfer_not_sequential_across_boundary :
    (atLba .readSectorsExt 0 0xffffff 2).task.Accepted 2 ∧
      (atLba .readSectorsExt 0 0xffffff 2).transfer.task.accessed = [0xffffff, 0] ∧
      (atLba .readSectorsExt 0 0xffffff 2).transfer.task.accessed ≠
        range' (atLba .readSectorsExt 0 0xffffff 2).task.linear 2 := by
  decide

end Drive

end RoscoEmulator.Ata
