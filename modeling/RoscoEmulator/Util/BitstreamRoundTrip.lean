import RoscoEmulator.Util.BitstreamReader

/-!
# Bit streams, written and read

What the writer has put out is read again with the same widths. Two things are in the way. A left
shift by 32 bits is not defined, so nothing can be read behind a field of 32 bits. And a refill of
the accumulator that takes a part of a byte keeps the number of bits that it took as the offset in
the byte, though the byte may have been begun before. -/

namespace RoscoEmulator.Util

open BitVec List BitString

namespace BitstreamIn

/-! ## The widths that can be read -/

/-- A field of 32 bits is the last that has any bits. -/
def WholeLast : List ℕ → Prop
  | [] => True
  | numbits :: widths => (numbits = 32 → widths.sum = 0) ∧ WholeLast widths

/-- From a bit position on, with this many bits in the accumulator: a refill that begins inside a
byte with more than 24 bits is enough, with the rest of that byte, for all that is read. -/
def Refills : List ℕ → ℕ → ℕ → Prop
  | [], _, _ => True
  | numbits :: widths, pos, bits =>
      if numbits ≤ bits then Refills widths (pos + numbits) (bits - numbits)
      else if bits ≤ 24 ∨ (pos + bits) % 8 = 0 then Refills widths (pos + numbits) (32 - numbits)
      else numbits + widths.sum ≤ bits + min (32 - bits) (8 - (pos + bits) % 8)

instance decidableWholeLast : ∀ widths, Decidable (WholeLast widths)
  | [] => isTrue trivial
  | numbits :: widths =>
      have := decidableWholeLast widths
      inferInstanceAs (Decidable ((numbits = 32 → widths.sum = 0) ∧ WholeLast widths))

instance decidableRefills : ∀ widths pos bits, Decidable (Refills widths pos bits)
  | [], _, _ => isTrue trivial
  | numbits :: widths, pos, bits =>
      have := decidableRefills widths
      inferInstanceAs
        (Decidable (if numbits ≤ bits then Refills widths (pos + numbits) (bits - numbits)
        else if bits ≤ 24 ∨ (pos + bits) % 8 = 0 then Refills widths (pos + numbits) (32 - numbits)
        else numbits + widths.sum ≤ bits + min (32 - bits) (8 - (pos + bits) % 8)))

example : ¬ Refills [31, 2, 31, 1] 0 0 := by decide

/-! ## Reads that go well -/

variable {b : BitstreamIn} {src : List (BitVec 8)} {limit pos : ℕ} (shift : BitVec 32 → BitVec 32)

theorem readAll_cons (numbits : ℕ) (widths : List ℕ) (b : BitstreamIn) :
    readAll shift (numbits :: widths) b = ((b.readOn shift numbits).1 ::
      (readAll shift widths (b.readOn shift numbits).2).1,
      (readAll shift widths (b.readOn shift numbits).2).2) := rfl

variable {numbits : ℕ} {widths : List ℕ} {fields : List (ℕ × ℕ)} {i : ℕ}

theorem getD_bitsOf_cons (f : ℕ × ℕ) (fields : List (ℕ × ℕ)) (hi : i < f.2) :
    (bitsOf (f :: fields)).getD i false = f.1.testBit (f.2 - 1 - i) := by
  rw [bitsOf_cons, getD_field_append hi]

/-- The others are behind it. -/
theorem getD_bitsOf_add (f : ℕ × ℕ) (fields : List (ℕ × ℕ)) (i : ℕ) :
    (bitsOf (f :: fields)).getD (f.2 + i) false = (bitsOf fields).getD i false := by
  rw [bitsOf_cons, getD_append_right _ _ _ _ (by rw [length_field]; omega), length_field,
    Nat.add_sub_cancel_left]

theorem readAll_buffered (hfields : ∀ f ∈ fields, f.2 ≤ 32 ∧ f.1 < 2 ^ f.2)
    (hlength : (bitsOf fields).length ≤ b.bits) (hbits : b.bits ≤ 32)
    (hbuffer : ∀ i < (bitsOf fields).length, b.buffer.getMsbD i = (bitsOf fields).getD i false) :
    (readAll shift (fields.map Prod.snd) b).1 = fields.map Prod.fst ∧
      ∃ buffer, (readAll shift (fields.map Prod.snd) b).2 =
        { b with buffer, bits := b.bits - (bitsOf fields).length } := by
  induction fields generalizing b with
  | nil => exact ⟨rfl, b.buffer, rfl⟩
  | cons f fields ih =>
    obtain ⟨hle, hvalue⟩ := hfields f mem_cons_self
    have hlen : (bitsOf (f :: fields)).length = f.2 + (bitsOf fields).length := by
      rw [bitsOf_cons, length_append, length_field]
    rw [hlen] at hlength hbuffer
    have hprepare : b.prepare f.2 = b := prepare_of_le (by omega)
    have hfront : b.front f.2 = f.1 := by
      refine front_eq hle hvalue fun i hi ↦ ?_
      rw [hbuffer i (by omega), getD_bitsOf_cons f fields hi]
    obtain ⟨hvalues, buffer, hrest⟩ := ih (b := (b.readOn shift f.2).2)
      (fun g hg ↦ hfields g (mem_cons_of_mem f hg))
      (by rw [readOn, hprepare]; dsimp only; omega) (by rw [readOn, hprepare]; dsimp only; omega)
      fun i hi ↦ by
        rw [readOn, hprepare]
        rw [if_pos (by omega), getMsbD_shiftLeft, Nat.add_comm, hbuffer _ (by omega),
          getD_bitsOf_add]
    rw [map_cons, map_cons, readAll_cons, hrest, hvalues]
    refine ⟨congrArg (· :: _) ?_, buffer, ?_⟩
    · rw [readOn, hprepare, hfront]
    · rw [readOn, hprepare, hlen, Nat.sub_add_eq]

/-- A refill does not matter to the reads behind it, if they have all they need. -/
theorem readAll_prepare (hle : numbits ≤ (b.prepare numbits).bits) (widths : List ℕ) : readAll shift
    (numbits :: widths) b = readAll shift (numbits :: widths) (b.prepare numbits) := by
  have hread : b.readOn shift numbits = (b.prepare numbits).readOn shift numbits := by
    rw [readOn, readOn, prepare_of_le hle]
  rw [readAll_cons, readAll_cons, hread]

/-- The offset of a reader with less than a byte, where the bits of its byte that it took are
more. -/
theorem readOffset_of_lt (hbits : b.bits < 8) (hlt : b.bits < b.dbitoffs)
    (hdoffset : b.doffset < 2 ^ 32) : b.readOffset = (b.doffset + 1) % 2 ^ 32 := by
  have hunread := unread_add b.bits b.bits (by omega) b.doffset
  rw [show b.bits / 8 =
    0 by omega, Nat.add_zero, Nat.mod_eq_of_lt hdoffset, Nat.mod_eq_of_lt hbits] at hunread
  rw [readOffset, hunread]
  exact if_pos hlt

/-- The reader has read to a position: that is what both of its operations that give an offset
say. -/
def EndsAt (b : BitstreamIn) (pos : ℕ) : Prop :=
  b.readOffset = (pos + 7) / 8 ∧ b.flush.1 = (pos + 7) / 8

theorem At.endsAt (h : b.At pos) (hpos : pos ≤ 8 * (2 ^ 32 - 1)) : b.EndsAt pos :=
  ⟨h.readOffset hpos, (flush_fst b).trans (h.readOffset hpos)⟩

/-- A refill that begins inside a byte with more than 24 bits: the rest of the byte is there, and
the reader thinks that it is in the byte as far as the bits that it took. -/
theorem prepare_inside (h : b.Ready src limit pos) (hlimit : limit ≤ 8 * 2 ^ 32) (numbits : ℕ)
    (hle : b.bits < numbits) (hmany : 24 < b.bits) (hlt : b.bits < 32) :
    (b.prepare numbits).bits = 32 ∧ (b.prepare numbits).doffset = b.doffset ∧
      (b.prepare numbits).dbitoffs = 32 - b.bits ∧ (b.prepare numbits).data = src ∧
      ∀ i < 32, pos + i < limit → (b.prepare numbits).buffer.getMsbD i =
        (decide (i < b.bits + (8 - b.dbitoffs)) && bitAt src (pos + i)) := by
  obtain ⟨byte, hdoffset, hplace⟩ := h.place
  have hstep : b.fillStep.bits = 32 ∧ b.fillStep.doffset = b.doffset ∧
      b.fillStep.dbitoffs = 32 - b.bits := by
    rw [fillStep, if_pos (by omega)]
    exact ⟨rfl, rfl, rfl⟩
  have hprepare : b.prepare numbits = b.fillStep := by
    rw [prepare, if_pos hle, fill, if_pos hlt, fill, if_neg (by omega)]
  rw [hprepare]
  refine ⟨hstep.1, hstep.2.1, hstep.2.2, (data_fillStep b).trans h.data_eq, fun i hi hin ↦ ?_⟩
  rw [getMsbD_fillStep hlt hi]
  by_cases hold : i < b.bits
  · rw [h.pending i hold hin, decide_eq_false (by omega : ¬ b.bits ≤ i),
      decide_eq_true (by omega : i < b.bits + (8 - b.dbitoffs)), Bool.false_and, Bool.or_false,
      Bool.true_and]
  · rw [h.clear i (by omega), decide_eq_true (by omega : b.bits ≤ i), getMsbD_newbits,
      Bool.false_or, Bool.true_and, h.data_eq]
    by_cases hbyte : i - b.bits + b.dbitoffs < 8
    · rw [decide_eq_true (by omega), decide_eq_true (by omega), hdoffset,
        Nat.mod_eq_of_lt (by omega : byte < 2 ^ 32),
        show 8 * byte + (24 + (i - b.bits) - 24 + b.dbitoffs) = pos + i by omega]
    · rw [decide_eq_false (by omega), decide_eq_false (by omega), Bool.false_and, Bool.false_and]

/-- A reader that is ready reads the fields that stand at its position, if the widths let it. -/
theorem Ready.readAll (h : b.Ready src limit pos) (hlimit : limit ≤ 8 * (2 ^ 32 - 1))
    (hfields : ∀ f ∈ fields, f.2 ≤ 32 ∧ f.1 < 2 ^ f.2) (hsrc : StartsAt src pos (bitsOf fields))
    (hroom : pos + (bitsOf fields).length ≤ limit) (hlast : WholeLast (fields.map Prod.snd))
    (hrefills : Refills (fields.map Prod.snd) pos b.bits) :
    (BitstreamIn.readAll shift (fields.map Prod.snd) b).1 = fields.map Prod.fst ∧
      (BitstreamIn.readAll shift (fields.map Prod.snd) b).2.EndsAt
      (pos + (bitsOf fields).length) := by
  induction fields generalizing b pos with
  | nil => exact ⟨rfl, h.toAt.endsAt (by omega)⟩
  | cons f fields ih =>
    obtain ⟨hle, hvalue⟩ := hfields f mem_cons_self
    have hfields' : ∀ g ∈ fields, g.2 ≤ 32 ∧ g.1 < 2 ^ g.2 :=
      fun g hg ↦ hfields g (mem_cons_of_mem f hg)
    have hlen : (bitsOf (f :: fields)).length = f.2 + (bitsOf fields).length := by
      rw [bitsOf_cons, length_append, length_field]
    have hsum := length_bitsOf fields
    rw [hlen] at hroom
    rw [map_cons] at hlast hrefills
    obtain ⟨hlast, hlast'⟩ := hlast
    by_cases hgood : f.2 ≤ b.bits ∨ b.bits ≤ 24 ∨ b.dbitoffs = 0
    · -- the bits are there, or the refill goes well
      obtain ⟨hready, hbits, hrefills'⟩ : (b.prepare f.2).Ready src limit pos ∧
          f.2 ≤ (b.prepare f.2).bits ∧
          Refills (fields.map Prod.snd) (pos + f.2) ((b.prepare f.2).bits - f.2) := by
        rw [Refills, h.toAt.dbitoffs_eq] at hrefills
        by_cases hthere : f.2 ≤ b.bits
        · rw [prepare_of_le hthere]
          rw [if_pos hthere] at hrefills
          exact ⟨h, hthere, hrefills⟩
        · obtain ⟨hready, hbits⟩ := h.prepare (by omega) (Nat.lt_of_not_le hthere) (by omega)
          rw [if_neg hthere, if_pos (by omega)] at hrefills
          exact ⟨hready, by omega, hbits.symm ▸ hrefills⟩
      have hbuffer : ∀ i < f.2, (b.prepare f.2).buffer.getMsbD i = f.1.testBit (f.2 - 1 - i) := by
        intro i hi
        rw [hready.pending i (by omega) (by omega), hsrc i (by omega), getD_bitsOf_cons f fields hi]
      have hfront := front_eq hle hvalue hbuffer
      rw [map_cons, map_cons, readAll_cons]
      by_cases hwhole : f.2 < 32
      · have hnext : (b.readOn shift f.2).2 = (b.prepare f.2).remove f.2 := by
          rw [readOn, if_pos hwhole]
          rfl
        have hright := hsrc
        rw [bitsOf_cons] at hright
        have hsrc' := hright.right
        rw [length_field] at hsrc'
        obtain ⟨hvalues, hends⟩ :=
          ih (hready.remove f.2 hbits) hfields' hsrc' (by omega) hlast' hrefills'
        rw [hnext, hvalues, hlen, ← Nat.add_assoc]
        exact ⟨congrArg (· :: _) hfront, hends⟩
      · -- the field of 32 bits leaves nothing in the accumulator, and no more is read
        have hbits_le := hready.bits_le
        obtain ⟨hvalues, buffer, hrest⟩ :=
          readAll_buffered shift (b := (b.readOn shift f.2).2) hfields' (by omega)
          (by rw [readOn]; dsimp only; omega) fun i hi ↦ by omega
        rw [hrest, hvalues, hlen]
        refine ⟨congrArg (· :: _) hfront, At.endsAt ⟨?_, hready.dbitoffs_lt, ?_⟩ (by omega)⟩
        · obtain ⟨byte, hdoffset, hplace⟩ := hready.place
          refine ⟨byte, hdoffset, ?_⟩
          rw [readOn]
          dsimp only
          omega
        · rw [readOn]
          dsimp only
          omega
    · -- all that is read is in the rest of the byte
      have hdbitoffs := h.toAt.dbitoffs_eq
      rw [Refills, if_neg (by omega), if_neg (by omega), hdbitoffs] at hrefills
      obtain ⟨hbits, hdoffset, hdbitoffs', -, hbuffer⟩ :=
        prepare_inside h (by omega) f.2 (by omega) (by omega) (by omega)
      obtain ⟨hvalues, buffer, hrest⟩ :=
        readAll_buffered shift hfields (b := b.prepare f.2) (by omega) (by omega)
        fun i hi ↦ by
          rw [hbuffer i (by omega) (by omega), decide_eq_true (by omega), Bool.true_and, hsrc i hi]
      obtain ⟨byte, hbyte, hplace⟩ := h.place
      have hoffset :
          ((BitstreamIn.readAll shift ((f :: fields).map Prod.snd) (b.prepare f.2)).2).readOffset =
          (pos + (bitsOf (f :: fields)).length + 7) / 8 := by
        rw [hrest,
          readOffset_of_lt (by dsimp only; omega) (by dsimp only; omega) (by dsimp only; omega)]
        dsimp only
        omega
      rw [map_cons, readAll_prepare shift (by omega), ← map_cons]
      exact ⟨hvalues, hoffset, (flush_fst _).trans hoffset⟩

/-! ## Reads that go wrong -/

theorem fillStep_keeps (hlt : b.bits < 32) (hi : i < b.bits) :
    b.fillStep.buffer.getMsbD i = b.buffer.getMsbD i := by
  rw [getMsbD_fillStep hlt (by omega), decide_eq_false (by omega), Bool.false_and, Bool.or_false]

theorem bits_le_fillStep (hlt : b.bits < 32) : b.bits ≤ b.fillStep.bits := by
  rw [fillStep]
  split
  · exact Nat.le_of_lt hlt
  · exact Nat.le_add_right _ _

/-- A refill leaves the bits that are there. -/
theorem fill_keeps (fuel : ℕ) (hi : i < b.bits) :
    i < (fill fuel b).bits ∧ (fill fuel b).buffer.getMsbD i = b.buffer.getMsbD i := by
  induction fuel generalizing b with
  | zero => exact ⟨hi, rfl⟩
  | succ fuel ih =>
    rw [fill]
    split
    · next hlt =>
      obtain ⟨hbits, hkeep⟩ := ih (Nat.lt_of_lt_of_le hi (bits_le_fillStep hlt))
      exact ⟨hbits, hkeep.trans (fillStep_keeps hlt hi)⟩
    · exact ⟨hi, rfl⟩

theorem exists_ne_zero (hbuffer : b.buffer = allOnes 32) (hle : ∀ w ∈ widths, w ≤ 32)
    (hsum : widths.sum ≠ 0) : ∃ value ∈ (readAll shift widths b).1, value ≠ 0 := by
  induction widths generalizing b with
  | nil => exact absurd rfl hsum
  | cons numbits widths ih =>
    rw [readAll_cons]
    by_cases hzero : numbits = 0
    · subst hzero
      have hnext : (b.readOn shift 0).2.buffer = allOnes 32 := by
        rw [readOn, prepare_of_le (Nat.zero_le _), if_pos (by decide)]
        exact (shiftLeft_zero _).trans hbuffer
      obtain ⟨value, hmem, hne⟩ := ih hnext (fun w hw ↦ hle w (mem_cons_of_mem _ hw))
        (by rwa [sum_cons, Nat.zero_add] at hsum)
      exact ⟨value, mem_cons_of_mem _ hmem, hne⟩
    · refine ⟨_, mem_cons_self, fun hfront ↦ ?_⟩
      have hones : ∀ fuel (b : BitstreamIn), b.buffer = allOnes 32 →
          (fill fuel b).buffer = allOnes 32 := by
        intro fuel
        induction fuel with
        | zero => exact fun b hb ↦ hb
        | succ fuel ih =>
          intro b hb
          rw [fill]
          split
          · refine ih _ ?_
            rw [fillStep]
            split
            · exact (congrArg (· ||| _) hb).trans allOnes_or
            · exact (congrArg (· ||| _) hb).trans allOnes_or
          · exact hb
      have hprepare : (b.prepare numbits).buffer = allOnes 32 := by
        rw [prepare]
        split
        · exact hones 32 b hbuffer
        · exact hbuffer
      have hbit := congrArg (Nat.testBit · 0) hfront
      rw [readOn, front, if_neg hzero, hprepare] at hbit
      rw [testBit_toNat, getLsbD_ushiftRight, getLsbD_allOnes, decide_eq_true (by omega),
        Nat.zero_testBit] at hbit
      exact Bool.noConfusion hbit

/-- If more is read behind a field of 32 bits, zeros are not read as zeros on every machine. -/
theorem not_wholeLast (hle : ∀ w ∈ widths, w ≤ 32) (h : ¬ WholeLast widths) (b : BitstreamIn) :
    ∃ value ∈ (readAll (fun _ ↦ allOnes 32) widths b).1, value ≠ 0 := by
  induction widths generalizing b with
  | nil => exact absurd trivial h
  | cons numbits widths ih =>
    have hle' : ∀ w ∈ widths, w ≤ 32 := fun w hw ↦ hle w (mem_cons_of_mem _ hw)
    obtain ⟨value, hmem, hne⟩ : ∃ value ∈ (readAll (fun _ ↦ allOnes 32) widths
        (b.readOn (fun _ ↦ allOnes 32) numbits).2).1, value ≠ 0 := by
      by_cases hwhole : numbits = 32 → widths.sum = 0
      · exact ih hle' (fun hrest ↦ h ⟨hwhole, hrest⟩) _
      · obtain ⟨rfl, hsum⟩ := Classical.not_imp.mp hwhole
        exact exists_ne_zero _ (by rw [readOn, if_neg (by decide)]) hle' hsum
    exact ⟨value, mem_cons_of_mem _ hmem, hne⟩

/-- The bit with this number, of those that are read next, is going to be a zero. -/
def ReadsZero (b : BitstreamIn) (i : ℕ) : Prop :=
  (i < b.bits ∧ b.buffer.getMsbD i = false) ∨
    (i = b.bits ∧ b.buffer.getMsbD i = false ∧ b.dbitoffs < 8 ∧
      bitAt b.data (8 * b.doffset + b.dbitoffs) = false)

theorem ReadsZero.prepare (h : b.ReadsZero i) (hle : numbits ≤ 32) :
    (b.prepare numbits).ReadsZero i ∧
      (i < numbits → (b.prepare numbits).buffer.getMsbD i = false) := by
  rw [BitstreamIn.prepare]
  split
  · next hlt =>
    obtain ⟨hi, hzero⟩ : i < b.fillStep.bits ∧ b.fillStep.buffer.getMsbD i = false := by
      rcases h with ⟨hi, hzero⟩ | ⟨rfl, hzero, hdbitoffs, hnext⟩
      · exact ⟨Nat.lt_of_lt_of_le hi (bits_le_fillStep (by omega)),
          (fillStep_keeps (by omega) hi).trans hzero⟩
      · constructor
        · rw [fillStep]
          split
          · show b.bits < 32
            omega
          · show b.bits < b.bits + (8 - b.dbitoffs)
            omega
        · rw [getMsbD_fillStep (by omega) (by omega), hzero, getMsbD_newbits, Nat.sub_self,
            Nat.add_zero, Nat.sub_self,
            Nat.zero_add, hnext, Bool.and_false, Bool.and_false, Bool.or_false]
    rw [fill, if_pos (by omega)]
    obtain ⟨hi', hkeep⟩ := fill_keeps 31 hi
    exact ⟨Or.inl ⟨hi', hkeep.trans hzero⟩, fun _ ↦ hkeep.trans hzero⟩
  · refine ⟨h, fun hi ↦ ?_⟩
    rcases h with ⟨-, hzero⟩ | ⟨rfl, hzero, -⟩
    · exact hzero
    · exact hzero

/-- A machine that shifts by 32 bits as it does by fewer. -/
theorem readOn_shift (hle : numbits ≤ 32) (b : BitstreamIn) : b.readOn (· <<< 32) numbits =
    ((b.prepare numbits).front numbits, (b.prepare numbits).remove numbits) := by
  rw [readOn, remove]
  split
  · rfl
  · rw [show numbits = 32 by omega]

theorem ReadsZero.readAll (h : b.ReadsZero i) (hle : ∀ f ∈ fields, f.2 ≤ 32)
    (hread : (BitstreamIn.readAll (· <<< 32) (fields.map Prod.snd) b).1 = fields.map Prod.fst)
    (hi : i < (bitsOf fields).length) : (bitsOf fields).getD i false = false := by
  induction fields generalizing b i with
  | nil => exact absurd hi (Nat.not_lt_zero i)
  | cons f fields ih =>
    have hle' := hle f mem_cons_self
    obtain ⟨hprepare, hfront⟩ := h.prepare hle'
    rw [map_cons, map_cons, readAll_cons, readOn_shift hle', List.cons.injEq] at hread
    obtain ⟨hvalue, hrest⟩ := hread
    by_cases hin : i < f.2
    · rw [getD_bitsOf_cons f fields hin, ← hvalue, front, if_neg (by omega), testBit_toNat,
        getLsbD_ushiftRight, show 32 - f.2 + (f.2 - 1 - i) = 32 - 1 - i by omega]
      have hbit := hfront hin
      rwa [getMsbD_eq_getLsbD, decide_eq_true (by omega), Bool.true_and] at hbit
    · have hnext : ((b.prepare f.2).remove f.2).ReadsZero (i - f.2) := by
        have hbuffer : ((b.prepare f.2).remove f.2).buffer.getMsbD (i - f.2) =
            (b.prepare f.2).buffer.getMsbD i := by
          refine (getMsbD_shiftLeft _ _).trans ?_
          rw [Nat.sub_add_cancel (by omega)]
        rcases hprepare with ⟨hlt, hzero⟩ | ⟨heq, hzero, hdbitoffs, hnext⟩
        · refine Or.inl ⟨?_, hbuffer.trans hzero⟩
          show i - f.2 < (b.prepare f.2).bits - f.2
          omega
        · refine Or.inr ⟨?_, hbuffer.trans hzero, hdbitoffs, hnext⟩
          show i - f.2 = (b.prepare f.2).bits - f.2
          omega
      have hlen : (bitsOf (f :: fields)).length = f.2 + (bitsOf fields).length := by
        rw [bitsOf_cons, length_append, length_field]
      have hbit := ih hnext (fun g hg ↦ hle g (mem_cons_of_mem f hg)) hrest (by omega)
      rwa [← getD_bitsOf_add f fields, Nat.add_sub_cancel' (by omega)] at hbit

/-- Where a refill begins inside a byte and is not enough, the bit behind it gets lost: if it is the
only one of the source in front of the limit, it is read as a zero. -/
theorem exists_lost (hle : ∀ w ∈ widths, w ≤ 32) {pos bits : ℕ} (h : ¬ Refills widths pos bits) :
    ∃ lost, pos ≤ lost ∧ lost < pos + widths.sum ∧
      ∀ (b : BitstreamIn) (src : List (BitVec 8)) (limit : ℕ),
      b.Ready src limit pos → b.bits = bits → lost < limit → limit ≤ 8 * 2 ^ 32 →
      (∀ i < limit, bitAt src i = decide (i = lost)) → ∀ fields : List (ℕ × ℕ),
      fields.map Prod.snd = widths → (BitstreamIn.readAll (· <<< 32) widths b).1 =
      fields.map Prod.fst → (bitsOf fields).getD (lost - pos) false = false := by
  induction widths generalizing pos bits with
  | nil => exact absurd trivial h
  | cons numbits widths ih =>
    have hle' := hle numbits mem_cons_self
    have hrest : ∀ w ∈ widths, w ≤ 32 := fun w hw ↦ hle w (mem_cons_of_mem _ hw)
    by_cases hgood : numbits ≤ bits ∨ bits ≤ 24 ∨ (pos + bits) % 8 = 0
    · -- the first read is right, and the bit is lost later
      have hrefills :
          ¬ Refills widths (pos + numbits) ((if numbits ≤ bits then bits else 32) - numbits) := by
        rw [Refills] at h
        split
        · next hthere => rwa [if_pos hthere] at h
        · next hthere => rwa [if_neg hthere, if_pos (by omega)] at h
      obtain ⟨lost, hpos, hlt, hlost⟩ := ih hrest hrefills
      refine ⟨lost, by omega, by rw [sum_cons]; omega, ?_⟩
      intro b src limit hready hbits hlimit hlimit' hsrc fields hfields hread
      obtain ⟨hprepare, hbits'⟩ : (b.prepare numbits).Ready src limit pos ∧
          (b.prepare numbits).bits = if numbits ≤ bits then bits else 32 := by
        split
        · next hthere =>
          rw [prepare_of_le (hbits.symm ▸ hthere)]
          exact ⟨hready, hbits⟩
        · next hthere =>
          have hplace := hready.toAt.dbitoffs_eq
          exact hready.prepare hlimit' (by omega) (by omega)
      cases fields with
      | nil => cases hfields
      | cons f fields =>
        obtain ⟨rfl, hfields'⟩ := List.cons.inj hfields
        rw [map_cons, readAll_cons, readOn_shift hle', List.cons.injEq] at hread
        have hremove := hprepare.remove f.2 (by rw [hbits']; split <;> omega)
        have hbit := hlost _ src limit hremove
          (congrArg (· - f.2) hbits') hlimit hlimit' hsrc fields hfields' hread.2
        rwa [← getD_bitsOf_add f fields,
          show f.2 + (lost - (pos + f.2)) = lost - pos by omega] at hbit
    · -- the refill of the first read is not enough
      rw [Refills, if_neg (by omega), if_neg (by omega)] at h
      obtain ⟨held, hheld⟩ : ∃ held,
          held = bits + min (32 - bits) (8 - (pos + bits) % 8) := ⟨_, rfl⟩
      refine ⟨pos + held, by omega, by rw [sum_cons]; omega, ?_⟩
      intro b src limit hready hbits hlimit hlimit' hsrc fields hfields hread
      subst hbits
      have hplace := hready.toAt.dbitoffs_eq
      rw [hplace] at hheld h hgood
      obtain ⟨hbits', hdoffset, hdbitoffs', hdata, hbuffer⟩ :=
        prepare_inside hready hlimit' numbits (by omega) (by omega) (by omega)
      have hzero : (b.prepare numbits).ReadsZero held := by
        by_cases hshort : held < 32
        · refine Or.inl ⟨by omega, ?_⟩
          rw [hbuffer held hshort (by omega), decide_eq_false (by omega), Bool.false_and]
        · obtain ⟨byte, hbyte, hbyte'⟩ := hready.place
          refine Or.inr ⟨by omega, getMsbD_of_ge _ _ (by omega), by omega, ?_⟩
          rw [hdata, hdoffset, hdbitoffs', hbyte, Nat.mod_eq_of_lt (by omega), hsrc _ (by omega)]
          exact decide_eq_false (by omega)
      have hread' : (BitstreamIn.readAll (· <<< 32) (fields.map Prod.snd) (b.prepare numbits)).1 =
          fields.map Prod.fst := by
        rw [hfields, ← readAll_prepare _ (by omega)]
        exact hread
      rw [Nat.add_sub_cancel_left]
      refine hzero.readAll (fun f hf ↦ hle f.2 ?_) hread' ?_
      · rw [← hfields]
        exact mem_map_of_mem hf
      · rw [length_bitsOf, hfields, sum_cons]
        omega

end BitstreamIn

/-! ## The round trip -/

/-- Fields are written into a buffer and read again, from any data that begin with the bytes that
the writer put out. Both offsets of the reader are then behind these. -/
def RoundTrips (shift : BitVec 32 → BitVec 32) (fields : List (ℕ × ℕ)) (destlength : ℕ) : Prop :=
  ∃ o, BitstreamOut.writeAll fields (BitstreamOut.start destlength) = some o ∧
    ∀ src, o.flush.dest.take o.flush.doffset <+: src →
      (BitstreamIn.readAll shift (fields.map Prod.snd) (BitstreamIn.start src)).1 =
      fields.map Prod.fst ∧
      (BitstreamIn.readAll shift (fields.map Prod.snd) (BitstreamIn.start src)).2.readOffset =
      o.flush.doffset ∧
      (BitstreamIn.readAll shift (fields.map Prod.snd) (BitstreamIn.start src)).2.flush.1 =
      o.flush.doffset

theorem bitAt_of_take {bytes src : List (BitVec 8)} {count : ℕ} (h : bytes.take count <+: src)
    (hcount : count ≤ bytes.length) {i : ℕ} (hi : i < 8 * count) : bitAt src i = bitAt bytes i := by
  obtain ⟨rest, rfl⟩ := h
  rw [bitAt, bitAt, getD_append _ _ _ _ (by rw [length_take]; omega), getD_eq_getElem?_getD,
    getD_eq_getElem?_getD, List.getElem?_take_of_lt (by omega)]

/-- Fields of these widths whose bits are zero but for one. -/
def oneAt (lost : ℕ) : ℕ → List ℕ → List (ℕ × ℕ)
  | _, [] => []
  | pos, numbits :: widths =>
      (if pos ≤ lost ∧ lost < pos + numbits then 2 ^ (pos + numbits - 1 - lost) else 0, numbits) ::
        oneAt lost (pos + numbits) widths

theorem map_snd_oneAt (lost pos : ℕ) (widths : List ℕ) :
    (oneAt lost pos widths).map Prod.snd = widths := by
  induction widths generalizing pos with
  | nil => rfl
  | cons numbits widths ih => rw [oneAt, map_cons, ih]

variable {lost pos : ℕ} {widths : List ℕ}

theorem oneAt_lt : ∀ f ∈ oneAt lost pos widths, f.1 < 2 ^ f.2 := by
  induction widths generalizing pos with
  | nil => exact fun f hf ↦ absurd hf not_mem_nil
  | cons numbits widths ih =>
    intro f hf
    rcases List.mem_cons.mp hf with rfl | hf
    · split
      · exact Nat.pow_lt_pow_right (by decide) (by omega)
      · exact Nat.two_pow_pos numbits
    · exact ih f hf

theorem getD_oneAt {i : ℕ} (hi : i < widths.sum) :
    (bitsOf (oneAt lost pos widths)).getD i false = decide (pos + i = lost) := by
  induction widths generalizing pos i with
  | nil => exact absurd hi (Nat.not_lt_zero i)
  | cons numbits widths ih =>
    rw [sum_cons] at hi
    rw [oneAt]
    by_cases hin : i < numbits
    · rw [BitstreamIn.getD_bitsOf_cons _ _ hin]
      split
      · rw [Nat.testBit_two_pow]
        exact decide_eq_decide.mpr (by omega)
      · rw [Nat.zero_testBit]
        exact (decide_eq_false (by omega)).symm
    · have hadd := BitstreamIn.getD_bitsOf_add (if pos ≤ lost ∧ lost < pos + numbits then
        2 ^ (pos + numbits - 1 - lost)
          else 0, numbits) (oneAt lost (pos + numbits) widths) (i - numbits)
      rw [Nat.add_sub_cancel' (by omega)] at hadd
      rw [hadd, ih (by omega)]
      exact decide_eq_decide.mpr (by omega)

theorem oneAt_eq_zero (hle : pos + widths.sum ≤ lost) : ∀ f ∈ oneAt lost pos widths, f.1 = 0 := by
  induction widths generalizing pos with
  | nil => exact fun f hf ↦ absurd hf not_mem_nil
  | cons numbits widths ih =>
    rw [sum_cons] at hle
    intro f hf
    rcases List.mem_cons.mp hf with rfl | hf
    · exact if_neg (by omega)
    · exact ih (by omega) f hf

/-- What the writer leaves: the bits of the fields in the bytes that it put out, which are as many
as they need. -/
theorem exists_written {fields : List (ℕ × ℕ)} (hle : ∀ f ∈ fields, f.2 ≤ 32) (destlength : ℕ)
    (hroom : (bitsOf fields).length ≤ 8 * destlength) (hlength : destlength < 2 ^ 32) :
    ∃ o, BitstreamOut.writeAll fields (BitstreamOut.start destlength) = some o ∧
      o.flush.doffset = ((bitsOf fields).length + 7) / 8 ∧
      ∀ src, o.flush.dest.take o.flush.doffset <+: src →
        ∀ i < 8 * o.flush.doffset, bitAt src i = (bitsOf fields).getD i false := by
  have hdest : (BitstreamOut.start destlength).dest.length = destlength := length_replicate
  obtain ⟨o, hwrite, hwrote, hdest'⟩ := (BitstreamOut.wrote_start destlength).writeAll hle
    (by rw [hdest, length_nil, Nat.zero_add]; exact hroom) (by rw [hdest]; exact hlength)
  rw [nil_append] at hwrote
  obtain ⟨hdoffset, hflushed, hbits⟩ := hwrote.flush (by rw [hdest', hdest]; exact hroom)
    (by rw [hdest', hdest]; exact hlength)
  have hinside : o.flush.doffset ≤ o.flush.dest.length := by
    rw [hdoffset, hflushed, hdest', hdest]
    omega
  refine ⟨o, hwrite, hdoffset, fun src hsrc i hi ↦ ?_⟩
  rw [bitAt_of_take hsrc hinside hi, hbits i hi]

/-- If all fields of these widths are read as they were written, then so are those with a single one
among their bits, or none. -/
theorem exists_read_oneAt (hle : ∀ w ∈ widths, w ≤ 32) (hsum : widths.sum ≤ 8 * (2 ^ 32 - 1))
    (shift : BitVec 32 → BitVec 32)
    (h : ∀ (fields : List (ℕ × ℕ)) (destlength : ℕ), fields.map Prod.snd = widths →
      (∀ f ∈ fields, f.1 < 2 ^ f.2) → widths.sum ≤ 8 * destlength → destlength < 2 ^ 32 →
      RoundTrips shift fields destlength) (lost : ℕ) :
    ∃ src, (∀ i < 8 * ((widths.sum + 7) / 8), bitAt src i = decide (i = lost ∧ lost < widths.sum)) ∧
      (BitstreamIn.readAll shift widths (BitstreamIn.start src)).1 =
      (oneAt lost 0 widths).map Prod.fst := by
  have hlength : (bitsOf (oneAt lost 0 widths)).length = widths.sum := by
    rw [length_bitsOf, map_snd_oneAt]
  have hle' : ∀ f ∈ oneAt lost 0 widths, f.2 ≤ 32 := by
    intro f hf
    refine hle f.2 ?_
    have hmem := mem_map_of_mem (f := Prod.snd) hf
    rwa [map_snd_oneAt] at hmem
  obtain ⟨o, hwrite, hdoffset, hbits⟩ :=
    exists_written hle' ((widths.sum + 7) / 8) (by omega) (by omega)
  obtain ⟨o', hwrite', hread⟩ := h (oneAt lost 0 widths) ((widths.sum + 7) / 8)
    (map_snd_oneAt lost 0 widths) oneAt_lt (by omega) (by omega)
  obtain rfl := Option.some.inj (hwrite.symm.trans hwrite')
  rw [hlength] at hdoffset
  refine ⟨o.flush.dest.take o.flush.doffset, fun i hi ↦ ?_, ?_⟩
  · rw [hbits _ (prefix_refl _) i (by omega)]
    by_cases hin : i < widths.sum
    · rw [getD_oneAt hin, Nat.zero_add]
      exact decide_eq_decide.mpr (by omega)
    · rw [getD_eq_default _ _ (by omega)]
      exact (decide_eq_false (by omega)).symm
  · have hvalues := (hread _ (prefix_refl _)).1
    rwa [map_snd_oneAt] at hvalues

/-- Fields of these widths are read as they were written, with any values and on any machine,
exactly if nothing is read behind 32 bits at once and every refill inside a byte is enough. -/
theorem roundTrips_iff_of_widths (widths : List ℕ)
    (hle : ∀ w ∈ widths, w ≤ 32) (hsum : widths.sum ≤ 8 * (2 ^ 32 - 1)) :
    (∀ (shift : BitVec 32 → BitVec 32) (fields : List (ℕ × ℕ)) (destlength : ℕ),
      fields.map Prod.snd = widths →
      (∀ f ∈ fields, f.1 < 2 ^ f.2) → widths.sum ≤ 8 * destlength → destlength < 2 ^ 32 →
      RoundTrips shift fields destlength) ↔
    BitstreamIn.WholeLast widths ∧ BitstreamIn.Refills widths 0 0 := by
  constructor
  · intro h
    constructor
    · refine Classical.byContradiction fun hwhole ↦ ?_
      obtain ⟨src, -, hread⟩ := exists_read_oneAt hle hsum (fun _ ↦ allOnes 32) (h _) widths.sum
      obtain ⟨value, hmem, hne⟩ := BitstreamIn.not_wholeLast hle hwhole (BitstreamIn.start src)
      rw [hread] at hmem
      obtain ⟨f, hf, rfl⟩ := List.mem_map.mp hmem
      exact hne (oneAt_eq_zero (by omega) f hf)
    · refine Classical.byContradiction fun hrefills ↦ ?_
      obtain ⟨lost, -, hlt, hlost⟩ := BitstreamIn.exists_lost hle hrefills
      obtain ⟨src, hsrc, hread⟩ := exists_read_oneAt hle hsum (· <<< 32) (h _) lost
      have hbit := hlost _ src (8 * ((widths.sum + 7) / 8)) (BitstreamIn.ready_start src _) rfl
        (by omega) (by omega)
        (fun i hi ↦ (hsrc i hi).trans (decide_eq_decide.mpr (by omega))) _
        (map_snd_oneAt lost 0 widths) hread
      rw [getD_oneAt (by omega), decide_eq_true (by omega)] at hbit
      exact Bool.noConfusion hbit
  · rintro ⟨hwhole, hrefills⟩ shift fields destlength rfl hvalues hroom hlength
    have hle' : ∀ f ∈ fields, f.2 ≤ 32 := fun f hf ↦ hle f.2 (mem_map_of_mem hf)
    have hlen := length_bitsOf fields
    obtain ⟨o, hwrite, hdoffset, hbits⟩ := exists_written hle' destlength (by omega) hlength
    refine ⟨o, hwrite, fun src hsrc ↦ ?_⟩
    have hstart : StartsAt src 0 (bitsOf fields) := fun i hi ↦ by
      rw [Nat.zero_add]
      exact hbits src hsrc i (by omega)
    obtain ⟨hread, hends⟩ := (BitstreamIn.ready_start src (bitsOf fields).length).readAll shift
      (by omega) (fun f hf ↦ ⟨hle' f hf, hvalues f hf⟩) hstart (by omega) hwhole hrefills
    rw [Nat.zero_add] at hends
    exact ⟨hread, hends.1.trans hdoffset.symm, hends.2.trans hdoffset.symm⟩

/-- A field of 32 bits at the end. -/
theorem roundTrips_widths_short :
    RoundTrips (· <<< 32) [(5, 3), (0xabcdef, 24), (0x12345678, 32)] 8 :=
  (roundTrips_iff_of_widths [3, 24, 32] (by decide) (by decide)).mpr (by decide) _ _ _ rfl
    (by decide) (by decide) (by decide)

/-- The last bit of four fields is written as a one and read as a zero. -/
theorem not_roundTrips_inside : ¬ RoundTrips (· <<< 32) [(0, 31), (0, 2), (0, 31), (1, 1)] 16 := by
  rintro ⟨o, hwrite, hread⟩
  obtain rfl := Option.some.inj hwrite
  exact absurd (hread _ (prefix_refl _)).1 (by decide)

end RoscoEmulator.Util
