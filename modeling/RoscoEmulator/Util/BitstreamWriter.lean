import RoscoEmulator.Util.Bitstream

/-!
# The writer of bit streams

What the writer holds: the bits of the fields that have been written, the first of them in the bytes
and the others at the high end of the accumulator. After `flush` the bytes have them all, with zeros
up to a whole number of bytes. -/

namespace RoscoEmulator.Util

open BitVec List BitString

/-- The bits of a list of fields, each a value with its number of bits. -/
def bitsOf (fields : List (ℕ × ℕ)) : List Bool := fields.flatMap fun f ↦ field f.2 f.1

theorem bitsOf_cons (f : ℕ × ℕ) (fields : List (ℕ × ℕ)) :
    bitsOf (f :: fields) = field f.2 f.1 ++ bitsOf fields :=
  flatMap_cons

theorem length_bitsOf (fields : List (ℕ × ℕ)) :
    (bitsOf fields).length = (fields.map Prod.snd).sum := by
  induction fields with
  | nil => rfl
  | cons f fields ih => rw [bitsOf_cons, length_append, length_field, ih, map_cons, sum_cons]

namespace BitstreamOut

/-- The bits are in the bytes, and then in the accumulator, with zeros behind them. -/
structure Holds (o : BitstreamOut) (s : List Bool) : Prop where
  written : ∀ i < 8 * o.doffset, bitAt o.dest i = s.getD i false
  pending : ∀ i, o.buffer.getMsbD i = s.getD (8 * o.doffset + i) false

/-- The writer holds the bits, and counts them. -/
structure Wrote (o : BitstreamOut) (s : List Bool) : Prop extends Holds o s where
  length : s.length = 8 * o.doffset + o.bits
  bits_le : o.bits ≤ 32

variable {o : BitstreamOut} {s : List Bool}

/-- The writer over a buffer with any contents. -/
def into (dest : List (BitVec 8)) : BitstreamOut := ⟨0, 0, dest, 0⟩

theorem wrote_into (dest : List (BitVec 8)) : (into dest).Wrote [] where
  written i hi := absurd hi (Nat.not_lt_zero i)
  pending i := by
    rw [getD_nil]
    exact getMsbD_zero
  length := rfl
  bits_le := Nat.zero_le 32

theorem wrote_start (destlength : ℕ) : (start destlength).Wrote [] := wrote_into _

/-- The high byte of a double word has its first eight bits. -/
theorem getMsbD_highByte (x : BitVec 32) {i : ℕ} (hi : i < 8) :
    ((x >>> 24).setWidth 8).getMsbD i = x.getMsbD i := by
  rw [getMsbD_eq_getLsbD, getMsbD_eq_getLsbD, decide_eq_true hi,
    decide_eq_true (by omega : i < 32), getLsbD_setWidth, getLsbD_ushiftRight,
    decide_eq_true (by omega : 8 - 1 - i < 8),
      show 24 + (8 - 1 - i) = 32 - 1 - i by omega, Bool.true_and]

theorem Holds.putByte (h : o.Holds s) (hroom : o.doffset < o.dest.length)
    (hlength : o.dest.length < 2 ^ 32) : o.putByte.Holds s ∧ o.putByte.doffset = o.doffset + 1 ∧
    o.putByte.dest.length = o.dest.length := by
  have hdoffset : o.putByte.doffset = o.doffset + 1 := Nat.mod_eq_of_lt (by omega)
  refine ⟨⟨fun i hi ↦ ?_, fun i ↦ ?_⟩, hdoffset, length_set⟩
  · rw [hdoffset] at hi
    show bitAt (o.dest.set o.doffset _) i = _
    by_cases hlast : i / 8 = o.doffset
    · have hbit := h.pending (i % 8)
      rw [show 8 * o.doffset + i % 8 = i by omega] at hbit
      rw [bitAt, hlast, getD_eq_getElem _ _ (by rwa [length_set]), getElem_set_self,
        getMsbD_highByte _ (Nat.mod_lt _ (by decide)), hbit]
    · rw [← h.written i (by omega), bitAt, bitAt, getD_eq_getElem?_getD, getD_eq_getElem?_getD,
        List.getElem?_set_ne (Ne.symm hlast)]
  · rw [hdoffset]
    show (o.buffer <<< 8).getMsbD i = _
    rw [getMsbD_shiftLeft, h.pending,
      show 8 * (o.doffset + 1) + i = 8 * o.doffset + (i + 8) by omega]

variable {fields : List (ℕ × ℕ)} (fuel : ℕ)

/-- Whole bytes go out, and less than a byte is left. -/
theorem Wrote.drain (h : o.Wrote s) (hroom : s.length ≤ 8 * o.dest.length)
    (hlength : o.dest.length < 2 ^ 32) (hfuel : o.bits ≤ 8 * fuel + 7) :
    (BitstreamOut.drain 8 fuel o).Wrote s ∧ (BitstreamOut.drain 8 fuel o).bits < 8 ∧
      (BitstreamOut.drain 8 fuel o).dest.length = o.dest.length := by
  induction fuel generalizing o with
  | zero => exact ⟨h, by rw [BitstreamOut.drain]; omega, rfl⟩
  | succ fuel ih =>
    rw [BitstreamOut.drain]
    split
    · next hbits =>
      have hcount := h.length
      have hle := h.bits_le
      obtain ⟨hput, hdoffset, hdest⟩ := h.toHolds.putByte (by omega) hlength
      have hbits' : o.putByte.bits = o.bits - 8 := rfl
      have hnext : o.putByte.Wrote s := ⟨hput, by omega, by omega⟩
      obtain ⟨hlast, hlt, hdest'⟩ := ih hnext (hdest.symm ▸ hroom) (hdest.symm ▸ hlength) (by omega)
      exact ⟨hlast, hlt, hdest'.trans hdest⟩
    · exact ⟨h, by omega, rfl⟩

/-- New bits at the high end of a double word go behind those of the accumulator. -/
theorem Wrote.accept (newbits : BitVec 32) {t : List Bool} (h : o.Wrote s) (count : ℕ)
    (hnew : ∀ i, newbits.getMsbD i = t.getD i false)
    (hcount : o.bits + count = 32 ∧ count ≤ t.length ∨ o.bits + count ≤ 32 ∧ count = t.length) :
    (o.accept newbits count).Wrote (s ++ t.take count) := by
  have hlength := h.length
  have hcount' : count ≤ t.length ∧ o.bits + count ≤ 32 := by omega
  refine ⟨⟨fun i hi ↦ ?_, fun i ↦ ?_⟩, ?_, hcount'.2⟩
  · have hi' : i < 8 * o.doffset := hi
    rw [getD_append _ _ _ _ (by omega)]
    exact h.written i hi
  · show (o.buffer ||| newbits >>> o.bits).getMsbD i =
        (s ++ t.take count).getD (8 * o.doffset + i) false
    rw [getMsbD_or, h.pending, getMsbD_ushiftRight]
    by_cases hold : i < o.bits
    · rw [getD_append _ _ _ _ (by omega), decide_eq_true hold]
      simp
    · rw [getD_eq_default s _ (by omega), getD_append_right _ _ _ _ (by omega),
        decide_eq_false hold, hnew, show 8 * o.doffset + i - s.length = i - o.bits by omega]
      by_cases hin : i - o.bits < count
      · rw [decide_eq_true (by omega : i < 32), getD_eq_getElem?_getD, getD_eq_getElem?_getD,
          List.getElem?_take_of_lt hin]
        simp
      · rw [getD_eq_default (t.take count) _ (by rw [length_take]; omega)]
        by_cases hin' : i < 32
        · rw [getD_eq_default t _ (by omega)]
          simp
        · rw [decide_eq_false hin']
          simp
  · show _ = 8 * o.doffset + (o.bits + count)
    rw [length_append, length_take]
    omega

theorem Wrote.writeLoop {newbits : BitVec 32} {t : List Bool} (h : o.Wrote s)
    (hnew : ∀ i, newbits.getMsbD i = t.getD i false) (hle : t.length ≤ 32)
    (hroom : s.length + t.length ≤ 8 * o.dest.length) (hlength : o.dest.length < 2 ^ 32)
    (hfuel : t.length + 2 ≤ fuel ∨ o.bits + t.length < 32 ∧ 1 ≤ fuel) :
    (BitstreamOut.writeLoop fuel newbits t.length o).Wrote (s ++ t) ∧
      (BitstreamOut.writeLoop fuel newbits t.length o).dest.length = o.dest.length := by
  induction fuel generalizing o s t newbits with
  | zero => omega
  | succ fuel ih =>
    rw [BitstreamOut.writeLoop]
    by_cases hflush : 32 ≤ o.bits + t.length ∧ 0 < t.length
    · obtain ⟨hdrained, hlt, hdest⟩ := h.drain o.bits (by omega) hlength (by omega)
      rw [if_pos hflush]
      dsimp only
      generalize BitstreamOut.drain 8 o.bits o = d at hdrained hlt hdest
      by_cases hmore : 32 ≤ d.bits + t.length
      · -- the accumulator is filled up, and the rest of the bits are left
        obtain ⟨rem, hrem⟩ : ∃ rem, rem = min (32 - d.bits) t.length := ⟨_, rfl⟩
        have haccept := hdrained.accept newbits rem hnew (by omega)
        have hrest : ∀ i, (newbits <<< rem).getMsbD i = (t.drop rem).getD i false := by
          intro i
          rw [getMsbD_shiftLeft, hnew, getD_eq_getElem?_getD, getD_eq_getElem?_getD,
            List.getElem?_drop, Nat.add_comm]
        have hlen : (t.drop rem).length = t.length - rem := length_drop
        have hroom' : (s ++ t.take rem).length + (t.drop rem).length ≤ 8 * d.dest.length := by
          rw [length_append, length_take]
          omega
        obtain ⟨hwrote, hdest'⟩ :=
          ih haccept hrest (by omega) hroom' (hdest.symm ▸ hlength) (by omega)
        rw [if_pos hmore, ← hrem, ← hlen]
        rw [List.append_assoc, take_append_drop] at hwrote
        exact ⟨hwrote, hdest'.trans hdest⟩
      · rw [if_neg hmore]
        obtain ⟨hwrote, hdest'⟩ := ih hdrained hnew hle (by omega) (by omega) (by omega)
        exact ⟨hwrote, hdest'.trans hdest⟩
    · rw [if_neg hflush]
      split
      · next hempty =>
        rw [eq_nil_of_length_eq_zero hempty, append_nil]
        exact ⟨h, rfl⟩
      · have haccept := h.accept newbits t.length hnew (by omega)
        rw [take_length] at haccept
        exact ⟨haccept, rfl⟩

/-- A field stands at the high end after the first shift of `write`. -/
theorem getMsbD_field (value : ℕ) {numbits : ℕ} (hle : numbits ≤ 32) (i : ℕ) :
    (BitVec.ofNat 32 value <<< (32 - numbits)).getMsbD i = (field numbits value).getD i false := by
  by_cases hi : i < numbits
  · rw [getMsbD_shiftLeft, getMsbD_eq_getLsbD, getLsbD_ofNat, getD_field hi,
      decide_eq_true (by omega : i + (32 - numbits) < 32),
      decide_eq_true (by omega : 32 - 1 - (i + (32 - numbits)) < 32),
      show 32 - 1 - (i + (32 - numbits)) = numbits - 1 - i by omega, Bool.true_and, Bool.true_and]
  · rw [getD_eq_default _ _ (by rw [length_field]; omega), getMsbD_shiftLeft, getMsbD_eq_getLsbD,
      decide_eq_false (by omega), Bool.false_and]

theorem Wrote.write (value : ℕ) {numbits : ℕ} (h : o.Wrote s) (hle : numbits ≤ 32)
    (hroom : s.length + numbits ≤ 8 * o.dest.length) (hlength : o.dest.length < 2 ^ 32) :
    ∃ o', o.write (BitVec.ofNat 32 value) numbits = some o' ∧ o'.Wrote (s ++ field numbits value) ∧
      o'.dest.length = o.dest.length := by
  have hlen := length_field numbits value
  have hloop := h.writeLoop (numbits + 2) (getMsbD_field value hle) (by omega) (by omega) hlength
    (by omega)
  rw [hlen] at hloop
  rw [BitstreamOut.write, if_neg (by omega)]
  exact ⟨_, rfl, hloop⟩

theorem Wrote.writeAll (h : o.Wrote s) (hle : ∀ f ∈ fields, f.2 ≤ 32)
    (hroom : s.length + (bitsOf fields).length ≤ 8 * o.dest.length)
    (hlength : o.dest.length < 2 ^ 32) :
    ∃ o', BitstreamOut.writeAll fields o = some o' ∧ o'.Wrote (s ++ bitsOf fields) ∧
      o'.dest.length = o.dest.length := by
  induction fields generalizing o s with
  | nil => exact ⟨o, rfl, by rwa [bitsOf, flatMap_nil, append_nil], rfl⟩
  | cons f fields ih =>
    rw [bitsOf_cons, length_append, length_field] at hroom
    obtain ⟨o₁, hwrite, hwrote, hdest⟩ := h.write f.1 (hle f mem_cons_self) (by omega) hlength
    obtain ⟨o₂, hall, hwrote', hdest'⟩ := ih hwrote (fun g hg ↦ hle g (mem_cons_of_mem f hg))
      (by rw [length_append, length_field, hdest]; omega) (hdest.symm ▸ hlength)
    refine ⟨o₂, ?_, ?_, hdest'.trans hdest⟩
    · rw [BitstreamOut.writeAll, hwrite]
      exact hall
    · rwa [bitsOf_cons, ← List.append_assoc]

/-- The loop of `flush` puts out a byte for every eight bits or less. -/
theorem drain_one (h : o.Holds s) (hroom : 8 * o.doffset + o.bits ≤ 8 * o.dest.length)
    (hlength : o.dest.length < 2 ^ 32) (hfuel : o.bits ≤ fuel) :
    (drain 1 fuel o).Holds s ∧ (drain 1 fuel o).doffset = o.doffset + (o.bits + 7) / 8 ∧
      (drain 1 fuel o).dest.length = o.dest.length := by
  induction fuel generalizing o with
  | zero =>
    rw [drain]
    exact ⟨h, by omega, rfl⟩
  | succ fuel ih =>
    rw [drain]
    split
    · next hbits =>
      obtain ⟨hput, hdoffset, hdest⟩ := h.putByte (by omega) hlength
      have hbits' : o.putByte.bits = o.bits - 8 := rfl
      obtain ⟨hlast, hdoffset', hdest'⟩ := ih hput (by omega) (hdest.symm ▸ hlength) (by omega)
      exact ⟨hlast, by omega, hdest'.trans hdest⟩
    · exact ⟨h, by omega, rfl⟩

/-- After `flush` the bits are in the bytes, and as many bytes as they need have been put out. -/
theorem Wrote.flush
    (h : o.Wrote s) (hroom : s.length ≤ 8 * o.dest.length) (hlength : o.dest.length < 2 ^ 32) :
    o.flush.doffset = (s.length + 7) / 8 ∧ o.flush.dest.length = o.dest.length ∧
      ∀ i < 8 * o.flush.doffset, bitAt o.flush.dest i = s.getD i false := by
  have hcount := h.length
  obtain ⟨hholds, hdoffset, hdest⟩ := drain_one o.bits h.toHolds (by omega) hlength (Nat.le_refl _)
  refine ⟨?_, hdest, hholds.written⟩
  show (BitstreamOut.drain 1 o.bits o).doffset = _
  omega

/-! ## Writing behind the end -/

/-- The same writer in front of another buffer. -/
def onto (o : BitstreamOut) (dest : List (BitVec 8)) : BitstreamOut := { o with dest }

/-- What the writer counts does not depend on its buffer, and it keeps the length of that. -/
theorem exists_onto_drain (least fuel : ℕ) (o : BitstreamOut) (dest : List (BitVec 8)) :
    ∃ dest', dest'.length = dest.length ∧
      drain least fuel (o.onto dest) = (drain least fuel o).onto dest' := by
  induction fuel generalizing o dest with
  | zero => exact ⟨dest, rfl, rfl⟩
  | succ fuel ih =>
    rw [drain, drain]
    by_cases hleast : least ≤ o.bits
    · obtain ⟨dest', hlength, hdrain⟩ :=
        ih o.putByte (dest.set o.doffset ((o.buffer >>> 24).setWidth 8))
      rw [if_pos hleast, if_pos (show least ≤ (o.onto dest).bits from hleast)]
      exact ⟨dest', hlength.trans length_set, hdrain⟩
    · rw [if_neg hleast, if_neg (show ¬ least ≤ (o.onto dest).bits from hleast)]
      exact ⟨dest, rfl, rfl⟩

theorem exists_onto_writeLoop (newbits : BitVec 32) (numbits : ℕ) (o : BitstreamOut)
    (dest : List (BitVec 8)) : ∃ dest', dest'.length = dest.length ∧
      writeLoop fuel newbits numbits (o.onto dest) =
        (writeLoop fuel newbits numbits o).onto dest' := by
  induction fuel generalizing newbits numbits o dest with
  | zero => exact ⟨dest, rfl, rfl⟩
  | succ fuel ih =>
    rw [writeLoop, writeLoop]
    by_cases hflush : 32 ≤ o.bits + numbits ∧ 0 < numbits
    · rw [if_pos hflush, if_pos (show 32 ≤ (o.onto dest).bits + numbits ∧ 0 < numbits from hflush)]
      obtain ⟨dest₁, hlength₁, hdrain⟩ := exists_onto_drain 8 o.bits o dest
      rw [show (o.onto dest).bits = o.bits from rfl, hdrain]
      obtain ⟨d, hd⟩ : ∃ d, d = drain 8 o.bits o := ⟨_, rfl⟩
      rw [← hd]
      by_cases hmore : 32 ≤ d.bits + numbits
      · rw [if_pos hmore, if_pos (show 32 ≤ (d.onto dest₁).bits + numbits from hmore)]
        obtain ⟨dest', hlength', hloop⟩ := ih (newbits <<< min (32 - d.bits) numbits)
          (numbits - min (32 - d.bits) numbits) (d.accept newbits (min (32 - d.bits) numbits)) dest₁
        exact ⟨dest', hlength'.trans hlength₁, hloop⟩
      · rw [if_neg hmore, if_neg (show ¬ 32 ≤ (d.onto dest₁).bits + numbits from hmore)]
        obtain ⟨dest', hlength', hloop⟩ := ih newbits numbits d dest₁
        exact ⟨dest', hlength'.trans hlength₁, hloop⟩
    · rw [if_neg hflush,
        if_neg (show ¬ (32 ≤ (o.onto dest).bits + numbits ∧ 0 < numbits) from hflush)]
      split_ifs
      · exact ⟨dest, rfl, rfl⟩
      · exact ⟨dest, rfl, rfl⟩

theorem exists_onto_writeAll {o o' : BitstreamOut} (dest : List (BitVec 8))
    (h : writeAll fields o = some o') : ∃ dest', dest'.length = dest.length ∧
      writeAll fields (o.onto dest) = some (o'.onto dest') := by
  induction fields generalizing o dest with
  | nil =>
    cases Option.some.inj h
    exact ⟨dest, rfl, rfl⟩
  | cons f fields ih =>
    obtain ⟨o₁, hwrite, hrest⟩ := Option.bind_eq_some_iff.mp h
    rw [write] at hwrite
    split_ifs at hwrite with hwide
    cases Option.some.inj hwrite
    obtain ⟨dest₁, hlength₁, hloop⟩ :=
      exists_onto_writeLoop (f.2 + 2) (BitVec.ofNat 32 f.1 <<< (32 - f.2)) f.2 o dest
    obtain ⟨dest', hlength', hall⟩ := ih dest₁ hrest
    refine ⟨dest', hlength'.trans hlength₁, ?_⟩
    rw [writeAll, write, if_neg hwide, hloop]
    exact hall

theorem exists_onto_flush (o : BitstreamOut) (dest : List (BitVec 8)) :
    ∃ dest', dest'.length = dest.length ∧ (o.onto dest).flush = o.flush.onto dest' := by
  obtain ⟨dest', hlength, hdrain⟩ := exists_onto_drain 1 o.bits o dest
  refine ⟨dest', hlength, ?_⟩
  rw [BitstreamOut.flush, show (o.onto dest).bits = o.bits from rfl, hdrain]
  rfl

/-- **A writer that is inside its buffer in the end** had the room for all of the bits. -/
theorem room_of_flush (hle : ∀ f ∈ fields, f.2 ≤ 32)
    (hcount : (bitsOf fields).length ≤ 8 * (2 ^ 32 - 1))
    {dest : List (BitVec 8)} {o : BitstreamOut} (h : writeAll fields (into dest) = some o)
    (hin : o.flush.overflow = false) : (bitsOf fields).length ≤ 8 * dest.length := by
  -- the same in front of a buffer that is large enough
  obtain ⟨large, hlarge⟩ : ∃ large : List (BitVec 8), large.length = 2 ^ 32 - 1 :=
    ⟨List.replicate (2 ^ 32 - 1) 0, length_replicate⟩
  have hover : (into large).dest.length = 2 ^ 32 - 1 := hlarge
  obtain ⟨o', hwrite, hwrote, hdest⟩ := (wrote_into large).writeAll hle
    (by rw [length_nil, hover]; omega) (by rw [hover]; omega)
  rw [nil_append] at hwrote
  obtain ⟨hdoffset, -, -⟩ :=
    hwrote.flush (by rw [hdest, hover]; omega) (by rw [hdest, hover]; omega)
  obtain ⟨large', -, hwrite'⟩ := exists_onto_writeAll large h
  cases Option.some.inj (hwrite.symm.trans hwrite')
  obtain ⟨large'', -, hflush⟩ := exists_onto_flush o large'
  rw [hflush] at hdoffset
  -- and in front of its own
  obtain ⟨dest₁, hlength₁, hwrite₁⟩ := exists_onto_writeAll dest h
  have hsame : o = o.onto dest₁ := Option.some.inj (h.symm.trans hwrite₁)
  obtain ⟨dest₂, hlength₂, hflush₂⟩ := exists_onto_flush o dest₁
  rw [hsame, hflush₂, BitstreamOut.overflow, decide_eq_false_iff_not] at hin
  have hlength : (o.flush.onto dest₂).dest.length = dest.length := hlength₂.trans hlength₁
  have hcounted : (o.flush.onto dest₂).doffset = ((bitsOf fields).length + 7) / 8 := hdoffset
  omega

end BitstreamOut

end RoscoEmulator.Util
