import RoscoEmulator.Memory.Addresses

/-!
# Which handler an access reaches

An installation sends the addresses of its range and of the mirrors of it to its handler and leaves
the others alone: cutting the ranges moves no handler, and a table that replaces an entry starts
with the handler that was there. So the last installation that covers an address decides. -/

namespace RoscoEmulator.Memory

open Nat List Submask

variable {α H : Type*}

/-! ## Cutting ranges -/

theorem Table.dispatch_rangeCutBefore (cut : α → Option α) (address start : ℕ) (t : Table α)
    (i : ℕ) : (t.rangeCutBefore cut address start).dispatch i = t.dispatch i ∨
      cut (t.dispatch i) = some ((t.rangeCutBefore cut address start).dispatch i) := by
  induction start generalizing t with
  | zero => exact Or.inl rfl
  | succ start ih =>
    rw [Table.rangeCutBefore]
    rcases hcut : cut (t.dispatch start) with _ | e
    · split_ifs
      · exact Or.inl rfl
      · exact ih _
    · by_cases hi : i = start
      · subst hi
        exact Or.inr (hcut.trans (congrArg some (t.setDispatch_self i e).symm))
      · exact Or.inl (t.setDispatch_of_ne hi e)

theorem Table.dispatch_rangeCutAfterFrom (cut : α → Option α) (address n start : ℕ) (t : Table α)
    (i : ℕ) : (t.rangeCutAfterFrom cut address n start).dispatch i = t.dispatch i ∨
      cut (t.dispatch i) = some ((t.rangeCutAfterFrom cut address n start).dispatch i) := by
  induction n generalizing t start with
  | zero => exact Or.inl rfl
  | succ n ih =>
    rw [Table.rangeCutAfterFrom]
    rcases hcut : cut (t.dispatch start) with _ | e
    · split_ifs
      · exact Or.inl rfl
      · exact ih _ _
    · by_cases hi : i = start
      · subst hi
        exact Or.inr (hcut.trans (congrArg some (t.setDispatch_self i e).symm))
      · exact Or.inl (t.setDispatch_of_ne hi e)

namespace LowDispatch

@[simp] theorem dispatch_rangeCutBefore (address start : ℕ) (t : LowDispatch H) :
    (rangeCutBefore address start t).dispatch = t.dispatch := by
  funext i
  rcases Table.dispatch_rangeCutBefore noTable address start t i with h | h
  · exact h
  · simp [noTable] at h

@[simp] theorem dispatch_rangeCutAfter (highBits unit address first : ℕ) (t : LowDispatch H) :
    (rangeCutAfter highBits unit address first t).dispatch = t.dispatch := by
  funext i
  rcases Table.dispatch_rangeCutAfterFrom noTable address
      (count highBits unit - first) first t i with
    h | h
  · exact h
  · simp [noTable] at h

end LowDispatch

namespace HighDispatch

variable (g : Geometry)

@[simp] theorem read_rangeCutBefore (address start : ℕ) (t : HighDispatch H) (a : ℕ) :
    read g a (rangeCutBefore g address start t) = read g a t := by
  rw [read, read]
  set i := dispatchEntry g.highBits upperBits a
  rcases Table.dispatch_rangeCutBefore (cutBeforeIn g address) address start t i with h | h
  · exact congrArg (Entry.read g.unit a) h
  · rcases hi : t.dispatch i with h' | sub
    · simp [hi, cutBeforeIn] at h
    · rw [hi, cutBeforeIn, Option.some_inj] at h
      rw [rangeCutBefore, ← h, Entry.read, Entry.read, LowDispatch.read, LowDispatch.read,
        LowDispatch.dispatch_rangeCutBefore]

@[simp] theorem read_rangeCutAfter (address first : ℕ) (t : HighDispatch H) (a : ℕ) :
    read g a (rangeCutAfter g address first t) = read g a t := by
  rw [read, read]
  set i := dispatchEntry g.highBits upperBits a
  rcases Table.dispatch_rangeCutAfterFrom (cutAfterIn g address) address
    (count g.highBits upperBits - first) first t i with h | h
  · exact congrArg (Entry.read g.unit a) h
  · rcases hi : t.dispatch i with h' | sub
    · simp [hi, cutAfterIn] at h
    · rw [hi, cutAfterIn, Option.some_inj] at h
      rw [rangeCutAfter, Table.rangeCutAfter, ← h, Entry.read, Entry.read, LowDispatch.read,
        LowDispatch.read, LowDispatch.dispatch_rangeCutAfter]

end HighDispatch

/-! ## Installing a handler -/

/-- A loop whose rounds each send some addresses to a handler. -/
theorem read_foldl_of_forall {σ ι : Type*}
    (read : σ → H) {step : σ → ι → σ} (h : H) (P : ι → Prop) [DecidablePred P]
    {l : List ι} (hstep : ∀ i ∈ l, ∀ s, read (step s i) = if P i then h else read s) (s : σ) :
    read (l.foldl step s) = if ∃ i ∈ l, P i then h else read s := by
  induction l generalizing s with
  | nil => simp
  | cons i l ih =>
    have hrest := ih (fun j hj ↦ hstep j (mem_cons_of_mem i hj)) (step s i)
    rw [foldl_cons, hrest, hstep i mem_cons_self]
    by_cases hl : ∃ j ∈ l, P j
    · obtain ⟨j, hj, hPj⟩ := hl
      rw [if_pos ⟨j, hj, hPj⟩, if_pos ⟨j, mem_cons_of_mem i hj, hPj⟩]
    · rw [if_neg hl]
      by_cases hi : P i
      · rw [if_pos hi, if_pos ⟨i, mem_cons_self, hi⟩]
      · rw [if_neg hi, if_neg]
        rintro ⟨j, hj, hPj⟩
        rcases List.mem_cons.mp hj with rfl | hj
        · exact hi hPj
        · exact hl ⟨j, hj, hPj⟩

namespace LowDispatch

variable {highBits unit start stop a : ℕ}

theorem read_populateNomirror
    (hunit : unit ≤ highBits) (hstart : start / 2 ^ highBits = a / 2 ^ highBits)
    (hstop : stop / 2 ^ highBits = a / 2 ^ highBits) (hstart_mod : start % 2 ^ unit = 0)
    (hstop_mod : stop % 2 ^ unit = 2 ^ unit - 1) (ostart ostop : ℕ) (h : H) (t : LowDispatch H) :
    read highBits unit a (populateNomirror highBits unit start stop ostart ostop h t) =
      if start ≤ a ∧ a ≤ stop then h else read highBits unit a t := by
  rw [read, populateNomirror]
  dsimp only [Table.fill]
  simp only [dispatchEntry_le_iff hunit hstart hstart_mod,
    le_dispatchEntry_iff hunit hstop.symm hstop_mod, dispatch_rangeCutAfter,
    dispatch_rangeCutBefore, read]

/-- The mirrors of a range in the block of a table. -/
theorem read_populateMirror (hunit : unit ≤ highBits) (hhighBits : highBits ≤ 32)
    (hstart : start / 2 ^ highBits = a / 2 ^ highBits)
    (hstop : stop / 2 ^ highBits = a / 2 ^ highBits) (hstart_mod : start % 2 ^ unit = 0)
    (hstop_mod : stop % 2 ^ unit = 2 ^ unit - 1) (ostart ostop mirror : ℕ) (h : H)
    (t : LowDispatch H) :
    read highBits unit a (populateMirror highBits unit start stop ostart ostop mirror h t) =
      if ∃ offset ∈ mirrorOffsets (mirror &&& highMask highBits unit),
        start ||| offset ≤ a ∧ a ≤ stop ||| offset then h else read highBits unit a t := by
  have hmask : highMask highBits unit < 2 ^ highBits := by
    refine lt_pow_two_of_testBit _ fun i hi ↦ ?_
    simp [testBit_highMask hunit, Nat.not_lt.mpr hi]
  have hlt : mirror &&& highMask highBits unit < 2 ^ highBits := and_lt_two_pow mirror hmask
  have hlow : (mirror &&& highMask highBits unit) % 2 ^ unit = 0 := by
    refine eq_of_testBit_eq fun i ↦ ?_
    rw [testBit_mod_two_pow, testBit_and, testBit_highMask hunit, zero_testBit]
    by_cases hi : i < unit
    · simp [Nat.not_le.mpr hi]
    · simp [hi]
  rw [populateMirror]
  refine read_foldl_of_forall (read highBits unit a) h
    (fun offset ↦ start ||| offset ≤ a ∧ a ≤ stop ||| offset) ?_ t
  intro offset hoffset t
  have hsub := (mem_mirrorOffsets
    (hlt.trans_le (Nat.pow_le_pow_right Nat.two_pos hhighBits))).mp hoffset
  have hmod := hsub.mod_eq_zero hlow
  have hdiv : offset / 2 ^ highBits = 0 := div_eq_of_lt (hsub.le.trans_lt hlt)
  refine read_populateNomirror hunit ?_ ?_ ?_ ?_ _ _ h t
  · rw [or_div_two_pow, hdiv, or_zero, hstart]
  · rw [or_div_two_pow, hdiv, or_zero, hstop]
  · rw [or_mod_two_pow, hmod, or_zero, hstart_mod]
  · rw [or_mod_two_pow, hmod, or_zero, hstop_mod]

end LowDispatch

namespace HighDispatch

variable (g : Geometry)

variable {a start stop : ℕ}

section

variable (hg : upperBits ≤ g.highBits) (ha : a < 2 ^ g.highBits)
include hg ha

theorem dispatchEntry_upper : dispatchEntry g.highBits upperBits a = a / 16384 := by
  rw [dispatchEntry_eq hg, mod_eq_of_lt ha]
  rfl

theorem read_populateSubdispatch (entry : ℕ) (populate : LowDispatch H → LowDispatch H) (h : H)
    (P : Prop) [Decidable P]
    (hpopulate : a / 16384 = entry → ∀ sub, LowDispatch.read upperBits g.unit a (populate sub) =
      if P then h else LowDispatch.read upperBits g.unit a sub) (t : HighDispatch H) :
    read g a (populateSubdispatch g entry populate t) =
      if a / 16384 = entry ∧ P then h else read g a t := by
  have hset : ∀ sub, (a / 16384 = entry → LowDispatch.read upperBits g.unit a sub = read g a t) →
      read g a (t.setDispatch entry (.dispatch (populate sub))) =
        if a / 16384 = entry ∧ P then h else read g a t := by
    intro sub hsub
    rw [read, dispatchEntry_upper g hg ha]
    by_cases hentry : a / 16384 = entry
    · rw [hentry, Table.setDispatch_self, Entry.read, hpopulate hentry, hsub hentry]
      simp only [true_and]
    · rw [t.setDispatch_of_ne hentry, if_neg fun hP ↦ hentry hP.1, read,
        dispatchEntry_upper g hg ha]
  rw [populateSubdispatch]
  rcases hentry : t.dispatch entry with cur | sub
  · rw [read_rangeCutAfter, read_rangeCutBefore, hset]
    rintro rfl
    rw [read, dispatchEntry_upper g hg ha, hentry, Entry.read, LowDispatch.read]
  · refine hset sub ?_
    rintro rfl
    rw [read, dispatchEntry_upper g hg ha, hentry, Entry.read]

theorem read_fill (startEntry endEntry : ℕ) (h : H) (r : Range) (t : HighDispatch H) :
    read g a (t.fill startEntry endEntry (.handler h) r) =
      if startEntry ≤ a / 16384 ∧ a / 16384 ≤ endEntry then h else read g a t := by
  rw [read, dispatchEntry_upper g hg ha]
  dsimp only [Table.fill]
  split_ifs
  · rfl
  · rw [read, dispatchEntry_upper g hg ha]

/-- The part of a range in an entry that it does not fill. -/
theorem read_populateNomirrorSubdispatch {entry : ℕ}
    (hstart : start / 16384 = entry) (hstop : stop / 16384 = entry)
    (hstart_mod : start % 2 ^ g.unit = 0) (hstop_mod : stop % 2 ^ g.unit = 2 ^ g.unit - 1)
    (ostart ostop : ℕ) (h : H) (t : HighDispatch H) :
    read g a (populateNomirrorSubdispatch g entry start stop ostart ostop h t) =
      if a / 16384 = entry ∧ start ≤ a ∧ a ≤ stop then h else read g a t := by
  refine read_populateSubdispatch g hg ha entry _ h _ ?_ t
  intro hentry sub
  exact LowDispatch.read_populateNomirror g.unit_lt.le (hstart.trans hentry.symm)
    (hstop.trans hentry.symm) hstart_mod hstop_mod ostart ostop h sub

end

theorem block_start_mod (hunit : g.unit < upperBits) (e : ℕ) : 16384 * e % 2 ^ g.unit = 0 := by
  have hdvd : 2 ^ g.unit ∣ 16384 := Nat.pow_dvd_pow 2 hunit.le
  exact mod_eq_zero_of_dvd (hdvd.mul_right e)

theorem block_stop_mod (hunit : g.unit < upperBits) (e : ℕ) :
    (16384 * e + 16383) % 2 ^ g.unit = 2 ^ g.unit - 1 := by
  have hpos := Nat.two_pow_pos g.unit
  obtain ⟨c, hc⟩ : 2 ^ g.unit ∣ 16384 := Nat.pow_dvd_pow 2 hunit.le
  have hcpos : 0 < c := by
    rcases c with _ | c
    · simp at hc
    · exact succ_pos c
  have hsplit : 16384 * e + 16383 = 2 ^ g.unit - 1 + 2 ^ g.unit * (e * c + (c - 1)) := by
    obtain ⟨d, rfl⟩ : ∃ d, c = d + 1 := ⟨c - 1, by omega⟩
    rw [Nat.add_sub_cancel, Nat.mul_add, ← Nat.mul_assoc, Nat.mul_comm (2 ^ g.unit) e,
      Nat.mul_assoc, ← hc]
    rw [Nat.mul_add] at hc
    omega
  rw [hsplit, add_mul_mod_self_left, mod_eq_of_lt (by omega)]

theorem or_lowMask (start : ℕ) : start ||| lowMask upperBits = 16384 * (start / 16384) + 16383 := by
  have hdiv : (start ||| lowMask upperBits) / 2 ^ 14 = start / 2 ^ 14 := by
    rw [or_div_two_pow]
    exact or_zero _
  have hmod : (start ||| lowMask upperBits) % 2 ^ 14 = 16383 := by
    refine eq_of_testBit_eq fun i ↦ ?_
    rw [testBit_mod_two_pow, testBit_or, lowMask, upperBits, testBit_two_pow_sub_one]
    by_cases hi : i < 14 <;> simp [hi]
  omega

theorem and_not_lowMask (hstop : stop < 2 ^ 32) :
    stop &&& (2 ^ 32 - 1 - lowMask upperBits) = 16384 * (stop / 16384) := by
  have hmask : 2 ^ 32 - 1 - lowMask upperBits = highMask 32 14 := by decide
  have hshift : (stop &&& highMask 32 14) >>> 14 = stop / 16384 := by
    have hentry := dispatchEntry_eq (by decide : 14 ≤ 32) stop
    rwa [dispatchEntry, mod_eq_of_lt hstop] at hentry
  have hlow : (stop &&& highMask 32 14) % 2 ^ 14 = 0 := by
    rw [and_mod_two_pow]
    exact and_zero _
  rw [shiftRight_eq_div_pow] at hshift
  rw [hmask]
  omega

theorem populateNomirror_eq (hg : upperBits ≤ g.highBits) (hle : start ≤ stop)
    (hlt : stop < 2 ^ g.highBits) (ostart ostop : ℕ) (h : H) (t : HighDispatch H) :
    populateNomirror g start stop ostart ostop h t =
      let t := rangeCutAfter g (offsSucc ostop) (stop / 16384 + 1)
        (rangeCutBefore g (offsPred ostart) (start / 16384) t)
      if start / 16384 = stop / 16384 then
        if start % 16384 = 0 ∧ stop % 16384 = 16383 then
          t.fill (start / 16384) (start / 16384) (.handler h) ⟨ostart, ostop⟩
        else populateNomirrorSubdispatch g (start / 16384) start stop ostart ostop h t
      else
        let t := if start % 16384 ≠ 0 then
            populateNomirrorSubdispatch g
            (start / 16384) start (16384 * (start / 16384) + 16383) ostart
              ostop h t
          else t
        let t := if stop % 16384 ≠ 16383 then
            populateNomirrorSubdispatch g (stop / 16384)
            (16384 * (stop / 16384)) stop ostart ostop h t
          else t
        t.fill (if start % 16384 ≠ 0 then start / 16384 + 1 else start / 16384)
          (if stop % 16384 ≠ 16383 then stop / 16384 - 1 else stop / 16384) (.handler h)
          ⟨ostart, ostop⟩ := by
  have hstop32 : stop < 2 ^ 32 := hlt.trans_le (Nat.pow_le_pow_right Nat.two_pos g.highBits_le)
  have hupper : 2 ^ upperBits = 16384 := rfl
  have hmask : lowMask upperBits = 16383 := rfl
  rw [populateNomirror]
  simp only [or_lowMask, and_not_lowMask hstop32, and_lowMask, hupper,
    dispatchEntry_upper g hg (hle.trans_lt hlt), dispatchEntry_upper g hg hlt]
  simp only [hmask, ne_eq, Decidable.not_not]

theorem read_populateNomirror (hg : upperBits ≤ g.highBits) (ha : a < 2 ^ g.highBits)
    (hle : start ≤ stop) (hlt : stop < 2 ^ g.highBits) (hstart_mod : start % 2 ^ g.unit = 0)
    (hstop_mod : stop % 2 ^ g.unit = 2 ^ g.unit - 1) (ostart ostop : ℕ) (h : H)
    (t : HighDispatch H) : read g a (populateNomirror g start stop ostart ostop h t) =
      if start ≤ a ∧ a ≤ stop then h else read g a t := by
  rw [populateNomirror_eq g hg hle hlt]
  generalize ht₀ : rangeCutAfter g (offsSucc ostop) (stop / 16384 + 1)
    (rangeCutBefore g (offsPred ostart) (start / 16384) t) = t₀
  have hread : read g a t₀ = read g a t := by
    rw [← ht₀, read_rangeCutAfter, read_rangeCutBefore]
  -- the parts in the first and in the last entry, if these are not filled
  have hfirst : ∀ t, read g a (populateNomirrorSubdispatch g (start / 16384) start
      (16384 * (start / 16384) + 16383) ostart ostop h t) =
      if a / 16384 = start / 16384 ∧ start ≤ a ∧ a ≤ 16384 * (start / 16384) + 16383 then h
      else read g a t := fun t ↦
    read_populateNomirrorSubdispatch g hg ha rfl (by omega) hstart_mod
      (block_stop_mod g g.unit_lt _) ostart ostop h t
  have hlast : ∀ t, read g a (populateNomirrorSubdispatch g (stop / 16384) (16384 * (stop / 16384))
      stop ostart ostop h t) =
      if a / 16384 = stop / 16384 ∧ 16384 * (stop / 16384) ≤ a ∧ a ≤ stop then h
      else read g a t := fun t ↦
    read_populateNomirrorSubdispatch g hg ha (by omega) rfl
      (block_start_mod g g.unit_lt _) hstop_mod ostart ostop h t
  by_cases hsame : start / 16384 = stop / 16384
  · rw [if_pos hsame]
    by_cases hfull : start % 16384 = 0 ∧ stop % 16384 = 16383
    · rw [if_pos hfull, read_fill g hg ha, hread]
      split_ifs <;> first | rfl | omega
    · rw [if_neg hfull,
        read_populateNomirrorSubdispatch g hg ha rfl hsame.symm hstart_mod hstop_mod, hread]
      split_ifs <;> first | rfl | omega
  · rw [if_neg hsame, read_fill g hg ha]
    by_cases hstart : start % 16384 ≠ 0 <;> by_cases hstop : stop % 16384 ≠ 16383
    · simp only [if_pos hstart, if_pos hstop, hlast, hfirst, hread]
      split_ifs <;> first | rfl | omega
    · simp only [if_pos hstart, if_neg hstop, hfirst, hread]
      split_ifs <;> first | rfl | omega
    · simp only [if_neg hstart, if_pos hstop, hlast, hread]
      split_ifs <;> first | rfl | omega
    · split_ifs <;> first | rfl | omega

end HighDispatch

/-! ## The mirrors of a range -/

namespace Aligned

variable {g : Geometry} {start stop mirror : ℕ}

section

variable (h : Aligned g start stop mirror)
include h

theorem mirror_lt_offs : mirror < 2 ^ 32 :=
  h.mirror_lt.trans_le (Nat.pow_le_pow_right Nat.two_pos g.highBits_le)

/-- A range is at least a unit, so it varies in the bits below. -/
theorem mirror_mod : mirror % 2 ^ g.unit = 0 := by
  refine eq_of_testBit_eq fun i ↦ ?_
  rw [testBit_mod_two_pow, zero_testBit]
  by_cases hi : i < g.unit
  · have hstart : start.testBit i = false := by
      have hbit := congrArg (testBit · i) h.start_mod
      simpa [testBit_mod_two_pow, hi] using hbit
    have hstop : stop.testBit i = true := by
      have hbit := congrArg (testBit · i) h.stop_mod
      simpa [testBit_mod_two_pow, testBit_two_pow_sub_one, hi] using hbit
    rcases hmirror : mirror.testBit i with _ | _
    · simp
    · have hconstant := h.constant i hmirror stop h.le le_rfl
      simp [hstart, hstop] at hconstant
  · simp [hi]

theorem and_highMask : mirror &&& highMask g.highBits g.unit = mirror := by
  refine isSubmask_iff.mpr fun i hi ↦ ?_
  rw [testBit_highMask g.unit_le]
  have hlow : g.unit ≤ i := by
    by_contra hlt
    have hbit := congrArg (testBit · i) h.mirror_mod
    simp [testBit_mod_two_pow, hi, Nat.not_le.mp hlt] at hbit
  have hhigh : i < g.highBits := by
    by_contra hle
    have hlt := testBit_lt_two_pow
      (h.mirror_lt.trans_le (Nat.pow_le_pow_right Nat.two_pos (Nat.not_lt.mp hle)))
    simp [hlt] at hi
  simp [hlow, hhigh]

/-- The mirror of an aligned range is an aligned range of the space. -/
theorem or_offset {offset : ℕ} (hoffset : IsSubmask offset mirror) :
    start ||| offset ≤ stop ||| offset ∧ stop ||| offset < 2 ^ g.highBits ∧
      (start ||| offset) % 2 ^ g.unit = 0 ∧ (stop ||| offset) % 2 ^ g.unit = 2 ^ g.unit - 1 := by
  obtain ⟨k, hblock, hmirror⟩ := h.exists_block
  have hoffset_lt : offset < 2 ^ g.highBits := (IsSubmask.le hoffset).trans_lt h.mirror_lt
  have hdiv : (start ||| offset) / 2 ^ k = (stop ||| offset) / 2 ^ k := by
    rw [or_div_two_pow, or_div_two_pow, hblock]
  refine ⟨?_, or_lt_two_pow h.lt hoffset_lt, ?_, ?_⟩
  · rw [le_iff_mod_le_mod hdiv, or_mod_two_pow, or_mod_two_pow, hoffset.mod_eq_zero hmirror,
      or_zero, or_zero, ← le_iff_mod_le_mod hblock]
    exact h.le
  · rw [or_mod_two_pow, hoffset.mod_eq_zero h.mirror_mod, or_zero, h.start_mod]
  · rw [or_mod_two_pow, hoffset.mod_eq_zero h.mirror_mod, or_zero, h.stop_mod]

end

end Aligned

namespace LowDispatch

variable {g : Geometry} {start stop mirror a : ℕ}

/-- The installation of a range and its mirrors in a space of one table. -/
theorem read_populateMirror_root (h : Aligned g start stop mirror) (ha : a < 2 ^ g.highBits)
    (hd : H) (t : LowDispatch H) : (Covers start stop mirror a → read g.highBits g.unit a
      (populateMirror g.highBits g.unit start stop start stop mirror hd t) = hd) ∧
    (¬ Covers start stop mirror a → read g.highBits g.unit a
      (populateMirror g.highBits g.unit start stop start stop mirror hd t) =
        read g.highBits g.unit a t) := by
  have hread := read_populateMirror g.unit_le g.highBits_le
    ((div_eq_of_lt (h.le.trans_lt h.lt)).trans (div_eq_of_lt ha).symm)
    ((div_eq_of_lt h.lt).trans (div_eq_of_lt ha).symm) h.start_mod h.stop_mod start stop mirror
    hd t
  have hcovers_iff : Covers start stop mirror a ↔
      ∃ offset ∈ mirrorOffsets (mirror &&& highMask g.highBits g.unit),
        start ||| offset ≤ a ∧ a ≤ stop ||| offset := by
    rw [h.covers_iff, h.and_highMask]
    simp only [mem_mirrorOffsets h.mirror_lt_offs]
  rw [hcovers_iff, hread]
  exact ⟨fun hcovers ↦ if_pos hcovers, fun hcovers ↦ if_neg hcovers⟩

end LowDispatch

namespace HighDispatch

variable {g : Geometry} {start stop mirror a : ℕ}

theorem shiftRight_upperBits (x : ℕ) : x >>> upperBits = x / 2 ^ 14 := shiftRight_eq_div_pow x 14

section

variable (h : Aligned g start stop mirror)
include h

/-- A range with a mirror in the lower bits is within a block. -/
theorem div_upper (hlow : mirror &&& lowMask upperBits ≠ 0) : start / 2 ^ 14 = stop / 2 ^ 14 := by
  obtain ⟨i, hi⟩ := exists_testBit_of_ne_zero hlow
  rw [lowMask, upperBits, testBit_and, testBit_two_pow_sub_one, Bool.and_eq_true,
    decide_eq_true_eq] at hi
  have hpow : 2 ^ 14 = 2 ^ i * 2 ^ (14 - i) := by rw [← Nat.pow_add, Nat.add_sub_cancel' hi.2.le]
  rw [hpow, ← Nat.div_div_eq_div_mul, ← Nat.div_div_eq_div_mul, h.div_eq hi.1]

theorem lowMirror_and : (mirror &&& lowMask upperBits) &&& highMask upperBits g.unit =
    mirror &&& lowMask upperBits := by
  refine isSubmask_iff.mpr fun i hi ↦ ?_
  have hmask := isSubmask_iff.mp h.and_highMask i
  rw [lowMask, testBit_and, testBit_two_pow_sub_one, Bool.and_eq_true, decide_eq_true_eq] at hi
  have hunit := hmask hi.1
  rw [testBit_highMask g.unit_le] at hunit
  rw [testBit_highMask g.unit_lt.le]
  simp_all

theorem and_lt_offs (m : ℕ) : mirror &&& m < 2 ^ 32 :=
  Nat.lt_of_le_of_lt and_le_left h.mirror_lt_offs

theorem exists_offset_iff (hg : upperBits ≤ g.highBits) (hlow : mirror &&& lowMask upperBits ≠ 0) :
    (∃ offset, IsSubmask offset mirror ∧ start ||| offset ≤ a ∧ a ≤ stop ||| offset) ↔
      ∃ offset ∈ mirrorOffsets (mirror &&& highMask g.highBits upperBits),
        a / 16384 = (start >>> upperBits) ||| (offset >>> upperBits) ∧
        ∃ offset' ∈ mirrorOffsets ((mirror &&& lowMask upperBits) &&& highMask upperBits g.unit),
          start ||| offset ||| offset' ≤ a ∧ a ≤ stop ||| offset ||| offset' := by
  simp only [lowMirror_and h, mem_mirrorOffsets (and_lt_offs h _), shiftRight_upperBits]
  constructor
  · rintro ⟨offset, hoffset, hmem⟩
    have hbits := isSubmask_iff.mp hoffset
    have hsplit :
        offset &&& highMask g.highBits upperBits ||| offset &&& lowMask upperBits = offset := by
      refine eq_of_testBit_eq fun i ↦ ?_
      rw [lowMask, testBit_or, testBit_and, testBit_and, testBit_highMask hg,
        testBit_two_pow_sub_one]
      have hlt : offset.testBit i = true → i < g.highBits := by
        intro hi
        by_contra hle
        have hfalse := testBit_lt_two_pow
          (h.mirror_lt.trans_le (Nat.pow_le_pow_right Nat.two_pos (Nat.not_lt.mp hle)))
        have htrue := hbits i hi
        simp [hfalse] at htrue
      rcases hi : offset.testBit i with _ | _
      · rfl
      · have hlt := hlt hi
        by_cases hle : upperBits ≤ i
        · simp [hle, hlt]
        · simp [hle, Nat.not_le.mp hle]
    have hdiv : (start ||| offset) / 2 ^ 14 = (stop ||| offset) / 2 ^ 14 := by
      rw [or_div_two_pow, or_div_two_pow, div_upper h hlow]
    have hupper : (offset &&& highMask g.highBits upperBits) / 2 ^ 14 = offset / 2 ^ 14 := by
      have hzero : (offset &&& lowMask upperBits) / 2 ^ 14 = 0 := by
        rw [and_lowMask]
        exact div_eq_of_lt (mod_lt _ (Nat.two_pow_pos 14))
      have hboth := congrArg (· / 2 ^ 14) hsplit
      simpa only [or_div_two_pow, hzero, or_zero] using hboth
    refine ⟨offset &&& highMask g.highBits upperBits, ?_, ?_, offset &&& lowMask upperBits, ?_, ?_⟩
    · exact IsSubmask.and_right hoffset _
    · have ha := ((mem_block_iff hdiv).mp hmem).1
      rw [hupper, ← or_div_two_pow]
      exact ha
    · exact IsSubmask.and_right hoffset _
    · rwa [Nat.or_assoc, Nat.or_assoc, hsplit]
  · rintro ⟨offset, hoffset, -, offset', hoffset', hmem⟩
    refine ⟨offset ||| offset',
      IsSubmask.or (IsSubmask.of_and hoffset) (IsSubmask.of_and hoffset'), ?_⟩
    rwa [← Nat.or_assoc, ← Nat.or_assoc]

/-- The installation of a range and its mirrors in a space of two levels. -/
theorem read_populateMirror (hg : upperBits ≤ g.highBits) (ha : a < 2 ^ g.highBits) (hd : H)
    (t : HighDispatch H) : (Covers start stop mirror a → read g a
    (populateMirror g start stop start stop mirror hd t) = hd) ∧ (¬ Covers start stop mirror a →
      read g a (populateMirror g start stop start stop mirror hd t) = read g a t) := by
  rw [h.covers_iff, populateMirror]
  by_cases hlow : mirror &&& lowMask upperBits ≠ 0
  · rw [if_pos hlow, exists_offset_iff h hg hlow]
    rw [read_foldl_of_forall (read g a) hd
      (fun offset ↦ a / 16384 = (start >>> upperBits) ||| (offset >>> upperBits) ∧
        ∃ offset' ∈ mirrorOffsets ((mirror &&& lowMask upperBits) &&& highMask upperBits g.unit),
          start ||| offset ||| offset' ≤ a ∧ a ≤ stop ||| offset ||| offset')]
    · exact ⟨fun hcovers ↦ if_pos hcovers, fun hcovers ↦ if_neg hcovers⟩
    · intro offset hoffset t
      have hsub : IsSubmask offset mirror :=
        IsSubmask.of_and ((mem_mirrorOffsets (and_lt_offs h _)).mp hoffset)
      obtain ⟨-, -, hstart_mod, hstop_mod⟩ := h.or_offset hsub
      refine read_populateSubdispatch g hg ha _ _ hd _ ?_ t
      intro hentry sub
      rw [shiftRight_upperBits, shiftRight_upperBits, ← or_div_two_pow] at hentry
      refine LowDispatch.read_populateMirror g.unit_lt.le (by decide) hentry.symm ?_ hstart_mod
        hstop_mod _ _ _ hd sub
      rw [or_div_two_pow] at hentry ⊢
      exact (congrArg (· ||| offset / 2 ^ 14) (div_upper h hlow).symm).trans hentry.symm
  · have hmirror : mirror &&& highMask g.highBits upperBits = mirror := by
      refine isSubmask_iff.mpr fun i hi ↦ ?_
      have hmask := isSubmask_iff.mp h.and_highMask i hi
      rw [testBit_highMask g.unit_le] at hmask
      have hbit := congrArg (testBit · i) (Decidable.not_not.mp hlow)
      rw [testBit_highMask hg]
      simp only [lowMask, testBit_and, testBit_two_pow_sub_one, zero_testBit, hi,
        Bool.true_and, decide_eq_false_iff_not, Nat.not_lt] at hbit
      simp_all
    rw [if_neg hlow, hmirror]
    have hoffsets :
        (∃ offset, IsSubmask offset mirror ∧ start ||| offset ≤ a ∧ a ≤ stop ||| offset) ↔
        ∃ offset ∈ mirrorOffsets mirror, start ||| offset ≤ a ∧ a ≤ stop ||| offset := by
      simp only [mem_mirrorOffsets h.mirror_lt_offs]
    rw [hoffsets, read_foldl_of_forall (read g a) hd
      (fun offset ↦ start ||| offset ≤ a ∧ a ≤ stop ||| offset)]
    · exact ⟨fun hcovers ↦ if_pos hcovers, fun hcovers ↦ if_neg hcovers⟩
    · intro offset hoffset t
      obtain ⟨hle, hlt, hstart_mod, hstop_mod⟩ :=
        h.or_offset ((mem_mirrorOffsets h.mirror_lt_offs).mp hoffset)
      exact read_populateNomirror g hg ha hle hlt hstart_mod hstop_mod _ _ hd t

end

end HighDispatch

/-! ## The last installation -/

namespace Installation

def handler : Installation H → H
  | .populateNomirror _ _ h => h
  | .populateMirror _ _ _ h => h

/-- An aligned range, and a mirror that has no bit in which the range varies. -/
def Valid (g : Geometry) : Installation H → Prop
  | .populateNomirror start stop _ => Aligned g start stop 0
  | .populateMirror start stop mirror _ => Aligned g start stop mirror

/-- The range covers the address, or one of the mirrors of it does. -/
def Covers (address : ℕ) : Installation H → Prop
  | .populateNomirror start stop _ => start ≤ address ∧ address ≤ stop
  | .populateMirror start stop mirror _ => Memory.Covers start stop mirror address

end Installation

namespace Root

variable {g : Geometry}

/-- A tree with an upper level is of a space that has one. -/
def Leveled (g : Geometry) : Root H → Prop
  | .low _ => True
  | .high _ => upperBits ≤ g.highBits

theorem leveled_create (g : Geometry) (unmap : H) : (create g unmap).Leveled g := by
  rw [create]
  split_ifs with hg
  · exact hg.le
  · trivial

theorem Leveled.install {r : Root H} (h : r.Leveled g) (i : Installation H) :
    (r.install g i).Leveled g := by
  rcases r with t | t <;> rcases i with ⟨start, stop, hd⟩ | ⟨start, stop, mirror, hd⟩ <;> exact h

theorem read_install {r : Root H} (hr : r.Leveled g) {i : Installation H} (hi : i.Valid g) {a : ℕ}
    (ha : a < 2 ^ g.highBits) :
    (i.Covers a → (r.install g i).read g a = i.handler) ∧
      (¬ i.Covers a → (r.install g i).read g a = r.read g a) := by
  rcases r with t | t <;> rcases i with ⟨start, stop, hd⟩ | ⟨start, stop, mirror, hd⟩
  · have hi : Aligned g start stop 0 := hi
    have hread := LowDispatch.read_populateNomirror g.unit_le
      ((div_eq_of_lt (hi.le.trans_lt hi.lt)).trans (div_eq_of_lt ha).symm)
      ((div_eq_of_lt hi.lt).trans (div_eq_of_lt ha).symm) hi.start_mod hi.stop_mod start stop
      hd t
    exact ⟨fun hcovers ↦ hread.trans (if_pos hcovers), fun hcovers ↦ hread.trans (if_neg hcovers)⟩
  · exact LowDispatch.read_populateMirror_root hi ha hd t
  · have hi : Aligned g start stop 0 := hi
    have hread := HighDispatch.read_populateNomirror g hr ha hi.le hi.lt hi.start_mod hi.stop_mod
      start stop hd t
    exact ⟨fun hcovers ↦ hread.trans (if_pos hcovers), fun hcovers ↦ hread.trans (if_neg hcovers)⟩
  · exact HighDispatch.read_populateMirror hi hr ha hd t

theorem read_create (g : Geometry) (unmap : H) (a : ℕ) : (create g unmap).read g a = unmap := by
  rw [create]
  split_ifs <;> rfl

theorem leveled_foldl_install (unmap : H) (is : List (Installation H)) :
    (is.foldl (install g) (create g unmap)).Leveled g := by
  induction is using reverseRecOn with
  | nil => exact leveled_create g unmap
  | append_singleton is i ih =>
    rw [foldl_append]
    exact ih.install i

/-- **The last installation wins.** From a tree that is unmapped everywhere, after any
installations, an access reaches the handler of the last one that covers its address, or the
unmapped handler if there is none. -/
theorem read_foldl_install (unmap : H) (is : List (Installation H)) (his : ∀ i ∈ is, i.Valid g)
    {a : ℕ} (ha : a < 2 ^ g.highBits) :
    (∃ before i after, is = before ++ i :: after ∧ i.Covers a ∧ (∀ j ∈ after, ¬ j.Covers a) ∧
      (is.foldl (install g) (create g unmap)).read g a = i.handler) ∨
    ((∀ i ∈ is, ¬ i.Covers a) ∧ (is.foldl (install g) (create g unmap)).read g a = unmap) := by
  induction is using reverseRecOn with
  | nil => exact Or.inr ⟨by simp, read_create g unmap a⟩
  | append_singleton is i ih =>
    have ih := ih fun j hj ↦ his j (mem_append_left [i] hj)
    obtain ⟨hpos, hneg⟩ := read_install (leveled_foldl_install unmap is)
      (his i (mem_append_right is mem_cons_self)) ha
    rw [foldl_append]
    by_cases hi : i.Covers a
    · exact Or.inl ⟨is, i, [], rfl, hi, by simp, hpos hi⟩
    · have hread := hneg hi
      rcases ih with ⟨before, j, after, rfl, hj, hafter, hj'⟩ | ⟨hnone, hunmap⟩
      · refine Or.inl ⟨before, j, after ++ [i], by simp, hj, ?_, hread.trans hj'⟩
        intro k hk
        rcases List.mem_append.mp hk with hk | hk
        · exact hafter k hk
        · rwa [List.mem_singleton.mp hk]
      · refine Or.inr ⟨?_, hread.trans hunmap⟩
        intro k hk
        rcases List.mem_append.mp hk with hk | hk
        · exact hnone k hk
        · rwa [List.mem_singleton.mp hk]

/-- A space of 24 bits with 16-bit data. -/
def wideSpace : Geometry := ⟨24, 1, by decide, by decide, by decide⟩

/-- A range over a block boundary, and a range in it that is mirrored. -/
def mirroredOver : List (Installation ℕ) :=
  [.populateNomirror 0x5000 0x9fff 1, .populateMirror 0x9000 0x90ff 0x200 2]

theorem valid_mirroredOver : ∀ i ∈ mirroredOver, i.Valid wideSpace := by
  intro i hi
  rcases List.mem_cons.mp hi with rfl | hi
  · exact ⟨by decide, by decide, by decide, by decide, by decide, by simp⟩
  · rw [List.mem_singleton.mp hi]
    refine ⟨by decide, by decide, by decide, by decide, by decide, ?_⟩
    intro i hi a hstart hstop
    have hbit : testBit (2 ^ 9) i = true := hi
    rw [testBit_two_pow, decide_eq_true_eq] at hbit
    subst hbit
    rw [testBit_eq_decide_div_mod_eq, testBit_eq_decide_div_mod_eq, decide_eq_decide]
    omega

/-- An address in the mirror reaches the mirrored handler. -/
theorem read_foldl_install_mirroredOver :
    (mirroredOver.foldl (install wideSpace) (create wideSpace 0)).read wideSpace 0x9210 = 2 := by
  have hcovers : Installation.Covers 0x9210 (.populateMirror 0x9000 0x90ff 0x200 2) :=
    ⟨0x200, rfl, by decide +kernel, by decide +kernel⟩
  rcases read_foldl_install 0 mirroredOver valid_mirroredOver (a := 0x9210) (by decide) with
    ⟨before, i, after, hlist, -, hafter, hread⟩ | ⟨hnone, -⟩
  · rw [hread]
    rcases before with _ | ⟨b, _ | ⟨b', before⟩⟩
    · obtain ⟨-, rfl⟩ := List.cons.inj hlist
      exact absurd hcovers (hafter _ mem_cons_self)
    · obtain ⟨-, hrest⟩ := List.cons.inj hlist
      obtain ⟨rfl, -⟩ := List.cons.inj hrest
      rfl
    · simp [mirroredOver] at hlist
  · exact absurd hcovers (hnone _ (mem_cons_of_mem _ mem_cons_self))

end Root

end RoscoEmulator.Memory
