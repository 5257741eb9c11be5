import RoscoEmulator.Memory.Nomirror

/-!
# Installing the mirrors of a range

A range that has a mirror in the bits of the lower tables is installed in a table, once for each
mirror in the block of it. A table that is made for it is cut off from the ranges around it, but
nothing outside a table that was there before is cut: the ranges are right after it only if none of
an address outside the block reached into the new ranges. -/

namespace RoscoEmulator.Memory

open Nat List RangeMap Submask LowDispatch

variable {H : Type*} {g : Geometry}

/-- A range that is aligned and in a block, and does not fill it. -/
structure InBlock (g : Geometry) (e s u : ℕ) : Prop where
  le : s ≤ u
  start_div : s / 16384 = e
  stop_div : u / 16384 = e
  start_mod : s % 2 ^ g.unit = 0
  stop_mod : u % 2 ^ g.unit = 2 ^ g.unit - 1
  short : u - s < 16383

namespace LowDispatch

theorem handler_map {highBits unit : ℕ} (h : unit ≤ highBits) (t : LowDispatch H) (a : ℕ) :
    (map highBits unit t).handler a = read highBits unit a t := by
  rw [read, ← slot_eq_dispatchEntry h]
  rfl

variable {e s u : ℕ} {sub : LowDispatch H} {outer : RangeMap H} {N : ℕ} {marked : ℕ → Prop}

/-- The table of a block, in the map of the space. -/
def inSpace (g : Geometry) (e : ℕ) (outer : RangeMap H) (sub : LowDispatch H) : RangeMap H :=
  splice (16384 * e) (16384 * e + 16384) (map upperBits g.unit sub) outer

/-- No range of an address outside the block reaches into the range. -/
structure Apart (N e s u : ℕ) (outer : RangeMap H) : Prop where
  below : ∀ a < 16384 * e, outer.hi a < s
  above : ∀ a, 16384 * e + 16384 ≤ a → a < N → u < outer.lo a

section

variable (hN : 16384 * e + 16384 ≤ N) (hlt : N ≤ 2 ^ 32)
include hN hlt

theorem installed_inSpace (hin : InBlock g e s u) (hout : Apart N e s u outer)
    (hm : Sound N 16384 marked (inSpace g e outer sub)) (hd : H) :
    Installed N s u hd (inSpace g e outer sub)
      (inSpace g e outer (populateNomirror upperBits g.unit s u s u hd sub)) := by
  have hs := hin.start_div
  have hu := hin.stop_div
  have hdiv : ∀ a, 16384 * e ≤ a → a < 16384 * e + 16384 → a / 16384 = e := by
    intro a ha ha'
    omega
  refine installed_splice (by omega) hin.le (by omega) hN ?_ ?_ ?_ hout.below hout.above
  · intro a ha ha'
    rw [handler_map g.unit_lt.le, handler_map g.unit_lt.le]
    exact read_populateNomirror g.unit_lt.le (hs.trans (hdiv a ha ha').symm)
      (hu.trans (hdiv a ha ha').symm) hin.start_mod hin.stop_mod s u hd sub
  · intro a ha ha'
    refine hi_populateNomirror g.unit_lt.le (hs.trans (hdiv a ha ha').symm)
      (hu.trans (hdiv a ha ha').symm) hin.start_mod hin.stop_mod (Or.inl rfl) (by omega) hd ?_
    have hblock : 2 ^ upperBits * (a / 2 ^ upperBits) = 16384 * e :=
      congrArg (16384 * ·) (hdiv a ha ha')
    have hord : HiOrdered (16384 * e) s (inSpace g e outer sub).hi :=
      hm.hiOrdered.mono (Nat.zero_le _) (by omega)
    rw [hblock]
    exact hord.congr fun b hb hb' ↦ (if_pos ⟨hb, by omega⟩).symm
  · intro a ha ha'
    refine lo_populateNomirror g.unit_lt.le (hs.trans (hdiv a ha ha').symm)
      (hu.trans (hdiv a ha ha').symm) hin.start_mod hin.stop_mod (Or.inl rfl) (by omega)
      (by decide) hd ?_
    have hblock : 2 ^ upperBits * (a / 2 ^ upperBits) + 2 ^ upperBits = 16384 * e + 16384 :=
      congrArg (16384 * · + 16384) (hdiv a ha ha')
    have hord : LoOrdered (u + 1) (16384 * e + 16384) (inSpace g e outer sub).lo :=
      hm.loOrdered.mono (Nat.zero_le _) hN
    rw [hblock]
    exact hord.congr fun b hb hb' ↦ (if_pos ⟨by omega, hb'⟩).symm

/-- An installation in the table of a block that no range reaches into from outside. -/
theorem sound_inSpace (hin : InBlock g e s u) (hout : Apart N e s u outer)
    (hm : Sound N 16384 marked (inSpace g e outer sub)) (hd : H) :
    Sound N 16384 (fun x ↦ x = e ∨ marked x)
        (inSpace g e outer (populateNomirror upperBits g.unit s u s u hd sub)) ∧
      Within N (16384 * e) (16384 * e + 16384) (inSpace g e outer sub)
        (inSpace g e outer (populateNomirror upperBits g.unit s u s u hd sub)) := by
  have hinstalled := installed_inSpace hN hlt hin hout hm hd
  have hs := hin.start_div
  have hu := hin.stop_div
  have hshort := hin.short
  refine ⟨hinstalled.sound hm hin.le (by omega) (by decide) ?_,
    hinstalled.within (by omega) (by omega)⟩
  rintro x hx
  refine ⟨by omega, ?_⟩
  rcases hx with rfl | hx
  · exact Or.inr (by omega)
  · exact Or.inl hx

/-- The loop over the mirrors in a block. -/
theorem sound_foldl_inSpace
    (s u : ℕ) {offsets : List ℕ} (hin : ∀ o ∈ offsets, InBlock g e (s ||| o) (u ||| o))
    (hout : ∀ o ∈ offsets, Apart N e (s ||| o) (u ||| o) outer)
    (hm : Sound N 16384 marked (inSpace g e outer sub)) (hd : H) : Sound N 16384 marked
    (inSpace g e outer (offsets.foldl (fun t o ↦ populateNomirror upperBits g.unit
        (s ||| o) (u ||| o) (s ||| o) (u ||| o) hd t) sub)) ∧
      Within N (16384 * e) (16384 * e + 16384) (inSpace g e outer sub)
        (inSpace g e outer (offsets.foldl (fun t o ↦ populateNomirror upperBits g.unit
          (s ||| o) (u ||| o) (s ||| o) (u ||| o) hd t) sub)) := by
  induction offsets generalizing sub with
  | nil => exact ⟨hm, fun _ _ ↦ Or.inl ⟨le_rfl, le_rfl⟩⟩
  | cons o offsets ih =>
    obtain ⟨hstep, hwithin⟩ := sound_inSpace hN hlt (hin o mem_cons_self)
      (hout o mem_cons_self) hm hd
    obtain ⟨hrest, hwithin'⟩ := ih (fun o' ho' ↦ hin o' (mem_cons_of_mem o ho'))
      (fun o' ho' ↦ hout o' (mem_cons_of_mem o ho'))
      (hstep.congr ⟨fun _ _ ↦ rfl, fun _ _ ↦ rfl, fun _ _ ↦ rfl⟩ fun _ hx ↦ Or.inr hx)
    exact ⟨hrest, hwithin.trans hwithin'⟩

/-- The mirrors of a range in the table of a block. -/
theorem sound_populateMirror {mirror : ℕ} (hin : ∀ o ∈ mirrorOffsets
    (mirror &&& highMask upperBits g.unit), InBlock g e (s ||| o) (u ||| o))
    (hout : ∀ o ∈ mirrorOffsets (mirror &&& highMask upperBits g.unit),
      Apart N e (s ||| o) (u ||| o) outer) (hm :
      Sound N 16384 marked (inSpace g e outer sub)) (hd : H) :
    Sound N 16384 (fun x ↦ x = e ∨ marked x)
        (inSpace g e outer (populateMirror upperBits g.unit s u s u mirror hd sub)) ∧
      Within N (16384 * e) (16384 * e + 16384) (inSpace g e outer sub)
        (inSpace g e outer (populateMirror upperBits g.unit s u s u mirror hd sub)) := by
  rw [populateMirror]
  obtain ⟨offsets, hoffsets⟩ : ∃ l, mirrorOffsets (mirror &&& highMask upperBits g.unit) = 0 :: l :=
    ⟨_, rfl⟩
  rw [hoffsets] at hin hout ⊢
  obtain ⟨hstep, hwithin⟩ := sound_inSpace hN hlt (hin 0 mem_cons_self)
    (hout 0 mem_cons_self) hm hd
  obtain ⟨hrest, hwithin'⟩ := sound_foldl_inSpace hN hlt s u
    (fun o ho ↦ hin o (mem_cons_of_mem 0 ho)) (fun o ho ↦ hout o (mem_cons_of_mem 0 ho)) hstep hd
  exact ⟨hrest, hwithin.trans hwithin'⟩

end

end LowDispatch

namespace HighDispatch

variable {t : HighDispatch H} {e : ℕ}

/-! ## A table in an entry -/

theorem handler_subOf (hg : upperBits ≤ g.highBits)
    (t : HighDispatch H) {a : ℕ} (ha : a < 2 ^ g.highBits) :
    (LowDispatch.map upperBits g.unit (subOf t (a / 16384))).handler a = (map g t).handler a :=
  congrArg Prod.snd (lookup_subOf hg t ha)

theorem handler_populateSubdispatch (hg : upperBits ≤ g.highBits)
    (populate : LowDispatch H → LowDispatch H) {a : ℕ} (ha : a < 2 ^ g.highBits) :
    (map g (populateSubdispatch g e populate t)).handler a =
      if a / 16384 = e then (LowDispatch.map upperBits g.unit (populate (subOf t e))).handler a
      else (map g t).handler a := by
  have hset : (map g (populateSubdispatch g e populate t)).handler a =
      (map g (setTable t e (populate (subOf t e)))).handler a := by
    by_cases htable : IsTable t e
    · rw [populateSubdispatch_of_isTable htable]
    · rw [populateSubdispatch_of_not_isTable htable, handler_map hg, handler_map hg,
        read_rangeCutAfter, read_rangeCutBefore]
  rw [hset]
  split_ifs with hae
  · exact congrArg Prod.snd (lookup_setTable_self hg ha hae _)
  · exact congrArg Prod.snd (lookup_setTable_of_ne hg ha hae _)

/-- A table that is changed, or made, in an entry: the ranges outside are cut at `p` and at `q`. -/
theorem exists_agree_populateSubdispatch (hg : upperBits ≤ g.highBits)
    (he : 16384 * e < 2 ^ g.highBits) (hm : Sound (2 ^ g.highBits) 16384 (IsTable t) (map g t))
    (populate : LowDispatch H → LowDispatch H) : ∃ p q, (IsTable t e ∧ p = 0 ∨ p = 16384 * e) ∧
      (IsTable t e ∧ q = 2 ^ g.highBits ∨ q = 16384 * (e + 1)) ∧
      Agree (2 ^ g.highBits) ((map g t).isolate p q)
        (inSpace g e ((map g t).isolate p q) (subOf t e)) ∧
      Agree (2 ^ g.highBits)
        (inSpace g e ((map g t).isolate p q) (populate (subOf t e)))
        (map g (populateSubdispatch g e populate t)) := by
  obtain ⟨p, hp, hhi⟩ := hi_populateSubdispatch populate hg he hm
  obtain ⟨q, hq, hlo⟩ := lo_populateSubdispatch populate hg he (fun a ha _ ↦ hm.le_hi a ha)
    (hm.loOrdered.mono (Nat.zero_le _) le_rfl) (fun x _ hx a ha hax ↦ hm.inside x hx a ha hax)
  have hblock : ∀ a, a / 16384 = e ↔ 16384 * e ≤ a ∧ a < 16384 * e + 16384 := by
    intro a
    omega
  refine ⟨p, q, hp, hq, ⟨?_, ?_, ?_⟩, ⟨?_, ?_, ?_⟩⟩
  · intro a ha
    dsimp only [inSpace, splice]
    split_ifs with hin
    · obtain rfl := (hblock a).mpr hin
      rw [lo_subOf hg t ha]
      exact (if_neg (by omega)).symm
    · rfl
  · intro a ha
    dsimp only [inSpace, splice]
    split_ifs with hin
    · obtain rfl := (hblock a).mpr hin
      rw [hi_subOf hg t ha]
      exact (if_neg (by omega)).symm
    · rfl
  · intro a ha
    dsimp only [inSpace, splice]
    split_ifs with hin
    · obtain rfl := (hblock a).mpr hin
      exact handler_subOf hg t ha
    · rfl
  · intro a ha
    rw [hlo a ha]
    simp only [inSpace, splice, isolate, hblock]
  · intro a ha
    rw [hhi a ha]
    simp only [inSpace, splice, isolate, hblock]
  · intro a ha
    rw [handler_populateSubdispatch hg populate ha]
    simp only [inSpace, splice, isolate, hblock]

/-- No range of an address outside a table that is there reaches into a range in its block. -/
def Free (g : Geometry) (t : HighDispatch H) (e s u : ℕ) : Prop :=
  IsTable t e → ∀ a < 2 ^ g.highBits, a / 16384 ≠ e → ¬ ((map g t).lo a ≤ u ∧ s ≤ (map g t).hi a)

section Mirror

variable {s u mirror : ℕ}

theorem sound_populateMirrorSubdispatch (hg : upperBits ≤ g.highBits)
    (he : 16384 * e < 2 ^ g.highBits) (hin : ∀ o ∈ mirrorOffsets
    (mirror &&& highMask upperBits g.unit), InBlock g e (s ||| o) (u ||| o))
    (hfree : ∀ o ∈ mirrorOffsets (mirror &&& highMask upperBits g.unit), Free g t e (s ||| o)
    (u ||| o)) (hm : Sound (2 ^ g.highBits) 16384 (IsTable t) (map g t)) (hd : H) :
    Sound (2 ^ g.highBits) 16384 (IsTable (populateMirrorSubdispatch g e s u s u mirror hd t))
        (map g (populateMirrorSubdispatch g e s u s u mirror hd t)) ∧
      Within (2 ^ g.highBits) (16384 * e) (16384 * e + 16384) (map g t)
        (map g (populateMirrorSubdispatch g e s u s u mirror hd t)) ∧
      (¬ IsTable t e → ∀ a < 2 ^ g.highBits, a / 16384 ≠ e →
        (map g (populateMirrorSubdispatch g e s u s u mirror hd t)).hi a < 16384 * e ∨
          16384 * e + 16384 ≤
          (map g (populateMirrorSubdispatch g e s u s u mirror hd t)).lo a) := by
  obtain ⟨p, q, hp, hq, hbefore, hafter⟩ := exists_agree_populateSubdispatch hg he hm
    (LowDispatch.populateMirror upperBits g.unit s u s u mirror hd)
  have hentry := entry_lt hg he
  have hcut : ∀ a, (map g t).lo a ≤ ((map g t).isolate p q).lo a ∧
      ((map g t).isolate p q).hi a ≤ (map g t).hi a := by
    intro a
    dsimp only [isolate]
    split_ifs <;> omega
  -- outside a table that is made nothing reaches into the block
  have hisolated : ¬ IsTable t e → (∀ a < 16384 * e, ((map g t).isolate p q).hi a < 16384 * e) ∧
      ∀ a, 16384 * e + 16384 ≤ a → 16384 * e + 16384 ≤ ((map g t).isolate p q).lo a := by
    intro htable
    have hp := hp.resolve_left fun h ↦ htable h.1
    have hq := hq.resolve_left fun h ↦ htable h.1
    refine ⟨fun a ha ↦ ?_, fun a ha ↦ ?_⟩
    · dsimp only [isolate]
      rw [if_pos (by omega)]
      omega
    · dsimp only [isolate]
      rw [if_pos (by omega)]
      omega
  have hout : ∀ o ∈ mirrorOffsets (mirror &&& highMask upperBits g.unit),
      LowDispatch.Apart (2 ^ g.highBits) e (s ||| o) (u ||| o) ((map g t).isolate p q) := by
    intro o ho
    have hin := hin o ho
    have hle := hin.le
    have hs := hin.start_div
    have hu := hin.stop_div
    by_cases htable : IsTable t e
    · have hfree := hfree o ho htable
      refine ⟨fun a ha ↦ ?_, fun a ha ha' ↦ ?_⟩
      · have hlo := hm.lo_le a (by omega)
        have hnot := hfree a (by omega) (by omega)
        have hcut := hcut a
        omega
      · have hhi := hm.le_hi a ha'
        have hnot := hfree a ha' (by omega)
        have hcut := hcut a
        omega
    · obtain ⟨hbelow, habove⟩ := hisolated htable
      refine ⟨fun a ha ↦ ?_, fun a ha _ ↦ ?_⟩
      · have hlt := hbelow a ha
        omega
      · have hle := habove a ha
        omega
  obtain ⟨hsound, hwithin⟩ := LowDispatch.sound_populateMirror (s := s) (u := u) hentry
    (Nat.pow_le_pow_right Nat.two_pos g.highBits_le) hin hout
    ((hm.isolate (p := p) (q := q)).congr hbefore fun _ hx ↦ hx) hd
  refine ⟨hsound.congr hafter fun x hx ↦ ?_, ?_, ?_⟩
  · exact (isTable_populateSubdispatch t e _ x).mp hx
  · intro a ha
    have hcut := hcut a
    rw [populateMirrorSubdispatch, hafter.lo a ha, hafter.hi a ha]
    rcases hwithin a ha with ⟨hlo, hhi⟩ | hin
    · rw [hbefore.lo a ha] at hlo
      rw [hbefore.hi a ha] at hhi
      exact Or.inl ⟨hcut.1.trans hlo, hhi.trans hcut.2⟩
    · exact Or.inr hin
  · intro htable a ha hae
    obtain ⟨hbelow, habove⟩ := hisolated htable
    have hnot : ¬ (16384 * e ≤ a ∧ a < 16384 * e + 16384) := by omega
    rw [populateMirrorSubdispatch, hafter.lo a ha, hafter.hi a ha]
    dsimp only [inSpace, splice]
    rw [if_neg hnot, if_neg hnot]
    rcases Nat.lt_or_ge a (16384 * e) with hlt | hge
    · exact Or.inl (hbelow a hlt)
    · exact Or.inr (habove a (by omega))

theorem Free.populateMirrorSubdispatch (hg : upperBits ≤ g.highBits)
    (he : 16384 * e < 2 ^ g.highBits) (hin : ∀ o ∈ mirrorOffsets
    (mirror &&& highMask upperBits g.unit), InBlock g e (s ||| o) (u ||| o))
    (hfree : ∀ o ∈ mirrorOffsets (mirror &&& highMask upperBits g.unit),
    Free g t e (s ||| o) (u ||| o)) (hm : Sound (2 ^ g.highBits) 16384 (IsTable t) (map g t))
    (hd : H) {e' s' u' : ℕ} (hin' : InBlock g e' s' u') (hfree' : Free g t e' s' u') :
    Free g (populateMirrorSubdispatch g e s u s u mirror hd t) e' s' u' := by
  obtain ⟨hsound, hwithin, hisolated⟩ := sound_populateMirrorSubdispatch hg he hin hfree hm hd
  have hs := hin'.start_div
  have hu := hin'.stop_div
  intro htable' a ha hae
  have hlo := hsound.lo_le a ha
  have hhi := hsound.le_hi a ha
  have hwithin := hwithin a ha
  rcases (isTable_populateSubdispatch t e _ e').mp htable' with rfl | htable
  · by_cases htable : IsTable t e'
    · have hnot := hfree' htable a ha hae
      omega
    · have hisolated := hisolated htable a ha hae
      omega
  · have hnot := hfree' htable a ha hae
    by_cases hee : e' = e
    · omega
    · omega

end Mirror

/-! ## The mirrors in all blocks -/

section Blocks

variable {start stop mirror offset o : ℕ}

section

variable (h : Aligned g start stop mirror)
include h

theorem inBlock_or (hlow : mirror &&& lowMask upperBits ≠ 0)
    (hoffset : offset ∈ mirrorOffsets (mirror &&& highMask g.highBits upperBits))
    (ho : o ∈ mirrorOffsets ((mirror &&& lowMask upperBits) &&& highMask upperBits g.unit)) :
    InBlock g ((start >>> upperBits) ||| (offset >>> upperBits)) (start ||| offset ||| o)
        (stop ||| offset ||| o) ∧ stop ||| offset ||| o < 2 ^ g.highBits := by
  rw [lowMirror_and h, mem_mirrorOffsets (and_lt_offs h _)] at ho
  rw [mem_mirrorOffsets (and_lt_offs h _)] at hoffset
  obtain ⟨hle, hlt, hstart_mod, hstop_mod⟩ :=
    h.or_offset (IsSubmask.or (IsSubmask.of_and hoffset) (IsSubmask.of_and ho))
  rw [← Nat.or_assoc, ← Nat.or_assoc] at hle
  rw [← Nat.or_assoc] at hlt hstart_mod hstop_mod
  have hzero : o / 2 ^ 14 = 0 := by
    refine div_eq_of_lt (ho.le.trans_lt ?_)
    rw [and_lowMask]
    exact mod_lt _ (Nat.two_pow_pos 14)
  have hdiv : ∀ x, (x ||| offset ||| o) / 2 ^ 14 = x / 2 ^ 14 ||| offset / 2 ^ 14 := by
    intro x
    rw [or_div_two_pow, or_div_two_pow, hzero, or_zero]
  rw [shiftRight_upperBits, shiftRight_upperBits]
  refine ⟨⟨hle, hdiv start, ?_, hstart_mod, hstop_mod, ?_⟩, hlt⟩
  · exact (hdiv stop).trans (congrArg (· ||| offset / 2 ^ 14) (div_upper h hlow).symm)
  · -- the range is within a block of the size of a mirror bit
    obtain ⟨i, hi⟩ := exists_testBit_of_ne_zero hlow
    rw [lowMask, upperBits, testBit_and, testBit_two_pow_sub_one, Bool.and_eq_true,
      decide_eq_true_eq] at hi
    have hsame : (start ||| offset ||| o) / 2 ^ i = (stop ||| offset ||| o) / 2 ^ i := by
      simp only [or_div_two_pow, h.div_eq hi.1]
    have hpow : 2 ^ i ≤ 2 ^ 13 := Nat.pow_le_pow_right Nat.two_pos (le_of_lt_succ hi.2)
    have hstart := div_add_mod (start ||| offset ||| o) (2 ^ i)
    have hstop := div_add_mod (stop ||| offset ||| o) (2 ^ i)
    rw [hsame] at hstart
    omega

/-- The mirrors of a range that has one in the bits of the lower tables. -/
theorem sound_foldl_populateMirrorSubdispatch (hg : upperBits ≤ g.highBits)
    (hlow : mirror &&& lowMask upperBits ≠ 0)
    (hd : H) {offsets : List ℕ} (hoffsets : ∀ offset ∈ offsets,
    offset ∈ mirrorOffsets (mirror &&& highMask g.highBits upperBits)) (hfree : ∀ offset ∈ offsets,
      ∀ o ∈ mirrorOffsets ((mirror &&& lowMask upperBits) &&& highMask upperBits g.unit),
        Free g t ((start >>> upperBits) ||| (offset >>> upperBits)) (start ||| offset ||| o)
          (stop ||| offset ||| o)) (hm : Sound (2 ^ g.highBits) 16384 (IsTable t) (map g t)) {t' :
          HighDispatch H}
    (ht' : t' = offsets.foldl (fun t offset ↦ populateMirrorSubdispatch g
      ((start >>> upperBits) ||| (offset >>> upperBits)) (start ||| offset) (stop ||| offset)
      (start ||| offset) (stop ||| offset) (mirror &&& lowMask upperBits) hd t) t) :
    Sound (2 ^ g.highBits) 16384 (IsTable t') (map g t') := by
  induction offsets generalizing t with
  | nil =>
    rw [ht']
    exact hm
  | cons offset offsets ih =>
    have hin : ∀ o ∈ mirrorOffsets ((mirror &&& lowMask upperBits) &&& highMask upperBits g.unit),
        InBlock g ((start >>> upperBits) ||| (offset >>> upperBits)) (start ||| offset ||| o)
          (stop ||| offset ||| o) := fun o ho ↦
      (inBlock_or h hlow (hoffsets offset mem_cons_self) ho).1
    have he : 16384 * ((start >>> upperBits) ||| (offset >>> upperBits)) < 2 ^ g.highBits := by
      have hzero :
          0 ∈ mirrorOffsets ((mirror &&& lowMask upperBits) &&& highMask upperBits g.unit) :=
        mem_cons_self
      obtain ⟨hblock, hlt⟩ := inBlock_or h hlow (hoffsets offset mem_cons_self) hzero
      rw [← hblock.stop_div]
      exact (mul_div_le _ 16384).trans_lt hlt
    have hfree₀ := hfree offset mem_cons_self
    obtain ⟨hstep, -, -⟩ := sound_populateMirrorSubdispatch hg he hin hfree₀ hm hd
    refine ih
      (fun offset' hoffset' ↦ hoffsets offset' (mem_cons_of_mem offset hoffset')) ?_ hstep ht'
    intro offset' hoffset' o ho
    have hoffset' := mem_cons_of_mem offset hoffset'
    exact (hfree offset' hoffset' o ho).populateMirrorSubdispatch hg he hin hfree₀ hm hd
      (inBlock_or h hlow (hoffsets offset' hoffset') ho).1

/-- The mirrors of a range that has none in the bits of the lower tables. -/
theorem sound_foldl_populateNomirror (hg : upperBits ≤ g.highBits) (hd : H) {offsets : List ℕ}
    (hoffsets : ∀ offset ∈ offsets, IsSubmask offset mirror)
    (hm : Sound (2 ^ g.highBits) 16384 (IsTable t) (map g t)) {t' : HighDispatch H} (ht' : t' =
    offsets.foldl (fun t offset ↦ populateNomirror g (start ||| offset) (stop ||| offset)
      (start ||| offset) (stop ||| offset) hd t) t) : Sound (2 ^ g.highBits) 16384 (IsTable t')
      (map g t') := by
  induction offsets generalizing t with
  | nil =>
    rw [ht']
    exact hm
  | cons offset offsets ih =>
    obtain ⟨hle, hlt, hstart_mod, hstop_mod⟩ := h.or_offset (hoffsets offset mem_cons_self)
    exact ih (fun offset' hoffset' ↦ hoffsets offset' (mem_cons_of_mem offset hoffset'))
      (sound_populateNomirror hg hle hlt hm hstart_mod hstop_mod hd) ht'

/-- The installation of a range with its mirrors. -/
theorem sound_populateMirror (hg : upperBits ≤ g.highBits)
    (hfree : mirror &&& lowMask upperBits ≠ 0 →
      ∀ offset ∈ mirrorOffsets (mirror &&& highMask g.highBits upperBits),
      ∀ o ∈ mirrorOffsets ((mirror &&& lowMask upperBits) &&& highMask upperBits g.unit),
        Free g t ((start >>> upperBits) ||| (offset >>> upperBits)) (start ||| offset ||| o)
          (stop ||| offset ||| o)) (hm :
          Sound (2 ^ g.highBits) 16384 (IsTable t) (map g t)) (hd : H) :
    Sound (2 ^ g.highBits) 16384 (IsTable (populateMirror g start stop start stop mirror hd t))
      (map g (populateMirror g start stop start stop mirror hd t)) := by
  by_cases hlow : mirror &&& lowMask upperBits ≠ 0
  · exact sound_foldl_populateMirrorSubdispatch h hg hlow hd (fun _ hoffset ↦ hoffset)
      (hfree hlow) hm (if_pos hlow)
  · refine sound_foldl_populateNomirror h hg hd ?_ hm (if_neg hlow)
    intro offset hoffset
    exact IsSubmask.of_and ((mem_mirrorOffsets (and_lt_offs h _)).mp hoffset)

end

end Blocks

end HighDispatch

end RoscoEmulator.Memory
