import RoscoEmulator.Memory.Ranges

/-!
# Installing a handler

The installation of a handler in a range of a tree of two levels, as a change of the map that
`lookup` finds. The parts of the range in the first and in the last entry go into tables, which are
made if need be; a new table is cut off from the ranges around it. The range that was installed in
the first entry may be cut at the table that is made in the last one. -/

namespace RoscoEmulator.Memory

open RangeMap

variable {H : Type*}

namespace HighDispatch

variable {g : Geometry}

/-! ## A table in an entry -/

/-- The table in an entry, or the one that is made there. -/
def subOf (t : HighDispatch H) (e : ℕ) : LowDispatch H :=
  match t.dispatch e with
  | .dispatch sub => sub
  | .handler cur => ⟨fun _ ↦ cur, fun _ ↦ t.range e⟩

/-- The tree with another table in an entry. -/
def setTable (t : HighDispatch H) (e : ℕ) (sub : LowDispatch H) : HighDispatch H :=
  t.setDispatch e (.dispatch sub)

variable (t : HighDispatch H) {e a : ℕ}

theorem populateSubdispatch_of_isTable {t : HighDispatch H} (h : IsTable t e)
    (populate : LowDispatch H → LowDispatch H) :
    populateSubdispatch g e populate t = setTable t e (populate (subOf t e)) := by
  obtain ⟨sub, hsub⟩ := h
  rw [populateSubdispatch, setTable, subOf, hsub]

theorem populateSubdispatch_of_not_isTable {t : HighDispatch H} (h : ¬ IsTable t e)
    (populate : LowDispatch H → LowDispatch H) :
    populateSubdispatch g e populate t =
      rangeCutAfter g ((e + 1) <<< upperBits % 2 ^ 32) (e + 1)
        (rangeCutBefore g (offsPred (e <<< upperBits)) e
        (setTable t e (populate (subOf t e)))) := by
  obtain ⟨cur, hcur⟩ := not_isTable_iff.mp h
  rw [populateSubdispatch, setTable, subOf, hcur]

section

variable (hg : upperBits ≤ g.highBits)
include hg

theorem lookup_subOf (t : HighDispatch H) (ha : a < 2 ^ g.highBits) :
    LowDispatch.lookup upperBits g.unit a (subOf t (a / 16384)) = lookup g a t := by
  rw [subOf]
  rcases he : t.dispatch (a / 16384) with cur | sub
  · rw [lookup_of_handler hg ha he]
    rfl
  · rw [lookup_of_dispatch hg ha he]

theorem hi_subOf (t : HighDispatch H) (ha : a < 2 ^ g.highBits) :
    (LowDispatch.map upperBits g.unit (subOf t (a / 16384))).hi a = (map g t).hi a :=
  congrArg (·.1.stop) (lookup_subOf hg t ha)

theorem lo_subOf (t : HighDispatch H) (ha : a < 2 ^ g.highBits) :
    (LowDispatch.map upperBits g.unit (subOf t (a / 16384))).lo a = (map g t).lo a :=
  congrArg (·.1.start) (lookup_subOf hg t ha)

theorem lookup_setTable_of_ne {t : HighDispatch H} (ha : a < 2 ^ g.highBits) (hae : a / 16384 ≠ e)
    (sub : LowDispatch H) : lookup g a (setTable t e sub) = lookup g a t :=
  lookup_congr hg ha ⟨t.setDispatch_of_ne hae _, rfl⟩

theorem lookup_setTable_self
    {t : HighDispatch H} (ha : a < 2 ^ g.highBits) (hae : a / 16384 = e) (sub : LowDispatch H) :
    lookup g a (setTable t e sub) = LowDispatch.lookup upperBits g.unit a sub := by
  subst hae
  exact lookup_of_dispatch hg ha (t.setDispatch_self _ _)

theorem hi_setTable (t : HighDispatch H) (e : ℕ) (sub : LowDispatch H) (ha : a < 2 ^ g.highBits) :
    (map g (setTable t e sub)).hi a =
      if a / 16384 = e then (LowDispatch.map upperBits g.unit sub).hi a else (map g t).hi a := by
  split_ifs with hae
  · exact congrArg (·.1.stop) (lookup_setTable_self hg ha hae sub)
  · exact congrArg (·.1.stop) (lookup_setTable_of_ne hg ha hae sub)

theorem lo_setTable (t : HighDispatch H) (e : ℕ) (sub : LowDispatch H) (ha : a < 2 ^ g.highBits) :
    (map g (setTable t e sub)).lo a =
      if a / 16384 = e then (LowDispatch.map upperBits g.unit sub).lo a else (map g t).lo a := by
  split_ifs with hae
  · exact congrArg (·.1.start) (lookup_setTable_self hg ha hae sub)
  · exact congrArg (·.1.start) (lookup_setTable_of_ne hg ha hae sub)

end

theorem isTable_setTable (e : ℕ) (sub : LowDispatch H) (x : ℕ) :
    IsTable (setTable t e sub) x ↔ x = e ∨ IsTable t x := by
  rw [IsTable, setTable]
  by_cases hx : x = e
  · subst hx
    simp
  · rw [t.setDispatch_of_ne hx, ← IsTable]
    simp [hx]

theorem isTable_populateSubdispatch (e : ℕ) (populate : LowDispatch H → LowDispatch H) (x : ℕ) :
    IsTable (populateSubdispatch g e populate t) x ↔ x = e ∨ IsTable t x := by
  by_cases htable : IsTable t e
  · rw [populateSubdispatch_of_isTable htable, isTable_setTable]
  · rw [populateSubdispatch_of_not_isTable htable, isTable_rangeCutAfter, isTable_rangeCutBefore,
      isTable_setTable]

section Subdispatch

variable {t : HighDispatch H} {e : ℕ} (populate : LowDispatch H → LowDispatch H)

theorem shiftLeft_upperBits (x : ℕ) : x <<< upperBits = 16384 * x := by
  rw [Nat.shiftLeft_eq, Nat.mul_comm]
  rfl

theorem entry_lt (hg : upperBits ≤ g.highBits) (he : 16384 * e < 2 ^ g.highBits) :
    16384 * (e + 1) ≤ 2 ^ g.highBits := by
  have hblock := block_lt hg he
  omega

theorem le_offsPred_entry (he : 16384 * e < 2 ^ g.highBits) :
    offsPred (e <<< upperBits) = 16384 * e - 1 ∨ e = 0 := by
  have hlt : 16384 * e < 2 ^ 32 := he.trans_le (Nat.pow_le_pow_right Nat.two_pos g.highBits_le)
  rw [shiftLeft_upperBits, offsPred]
  omega

section

variable (hg : upperBits ≤ g.highBits) (he : 16384 * e < 2 ^ g.highBits)
include hg he

/-- The upper ends of the ranges after a table was changed, or made, in an entry: there is a point
up to which they are cut. -/
theorem exists_hi_populateSubdispatch
    (hord : ∀ x < e, IsTable t x → HiOrdered (16384 * x) (16384 * x + 16384) (map g t).hi) :
    ∃ k p, (p = 0 ∨ p = 16384 * e) ∧ ∀ a < 2 ^ g.highBits,
      (map g (populateSubdispatch g e populate t)).hi a =
        if a / 16384 = e then (LowDispatch.map upperBits g.unit (populate (subOf t e))).hi a
        else if 16384 * k ≤ a ∧ a < p then min ((map g t).hi a) (p - 1) else (map g t).hi a := by
  by_cases htable : IsTable t e
  · refine ⟨0, 0, Or.inl rfl, fun a ha ↦ ?_⟩
    rw [populateSubdispatch_of_isTable htable, hi_setTable hg t e _ ha]
    simp
  · have hord' : ∀ x < e, IsTable (setTable t e (populate (subOf t e))) x →
        HiOrdered (16384 * x) (16384 * x + 16384)
        (map g (setTable t e (populate (subOf t e)))).hi := by
      intro x hx hx'
      rcases (isTable_setTable t e _ x).mp hx' with rfl | hx'
      · exact absurd hx (lt_irrefl x)
      · refine (hord x hx hx').congr fun a ha ha' ↦ ?_
        rw [hi_setTable hg t e _ (by omega), if_neg (by omega)]
    have haddress := le_offsPred_entry he
    obtain ⟨k, -, hhi, -⟩ := exists_hi_rangeCutBefore hg
      (show 16384 * e ≤ offsPred (e <<< upperBits) + 1 by omega) hord'
    refine ⟨k, 16384 * e, Or.inr rfl, fun a ha ↦ ?_⟩
    rw [populateSubdispatch_of_not_isTable htable, hi_rangeCutAfter hg _ _ _ ha, hhi a ha,
      hi_setTable hg t e _ ha]
    split_ifs
    · omega
    · rcases haddress with haddress | rfl
      · rw [haddress]
      · omega
    · rfl
    · rfl

/-- If the ranges before the entry are right, all of them are cut. -/
theorem hi_populateSubdispatch (hm : Sound (2 ^ g.highBits) 16384 (IsTable t) (map g t)) :
    ∃ p, (IsTable t e ∧ p = 0 ∨ p = 16384 * e) ∧ ∀ a < 2 ^ g.highBits,
      (map g (populateSubdispatch g e populate t)).hi a =
        if a / 16384 = e then (LowDispatch.map upperBits g.unit (populate (subOf t e))).hi a
        else if a < p then min ((map g t).hi a) (p - 1) else (map g t).hi a := by
  by_cases htable : IsTable t e
  · refine ⟨0, Or.inl ⟨htable, rfl⟩, fun a ha ↦ ?_⟩
    rw [populateSubdispatch_of_isTable htable, hi_setTable hg t e _ ha]
    simp
  · have hhi : ∀ a < 16384 * e,
        (map g (setTable t e (populate (subOf t e)))).hi a = (map g t).hi a := by
      intro a ha
      rw [hi_setTable hg t e _ (by omega), if_neg (by omega)]
    have hlo : ∀ a < 16384 * e,
        (map g (setTable t e (populate (subOf t e)))).lo a = (map g t).lo a := by
      intro a ha
      rw [lo_setTable hg t e _ (by omega), if_neg (by omega)]
    have haddress := le_offsPred_entry he
    refine ⟨16384 * e, Or.inr rfl, fun a ha ↦ ?_⟩
    rw [populateSubdispatch_of_not_isTable htable, hi_rangeCutAfter hg _ _ _ ha,
      hi_rangeCutBefore hg he.le (show 16384 * e ≤ offsPred (e <<< upperBits) + 1 by omega) ?_ ?_ ?_
      ha, hi_setTable hg t e _ ha]
    · split_ifs
      · omega
      · rcases haddress with haddress | rfl
        · rw [haddress]
        · omega
      · rfl
      · rfl
    · intro b hb
      rw [hlo b hb]
      exact hm.lo_le b (by omega)
    · exact (hm.hiOrdered.mono le_rfl he.le).congr fun b _ hb ↦ hhi b hb
    · intro x hx hx' b hb
      rw [hlo b (by omega), hhi b (by omega)]
      rcases (isTable_setTable t e _ x).mp hx' with rfl | hx'
      · omega
      · exact hm.inside x hx' b (by omega) hb

/-- The lower ends of the ranges: there is a point from which they are cut. -/
theorem lo_populateSubdispatch
    (hhi : ∀ a < 2 ^ g.highBits, 16384 * (e + 1) ≤ a → a ≤ (map g t).hi a)
    (hord : LoOrdered (16384 * (e + 1)) (2 ^ g.highBits) (map g t).lo)
    (hinside : ∀ x > e, IsTable t x → ∀ a < 2 ^ g.highBits, a / 16384 = x →
      ¬ ((map g t).lo a ≤ 16384 * x ∧ 16384 * x + 16383 ≤ (map g t).hi a)) :
    ∃ q, (IsTable t e ∧ q = 2 ^ g.highBits ∨ q = 16384 * (e + 1)) ∧ ∀ a < 2 ^ g.highBits,
      (map g (populateSubdispatch g e populate t)).lo a =
        if a / 16384 = e then (LowDispatch.map upperBits g.unit (populate (subOf t e))).lo a
        else if q ≤ a then max ((map g t).lo a) q else (map g t).lo a := by
  by_cases htable : IsTable t e
  · refine ⟨2 ^ g.highBits, Or.inl ⟨htable, rfl⟩, fun a ha ↦ ?_⟩
    rw [populateSubdispatch_of_isTable htable, lo_setTable hg t e _ ha]
    simp [Nat.not_le.mpr ha]
  · have hmod : (e + 1) <<< upperBits % 2 ^ 32 ≤ 16384 * (e + 1) := by
      rw [shiftLeft_upperBits]
      exact Nat.mod_le _ _
    set t₁ := rangeCutBefore g (offsPred (e <<< upperBits)) e (setTable t e (populate (subOf t e)))
      with ht₁
    have hlo₁ : ∀ a < 2 ^ g.highBits, (map g t₁).lo a =
        if a / 16384 = e then (LowDispatch.map upperBits g.unit (populate (subOf t e))).lo a
        else (map g t).lo a := by
      intro a ha
      rw [ht₁, lo_rangeCutBefore hg _ _ _ ha, lo_setTable hg t e _ ha]
    have hhi₁ : ∀ a < 2 ^ g.highBits, 16384 * (e + 1) ≤ a → (map g t₁).hi a = (map g t).hi a := by
      intro a ha hea
      have hlookup := lookup_rangeCutBefore_of_le hg (offsPred (e <<< upperBits))
        (setTable t e (populate (subOf t e))) ha (show e ≤ a / 16384 by omega)
      rw [← ht₁, lookup_setTable_of_ne hg ha (by omega)] at hlookup
      exact congrArg (fun r : Range × H ↦ r.1.stop) hlookup
    refine ⟨16384 * (e + 1), Or.inr rfl, fun a ha ↦ ?_⟩
    rw [populateSubdispatch_of_not_isTable htable, ← ht₁, lo_rangeCutAfter hg hmod ?_ ?_ ?_ ha,
      hlo₁ a ha]
    · have hshift : 16384 * (e + 1) ≤ a → (e + 1) <<< upperBits % 2 ^ 32 = 16384 * (e + 1) := by
        intro hea
        have hlt : a < 2 ^ 32 := ha.trans_le (Nat.pow_le_pow_right Nat.two_pos g.highBits_le)
        rw [shiftLeft_upperBits]
        omega
      split_ifs with hea hae hae
      · omega
      · rw [hshift hea]
      · rfl
      · rfl
    · intro b hb hb'
      rw [hhi₁ b hb hb']
      exact hhi b hb hb'
    · refine hord.congr fun b hb hb' ↦ ?_
      rw [hlo₁ b hb', if_neg (by omega)]
    · intro x hx hx' b hb hbx
      rw [hlo₁ b hb, if_neg (by omega), hhi₁ b hb (by omega)]
      rw [ht₁, isTable_rangeCutBefore, isTable_setTable] at hx'
      rcases hx' with rfl | hx'
      · omega
      · exact hinside x (by omega) hx' b hb hbx

end

end Subdispatch

/-! ## Filling entries -/

section

variable (hg : upperBits ≤ g.highBits) (t : HighDispatch H) (first last : ℕ) (hd : H)
include hg

theorem lookup_fill (r : Range) (ha : a < 2 ^ g.highBits) :
    lookup g a (t.fill first last (.handler hd) r) =
      if first ≤ a / 16384 ∧ a / 16384 ≤ last then (r, hd) else lookup g a t := by
  split_ifs with hin
  · rw [lookup_of_handler hg ha (if_pos hin)]
    exact congrArg (·, hd) (if_pos hin)
  · exact lookup_congr hg ha ⟨if_neg hin, if_neg hin⟩

theorem hi_fill (ostart ostop : ℕ) (ha : a < 2 ^ g.highBits) :
    (map g (t.fill first last (.handler hd) ⟨ostart, ostop⟩)).hi a =
      if first ≤ a / 16384 ∧ a / 16384 ≤ last then ostop else (map g t).hi a :=
  (congrArg (·.1.stop) (lookup_fill hg t first last hd ⟨ostart, ostop⟩ ha)).trans
    (apply_ite (fun r : Range × H ↦ r.1.stop) _ _ _)

theorem lo_fill (ostart ostop : ℕ) (ha : a < 2 ^ g.highBits) :
    (map g (t.fill first last (.handler hd) ⟨ostart, ostop⟩)).lo a =
      if first ≤ a / 16384 ∧ a / 16384 ≤ last then ostart else (map g t).lo a :=
  (congrArg (·.1.start) (lookup_fill hg t first last hd ⟨ostart, ostop⟩ ha)).trans
    (apply_ite (fun r : Range × H ↦ r.1.start) _ _ _)

end

theorem isTable_fill (first last : ℕ) (hd : H) (r : Range) (x : ℕ) :
    IsTable (t.fill first last (.handler hd) r) x ↔ ¬ (first ≤ x ∧ x ≤ last) ∧ IsTable t x := by
  rw [IsTable, IsTable]
  dsimp only [Table.fill]
  split_ifs with hin
  · simp [hin]
  · simp [hin]

theorem handler_map (hg : upperBits ≤ g.highBits) (t : HighDispatch H) (a : ℕ) :
    (map g t).handler a = read g a t := by
  rw [map]
  dsimp only
  rw [lookup, slot_eq_dispatchEntry hg, read]
  rcases t.dispatch (dispatchEntry g.highBits upperBits a) with h | sub
  · rfl
  · rw [Entry.read, LowDispatch.read, ← slot_eq_dispatchEntry g.unit_lt.le]
    rfl

/-! ## The cuts around a range -/

/-- The first two steps of `populate_nomirror`. -/
def cutAround (g : Geometry) (start stop : ℕ) (t : HighDispatch H) : HighDispatch H :=
  rangeCutAfter g (offsSucc stop) (stop / 16384 + 1)
    (rangeCutBefore g (offsPred start) (start / 16384) t)

section CutAround

variable {t : HighDispatch H} {start stop : ℕ}

theorem isTable_cutAround (x : ℕ) : IsTable (cutAround g start stop t) x ↔ IsTable t x := by
  rw [cutAround, isTable_rangeCutAfter, isTable_rangeCutBefore]

section

variable (hg : upperBits ≤ g.highBits) (hm : Sound (2 ^ g.highBits) 16384 (IsTable t) (map g t))
include hg hm

theorem hi_cutAround (hlt : start < 2 ^ g.highBits) (stop : ℕ) {a : ℕ} (ha : a < 2 ^ g.highBits) :
    (map g (cutAround g start stop t)).hi a =
      if a < 16384 * (start / 16384) then min ((map g t).hi a) (start - 1) else (map g t).hi a := by
  have hlt32 : start < 2 ^ 32 := hlt.trans_le (Nat.pow_le_pow_right Nat.two_pos g.highBits_le)
  have haddress : offsPred start = start - 1 ∨ start / 16384 = 0 := by
    rw [offsPred]
    omega
  rw [cutAround, hi_rangeCutAfter hg _ _ _ ha,
    hi_rangeCutBefore hg (by omega) (by omega) ?_ ?_ ?_ ha]
  · split_ifs
    · rcases haddress with haddress | hzero
      · rw [haddress]
      · omega
    · rfl
  · intro b hb
    exact hm.lo_le b (by omega)
  · exact hm.hiOrdered.mono le_rfl (by omega)
  · intro x hx hx' b hb
    exact hm.inside x hx' b (by omega) hb

theorem lo_cutAround (hle : start ≤ stop) {a : ℕ} (ha : a < 2 ^ g.highBits) :
    (map g (cutAround g start stop t)).lo a =
      if 16384 * (stop / 16384 + 1) ≤ a then max ((map g t).lo a) (stop + 1)
      else (map g t).lo a := by
  have hlookup : ∀ b < 2 ^ g.highBits, 16384 * (stop / 16384 + 1) ≤ b →
      (map g (rangeCutBefore g (offsPred start) (start / 16384) t)).hi b = (map g t).hi b := by
    intro b hb hb'
    exact congrArg (fun r : Range × H ↦ r.1.stop)
      (lookup_rangeCutBefore_of_le hg (offsPred start) t hb (by omega))
  have haddress : offsSucc stop ≤ stop + 1 := Nat.mod_le _ _
  rw [cutAround, lo_rangeCutAfter hg (by omega) ?_ ?_ ?_ ha, lo_rangeCutBefore hg _ _ _ ha]
  · split_ifs with hstop
    · have hlt32 : a < 2 ^ 32 := ha.trans_le (Nat.pow_le_pow_right Nat.two_pos g.highBits_le)
      have hsucc : offsSucc stop = stop + 1 := by
        rw [offsSucc]
        omega
      rw [hsucc]
    · rfl
  · intro b hb hb'
    rw [hlookup b hb hb']
    exact hm.le_hi b hb
  · refine (hm.loOrdered.mono (Nat.zero_le _) le_rfl).congr fun b _ hb ↦ ?_
    rw [lo_rangeCutBefore hg _ _ _ hb]
  · intro x hx hx' b hb hbx
    rw [lo_rangeCutBefore hg _ _ _ hb, hlookup b hb (by omega)]
    exact hm.inside x ((isTable_rangeCutBefore _ _ t x).mp hx') b hb hbx

theorem sound_cutAround (hle : start ≤ stop) (hlt : stop < 2 ^ g.highBits) :
    Sound (2 ^ g.highBits) 16384 (IsTable (cutAround g start stop t))
      (map g (cutAround g start stop t)) := by
  have hhi : ∀ a < 2 ^ g.highBits, _ := fun a ha ↦
    hi_cutAround hg hm (hle.trans_lt hlt) stop ha
  have hlo : ∀ a < 2 ^ g.highBits, _ := fun a ha ↦ lo_cutAround hg hm hle ha
  have hnarrow : ∀ a < 2 ^ g.highBits, (map g t).lo a ≤ (map g (cutAround g start stop t)).lo a ∧
      (map g (cutAround g start stop t)).hi a ≤ (map g t).hi a := by
    intro a ha
    rw [hhi a ha, hlo a ha]
    split_ifs <;> omega
  refine ⟨?_, ?_, fun a ha ↦ (hnarrow a ha).2.trans_lt (hm.hi_lt a ha), ?_, ?_, ?_, ?_⟩
  · intro a ha
    have hle := hm.lo_le a ha
    rw [hlo a ha]
    split_ifs <;> omega
  · intro a ha
    have hle := hm.le_hi a ha
    rw [hhi a ha]
    split_ifs <;> omega
  · intro a ha b hb hlo' hhi'
    obtain ⟨hnlo, hnhi⟩ := hnarrow a ha
    have hhandler := hm.handler a ha b hb (hnlo.trans hlo') (hhi'.trans hnhi)
    rw [handler_map hg, handler_map hg] at hhandler ⊢
    simpa only [cutAround, read_rangeCutAfter, read_rangeCutBefore] using hhandler
  · exact hm.hiOrdered.cut.congr fun a _ ha ↦ hhi a ha
  · exact hm.loOrdered.cut.congr fun a _ ha ↦ hlo a ha
  · rintro x hx a ha hax ⟨hlo', hhi'⟩
    obtain ⟨hnlo, hnhi⟩ := hnarrow a ha
    exact hm.inside x ((isTable_cutAround x).mp hx) a ha hax ⟨hnlo.trans hlo', hhi'.trans hnhi⟩

end

end CutAround

/-! ## A part of a range -/

section Part

variable {t : HighDispatch H} {first last a : ℕ}

theorem block_of_div_eq {b c : ℕ} (h : c / 16384 = a / 16384) (hb : 16384 * (a / 16384) ≤ b)
    (hbc : b ≤ c) : b / 16384 = a / 16384 := by
  omega

/-- The upper ends of the ranges in a table after a part of a range was installed there. -/
theorem hi_part (hg : upperBits ≤ g.highBits) (ha : a < 2 ^ g.highBits)
    (hfirst : first / 16384 = a / 16384) (hlast : last / 16384 = a / 16384)
    (hfirst_mod : first % 2 ^ g.unit = 0) (hlast_mod : last % 2 ^ g.unit = 2 ^ g.unit - 1)
    {ostart : ℕ} (hostart : ostart = first ∨ first % 16384 = 0) (hlt : ostart < 2 ^ 32) (ostop : ℕ)
    (hd : H) (hord : HiOrdered (16384 * (a / 16384)) first (map g t).hi) : (LowDispatch.map
    upperBits g.unit (LowDispatch.populateNomirror upperBits g.unit first last ostart
        ostop hd (subOf t (a / 16384)))).hi a =
      if first ≤ a ∧ a ≤ last then ostop
      else if a < first then min ((map g t).hi a) (ostart - 1) else (map g t).hi a := by
  have hblock := block_lt hg ha
  rw [LowDispatch.hi_populateNomirror g.unit_lt.le hfirst hlast hfirst_mod hlast_mod hostart hlt hd,
    hi_subOf hg t ha]
  refine hord.congr fun b hb hb' ↦ ?_
  have hba : b / 16384 = a / 16384 := block_of_div_eq hfirst hb hb'.le
  rw [← hba, hi_subOf hg t (by omega)]

/-- The lower ends. -/
theorem lo_part (hg : upperBits ≤ g.highBits) (ha : a < 2 ^ g.highBits)
    (hfirst : first / 16384 = a / 16384)
    (hlast : last / 16384 = a / 16384) (hfirst_mod : first % 2 ^ g.unit = 0)
    (hlast_mod : last % 2 ^ g.unit = 2 ^ g.unit - 1) {ostop : ℕ}
    (hostop : ostop = last ∨ last % 16384 = 16383) (hlt : ostop < 2 ^ 32) (ostart : ℕ) (hd : H)
    (hord : LoOrdered (last + 1) (16384 * (a / 16384) + 16384) (map g t).lo) : (LowDispatch.map
    upperBits g.unit (LowDispatch.populateNomirror upperBits g.unit first last ostart
        ostop hd (subOf t (a / 16384)))).lo a =
      if first ≤ a ∧ a ≤ last then ostart
      else if last < a then max ((map g t).lo a) (ostop + 1) else (map g t).lo a := by
  have hblock := block_lt hg ha
  rw [LowDispatch.lo_populateNomirror g.unit_lt.le hfirst hlast hfirst_mod hlast_mod hostop hlt
    (by decide) hd, lo_subOf hg t ha]
  refine hord.congr fun b hb hb' ↦ ?_
  have hba : b / 16384 = a / 16384 := by omega
  rw [← hba, lo_subOf hg t (by omega)]

end Part

end HighDispatch

end RoscoEmulator.Memory
