import RoscoEmulator.Chd.Entries

/-!
# What hunks hold

The bytes of a hunk, as the map entries of a CHD and of its parents say, without buffers and caches.
A cache is right when it holds what its hunk holds; the central result is that an access to CHDs
with right caches, if it succeeds, puts what the hunks hold in its buffer and leaves the caches
right. -/

namespace RoscoEmulator.Chd

open Nat BigEndian Pieces AccessM

/-! ## Ranges of bytes -/

namespace Range

variable (r : Range)

/-- The range lies in hunks that have a number. -/
structure Proper : Prop where
  hunkbytes_pos : 0 < r.hunkbytes
  bytes_pos : 0 < r.bytes
  inside : r.offset + r.bytes ≤ r.hunkbytes * (2 ^ 32 - 1)
  lt : r.offset + r.bytes ≤ 2 ^ 64

instance : Decidable r.Proper :=
  decidable_of_iff (0 < r.hunkbytes ∧ 0 < r.bytes ∧
    r.offset + r.bytes ≤ r.hunkbytes * (2 ^ 32 - 1) ∧
    r.offset + r.bytes ≤ 2 ^ 64) ⟨fun h ↦ ⟨h.1, h.2.1, h.2.2.1, h.2.2.2⟩, fun h ↦
    ⟨h.1, h.2, h.3, h.4⟩⟩

/-- The position in the buffer of what is in a hunk. -/
def pos (curhunk : ℕ) : ℕ := curhunk * r.hunkbytes + r.startoffs curhunk - r.offset

namespace Proper

variable {r : Range} (h : r.Proper)

include h

theorem final_eq : r.final = r.offset + r.bytes - 1 := by
  have hpos := h.bytes_pos
  have hlt := h.lt
  rw [final, mod_eq_of_lt (by omega)]
  omega

theorem final_lt : r.final / r.hunkbytes < 2 ^ 32 - 1 := by
  have hpos := h.bytes_pos
  have hinside := h.inside
  rw [Nat.div_lt_iff_lt_mul h.hunkbytes_pos, Nat.mul_comm, h.final_eq]
  omega

theorem last_eq : r.last = r.final / r.hunkbytes := by
  have hfinal := h.final_lt
  rw [last, mod_eq_of_lt (by omega)]

theorem offset_le : r.offset ≤ r.final := by
  have hpos := h.bytes_pos
  rw [h.final_eq]
  omega

theorem first_eq : r.first = r.offset / r.hunkbytes := by
  have hfinal := h.final_lt
  have hle : r.offset / r.hunkbytes ≤ r.final / r.hunkbytes := Nat.div_le_div_right h.offset_le
  rw [first, mod_eq_of_lt (by omega)]

theorem first_le_last : r.first ≤ r.last := by
  rw [h.first_eq, h.last_eq]
  exact Nat.div_le_div_right h.offset_le

theorem last_lt : r.last < 2 ^ 32 - 1 := h.last_eq ▸ h.final_lt

theorem offset_split : r.first * r.hunkbytes + r.offset % r.hunkbytes = r.offset := by
  rw [h.first_eq]
  exact div_add_mod' _ _

theorem final_split : r.last * r.hunkbytes + r.final % r.hunkbytes = r.final := by
  rw [h.last_eq]
  exact div_add_mod' _ _

theorem pos_first : r.pos r.first = 0 := by
  rw [pos, startoffs, if_pos rfl, h.offset_split, Nat.sub_self]

variable {curhunk : ℕ}

/-- What is in a hunk is at its place there. -/
theorem offset_add_pos (hfirst : r.first ≤ curhunk) :
    r.offset + r.pos curhunk = curhunk * r.hunkbytes + r.startoffs curhunk := by
  have hsplit := h.offset_split
  have hmod := mod_lt r.offset h.hunkbytes_pos
  rw [pos, startoffs]
  split_ifs with heq
  · subst heq
    omega
  · have hmul : r.first * r.hunkbytes + r.hunkbytes ≤ curhunk * r.hunkbytes := by
      rw [← succ_mul]
      exact Nat.mul_le_mul_right _ (by omega)
    omega

theorem startoffs_add_count_le (curhunk : ℕ) :
    r.startoffs curhunk + r.count curhunk ≤ r.hunkbytes := by
  have hmod := mod_lt r.offset h.hunkbytes_pos
  have hmod' := mod_lt r.final h.hunkbytes_pos
  have hstart : r.startoffs curhunk < r.hunkbytes := by
    rw [startoffs]
    split_ifs <;> omega
  have hend : r.endoffs curhunk < r.hunkbytes := by
    rw [endoffs]
    split_ifs <;> omega
  rw [count]
  omega

/-- The next hunk goes on where a hunk ends. -/
theorem pos_add_count (hfirst : r.first ≤ curhunk) (hlast : curhunk < r.last) :
    r.pos curhunk + r.count curhunk = r.pos (curhunk + 1) := by
  have hoffset := h.offset_add_pos hfirst
  have hoffset' := h.offset_add_pos (show r.first ≤ curhunk + 1 by omega)
  have hmod := mod_lt r.offset h.hunkbytes_pos
  have hstart : r.startoffs curhunk < r.hunkbytes := by
    rw [startoffs]
    split_ifs <;> omega
  rw [startoffs, if_neg (by omega), succ_mul] at hoffset'
  rw [count, endoffs, if_neg (by omega)]
  omega

theorem pos_add_count_last : r.pos r.last + r.count r.last = r.bytes := by
  have hoffset := h.offset_add_pos h.first_le_last
  have hsplit := h.final_split
  have hfinal := h.final_eq
  have hpos := h.bytes_pos
  have hstart : r.startoffs r.last ≤ r.final % r.hunkbytes := by
    rw [startoffs]
    split_ifs with heq
    · have hsplit' := h.offset_split
      rw [← heq] at hsplit'
      omega
    · exact Nat.zero_le _
  rw [count, endoffs, if_pos rfl]
  omega

theorem pos_add_count_le (hfirst : r.first ≤ curhunk) (hlast : curhunk ≤ r.last) :
    r.pos curhunk + r.count curhunk ≤ r.bytes := by
  induction hlast using decreasingInduction with
  | self => exact h.pos_add_count_last.le
  | of_succ k hk ih =>
    have hnext := h.pos_add_count hfirst hk
    omega

end Proper

end Range

/-! ## Contents -/

/-- A CHD without its cache. -/
def ChdFile.bare (c : ChdFile) : ChdFile := { c with cache := [], cachehunk := 0 }

/-- What the hunks of a CHD and its parents hold is the same. -/
def Same (chds chds' : List ChdFile) : Prop := chds.map ChdFile.bare = chds'.map ChdFile.bare

/-- The units of the parent that an entry refers to. -/
def parentRange (c p : ChdFile) (blockoffs : ℕ) : Range :=
  ⟨p.hunkbytes, blockoffs * p.unitbytes % 2 ^ 64, c.hunkbytes⟩

/-- A hunk of a CHD with its parents holds these bytes. -/
inductive Holds (codecs : Codecs) : List ChdFile → ℕ → List Byte → Prop
  | data {c : ChdFile} {ps : List ChdFile} {hunknum : ℕ} {bytes : List Byte}
      (entry : c.entry codecs ps.isEmpty hunknum = .data bytes)
      (length : bytes.length = c.hunkbytes) : Holds codecs (c :: ps) hunknum bytes
  | self {c : ChdFile} {ps : List ChdFile} {hunknum other : ℕ} {bytes : List Byte}
      (entry : c.entry codecs ps.isEmpty hunknum = .self other)
      (tail : Holds codecs (c :: ps) other bytes) : Holds codecs (c :: ps) hunknum bytes
  | parent {c : ChdFile} {ps : List ChdFile} {hunknum other : ℕ} {bytes : List Byte}
      (entry : c.entry codecs ps.isEmpty hunknum = .parent other)
      (length : bytes.length = c.hunkbytes) (tail : Holds codecs ps other bytes) :
      Holds codecs (c :: ps) hunknum bytes
  | parentBytes {c p : ChdFile} {ps : List ChdFile} {hunknum blockoffs : ℕ} {f : ℕ → List Byte}
      (entry : c.entry codecs false hunknum = .parentBytes blockoffs)
      (proper : (parentRange c p blockoffs).Proper)
      (tail : ∀ k, (parentRange c p blockoffs).first ≤ k → k ≤ (parentRange c p blockoffs).last →
        Holds codecs (p :: ps) k (f k)) :
      Holds codecs (c :: p :: ps) hunknum
        (window f 0 p.hunkbytes (parentRange c p blockoffs).offset c.hunkbytes)

section

variable {codecs : Codecs} {c c' : ChdFile} {chds chds' ps ps' : List ChdFile} {hunknum : ℕ}
  {bytes : List Byte}

theorem Same.refl (chds : List ChdFile) : Same chds chds := Eq.refl _

theorem Same.symm (h : Same chds chds') : Same chds' chds := Eq.symm h

theorem Same.trans {chds'' : List ChdFile} (h : Same chds chds') (h' : Same chds' chds'') :
    Same chds chds'' :=
  Eq.trans h h'

theorem Same.cons (hc : c.bare = c'.bare) (h : Same ps ps') : Same (c :: ps) (c' :: ps') := by
  rw [Same, List.map_cons, List.map_cons, hc, h]

theorem Same.eq_cons (h : Same (c :: ps) chds') :
    ∃ c' ps', chds' = c' :: ps' ∧ c.bare = c'.bare ∧ Same ps ps' := by
  cases chds' with
  | nil => cases h
  | cons c' ps' =>
    obtain ⟨hc, hps⟩ := List.cons.inj h
    exact ⟨c', ps', rfl, hc, hps⟩

theorem Same.isEmpty_eq (h : Same ps ps') : ps.isEmpty = ps'.isEmpty := by
  rw [← List.isEmpty_map (f := ChdFile.bare), h, List.isEmpty_map]

theorem entry_bare (codecs : Codecs) (c : ChdFile) (alone : Bool) (hunknum : ℕ) :
    c.bare.entry codecs alone hunknum = c.entry codecs alone hunknum := rfl

theorem entry_congr (h : c.bare = c'.bare) (alone : Bool) (hunknum : ℕ) :
    c.entry codecs alone hunknum = c'.entry codecs alone hunknum := by
  rw [← entry_bare, h, entry_bare]

theorem hunkbytes_congr (h : c.bare = c'.bare) : c.hunkbytes = c'.hunkbytes := by
  show c.bare.hunkbytes = c'.bare.hunkbytes
  rw [h]

theorem unitbytes_congr (h : c.bare = c'.bare) : c.unitbytes = c'.unitbytes := by
  show c.bare.unitbytes = c'.bare.unitbytes
  rw [h]

theorem Holds.of_same (h : Holds codecs chds hunknum bytes) (hsame : Same chds chds') :
    Holds codecs chds' hunknum bytes := by
  induction h generalizing chds' with
  | data entry length =>
    obtain ⟨c', ps', rfl, hc, hps⟩ := hsame.eq_cons
    exact .data (by rw [← entry_congr hc, ← hps.isEmpty_eq, entry])
      (length.trans (hunkbytes_congr hc))
  | self entry _ ih =>
    obtain ⟨c', ps', rfl, hc, hps⟩ := hsame.eq_cons
    exact .self (by rw [← entry_congr hc, ← hps.isEmpty_eq, entry]) (ih hsame)
  | parent entry length _ ih =>
    obtain ⟨c', ps', rfl, hc, hps⟩ := hsame.eq_cons
    exact .parent (by rw [← entry_congr hc, ← hps.isEmpty_eq, entry])
      (length.trans (hunkbytes_congr hc)) (ih hps)
  | @parentBytes c p ps hunknum blockoffs f entry proper _ ih =>
    obtain ⟨c', ps', rfl, hc, hps⟩ := hsame.eq_cons
    obtain ⟨p', ps', rfl, hp, hps'⟩ := hps.eq_cons
    have hrange : parentRange c p blockoffs = parentRange c' p' blockoffs := by
      rw [parentRange, parentRange, hunkbytes_congr hc, hunkbytes_congr hp, unitbytes_congr hp]
    rw [hrange] at ih proper ⊢
    rw [hunkbytes_congr hc, hunkbytes_congr hp]
    exact .parentBytes (by rw [← entry_congr hc, entry]) proper fun k hk hk' ↦ ih k hk hk' hps

theorem Same.holds_iff (h : Same chds chds') :
    Holds codecs chds hunknum bytes ↔ Holds codecs chds' hunknum bytes :=
  ⟨fun hh ↦ hh.of_same h, fun hh ↦ hh.of_same h.symm⟩

theorem window_congr_of_proper {r : Range} (h : r.Proper) {f g : ℕ → List Byte}
    (hfg : ∀ k, r.first ≤ k → k ≤ r.last → f k = g k) :
    window f 0 r.hunkbytes r.offset r.bytes = window g 0 r.hunkbytes r.offset r.bytes := by
  refine window_congr fun i hi ↦ ?_
  have hfinal := h.final_eq
  rw [hfg]
  · rw [h.first_eq]
    exact Nat.div_le_div_right (by omega)
  · rw [h.last_eq]
    exact Nat.div_le_div_right (by omega)

theorem Holds.length_eq
    (h : Holds codecs (c :: ps) hunknum bytes) : bytes.length = c.hunkbytes := by
  generalize hchds : c :: ps = chds at h
  induction h with
  | data _ length =>
    obtain ⟨rfl, rfl⟩ := List.cons.inj hchds
    exact length
  | self _ _ ih => exact ih hchds
  | parent _ length _ _ =>
    obtain ⟨rfl, rfl⟩ := List.cons.inj hchds
    exact length
  | parentBytes =>
    obtain ⟨rfl, rfl⟩ := List.cons.inj hchds
    exact length_window _

/-- A hunk out of range holds nothing. -/
theorem Holds.lt (h : Holds codecs (c :: ps) n bytes) : n < c.hunkcount := by
  by_contra hn
  have hout : ∀ alone, c.entry codecs alone n = .broken (.error .hunkOutOfRange) id :=
    fun alone ↦ by
    rw [ChdFile.entry, if_pos (Nat.le_of_not_lt hn)]
  cases h with
  | data entry => cases (hout _).symm.trans entry
  | self entry => cases (hout _).symm.trans entry
  | parent entry => cases (hout _).symm.trans entry
  | parentBytes entry => cases (hout _).symm.trans entry

theorem Holds.unique (h : Holds codecs chds hunknum bytes) {bytes' : List Byte}
    (h' : Holds codecs chds hunknum bytes') : bytes = bytes' := by
  induction h generalizing bytes' with
  | data entry =>
    cases h' with
    | data entry' =>
      cases entry.symm.trans entry'
      rfl
    | self entry' => cases entry.symm.trans entry'
    | parent entry' => cases entry.symm.trans entry'
    | parentBytes entry' => cases entry.symm.trans entry'
  | self entry _ ih =>
    cases h' with
    | data entry' => cases entry.symm.trans entry'
    | self entry' tail' =>
      cases entry.symm.trans entry'
      exact ih tail'
    | parent entry' => cases entry.symm.trans entry'
    | parentBytes entry' => cases entry.symm.trans entry'
  | parent entry _ _ ih =>
    cases h' with
    | data entry' => cases entry.symm.trans entry'
    | self entry' => cases entry.symm.trans entry'
    | parent entry' _ tail' =>
      cases entry.symm.trans entry'
      exact ih tail'
    | parentBytes entry' => cases entry.symm.trans entry'
  | @parentBytes c p ps hunknum blockoffs f entry proper _ ih =>
    cases h' with
    | data entry' => cases entry.symm.trans entry'
    | self entry' => cases entry.symm.trans entry'
    | parent entry' => cases entry.symm.trans entry'
    | parentBytes entry' _ tail' =>
      cases entry.symm.trans entry'
      exact window_congr_of_proper proper fun k hk hk' ↦ ih k hk hk' (tail' k hk hk')

end

end RoscoEmulator.Chd
