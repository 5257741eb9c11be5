import RoscoEmulator.Chd.Contents

/-!
# Reading through caches

A cache is right when it holds no hunk or what its hunk holds. An access to CHDs with right caches,
if it succeeds, puts what the hunks hold in its buffer and leaves the caches right. -/

namespace RoscoEmulator.Chd

open BigEndian Pieces AccessM

/-! ## Loops over hunks -/

section

variable {round : Range → ℕ → ℕ → AccessM Unit} {r : Range} {P : ℕ → Access → Prop}

/-- The hunk at which a loop fails, and what there is in front of that. -/
def failing (round : Range → ℕ → ℕ → AccessM Unit) (r : Range) :
    ℕ → ℕ → ℕ → Access → Option (ℕ × Access)
  | 0, _, _, _ => none
  | fuel + 1, k, pos, s =>
      if r.last < k then none
      else
        match round r k pos s with
        | .error _ _ => some (k, s)
        | .ok _ s' => failing round r fuel ((k + 1) % 2 ^ 32) (pos + r.count k) s'

/-- **The loop rule.** What every round keeps holds when the loop ends, or when a round fails. -/
theorem rounds_rule (hr : r.Proper)
    (hstep : ∀ k s s', r.first ≤ k → k ≤ r.last → P k s → round r k (r.pos k) s = .ok () s' →
      P (k + 1) s') {fuel k : ℕ} {s : Access} (hfirst : r.first ≤ k) (hlast :
      k ≤ r.last + 1) (hs : P k s)
    (hfuel : r.last + 1 - k < fuel) {pos : ℕ} (hpos : k ≤ r.last → pos = r.pos k) :
    (∃ s', rounds round r fuel k pos s = .ok () s' ∧ P (r.last + 1) s') ∨
      ∃ stop s', rounds round r fuel k pos s = .error stop s' ∧
        ∃ j s₁, failing round r fuel k pos s = some (j, s₁) ∧ r.first ≤ j ∧ j ≤ r.last ∧ P j s₁ ∧
          round r j (r.pos j) s₁ = .error stop s' := by
  induction fuel generalizing k s pos with
  | zero => exact absurd hfuel (Nat.not_lt_zero _)
  | succ fuel ih =>
    rw [rounds, failing]
    by_cases hend : r.last < k
    · rw [if_pos hend]
      obtain rfl : k = r.last + 1 := by omega
      exact .inl ⟨s, rfl, hs⟩
    · rw [if_neg hend, if_neg hend, hpos (by omega)]
      cases hround : round r k (r.pos k) s with
      | error stop s' =>
        exact .inr ⟨stop, s', bind_eq_error.mpr (.inl hround), k, s, rfl,
          hfirst, by omega, hs, hround⟩
      | ok _ s₁ =>
        have hlt := hr.last_lt
        rw [bind_of_ok hround, Nat.mod_eq_of_lt (by omega)]
        refine ih (by omega) (by omega) (hstep k s s₁ hfirst (by omega) hs hround) (by omega) ?_
        exact fun hle ↦ hr.pos_add_count hfirst (by omega)

/-- A loop fails at no hunk in front of its start. -/
theorem le_of_failing (hr : r.Proper) {fuel k j pos : ℕ} {s s₁ : Access}
    (h : failing round r fuel k pos s = some (j, s₁)) : k ≤ j := by
  have hlt := hr.last_lt
  induction fuel generalizing k pos s with
  | zero => cases h
  | succ fuel ih =>
    rw [failing] at h
    by_cases hend : r.last < k
    · rw [if_pos hend] at h
      cases h
    · rw [if_neg hend] at h
      cases hround : round r k pos s with
      | error stop s' =>
        simp only [hround, Option.some.injEq, Prod.mk.injEq] at h
        exact h.1.le
      | ok _ s' =>
        simp only [hround] at h
        rw [Nat.mod_eq_of_lt (by omega)] at h
        exact (Nat.le_succ k).trans (ih h)

/-- Where a loop from the first hunk on fails. -/
def failure (round : Range → ℕ → ℕ → AccessM Unit) (offset bytes : ℕ) (s : Access) :
    Option (ℕ × Access) :=
  match s.chds with
  | [] => none
  | c :: _ =>
      failing round ⟨c.hunkbytes, offset, bytes⟩ (2 ^ 33)
        (Range.first ⟨c.hunkbytes, offset, bytes⟩) 0 s

theorem overHunks_rule {c : ChdFile} {ps : List ChdFile} {dest : List Byte} {offset bytes : ℕ}
    (hr : Range.Proper ⟨c.hunkbytes, offset, bytes⟩)
    (hstep : ∀ k s s', Range.first ⟨c.hunkbytes, offset, bytes⟩ ≤ k →
      k ≤ Range.last ⟨c.hunkbytes, offset, bytes⟩ → P k s → round
      ⟨c.hunkbytes, offset, bytes⟩ k (Range.pos ⟨c.hunkbytes, offset, bytes⟩ k) s = .ok () s' →
      P (k + 1) s') (hs : P (Range.first ⟨c.hunkbytes, offset, bytes⟩) ⟨dest, c :: ps⟩) :
    (∃ s', overHunks round offset bytes ⟨dest, c :: ps⟩ = .ok () s' ∧
        P (Range.last ⟨c.hunkbytes, offset, bytes⟩ + 1) s') ∨
      ∃ stop s', overHunks round offset bytes ⟨dest, c :: ps⟩ = .error stop s' ∧
        ∃ k s₁, failure round offset bytes ⟨dest, c :: ps⟩ = some (k, s₁) ∧
          Range.first ⟨c.hunkbytes, offset, bytes⟩ ≤ k ∧
          k ≤ Range.last ⟨c.hunkbytes, offset, bytes⟩ ∧ P k s₁ ∧
          round ⟨c.hunkbytes, offset, bytes⟩ k (Range.pos ⟨c.hunkbytes, offset, bytes⟩ k) s₁ =
            .error stop s' := by
  have hpos : c.hunkbytes ≠ 0 := Nat.pos_iff_ne_zero.mp hr.hunkbytes_pos
  rw [overHunks, if_neg (Nat.pos_iff_ne_zero.mp hr.bytes_pos), current_bind, if_neg hpos]
  have hlt := hr.last_lt
  refine rounds_rule hr hstep (Nat.le_refl _) ?_ hs (by omega) fun _ ↦ hr.pos_first.symm
  exact hr.first_le_last.trans (Nat.le_succ _)

end

/-! ## Right caches -/

/-- What `m_cachehunk` is when the cache holds no hunk. -/
def noHunk : ℕ := 2 ^ 32 - 1

section

variable (codecs : Codecs)

/-- The caches of a CHD and its parents are right. -/
def Coherent : List ChdFile → Prop
  | [] => True
  | c :: ps =>
      (c.cachehunk = noHunk ∨ Holds codecs (c :: ps) c.cachehunk c.cache) ∧
        c.cache.length = c.hunkbytes ∧ Coherent ps

/-- What the entries of a CHD lead to has the size of a hunk: a hunk of eight bytes has room in it,
a hunk of the parent is one of the CHD, and units of the parent are in hunks that have a number. -/
structure Fits (c : ChdFile) (ps : List ChdFile) : Prop where
  mini : c.version = 5 ∨ 8 ≤ c.hunkbytes
  parent : ∀ p ∈ ps.head?, ∀ hunknum other, c.entry codecs false hunknum = .parent other →
    p.hunkbytes = c.hunkbytes
  parentBytes : ∀ p ∈ ps.head?, ∀ hunknum blockoffs,
    c.entry codecs false hunknum = .parentBytes blockoffs → (parentRange c p blockoffs).Proper

/-- The same of a CHD and its parents. -/
def Fitting : List ChdFile → Prop
  | [] => True
  | c :: ps => Fits codecs c ps ∧ Fitting ps

end

section

variable {codecs : Codecs} {c c' : ChdFile} {chds chds' ps ps' : List ChdFile} {hunknum : ℕ}
  {bytes : List Byte}

/-- Nothing depends on the caches. -/
theorem Fits.of_same (h : Fits codecs c ps) (hc : c.bare = c'.bare) (hps : Same ps ps') :
    Fits codecs c' ps' := by
  have hversion : c.version = c'.version := by
    show c.bare.version = c'.bare.version
    rw [hc]
  have hhead : ∀ p' ∈ ps'.head?, ∃ p ∈ ps.head?, p.bare = p'.bare := by
    intro p' hp'
    cases ps' with
    | nil => cases hp'
    | cons q' qs' =>
      obtain rfl : q' = p' := by simpa using hp'
      obtain ⟨q, qs, rfl, hq, -⟩ := hps.symm.eq_cons
      exact ⟨q, rfl, hq.symm⟩
  refine ⟨?_, fun p' hp' n other hentry ↦ ?_, fun p' hp' n blockoffs hentry ↦ ?_⟩
  · rw [← hversion, ← hunkbytes_congr hc]
    exact h.mini
  · obtain ⟨p, hp, hbare⟩ := hhead p' hp'
    rw [← hunkbytes_congr hbare, ← hunkbytes_congr hc]
    exact h.parent p hp n other (by rw [entry_congr hc, hentry])
  · obtain ⟨p, hp, hbare⟩ := hhead p' hp'
    have hproper := h.parentBytes p hp n blockoffs (by rw [entry_congr hc, hentry])
    rwa [parentRange, hunkbytes_congr hbare, hunkbytes_congr hc, unitbytes_congr hbare] at hproper

theorem Fitting.of_same (h : Fitting codecs chds) (hsame : Same chds chds') :
    Fitting codecs chds' := by
  induction chds generalizing chds' with
  | nil =>
    cases chds' with
    | nil => trivial
    | cons c' ps' => cases hsame
  | cons c ps ih =>
    obtain ⟨c', ps', rfl, hc, hps⟩ := hsame.eq_cons
    exact ⟨h.1.of_same hc hps, ih h.2 hps⟩

end

/-! ## Sizes -/

/-- An entry leaves a buffer of `n` bytes at its size, and fills it if it is the bytes of a hunk. -/
def HunkEntry.Sized (n : ℕ) : HunkEntry → Prop
  | data bytes => bytes.length = n
  | broken stop leaves =>
    stop ≠ .hang ∧ ∀ dest : List Byte, dest.length = n → (leaves dest).length = n
  | _ => True

namespace ChdFile

variable (codecs : Codecs) (c : ChdFile)

theorem sized_broken_id {stop : Stop} (hstop : stop ≠ .hang) (n : ℕ) :
    (HunkEntry.broken stop id).Sized n :=
  ⟨hstop, fun _ h ↦ h⟩

variable {n : ℕ}

theorem length_overlay_of_le {dest bytes : List Byte} (hdest : dest.length = n)
    (hbytes : bytes.length ≤ n) : (overlay dest bytes).length = n := by
  rw [length_overlay]
  omega

theorem length_arrived_le (file : CoreFile) (offset length : ℕ) :
    (file.arrived offset length).length ≤ length := by
  have hread := ByteFile.length_readAt file.data offset length
  rw [CoreFile.arrived]
  split_ifs
  · omega
  · rw [List.length_take]
    omega

theorem read_ne_hang (file : CoreFile) (offset length : ℕ) :
    file.read offset length ≠ .error .hang := by
  rw [CoreFile.read]
  split_ifs <;> intro h <;> cases h

theorem sized_checkedEntry {valid : Prop} [Decidable valid] {bytes : List Byte}
    (h : bytes.length = n) : (checkedEntry valid bytes).Sized n := by
  rw [checkedEntry]
  split_ifs
  · exact h
  · exact ⟨fun hstop ↦ (by cases hstop), fun dest hdest ↦ length_overlay_of_le hdest h.le⟩

theorem sized_storedEntry (blockoffs : ℕ) (valid : List Byte → Bool) :
    (c.storedEntry blockoffs valid).Sized c.hunkbytes := by
  rw [storedEntry]
  cases hread : c.file.read blockoffs c.hunkbytes with
  | error stop =>
    refine ⟨fun hstop ↦ read_ne_hang _ _ _ (hstop ▸ hread), fun dest hdest ↦ ?_⟩
    exact length_overlay_of_le hdest (length_arrived_le _ _ _)
  | ok bytes => exact sized_checkedEntry (CoreFile.read_eq_ok hread).2

theorem sized_codecEntry (slot : Fin 4) (blockoffs blocklen : ℕ)
    (valid : BitVec 32 → List Byte → List Byte → Bool) :
    (c.codecEntry codecs slot blockoffs blocklen valid).Sized c.hunkbytes := by
  rw [codecEntry]
  by_cases hover : c.hunkbytes < (c.file.arrived blockoffs blocklen).length
  · rw [if_pos hover]
    exact sized_broken_id (fun hstop ↦ by cases hstop) _
  rw [if_neg hover]
  cases hread : c.file.read blockoffs blocklen with
  | error stop => exact sized_broken_id (fun hstop ↦ read_ne_hang _ _ _ (hstop ▸ hread)) _
  | ok src =>
    by_cases hslot : c.compression slot = 0
    · simp only [if_pos hslot]
      exact sized_broken_id (fun hstop ↦ by cases hstop) _
    simp only [if_neg hslot]
    cases hdec : codecs.decompress (c.compression slot) src c.hunkbytes with
    | error e =>
      refine ⟨fun hstop ↦ (by cases hstop), fun dest hdest ↦ length_overlay_of_le hdest ?_⟩
      rw [codecs.length_leaves, List.length_take]
      exact Nat.min_le_left _ _
    | ok bytes => exact sized_checkedEntry (codecs.length_decompress hdec)

theorem sized_parentEntry {e : HunkEntry} (h : e.Sized n) : (c.parentEntry e).Sized n := by
  rw [parentEntry]
  split_ifs
  · exact sized_broken_id (fun hstop ↦ by cases hstop) _
  · exact h

theorem sized_entryAt {count hunknum : ℕ} {entry : List Byte → HunkEntry}
    (h : ∀ rawmap, (entry rawmap).Sized n) : (c.entryAt count hunknum entry).Sized n := by
  rw [entryAt]
  split_ifs
  · exact h _
  · exact sized_broken_id (fun hstop ↦ by cases hstop) _

theorem sized_entryV34 (hmini : 8 ≤ c.hunkbytes) (rawmap : List Byte) :
    (c.entryV34 codecs rawmap).Sized c.hunkbytes := by
  rw [entryV34]
  generalize (rawmap.getD 15 0 &&& 0x0f).toNat = type
  rcases type with _ | _ | _ | _ | _ | _ | type
  · exact sized_broken_id (fun hstop ↦ by cases hstop) _
  · exact c.sized_codecEntry codecs _ _ _ _
  · exact c.sized_storedEntry _ _
  · refine sized_checkedEntry ?_
    rw [miniHunk, List.length_map, List.length_range]
    omega
  · trivial
  · exact c.sized_parentEntry trivial
  · exact sized_broken_id (fun hstop ↦ by cases hstop) _

theorem sized_entryV5 (rawmap : List Byte) : (c.entryV5 codecs rawmap).Sized c.hunkbytes := by
  rw [entryV5]
  generalize (rawmap.getD 0 0).toNat = type
  rcases type with _ | _ | _ | _ | _ | _ | _ | type
  · exact c.sized_codecEntry codecs _ _ _ _
  · exact c.sized_codecEntry codecs _ _ _ _
  · exact c.sized_codecEntry codecs _ _ _ _
  · exact c.sized_codecEntry codecs _ _ _ _
  · exact c.sized_storedEntry _ _
  · trivial
  · exact c.sized_parentEntry trivial
  · exact sized_broken_id (fun hstop ↦ by cases hstop) _

theorem sized_entryRaw (alone : Bool) (hunknum : ℕ) (rawmap : List Byte) :
    (c.entryRaw alone hunknum rawmap).Sized c.hunkbytes := by
  rw [entryRaw]
  split_ifs
  · exact c.sized_storedEntry _ _
  · exact c.sized_parentEntry (List.length_replicate ..)
  · exact c.sized_parentEntry trivial

theorem sized_entry (hmini : c.version = 5 ∨ 8 ≤ c.hunkbytes) (alone : Bool) (hunknum : ℕ) :
    (c.entry codecs alone hunknum).Sized c.hunkbytes := by
  rw [entry]
  split_ifs with hrange hold hnew
  · exact sized_broken_id (fun hstop ↦ by cases hstop) _
  · exact c.sized_entryAt (c.sized_entryV34 codecs (by omega))
  · exact c.sized_entryAt (c.sized_entryV5 codecs)
  · exact c.sized_entryAt (c.sized_entryRaw alone hunknum)
  · exact sized_broken_id (fun hstop ↦ by cases hstop) _

end ChdFile

end RoscoEmulator.Chd
