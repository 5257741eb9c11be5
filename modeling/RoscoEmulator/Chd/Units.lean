import RoscoEmulator.Chd.Success

/-!
# Units

`read_units` and `write_units` of one unit. A unit lies in one hunk, so an access to it is one round
of the loop over hunks: if the unit is all of a hunk that is not in the cache, right in the file,
and else in the cache. The accesses to a unit behind the last hunk fail and leave everything
alone. -/

namespace RoscoEmulator.Chd

open Nat List BigEndian Pieces AccessM

/-- Hunks of whole units, with sizes of 32 bits. -/
structure ChdFile.UnitSized (c : ChdFile) : Prop where
  unitbytes_pos : 0 < c.unitbytes
  dvd : c.unitbytes ∣ c.hunkbytes
  hunkbytes_pos : 0 < c.hunkbytes
  hunkbytes_lt : c.hunkbytes < 2 ^ 32
  hunkcount_lt : c.hunkcount < 2 ^ 32

/-- The units of a hunk. -/
def ChdFile.perHunk (c : ChdFile) : ℕ := c.hunkbytes / c.unitbytes

/-- The units of all hunks. -/
def ChdFile.units (c : ChdFile) : ℕ := c.hunkcount * c.perHunk

/-- The bytes of a unit. -/
def unitRange (c : ChdFile) (unitnum : ℕ) : Range :=
  ⟨c.hunkbytes, unitnum * c.unitbytes, c.unitbytes⟩

/-! ## The hunk of a unit -/

namespace ChdFile.UnitSized

variable {c : ChdFile} (h : c.UnitSized) {n : ℕ}

include h

theorem perHunk_mul : c.perHunk * c.unitbytes = c.hunkbytes := Nat.div_mul_cancel h.dvd

theorem perHunk_pos : 0 < c.perHunk :=
  Nat.div_pos (le_of_dvd h.hunkbytes_pos h.dvd) h.unitbytes_pos

theorem perHunk_eq_one_iff : c.perHunk = 1 ↔ c.unitbytes = c.hunkbytes := by
  have hmul := h.perHunk_mul
  constructor
  · intro hone
    rw [← hmul, hone, Nat.one_mul]
  · intro hsame
    rw [perHunk, hsame, Nat.div_self h.hunkbytes_pos]

theorem unitbytes_le : c.unitbytes ≤ c.hunkbytes := le_of_dvd h.hunkbytes_pos h.dvd

theorem unit_div : n * c.unitbytes / c.hunkbytes = n / c.perHunk := by
  rw [← h.perHunk_mul]
  exact Nat.mul_div_mul_right _ _ h.unitbytes_pos

theorem unit_div' : (n * c.unitbytes + (c.unitbytes - 1)) / c.hunkbytes = n / c.perHunk := by
  have hpos := h.unitbytes_pos
  rw [← h.perHunk_mul, Nat.mul_comm c.perHunk, ← Nat.div_div_eq_div_mul]
  congr 1
  refine Nat.div_eq_of_lt_le (by omega) ?_
  rw [succ_mul]
  omega

section

variable (hn : n < 2 ^ 32)
include hn

theorem mul_unitbytes_lt : n * c.unitbytes + c.unitbytes ≤ 2 ^ 64 := by
  have hlt := h.hunkbytes_lt
  have hle := h.unitbytes_le
  rw [← succ_mul]
  exact (Nat.mul_le_mul (show n + 1 ≤ 2 ^ 32 by omega)
    (show c.unitbytes ≤ 2 ^ 32 by omega)).trans (by decide)

theorem first_unitRange : (unitRange c n).first = n / c.perHunk := by
  have hle : n / c.perHunk ≤ n := Nat.div_le_self _ _
  show n * c.unitbytes / c.hunkbytes % 2 ^ 32 = _
  rw [h.unit_div, mod_eq_of_lt (by omega)]

theorem final_unitRange : (unitRange c n).final = n * c.unitbytes + (c.unitbytes - 1) := by
  have hlt := h.mul_unitbytes_lt hn
  have hpos := h.unitbytes_pos
  show (n * c.unitbytes + (c.unitbytes - 1)) % 2 ^ 64 = _
  exact mod_eq_of_lt (by omega)

theorem last_unitRange : (unitRange c n).last = n / c.perHunk := by
  have hle : n / c.perHunk ≤ n := Nat.div_le_self _ _
  rw [Range.last, h.final_unitRange hn]
  show (n * c.unitbytes + (c.unitbytes - 1)) / c.hunkbytes % 2 ^ 32 = _
  rw [h.unit_div', mod_eq_of_lt (by omega)]

theorem startoffs_unitRange :
    (unitRange c n).startoffs (n / c.perHunk) = n * c.unitbytes % c.hunkbytes := by
  rw [Range.startoffs, h.first_unitRange hn, if_pos rfl]
  rfl

theorem endoffs_unitRange : (unitRange c n).endoffs (n / c.perHunk) =
    n * c.unitbytes % c.hunkbytes + (c.unitbytes - 1) := by
  rw [Range.endoffs, h.last_unitRange hn, if_pos rfl, h.final_unitRange hn]
  show (n * c.unitbytes + (c.unitbytes - 1)) % c.hunkbytes = _
  have hsplit := div_add_mod' (n * c.unitbytes + (c.unitbytes - 1)) c.hunkbytes
  have hsplit' := div_add_mod' (n * c.unitbytes) c.hunkbytes
  rw [h.unit_div'] at hsplit
  rw [h.unit_div] at hsplit'
  omega

theorem count_unitRange : (unitRange c n).count (n / c.perHunk) = c.unitbytes := by
  have hpos := h.unitbytes_pos
  rw [Range.count, h.endoffs_unitRange hn, h.startoffs_unitRange hn]
  omega

theorem whole_unitRange_iff :
    (unitRange c n).Whole (n / c.perHunk) ↔ c.unitbytes = c.hunkbytes := by
  have hpos := h.unitbytes_pos
  have hpos' := h.hunkbytes_pos
  rw [Range.Whole, h.startoffs_unitRange hn, h.endoffs_unitRange hn]
  show _ ∧ _ = c.hunkbytes - 1 ↔ _
  constructor
  · rintro ⟨hstart, hend⟩
    omega
  · intro hsame
    have hzero : n * c.unitbytes % c.hunkbytes = 0 := by rw [hsame, mul_mod_left]
    omega

theorem startoffs_add_le :
    (unitRange c n).startoffs (n / c.perHunk) + c.unitbytes ≤ c.hunkbytes := by
  have hend := h.endoffs_unitRange hn
  have hlt : (unitRange c n).endoffs (n / c.perHunk) < c.hunkbytes := by
    rw [Range.endoffs, h.last_unitRange hn, if_pos rfl]
    exact mod_lt _ h.hunkbytes_pos
  rw [h.startoffs_unitRange hn]
  omega

end

theorem units_le_iff : c.units ≤ n ↔ c.hunkcount ≤ n / c.perHunk := by
  rw [ChdFile.units, Nat.le_div_iff_mul_le h.perHunk_pos]

theorem div_lt (hn : n < c.units) : n / c.perHunk < c.hunkcount :=
  Nat.lt_of_not_le fun hle ↦ absurd (h.units_le_iff.mpr hle) (by omega)

theorem proper_unitRange (hn : n < 2 ^ 32) (hunk : n / c.perHunk < 2 ^ 32 - 1) :
    (unitRange c n).Proper := by
  refine ⟨h.hunkbytes_pos, h.unitbytes_pos, ?_, h.mul_unitbytes_lt hn⟩
  show n * c.unitbytes + c.unitbytes ≤ c.hunkbytes * (2 ^ 32 - 1)
  have hlt : n < (2 ^ 32 - 1) * c.perHunk := (Nat.div_lt_iff_lt_mul h.perHunk_pos).mp hunk
  rw [← succ_mul, ← h.perHunk_mul, Nat.mul_comm _ (2 ^ 32 - 1), ← Nat.mul_assoc]
  exact Nat.mul_le_mul_right _ hlt

end ChdFile.UnitSized

/-! ## One round -/

section

variable {codecs : Codecs} {round : Range → ℕ → ℕ → AccessM Unit} {c : ChdFile} {ps : List ChdFile}
  {n fuel : ℕ} {dest buffer : List Byte}

section

variable (h : c.UnitSized) (hn : n < 2 ^ 32)
include h hn

theorem overHunks_unit_bind :
    overHunks round (n * c.unitbytes) c.unitbytes ⟨dest, c :: ps⟩ =
      (round (unitRange c n) (n / c.perHunk) 0 >>= fun _ ↦
        rounds round (unitRange c n) (2 ^ 33 - 1) ((n / c.perHunk + 1) % 2 ^ 32) (0 + c.unitbytes))
        ⟨dest, c :: ps⟩ := by
  have hpos := h.unitbytes_pos
  have hpos' := h.hunkbytes_pos
  rw [overHunks, if_neg (by omega), current_bind, if_neg (by omega)]
  show rounds round (unitRange c n) (2 ^ 33 - 1 + 1) (unitRange c n).first 0 _ = _
  rw [rounds, h.first_unitRange hn, h.last_unitRange hn, if_neg (Nat.lt_irrefl _),
    h.count_unitRange hn]

theorem overHunks_unit_error {stop : Stop} {s' : Access}
    (herror : round (unitRange c n) (n / c.perHunk) 0 ⟨dest, c :: ps⟩ = .error stop s') :
    overHunks round (n * c.unitbytes) c.unitbytes ⟨dest, c :: ps⟩ = .error stop s' := by
  rw [overHunks_unit_bind h hn]
  exact bind_eq_error.mpr (.inl herror)

theorem overHunks_unit (hunk : n / c.perHunk < 2 ^ 32 - 1) :
    overHunks round (n * c.unitbytes) c.unitbytes ⟨dest, c :: ps⟩ =
      round (unitRange c n) (n / c.perHunk) 0 ⟨dest, c :: ps⟩ := by
  cases hround : round (unitRange c n) (n / c.perHunk) 0 ⟨dest, c :: ps⟩ with
  | error stop s' => exact overHunks_unit_error h hn hround
  | ok _ s' =>
    have hend : (n / c.perHunk + 1) % 2 ^ 32 = n / c.perHunk + 1 := mod_eq_of_lt (by omega)
    rw [overHunks_unit_bind h hn, bind_of_ok hround, hend]
    show rounds round (unitRange c n) (2 ^ 33 - 2 + 1) _ _ _ = _
    rw [rounds, h.last_unitRange hn, if_pos (lt_succ_self _)]
    rfl

theorem readUnits_one :
    readUnits codecs fuel n 1 ⟨dest, c :: ps⟩ =
      overHunks (readRound (readHunk codecs fuel))
      (n * c.unitbytes) c.unitbytes ⟨dest, c :: ps⟩ := by
  have hlt := h.mul_unitbytes_lt hn
  have hlt' := h.hunkbytes_lt
  have hle := h.unitbytes_le
  have hpos := h.unitbytes_pos
  rw [readUnits, current_bind, Nat.one_mul, mod_eq_of_lt (show n * c.unitbytes < 2 ^ 64 by omega),
    mod_eq_of_lt (show c.unitbytes < 2 ^ 32 by omega)]
  rfl

theorem writeUnits_one (hlen : buffer.length = c.unitbytes) :
    writeUnits codecs fuel n 1 buffer ⟨dest, c :: ps⟩ =
      overHunks (writeRound (readHunk codecs fuel) buffer) (n * c.unitbytes) c.unitbytes
        ⟨dest, c :: ps⟩ := by
  have hlt := h.mul_unitbytes_lt hn
  have hlt' := h.hunkbytes_lt
  have hle := h.unitbytes_le
  have hpos := h.unitbytes_pos
  rw [writeUnits, current_bind, Nat.one_mul, mod_eq_of_lt (show n * c.unitbytes < 2 ^ 64 by omega),
    mod_eq_of_lt (show c.unitbytes < 2 ^ 32 by omega), take_of_length_le hlen.le, writeBytes, hlen]

end

/-! ## Units behind the last hunk -/

variable {k : ℕ} {bytes : List Byte}

theorem readHunk_outOfRange (hk : c.hunkcount ≤ k) : readHunk codecs (fuel + 1) k
    ⟨dest, c :: ps⟩ = .error (.error .hunkOutOfRange) ⟨dest, c :: ps⟩ := by
  rw [readHunk, readHunkOf_eq, ChdFile.entry, if_pos hk]
  rfl

theorem fillCache_outOfRange (hk : c.hunkcount ≤ k) (hcache : k ≠ c.cachehunk) :
    fillCache (readHunk codecs (fuel + 1)) k ⟨dest, c :: ps⟩ =
      .error (.error .hunkOutOfRange) ⟨dest, c :: ps⟩ := by
  have hread : onCache (readHunk codecs (fuel + 1) k) ⟨dest, c :: ps⟩ =
      .error (.error .hunkOutOfRange) ⟨dest, c :: ps⟩ := by
    simp only [onCache, readHunk_outOfRange hk, setCache]
  rw [fillCache, current_bind, if_neg hcache]
  exact bind_eq_error.mpr (.inl hread)

theorem writeHunk_outOfRange (hk : c.hunkcount ≤ k) (fromCache : Bool) :
    writeHunk k buffer fromCache c = .error (.error .hunkOutOfRange) c := by
  rw [writeHunk, Chd.get_bind, if_pos hk]
  rfl

variable (codecs ps fuel dest) in
theorem readUnits_outOfRange (h : c.UnitSized) (hn : n < 2 ^ 32) (hout : c.units ≤ n)
    (hcache : n / c.perHunk ≠ c.cachehunk) :
    ∃ dest', readUnits codecs (fuel + 1) n 1 ⟨dest, c :: ps⟩ =
      .error (.error .hunkOutOfRange) ⟨dest', c :: ps⟩ := by
  have hk := h.units_le_iff.mp hout
  rw [readUnits_one h hn]
  by_cases hwhole : (unitRange c n).Whole (n / c.perHunk) ∧ n / c.perHunk ≠ c.cachehunk
  · have hround :
        readRound (readHunk codecs (fuel + 1)) (unitRange c n) (n / c.perHunk) 0 ⟨dest, c :: ps⟩ =
        .error (.error .hunkOutOfRange) ⟨putPart dest 0 (part dest 0 (unitRange c n).hunkbytes),
        c :: ps⟩ := by
      rw [readRound, current_bind, if_pos hwhole]
      exact onPart_eq_error (s := ⟨dest, c :: ps⟩) (readHunk_outOfRange hk)
    exact ⟨_, overHunks_unit_error h hn hround⟩
  · refine ⟨dest, overHunks_unit_error h hn ?_⟩
    rw [readRound, current_bind, if_neg hwhole]
    exact bind_eq_error.mpr (.inl (fillCache_outOfRange hk hcache))

variable (codecs ps fuel dest) in
theorem writeUnits_outOfRange (h : c.UnitSized) (hn : n < 2 ^ 32) (hout : c.units ≤ n)
    (hcache : n / c.perHunk ≠ c.cachehunk) (hlen : buffer.length = c.unitbytes) :
    writeUnits codecs (fuel + 1) n 1 buffer ⟨dest, c :: ps⟩ =
      .error (.error .hunkOutOfRange) ⟨dest, c :: ps⟩ := by
  have hk := h.units_le_iff.mp hout
  rw [writeUnits_one h hn hlen]
  refine overHunks_unit_error h hn ?_
  rw [writeRound, current_bind]
  by_cases hwhole : (unitRange c n).Whole (n / c.perHunk) ∧ n / c.perHunk ≠ c.cachehunk
  · rw [if_pos hwhole, onCurrent_eq, writeHunk_outOfRange hk]
  · rw [if_neg hwhole]
    exact bind_eq_error.mpr (.inl (fillCache_outOfRange hk hcache))

variable (codecs ps fuel dest) in
/-- A hunk that has the number of no hunk is taken for the one in an empty cache: the bytes are put
there before the write fails. -/
theorem writeUnits_noHunk (h : c.UnitSized) (hn : n < 2 ^ 32) (hout : c.units ≤ n)
    (hcache : n / c.perHunk = c.cachehunk) (hlen : buffer.length = c.unitbytes) :
    writeUnits codecs fuel n 1 buffer ⟨dest, c :: ps⟩ = .error (.error .hunkOutOfRange)
      ⟨dest, { c with cache := putPart c.cache (n * c.unitbytes % c.hunkbytes) buffer } :: ps⟩ := by
  have hk := h.units_le_iff.mp hout
  have hpart : part buffer 0 c.unitbytes = buffer := by
    rw [part, drop_zero, take_of_length_le hlen.le]
  rw [writeUnits_one h hn hlen]
  refine overHunks_unit_error h hn ?_
  rw [writeRound, current_bind, if_neg fun hwhole ↦ hwhole.2 hcache, h.startoffs_unitRange hn,
    h.count_unitRange hn, hpart]
  have hfill : fillCache (readHunk codecs fuel) (n / c.perHunk) ⟨dest, c :: ps⟩ = .ok () ⟨dest,
      c :: ps⟩ := by
    rw [fillCache, current_bind, if_pos hcache]
    rfl
  rw [bind_of_ok hfill]
  refine bind_eq_error.mpr (.inr ⟨(), _, onCurrent_eq_ok.mpr ⟨_, rfl, rfl⟩, ?_⟩)
  rw [current_bind, onCurrent_eq, writeHunk_outOfRange]
  exact hk

/-! ## Units in hunks -/

variable {ps' : List ChdFile} {c' : ChdFile}

theorem readUnits_ok (h : c.UnitSized) (hn : n < 2 ^ 32) (hunk : n / c.perHunk < 2 ^ 32 - 1)
    (hok : Succeeds codecs (readHunk codecs fuel (n / c.perHunk)) (c :: ps))
    (hfit : Fitting codecs (c :: ps)) (hco : Coherent codecs (c :: ps))
    (hdest : dest.length = c.unitbytes) :
    ∃ s', readUnits codecs fuel n 1 ⟨dest, c :: ps⟩ = .ok () s' := by
  have hproper := h.proper_unitRange hn hunk
  have hfirst := h.first_unitRange hn
  obtain ⟨s', hround⟩ :=
    (reads_readHunk codecs fuel).readRound_ok hok hfit hco hproper rfl hfirst.le
    (h.last_unitRange hn).ge hdest
  rw [← hfirst, hproper.pos_first, hfirst] at hround
  exact ⟨s', (readUnits_one h hn).trans ((overHunks_unit h hn hunk).trans hround)⟩

variable (codecs ps fuel) in
theorem readUnits_cached (h : c.UnitSized) (hn : n < 2 ^ 32) (hunk : n / c.perHunk < 2 ^ 32 - 1)
    (hcache : n / c.perHunk = c.cachehunk) (hlen : c.cache.length = c.hunkbytes)
    (hdest : dest.length = c.unitbytes) : readUnits codecs fuel n 1 ⟨dest, c :: ps⟩ =
      .ok () ⟨part c.cache (n * c.unitbytes % c.hunkbytes) c.unitbytes, c :: ps⟩ := by
  have hinside := h.startoffs_add_le hn
  rw [h.startoffs_unitRange hn] at hinside
  have hpart : (part c.cache (n * c.unitbytes % c.hunkbytes) c.unitbytes).length = c.unitbytes :=
    length_part (by omega)
  have hfill : fillCache (readHunk codecs fuel) (n / c.perHunk) ⟨dest, c :: ps⟩ = .ok () ⟨dest,
      c :: ps⟩ := by
    rw [fillCache, current_bind, if_pos hcache]
    rfl
  rw [readUnits_one h hn, overHunks_unit h hn hunk, readRound, current_bind,
    if_neg fun hwhole ↦ hwhole.2 hcache, bind_of_ok hfill, current_bind, h.startoffs_unitRange hn,
    h.count_unitRange hn]
  have hbuffer : fill (part c.cache (n * c.unitbytes % c.hunkbytes) c.unitbytes)
      ⟨part dest 0 c.unitbytes, c :: ps⟩ = .ok () ⟨overlay (part dest 0 c.unitbytes)
        (part c.cache (n * c.unitbytes % c.hunkbytes) c.unitbytes), c :: ps⟩ := rfl
  refine (onPart_eq_ok (s := ⟨dest, c :: ps⟩) hbuffer).trans ?_
  have hall : putPart dest 0 (overlay (part dest 0 c.unitbytes)
      (part c.cache (n * c.unitbytes % c.hunkbytes) c.unitbytes)) =
      part c.cache (n * c.unitbytes % c.hunkbytes) c.unitbytes := by
    rw [overlay_of_length_le (by rw [hpart, length_part (by omega)])]
    show dest.take 0 ++ overlay (dest.drop 0) _ = _
    rw [take_zero, nil_append, drop_zero]
    exact overlay_of_length_le (by omega)
  exact congrArg (fun d ↦ EStateM.Result.ok () (⟨d, c :: ps⟩ : Access)) hall

/-- A hunk written from the cache leaves it alone. -/
theorem cache_of_writeHunk (hraw : c.RawStore) (hk : k < c.hunkcount)
    (hok : writeHunk k buffer true c = .ok () c') :
    Alike c c' ∧ c'.cache = c.cache ∧ c'.cachehunk = c.cachehunk := by
  rcases hraw.writeHunk_ok hk hok with ⟨-, -, rfl⟩ | ⟨-, -, rfl⟩ | ⟨-, -, -, hc'⟩
  · exact ⟨⟨rfl, rfl, rfl, rfl⟩, rfl, rfl⟩
  · exact ⟨⟨rfl, rfl, rfl, rfl⟩, rfl, rfl⟩
  · rw [if_neg fun hcached ↦ hcached.2 rfl] at hc'
    subst hc'
    exact ⟨⟨rfl, rfl, rfl, rfl⟩, rfl, rfl⟩

theorem ChdFile.UnitSized.of_alike (h : c.UnitSized) (halike : Alike c c') :
    c'.UnitSized ∧ c'.perHunk = c.perHunk := by
  obtain ⟨-, hhunkbytes, hhunkcount, hunitbytes⟩ := halike
  constructor
  · constructor
    · rw [hunitbytes]
      exact h.unitbytes_pos
    · rw [hunitbytes, hhunkbytes]
      exact h.dvd
    · rw [hhunkbytes]
      exact h.hunkbytes_pos
    · rw [hhunkbytes]
      exact h.hunkbytes_lt
    · rw [hhunkcount]
      exact h.hunkcount_lt
  · rw [perHunk, perHunk, hunitbytes, hhunkbytes]

variable (dest) in
/-- **A unit through the cache.** It is written, and it reads as it was written. -/
theorem writeUnits_cached (h : c.UnitSized) (hraw : c.RawStore) (hwrites : c.allowWrites = true)
    (hfaithful : c.file.Faithful) (hn : n < 2 ^ 32) (hin : n < c.units)
    (hthrough : ¬ (c.unitbytes = c.hunkbytes ∧ n / c.perHunk ≠ c.cachehunk))
    (hok : Succeeds codecs (readHunk codecs fuel (n / c.perHunk)) (c :: ps))
    (hfit : Fitting codecs (c :: ps)) (hco : Coherent codecs (c :: ps))
    (hlen : buffer.length = c.unitbytes) :
    ∃ c' ps', writeUnits codecs fuel n 1 buffer ⟨dest, c :: ps⟩ = .ok () ⟨dest, c' :: ps'⟩ ∧
      ∀ fuel' dest', dest'.length = c.unitbytes →
        readUnits codecs fuel' n 1 ⟨dest', c' :: ps'⟩ = .ok () ⟨buffer, c' :: ps'⟩ := by
  have hk := h.div_lt hin
  have hlt := hraw.hunkcount_lt
  have hinside := h.startoffs_add_le hn
  have hstart := h.startoffs_unitRange hn
  have hpart : part buffer 0 c.unitbytes = buffer := by
    rw [part, drop_zero, take_of_length_le hlen.le]
  obtain ⟨c₁, ps₁, hfill, hcachehunk, hbare, hsame⟩ :=
    (reads_readHunk codecs fuel).fillCache_ok hok hfit hco dest
  rcases (reads_readHunk codecs fuel).fillCache dest hfit hco (k := n / c.perHunk)
      (by rw [noHunk]; omega) with ⟨c₂, ps₂, hfill', -, -, hco₁, -⟩ | ⟨stop, s₂, herror, -⟩
  swap
  · rw [herror] at hfill
    cases hfill
  obtain ⟨-, heq⟩ := EStateM.Result.ok.inj (hfill'.symm.trans hfill)
  cases heq
  obtain ⟨new, hnew⟩ : ∃ new,
      new = putPart c₁.cache (n * c.unitbytes % c.hunkbytes) buffer := ⟨_, rfl⟩
  have hcache : c₁.cache.length = c.hunkbytes := hco₁.2.1.trans (hunkbytes_congr hbare)
  have hnewlen : new.length = c.hunkbytes := by
    rw [hnew, length_putPart (by omega), hcache]
  -- the hunk with the new bytes can be written
  have hbare₂ : { c₁ with cache := new }.bare = c.bare := hbare
  have hraw₂ : ChdFile.RawStore { c₁ with cache := new } := hraw.of_bare hbare₂.symm
  have halike : Alike c { c₁ with cache := new } := .of_bare hbare₂.symm
  have hwrites₂ : { c₁ with cache := new }.bare.allowWrites = true := by
    rw [hbare₂]
    exact hwrites
  have hfile₂ : { c₁ with cache := new }.bare.file = c.file := by
    rw [hbare₂]
    rfl
  have hfaithful₂ : CoreFile.Faithful { c₁ with cache := new }.bare.file := by
    rw [hfile₂]
    exact hfaithful
  obtain ⟨c', hwrite⟩ := hraw₂.writeHunk_succeeds hwrites₂ hfaithful₂
    (by rw [halike.hunkbytes]; exact h.hunkbytes_lt) (by rw [halike.hunkcount]; exact hk)
    (by rw [halike.hunkbytes]; exact hnewlen) true
  refine ⟨c', ps₁, ?_, ?_⟩
  · rw [writeUnits_one h hn hlen, overHunks_unit h hn (by omega), writeRound, current_bind,
      if_neg (by rw [h.whole_unitRange_iff hn]; exact hthrough), bind_of_ok hfill, hstart,
      h.count_unitRange hn, hpart]
    refine bind_eq_ok.mpr ⟨(), ⟨dest, { c₁ with cache := new } :: ps₁⟩, ?_, ?_⟩
    · rw [hnew]
      exact onCurrent_eq_ok.mpr ⟨_, rfl, rfl⟩
    · rw [current_bind, onCurrent_eq, hwrite]
  · -- and then it is in the cache
    intro fuel' dest' hdest
    obtain ⟨halike', hcache', hcachehunk'⟩ :=
      cache_of_writeHunk hraw₂ (by rw [halike.hunkcount]; exact hk) hwrite
    obtain ⟨h', hper⟩ := h.of_alike (halike.trans halike')
    obtain ⟨-, hhunkbytes, -, hunitbytes⟩ := halike.trans halike'
    have hread := readUnits_cached codecs ps₁ fuel' h' hn
      (by rw [hper]; omega) (by rw [hper, hcachehunk']; exact hcachehunk.symm)
      (by rw [hcache', hhunkbytes]; exact hnewlen) (by rw [hunitbytes]; exact hdest)
    rw [hcache', hunitbytes, hhunkbytes] at hread
    have hback : part (putPart c₁.cache (n * c.unitbytes % c.hunkbytes) buffer)
        (n * c.unitbytes % c.hunkbytes) buffer.length = buffer := part_putPart_self (by omega)
    rw [hlen, ← hnew] at hback
    rw [hread]
    exact congrArg (fun d ↦ EStateM.Result.ok () (⟨d, c' :: ps₁⟩ : Access)) hback

/-! ## Units that are hunks -/

theorem writeUnits_whole (h : c.UnitSized)
    (hn : n < 2 ^ 32 - 1) (hwhole : c.unitbytes = c.hunkbytes) (hcache : n ≠ c.cachehunk)
    (hlen : buffer.length = c.hunkbytes) : writeUnits codecs fuel n 1 buffer ⟨dest, c :: ps⟩ =
      onCurrent (writeHunk n buffer false) ⟨dest, c :: ps⟩ := by
  have hk : n / c.perHunk = n := by rw [h.perHunk_eq_one_iff.mpr hwhole, Nat.div_one]
  have hpart : part buffer 0 (unitRange c n).hunkbytes = buffer := by
    show part buffer 0 c.hunkbytes = buffer
    rw [part, drop_zero, take_of_length_le hlen.le]
  have hround := h.whole_unitRange_iff (n := n) (by omega)
  rw [hk] at hround
  rw [writeUnits_one h (by omega) (hlen.trans hwhole.symm), overHunks_unit h (by omega) (by omega),
    hk, writeRound, current_bind, if_pos ⟨hround.mpr hwhole, hcache⟩, hpart]

theorem readUnits_whole (h : c.UnitSized) (hn : n < 2 ^ 32 - 1) (hwhole : c.unitbytes = c.hunkbytes)
    (hcache : n ≠ c.cachehunk) :
    readUnits codecs fuel n 1 ⟨dest, c :: ps⟩ =
      onPart 0 c.hunkbytes (readHunk codecs fuel n) ⟨dest, c :: ps⟩ := by
  have hk : n / c.perHunk = n := by rw [h.perHunk_eq_one_iff.mpr hwhole, Nat.div_one]
  have hround := h.whole_unitRange_iff (n := n) (by omega)
  rw [hk] at hround
  rw [readUnits_one h (by omega), overHunks_unit h (by omega) (by omega), hk, readRound,
    current_bind, if_pos ⟨hround.mpr hwhole, hcache⟩]
  rfl

theorem onPart_all {x : AccessM Unit} {chds chds' : List ChdFile} {count : ℕ}
    (hdest : dest.length = count)
    (hbytes : bytes.length = count) (hok : x ⟨dest, chds⟩ = .ok () ⟨bytes, chds'⟩) :
    onPart 0 count x ⟨dest, chds⟩ = .ok () ⟨bytes, chds'⟩ := by
  have hpart : part dest 0 count = dest := by rw [part, drop_zero, take_of_length_le hdest.le]
  have hok' : x ⟨part dest 0 count, chds⟩ = .ok () ⟨bytes, chds'⟩ := by rw [hpart, hok]
  refine (onPart_eq_ok (s := ⟨dest, chds⟩) hok').trans ?_
  have hall : putPart dest 0 bytes = bytes := by
    show dest.take 0 ++ overlay (dest.drop 0) bytes = bytes
    rw [take_zero, nil_append, drop_zero]
    exact overlay_of_length_le (by omega)
  exact congrArg (fun d ↦ EStateM.Result.ok () (⟨d, chds'⟩ : Access)) hall

theorem readHunk_placed (hraw : c.RawStore) (hn : n < c.hunkcount) (hplace : rawEntry c n ≠ 0)
    (hholds : Holds codecs (c :: ps) n bytes) (hdest : dest.length = c.hunkbytes) :
    readHunk codecs (fuel + 1) n ⟨dest, c :: ps⟩ = .ok () ⟨bytes, c :: ps⟩ := by
  have hread := (hraw.holds_iff_of_ne hn hplace).mp hholds
  rw [readHunk, readHunkOf_eq, hraw.entry_eq hn, if_pos hplace,
    ChdFile.storedEntry_eq_data_iff.mpr hread]
  have hall : overlay dest bytes = bytes := overlay_of_length_le (by rw [hdest, hholds.length_eq])
  exact congrArg (fun d ↦ EStateM.Result.ok () (⟨d, c :: ps⟩ : Access)) hall

theorem readHunk_holds {s' : Access} (hfit : Fitting codecs (c :: ps))
    (hco : Coherent codecs (c :: ps))
    (hdest : dest.length = c.hunkbytes) (hok : readHunk codecs fuel n ⟨dest, c :: ps⟩ = .ok () s') :
    Holds codecs (c :: ps) n bytes ↔ bytes = s'.dest := by
  have hlen : ∀ d ∈ (c :: ps).head?, dest.length = d.hunkbytes := by
    intro d hd
    obtain rfl : c = d := by simpa using hd
    exact hdest
  rcases reads_readHunk codecs fuel n ⟨dest, c :: ps⟩ hfit hco hlen with
      ⟨s'', hok', -, -, hholds⟩ | ⟨stop, s'', herror, -⟩
  · obtain ⟨-, rfl⟩ := EStateM.Result.ok.inj (hok'.symm.trans hok)
    constructor
    · exact fun h ↦ h.unique hholds
    · rintro rfl
      exact hholds
  · rw [herror] at hok
    cases hok

theorem readUnits_whole_ok (h : c.UnitSized) (hn : n < 2 ^ 32 - 1)
    (hwhole : c.unitbytes = c.hunkbytes)
    (hcache : n ≠ c.cachehunk) (hfit : Fitting codecs (c :: ps)) (hco : Coherent codecs (c :: ps))
    (hok : Succeeds codecs (readHunk codecs fuel n) (c :: ps)) (hdest : dest.length = c.hunkbytes) :
    ∃ s', readUnits codecs fuel n 1 ⟨dest, c :: ps⟩ = .ok () s' ∧
      Holds codecs (c :: ps) n s'.dest := by
  obtain ⟨⟨d, chds'⟩, hread⟩ := hok dest (c :: ps) (.refl _) hfit hco fun e he ↦ by
    obtain rfl : c = e := by simpa using he
    exact hdest
  have hholds : Holds codecs (c :: ps) n d := (readHunk_holds hfit hco hdest hread).mpr rfl
  refine ⟨⟨d, chds'⟩, ?_, hholds⟩
  rw [readUnits_whole h hn hwhole hcache]
  exact onPart_all hdest hholds.length_eq hread

variable (codecs ps fuel dest) in
/-- **A unit right to the file.** It is written, and it reads as it was written, unless its hunk has
no place and the bytes are zeros: then it reads as before. -/
theorem writeUnits_direct (h : c.UnitSized) (hraw : c.RawStore) (hwrites : c.allowWrites = true)
    (hfaithful : c.file.Faithful) (hn : n < c.hunkcount) (hwhole : c.unitbytes = c.hunkbytes)
    (hcache : n ≠ c.cachehunk) (hlen : buffer.length = c.hunkbytes) :
    ∃ c', writeUnits codecs (fuel + 1) n 1 buffer ⟨dest, c :: ps⟩ = .ok () ⟨dest, c' :: ps⟩ ∧
      (rawEntry c n = 0 ∧ AllZero buffer → c' = c) ∧
      (¬ (rawEntry c n = 0 ∧ AllZero buffer) → ∀ dest', dest'.length = c.hunkbytes →
        readUnits codecs (fuel + 1) n 1 ⟨dest', c' :: ps⟩ = .ok () ⟨buffer, c' :: ps⟩) := by
  have hlt := hraw.hunkcount_lt
  obtain ⟨c', hwrite⟩ := hraw.writeHunk_succeeds hwrites hfaithful h.hunkbytes_lt hn hlen false
  have hread : Alike c c' → c'.RawStore → c'.cachehunk = c.cachehunk → rawEntry c' n ≠ 0 →
      Holds codecs (c' :: ps) n buffer → ∀ dest', dest'.length = c.hunkbytes →
      readUnits codecs (fuel + 1) n 1 ⟨dest', c' :: ps⟩ = .ok () ⟨buffer, c' :: ps⟩ := by
    intro halike hraw' hcachehunk hplace hholds dest' hdest
    have h' := (h.of_alike halike).1
    obtain ⟨-, hhunkbytes, hhunkcount, hunitbytes⟩ := halike
    rw [readUnits_whole h' (by omega)
      (by rw [hunitbytes, hhunkbytes, hwhole]) (by rw [hcachehunk]; exact hcache), hhunkbytes]
    exact onPart_all hdest hlen (readHunk_placed hraw' (by rw [hhunkcount]; exact hn) hplace hholds
      (by rw [hhunkbytes]; exact hdest))
  refine ⟨c', ?_, ?_⟩
  · rw [writeUnits_whole h (by omega) hwhole hcache hlen, onCurrent_eq, hwrite]
  rcases hraw.writeHunk_ok hn hwrite
      with ⟨hplace, hcan, rfl⟩ | ⟨hplace, hzero, rfl⟩ | ⟨hplace, hzero, hcan, hc'⟩
  · refine ⟨fun hboth ↦ absurd hboth.1 hplace, fun _ ↦ ?_⟩
    exact hread ⟨rfl, rfl, rfl, rfl⟩ (hraw.overwritten hn hplace hlen) rfl hplace
      (hraw.holds_overwritten codecs ps hn hplace hlen hcan).1
  · exact ⟨fun _ ↦ rfl, fun hnot ↦ absurd ⟨hplace, hzero⟩ hnot⟩
  · refine ⟨fun hboth ↦ absurd hboth.2 hzero, fun _ ↦ ?_⟩
    rw [if_neg fun hcached ↦ hcache hcached.1] at hc'
    subst hc'
    have hentry : rawEntry (c.appended n buffer) n = c.nextPlace :=
      (hraw.rawEntry_withHunk hn hplace buffer n hn).trans (if_pos rfl)
    have hpos := hraw.nextPlace_pos hn
    exact hread ⟨rfl, rfl, rfl, rfl⟩ (hraw.appended hn hplace hlen) rfl (by omega)
      (hraw.holds_appended codecs ps hn hplace hlen hcan).1

end

end RoscoEmulator.Chd
