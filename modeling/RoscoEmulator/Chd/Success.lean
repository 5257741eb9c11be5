import RoscoEmulator.Chd.ByteStore

/-!
# Accesses that succeed

A hunk that holds bytes can be read: with enough references in a row, `read_hunk` comes to its end,
whatever right caches there are. A hunk of an uncompressed CHD can be written if its medium takes
what has a position. This is the other half of what `Reads` and `writeHunk_ok` say about accesses
that succeed. -/

namespace RoscoEmulator.Chd

open BigEndian Pieces AccessM

section

variable {codecs : Codecs} {hunk : ℕ → AccessM Unit} {spares : Access → ℕ → Prop} {c : ChdFile}
  {chds ps : List ChdFile} {n : ℕ} {bytes dest buffer : List Byte}

/-! ## Reading -/

/-- An access to a hunk succeeds on CHDs like these, with any right caches. -/
def Succeeds (codecs : Codecs) (x : AccessM Unit) (chds : List ChdFile) : Prop :=
  ∀ dest chds', Same chds chds' → Fitting codecs chds' → Coherent codecs chds' →
    (∀ c ∈ chds'.head?, dest.length = c.hunkbytes) → ∃ s', x ⟨dest, chds'⟩ = .ok () s'

theorem Succeeds.ne_error {x : AccessM Unit} (h : Succeeds codecs x (c :: ps))
    (hfit : Fitting codecs (c :: ps)) (hco : Coherent codecs (c :: ps))
    (hdest : dest.length = c.hunkbytes)
    (stop : Stop) (s' : Access) : x ⟨dest, c :: ps⟩ ≠ .error stop s' := by
  intro herror
  obtain ⟨s₁, hok⟩ := h dest (c :: ps) (.refl _) hfit hco fun d hd ↦ by
    obtain rfl : c = d := by simpa using hd
    exact hdest
  rw [hok] at herror
  cases herror

theorem Reads.fillCache_ok (hreads : Reads codecs hunk spares)
    (h : Succeeds codecs (hunk n) (c :: ps))
    (hfit : Fitting codecs (c :: ps)) (hco : Coherent codecs (c :: ps)) (dest : List Byte) :
    ∃ c' ps', Chd.fillCache hunk n ⟨dest, c :: ps⟩ = .ok () ⟨dest, c' :: ps'⟩ ∧ c'.cachehunk = n ∧
      c'.bare = c.bare ∧ Same ps' ps := by
  rw [Chd.fillCache, current_bind]
  by_cases heq : n = c.cachehunk
  · rw [if_pos heq]
    exact ⟨c, ps, rfl, heq.symm, rfl, .refl ps⟩
  rw [if_neg heq]
  have hlen : ∀ d ∈ (c :: ps).head?, c.cache.length = d.hunkbytes := by
    intro d hd
    obtain rfl : c = d := by simpa using hd
    exact hco.2.1
  rcases hreads n ⟨c.cache, c :: ps⟩ hfit hco hlen with ⟨s₁, hok, hkept, -⟩ | ⟨stop, s₁, herror, -⟩
  · obtain ⟨ps', hchds, hsame⟩ := eq_cons_of_head hkept.head hkept.same
    have hcache :
        onCache (hunk n) ⟨dest, c :: ps⟩ = .ok () ⟨dest, { c with cache := s₁.dest } :: ps'⟩ := by
      simp only [onCache, hok, hchds, setCache]
    rw [bind_of_ok hcache]
    exact ⟨_, _, rfl, rfl, rfl, hsame⟩
  · exact absurd herror (h.ne_error hfit hco hco.2.1 stop s₁)

theorem Reads.readRound_ok (hreads : Reads codecs hunk spares)
    (h : Succeeds codecs (hunk n) (c :: ps))
    (hfit : Fitting codecs (c :: ps)) (hco : Coherent codecs (c :: ps)) {r : Range} (hr : r.Proper)
    (hsize : r.hunkbytes = c.hunkbytes) (hfirst : r.first ≤ n) (hlast : n ≤ r.last)
    (hdest : dest.length = r.bytes) :
    ∃ s', Chd.readRound hunk r n (r.pos n) ⟨dest, c :: ps⟩ = .ok () s' := by
  have hinside := hr.pos_add_count_le hfirst hlast
  have hpos := hr.hunkbytes_pos
  rw [Chd.readRound, current_bind]
  by_cases hwhole : r.Whole n ∧ n ≠ c.cachehunk
  · rw [if_pos hwhole]
    have hcount : r.count n = r.hunkbytes := by
      rw [Range.count, hwhole.1.1, hwhole.1.2]
      omega
    have hpart : (part dest (r.pos n) r.hunkbytes).length = c.hunkbytes := by
      rw [length_part (by omega), hsize]
    cases hok : hunk n ⟨part dest (r.pos n) r.hunkbytes, c :: ps⟩ with
    | ok _ s₁ => exact ⟨_, onPart_eq_ok hok⟩
    | error stop s₁ => exact absurd hok (h.ne_error hfit hco hpart stop s₁)
  · rw [if_neg hwhole]
    obtain ⟨c', ps', hok, -⟩ := hreads.fillCache_ok h hfit hco dest
    rw [bind_of_ok hok, current_bind]
    exact ⟨_, onPart_eq_ok rfl⟩

theorem Reads.readBytesWith_ok (hreads : Reads codecs hunk spares) {offset count : ℕ}
    (hr : Range.Proper ⟨c.hunkbytes, offset, count⟩) (h : ∀ k,
    Range.first ⟨c.hunkbytes, offset, count⟩ ≤ k → k ≤ Range.last ⟨c.hunkbytes, offset, count⟩ →
      Succeeds codecs (hunk k) (c :: ps)) (hfit : Fitting codecs (c :: ps)) (hco :
      Coherent codecs (c :: ps))
    (hdest : dest.length = count) :
    ∃ s', Chd.readBytesWith hunk offset count ⟨dest, c :: ps⟩ = .ok () s' := by
  -- what a round needs of what the rounds before it have left
  let P : ℕ → Access → Prop := fun _ s ↦
    Same s.chds (c :: ps) ∧ Coherent codecs s.chds ∧ s.dest.length = count
  have hround : ∀ k s, Range.first ⟨c.hunkbytes, offset, count⟩ ≤ k →
      k ≤ Range.last ⟨c.hunkbytes, offset, count⟩ → P k s →
      ∃ s', Chd.readRound hunk ⟨c.hunkbytes, offset, count⟩ k
        (Range.pos ⟨c.hunkbytes, offset, count⟩ k) s = .ok () s' ∧ P (k + 1) s' := by
    rintro k ⟨d, chds⟩ hfirst hlast ⟨hsame, hco', hlen⟩
    obtain ⟨c', ps', rfl, hc, hps⟩ := hsame.symm.eq_cons
    have hfit' := hfit.of_same hsame.symm
    have hok' : Succeeds codecs (hunk k) (c' :: ps') := fun dest chds hs ↦
      h k hfirst hlast dest chds (hsame.symm.trans hs)
    obtain ⟨s', hok⟩ :=
      hreads.readRound_ok hok' hfit' hco' hr (hunkbytes_congr hc) hfirst hlast hlen
    refine ⟨s', hok, ?_⟩
    rcases hreads.readRound hfit' hco' hr (hunkbytes_congr hc) hfirst hlast hlen with
        ⟨c'', ps'', b, hok', hbare, hsame', hco'', -⟩ | ⟨stop, s'', herror, -⟩
    · obtain ⟨-, rfl⟩ := EStateM.Result.ok.inj (hok'.symm.trans hok)
      refine ⟨(Same.cons hbare hsame').trans hsame, hco'', ?_⟩
      have hinside : _ ≤ count := hr.pos_add_count_le hfirst hlast
      have hpart : (part b (Range.startoffs ⟨c.hunkbytes, offset, count⟩ k)
          (Range.count ⟨c.hunkbytes, offset, count⟩ k)).length ≤
          Range.count ⟨c.hunkbytes, offset, count⟩ k := List.length_take_le _ _
      exact (length_putPart (by omega)).trans hlen
    · rw [herror] at hok
      cases hok
  have hstep : ∀ k s s', Range.first ⟨c.hunkbytes, offset, count⟩ ≤ k →
      k ≤ Range.last ⟨c.hunkbytes, offset, count⟩ → P k s →
      Chd.readRound hunk ⟨c.hunkbytes, offset, count⟩ k
        (Range.pos ⟨c.hunkbytes, offset, count⟩ k) s = .ok () s' → P (k + 1) s' := by
    intro k s s' hfirst hlast hs hok
    obtain ⟨s'', hok', hs''⟩ := hround k s hfirst hlast hs
    obtain ⟨-, rfl⟩ := EStateM.Result.ok.inj (hok'.symm.trans hok)
    exact hs''
  have hstart : P (Range.first ⟨c.hunkbytes, offset, count⟩) ⟨dest, c :: ps⟩ :=
    ⟨.refl _, hco, hdest⟩
  rcases overHunks_rule hr hstep hstart with
      ⟨s', hok, -⟩ | ⟨stop, s', -, k, s₁, -, hfirst, hlast, hs₁, herror⟩
  · exact ⟨s', hok⟩
  · obtain ⟨s'', hok, -⟩ := hround k s₁ hfirst hlast hs₁
    rw [hok] at herror
    cases herror

/-- **Reading.** A hunk that holds bytes can be read, with enough references in a row. -/
theorem Holds.exists_succeeds (h : Holds codecs chds n bytes) :
    ∃ fuel, ∀ fuel', fuel ≤ fuel' → Succeeds codecs (readHunk codecs fuel' n) chds := by
  induction h with
  | @data c ps n bytes entry length =>
    refine ⟨1, fun fuel' hle dest chds' hsame hfit hco hdest ↦ ?_⟩
    obtain ⟨fuel', rfl⟩ := Nat.exists_eq_add_of_le' hle
    obtain ⟨c', ps', rfl, hc, hps⟩ := hsame.eq_cons
    rw [entry_congr hc, hps.isEmpty_eq] at entry
    rw [readHunk, readHunkOf_eq, entry]
    exact ⟨_, rfl⟩
  | @self c ps n other bytes entry _ ih =>
    obtain ⟨fuel, hfuel⟩ := ih
    refine ⟨fuel + 1, fun fuel' hle dest chds' hsame hfit hco hdest ↦ ?_⟩
    obtain ⟨fuel', rfl⟩ := Nat.exists_eq_add_of_le' (Nat.le_of_add_left_le hle)
    obtain ⟨c', ps', rfl, hc, hps⟩ := hsame.eq_cons
    rw [entry_congr hc, hps.isEmpty_eq] at entry
    rw [readHunk, readHunkOf_eq, entry]
    exact hfuel fuel' (by omega) dest _ hsame hfit hco hdest
  | @parent c ps n other bytes entry length _ ih =>
    obtain ⟨fuel, hfuel⟩ := ih
    refine ⟨fuel + 1, fun fuel' hle dest chds' hsame hfit hco hdest ↦ ?_⟩
    obtain ⟨fuel', rfl⟩ := Nat.exists_eq_add_of_le' (Nat.le_of_add_left_le hle)
    obtain ⟨c', ps', rfl, hc, hps⟩ := hsame.eq_cons
    rw [entry_congr hc, hps.isEmpty_eq] at entry
    have hdest' : ∀ p ∈ ps'.head?, dest.length = p.hunkbytes := by
      intro p hp
      have halone : ps'.isEmpty = false := by
        cases ps' with
        | nil => cases hp
        | cons => rfl
      rw [hdest c' rfl, hfit.1.parent p hp n other (halone ▸ entry)]
    obtain ⟨s', hok⟩ := hfuel fuel' (by omega) dest ps' hps hfit.2 hco.2.2 hdest'
    rw [readHunk, readHunkOf_eq, entry]
    exact ⟨_, onParent_eq_ok hok⟩
  | @parentBytes c p ps n blockoffs f entry proper _ ih =>
    choose! fuel hfuel using ih
    obtain ⟨most, hmost⟩ : ∃ most, ∀ k ≤ (parentRange c p blockoffs).last, fuel k ≤ most :=
      ⟨(Finset.range ((parentRange c p blockoffs).last + 1)).sup fuel, fun k hk ↦
        Finset.le_sup (Finset.mem_range.mpr (by omega))⟩
    refine ⟨most + 1, fun fuel' hle dest chds' hsame hfit hco hdest ↦ ?_⟩
    obtain ⟨fuel', rfl⟩ := Nat.exists_eq_add_of_le' (Nat.le_of_add_left_le hle)
    obtain ⟨c', ps', rfl, hc, hps⟩ := hsame.eq_cons
    obtain ⟨p', ps', rfl, hp, hps'⟩ := hps.eq_cons
    have hrange : parentRange c p blockoffs = parentRange c' p' blockoffs := by
      rw [parentRange, parentRange, hunkbytes_congr hc, hunkbytes_congr hp, unitbytes_congr hp]
    rw [hrange] at proper hfuel hmost
    have hentry : c'.entry codecs (p' :: ps').isEmpty n = .parentBytes blockoffs :=
      (entry_congr hc false n).symm.trans entry
    have hall : ∀ k, (parentRange c' p' blockoffs).first ≤ k →
        k ≤ (parentRange c' p' blockoffs).last →
        Succeeds codecs (readHunk codecs fuel' k) (p' :: ps') := fun k hk hk' dest chds hs ↦
      hfuel k hk hk' fuel' ((hmost k hk').trans (by omega)) dest chds (hps.trans hs)
    obtain ⟨s', hok⟩ := (reads_readHunk codecs fuel').readBytesWith_ok proper hall hfit.2 hco.2.2
      (hdest c' rfl)
    rw [readHunk, readHunkOf_eq, hentry]
    exact ⟨_, onParent_eq_ok hok⟩

end

/-! ## Writing -/

namespace ChdFile

variable {c : ChdFile} {n : ℕ} {buffer : List Byte}

/-- An append of a hunk succeeds if there is a position behind it. -/
theorem fileAppend_ok (hfaithful : c.file.Faithful) (hpos : 0 < c.hunkbytes)
    (hroom : c.nextPlace * c.hunkbytes + buffer.length ≤ 2 ^ 64) :
    fileAppend buffer c.hunkbytes c = .ok (c.nextPlace * c.hunkbytes)
      (c.padded.onFile fun file ↦ file.put (c.nextPlace * c.hunkbytes) buffer) := by
  have hsum := c.length_add_appendPadding hpos
  rcases c.fileAppend_cases hpos buffer with ⟨-, hok⟩ | ⟨stop, c', herror, -⟩
  · exact hok
  have hcan : c.padded.file.canWrite = c.file.canWrite := by
    rw [padded, onFile_file]
    split_ifs <;> rfl
  have hpad : writePadding c.file.data.length (appendPadding c.file.data.length c.hunkbytes) c =
      .ok () c.padded := by
    rw [writePadding, padded, onFile]
    split_ifs
    · rfl
    · refine fileWrite_eq_ok.mpr ⟨hfaithful.canWrite _ _ ?_, rfl⟩
      rw [List.length_replicate]
      omega
  have hwrite : fileWrite (c.nextPlace * c.hunkbytes) buffer c.padded = .ok () _ :=
    fileWrite_eq_ok.mpr ⟨by rw [hcan]; exact hfaithful.canWrite _ _ hroom, rfl⟩
  rw [fileAppend, get_bind, bind_of_ok hpad, hsum, bind_of_ok hwrite] at herror
  cases herror

/-- **Writing.** A hunk of an uncompressed CHD that may be written can be written. -/
theorem RawStore.writeHunk_succeeds (h : c.RawStore)
    (hwrites : c.allowWrites = true) (hfaithful : c.file.Faithful) (hlt : c.hunkbytes < 2 ^ 32)
    (hn : n < c.hunkcount) (hlen : buffer.length = c.hunkbytes) (fromCache : Bool) :
    ∃ c', writeHunk n buffer fromCache c = .ok () c' := by
  have hmap := h.four_mul_add_le hn
  have hmod := h.four_mul_mod hn
  have hplaces : ∀ k < 2 ^ 32, k * c.hunkbytes + c.hunkbytes ≤ 2 ^ 64 := fun k hk ↦ by
    rw [← Nat.succ_mul]
    exact (Nat.mul_le_mul hk hlt.le).trans (by decide)
  rw [writeHunk, get_bind, if_neg (by omega), if_neg (not_not_intro hwrites), h.uncompressed,
    if_neg Bool.false_ne_true, hmod, if_neg (by omega)]
  by_cases hplace : rawEntry c n = 0
  swap
  · rw [if_pos hplace]
    refine ⟨_, fileWrite_eq_ok.mpr ⟨hfaithful.canWrite _ _ ?_, rfl⟩⟩
    rw [hlen]
    have hentry := ofBytes_lt (part c.rawmap (4 * n % 2 ^ 32) 4)
    rw [length_part (by omega)] at hentry
    exact hplaces _ hentry
  rw [if_neg (not_not_intro hplace)]
  by_cases hzero : buffer.all (· = 0) = true
  · rw [if_pos hzero]
    exact ⟨c, rfl⟩
  have hnext := h.nextPlace_lt hn hplace
  have happend : fileAppend buffer c.hunkbytes c = .ok (c.nextPlace * c.hunkbytes) _ :=
    fileAppend_ok hfaithful h.hunkbytes_pos (by rw [hlen]; exact hplaces _ hnext)
  rw [if_neg hzero, allocateHunk, get_bind, bind_of_ok happend,
    Nat.mul_div_cancel _ h.hunkbytes_pos, hmod]
  have hcan : (c.withHunk n buffer).file.canWrite = c.file.canWrite := by
    show c.padded.file.canWrite = _
    rw [ChdFile.padded, onFile_file]
    split_ifs <;> rfl
  have hinside := h.map_inside
  have hend := c.le_nextPlace h.hunkbytes_pos
  have hwrite : fileWrite (c.mapoffset + 4 * n) (toBytes 4 c.nextPlace) (c.withHunk n buffer) =
      .ok () (c.appended n buffer) := by
    refine fileWrite_eq_ok.mpr ⟨?_, rfl⟩
    have hplace' := hplaces _ hnext
    rw [hcan, length_toBytes]
    exact hfaithful.canWrite _ _ (by omega)
  show ∃ c', (fileWrite (c.mapoffset + 4 * n) (toBytes 4 c.nextPlace) >>= fun _ ↦ _)
    (c.withHunk n buffer) = .ok () c'
  rw [bind_of_ok hwrite]
  split_ifs
  · exact ⟨_, rfl⟩
  · exact ⟨_, rfl⟩

end ChdFile

end RoscoEmulator.Chd
