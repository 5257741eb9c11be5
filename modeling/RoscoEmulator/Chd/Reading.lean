import RoscoEmulator.Chd.Caches

/-!
# What reading does to caches

An access to a hunk either puts what the hunk holds in its buffer and leaves all caches right, or it
fails. It leaves the caches right then too, unless it broke off while it filled a cache that holds
another hunk: `Spares` says that it does not.
-/

namespace RoscoEmulator.Chd

open BigEndian Pieces AccessM

section

variable (codecs : Codecs)

/-- A round of `read_bytes` does not break off while it fills a cache that holds a hunk. -/
def SparesRound (spares : Access → ℕ → Prop) (r : Range) (k : ℕ) (s : Access) : Prop :=
  match s.chds with
  | [] => True
  | c :: _ =>
      if r.Whole k ∧ k ≠ c.cachehunk
        then spares { s with dest := part s.dest (r.pos k) r.hunkbytes } k
      else c.cachehunk = noHunk ∧ spares { s with dest := c.cache } k

/-- An access to a hunk does not break off while it fills a cache that holds a hunk. Only units of a
parent go through a cache. -/
def Spares : ℕ → Access → ℕ → Prop
  | 0, _, _ => True
  | fuel + 1, s, hunknum =>
      match s.chds with
      | [] => True
      | c :: ps =>
          match c.entry codecs ps.isEmpty hunknum with
          | .self other => Spares fuel s other
          | .parent other => Spares fuel { s with chds := ps } other
          | .parentBytes blockoffs =>
              match ps with
              | [] => True
              | p :: _ =>
                  match failure (readRound (readHunk codecs fuel))
                      (blockoffs * p.unitbytes % 2 ^ 64) c.hunkbytes { s with chds := ps } with
                  | none => True
                  | some (k, s₁) => SparesRound (Spares fuel) (parentRange c p blockoffs) k s₁
          | _ => True

instance decidableSparesRound (spares : Access → ℕ → Prop) [∀ s, DecidablePred (spares s)]
    (r : Range) (k : ℕ) : ∀ s, Decidable (SparesRound spares r k s)
  | ⟨_, []⟩ => instDecidableTrue
  | ⟨dest, c :: ps⟩ =>
      inferInstanceAs (Decidable (if r.Whole k ∧ k ≠ c.cachehunk then
        spares ⟨part dest (r.pos k) r.hunkbytes, c :: ps⟩ k
        else c.cachehunk = noHunk ∧ spares ⟨c.cache, c :: ps⟩ k))

instance decidableSpares : ∀ fuel s hunknum, Decidable (Spares codecs fuel s hunknum)
  | 0, _, _ => instDecidableTrue
  | _ + 1, ⟨_, []⟩, _ => instDecidableTrue
  | fuel + 1, ⟨dest, c :: ps⟩, hunknum =>
      have : ∀ s, DecidablePred (Spares codecs fuel s) := decidableSpares fuel
      match h : c.entry codecs ps.isEmpty hunknum with
      | .self other =>
        decidable_of_iff (Spares codecs fuel ⟨dest, c :: ps⟩ other) (by simp only [Spares, h])
      | .parent other =>
        decidable_of_iff (Spares codecs fuel ⟨dest, ps⟩ other) (by simp only [Spares, h])
      | .data _ => .isTrue (by simp only [Spares, h])
      | .broken _ _ => .isTrue (by simp only [Spares, h])
      | .parentBytes blockoffs =>
          match ps with
          | [] => .isTrue (by simp only [Spares, h])
          | p :: ps =>
              match hfail : failure (readRound (readHunk codecs fuel))
                  (blockoffs * p.unitbytes % 2 ^ 64) c.hunkbytes ⟨dest, p :: ps⟩ with
              | none => .isTrue (by simp only [Spares, h, hfail])
              | some (k, s₁) =>
                  decidable_of_iff (SparesRound (Spares codecs fuel)
                    (parentRange c p blockoffs) k s₁) (by simp only [Spares, h, hfail])

/-- An access changes caches of parents, and what is in its buffer. -/
structure Kept (s s' : Access) : Prop where
  same : Same s'.chds s.chds
  head : s'.chds.head? = s.chds.head?
  length : s'.dest.length = s.dest.length

/-- Accesses to hunks that read what the hunks hold. -/
def Reads (hunk : ℕ → AccessM Unit) (spares : Access → ℕ → Prop) : Prop :=
  ∀ hunknum s, Fitting codecs s.chds → Coherent codecs s.chds →
    (∀ c ∈ s.chds.head?, s.dest.length = c.hunkbytes) →
    (∃ s', hunk hunknum s = .ok () s' ∧ Kept s s' ∧ Coherent codecs s'.chds ∧
      Holds codecs s.chds hunknum s'.dest) ∨
    ∃ stop s', hunk hunknum s = .error stop s' ∧ Kept s s' ∧
      (spares s hunknum → Coherent codecs s'.chds)

open Classical in
/-- The bytes of a hunk, if it holds any. -/
noncomputable def hunkBytes (chds : List ChdFile) (hunknum : ℕ) : List Byte :=
  if h : ∃ bytes, Holds codecs chds hunknum bytes then h.choose else []

theorem Holds.hunkBytes_eq {codecs : Codecs} {chds : List ChdFile} {hunknum : ℕ} {bytes : List Byte}
    (h : Holds codecs chds hunknum bytes) : hunkBytes codecs chds hunknum = bytes := by
  have hex : ∃ bytes, Holds codecs chds hunknum bytes := ⟨bytes, h⟩
  rw [hunkBytes, dif_pos hex]
  exact hex.choose_spec.unique h

end

section

variable {codecs : Codecs} {hunk : ℕ → AccessM Unit} {spares : Access → ℕ → Prop} {c : ChdFile}
  {chds ps : List ChdFile} {dest : List Byte}

theorem eq_cons_of_head {chds : List ChdFile} (h : chds.head? = (c :: ps).head?)
    (hsame : Same chds (c :: ps)) : ∃ ps', chds = c :: ps' ∧ Same ps' ps := by
  cases chds with
  | nil => cases h
  | cons c' ps' =>
    obtain rfl : c' = c := by simpa using h
    exact ⟨ps', rfl, (List.cons.inj hsame).2⟩

theorem Kept.refl (s : Access) : Kept s s := ⟨.refl _, rfl, rfl⟩

variable {x : AccessM Unit} {s' s : Access} {k : ℕ}

theorem onPart_eq_ok {pos count : ℕ} {s₁ : Access}
    (h : x { s with dest := part s.dest pos count } = .ok () s₁) :
    onPart pos count x s = .ok () { s₁ with dest := putPart s.dest pos s₁.dest } := by
  rw [onPart, h]

theorem onPart_eq_error {pos count : ℕ} {s₁ : Access} {stop : Stop}
    (h : x { s with dest := part s.dest pos count } = .error stop s₁) :
    onPart pos count x s = .error stop { s₁ with dest := putPart s.dest pos s₁.dest } := by
  rw [onPart, h]

theorem Reads.fillCache (h : Reads codecs hunk spares) (dest : List Byte)
    (hfit : Fitting codecs (c :: ps)) (hco : Coherent codecs (c :: ps)) (hk : k ≠ noHunk) :
    (∃ c' ps', fillCache hunk k ⟨dest, c :: ps⟩ = .ok () ⟨dest, c' :: ps'⟩ ∧ c'.bare = c.bare ∧
      Same ps' ps ∧ Coherent codecs (c' :: ps') ∧ c'.cachehunk = k ∧
      Holds codecs (c :: ps) k c'.cache) ∨
    ∃ stop s', fillCache hunk k ⟨dest, c :: ps⟩ = .error stop s' ∧ s'.dest = dest ∧
      Same s'.chds (c :: ps) ∧
      (c.cachehunk = noHunk ∧ spares ⟨c.cache, c :: ps⟩ k → Coherent codecs s'.chds) := by
  rw [Chd.fillCache, current_bind]
  by_cases heq : k = c.cachehunk
  · rw [if_pos heq]
    refine .inl ⟨c, ps, rfl, rfl, .refl _, hco, heq.symm, ?_⟩
    exact heq ▸ hco.1.resolve_left (heq ▸ hk)
  rw [if_neg heq]
  have hlen : ∀ d ∈ (c :: ps).head?, c.cache.length = d.hunkbytes := by
    intro d hd
    obtain rfl : c = d := by simpa using hd
    exact hco.2.1
  rcases h k ⟨c.cache, c :: ps⟩ hfit hco hlen with ⟨s₁, hok, hkept, hco', hholds⟩ |
      ⟨stop, s₁, herror, hkept, hspares⟩
  · obtain ⟨ps', hchds, hsame⟩ := eq_cons_of_head hkept.head hkept.same
    have hcache : onCache (hunk k) ⟨dest, c :: ps⟩ =
        .ok () ⟨dest, { c with cache := s₁.dest } :: ps'⟩ := by
      simp only [onCache, hok, hchds, setCache]
    have hholds' : Holds codecs ({ c with cache := s₁.dest, cachehunk := k } :: ps') k s₁.dest :=
      hholds.of_same (Same.cons rfl hsame.symm)
    rw [bind_of_ok hcache]
    rw [hchds] at hco'
    refine .inl ⟨_, ps', rfl, rfl, hsame, ⟨.inr hholds', ?_, hco'.2.2⟩, rfl, hholds⟩
    exact hholds'.length_eq
  · obtain ⟨ps', hchds, hsame⟩ := eq_cons_of_head hkept.head hkept.same
    have hcache : onCache (hunk k) ⟨dest, c :: ps⟩ =
        .error stop ⟨dest, { c with cache := s₁.dest } :: ps'⟩ := by
      simp only [onCache, herror, hchds, setCache]
    refine .inr ⟨stop, _, bind_eq_error.mpr (.inl hcache), rfl, Same.cons rfl hsame, ?_⟩
    rintro ⟨hnone, hspare⟩
    have hco' := hspares hspare
    rw [hchds] at hco'
    exact ⟨.inl hnone, hkept.length.trans hco.2.1, hco'.2.2⟩

theorem sparesRound_cons (r : Range) (k : ℕ) :
    SparesRound spares r k ⟨dest, c :: ps⟩ =
      if r.Whole k ∧ k ≠ c.cachehunk then spares ⟨part dest (r.pos k) r.hunkbytes, c :: ps⟩ k
      else c.cachehunk = noHunk ∧ spares ⟨c.cache, c :: ps⟩ k := rfl

theorem Reads.readRound (h : Reads codecs hunk spares) (hfit : Fitting codecs (c :: ps))
    (hco : Coherent codecs (c :: ps)) {r : Range} (hr : r.Proper)
    (hsize : r.hunkbytes = c.hunkbytes)
    (hfirst : r.first ≤ k) (hlast : k ≤ r.last) (hdest : dest.length = r.bytes) :
    (∃ c' ps' bytes, readRound hunk r k (r.pos k) ⟨dest, c :: ps⟩ =
        .ok () ⟨putPart dest (r.pos k) (part bytes (r.startoffs k) (r.count k)), c' :: ps'⟩ ∧
      c'.bare = c.bare ∧ Same ps' ps ∧ Coherent codecs (c' :: ps') ∧
      Holds codecs (c :: ps) k bytes) ∨
    ∃ stop s', readRound hunk r k (r.pos k) ⟨dest, c :: ps⟩ = .error stop s' ∧
      s'.dest.length = dest.length ∧ Same s'.chds (c :: ps) ∧
      (SparesRound spares r k ⟨dest, c :: ps⟩ → Coherent codecs s'.chds) := by
  have hlt := hr.last_lt
  have hpos := hr.hunkbytes_pos
  have hinside := hr.pos_add_count_le hfirst hlast
  rw [Chd.readRound, current_bind, sparesRound_cons]
  by_cases hwhole : r.Whole k ∧ k ≠ c.cachehunk
  · -- the hunk goes right into the buffer
    have hcount : r.count k = r.hunkbytes := by
      rw [Range.count, hwhole.1.1, hwhole.1.2]
      omega
    have hpart : (part dest (r.pos k) r.hunkbytes).length = r.hunkbytes := length_part (by omega)
    have hlen : ∀ d ∈ (c :: ps).head?, (part dest (r.pos k) r.hunkbytes).length = d.hunkbytes := by
      intro d hd
      obtain rfl : c = d := by simpa using hd
      exact hpart.trans hsize
    rw [if_pos hwhole, if_pos hwhole]
    rcases h k ⟨part dest (r.pos k) r.hunkbytes, c :: ps⟩ hfit hco hlen with
        ⟨s₁, hok, hkept, hco', hholds⟩ | ⟨stop, s₁, herror, hkept, hspares⟩
    · obtain ⟨ps', hchds, hsame⟩ := eq_cons_of_head hkept.head hkept.same
      refine .inl ⟨c, ps', s₁.dest, ?_, rfl, hsame, hchds ▸ hco', hholds⟩
      have hall : part s₁.dest (r.startoffs k) (r.count k) = s₁.dest := by
        rw [hwhole.1.1, hcount, part, List.drop_zero, List.take_of_length_le]
        exact (hkept.length.trans hpart).le
      rw [onPart_eq_ok hok, hchds, hall]
    · refine .inr ⟨stop, _, onPart_eq_error herror, ?_, hkept.same, hspares⟩
      have hend : r.pos k + s₁.dest.length ≤ dest.length := by
        rw [hkept.length, hpart]
        omega
      exact length_putPart hend
  · rw [if_neg hwhole, if_neg hwhole]
    rcases h.fillCache dest hfit hco (k := k) (by rw [noHunk]; omega) with
        ⟨c', ps', hok, hbare, hsame, hco', -, hholds⟩ | ⟨stop, s', herror, hdest', hsame, hspares⟩
    · refine .inl ⟨c', ps', c'.cache, ?_, hbare, hsame, hco', hholds⟩
      have hstart := hr.startoffs_add_count_le k
      have hcache : c'.cache.length = r.hunkbytes := hholds.length_eq.trans hsize.symm
      have hbytes : (part c'.cache (r.startoffs k) (r.count k)).length = r.count k :=
        length_part (by omega)
      have hfill : fill (part c'.cache (r.startoffs k) (r.count k))
          ⟨part dest (r.pos k) (r.count k), c' :: ps'⟩ =
          .ok () ⟨part c'.cache (r.startoffs k) (r.count k), c' :: ps'⟩ := by
        rw [fill, overlay_of_length_le]
        rw [hbytes, length_part (by omega)]
      rw [bind_of_ok hok, current_bind, onPart_eq_ok hfill]
    · refine .inr ⟨stop, s', bind_eq_error.mpr (.inl herror), by rw [hdest'], hsame, hspares⟩

/-- What was read in front of a hunk and what is left to read. -/
structure ReadSoFar (codecs : Codecs) (chds : List ChdFile) (r : Range) (k : ℕ)
    (s : Access) : Prop where
  same : Same s.chds chds
  coherent : Coherent codecs s.chds
  length : s.dest.length = r.bytes
  holds : ∀ j, r.first ≤ j → j < k → Holds codecs chds j (hunkBytes codecs chds j)
  read : ∀ n, (k ≤ r.last → n = r.pos k) → (r.last < k → n = r.bytes) →
    s.dest.take n = window (hunkBytes codecs chds) 0 r.hunkbytes r.offset n

theorem ReadSoFar.step {r : Range} (hr : r.Proper) {bytes : List Byte}
    (h : ReadSoFar codecs chds r k s) (hfirst : r.first ≤ k) (hlast : k ≤ r.last)
    (hholds : Holds codecs chds k bytes) (hsize : bytes.length = r.hunkbytes)
    (hdest : s'.dest = putPart s.dest (r.pos k) (part bytes (r.startoffs k) (r.count k)))
    (hsame : Same s'.chds chds)
    (hco : Coherent codecs s'.chds) : ReadSoFar codecs chds r (k + 1) s' := by
  have hinside := hr.pos_add_count_le hfirst hlast
  have hlen := h.length
  have hstart := hr.startoffs_add_count_le k
  have hpart : (part bytes (r.startoffs k) (r.count k)).length = r.count k := length_part (by omega)
  refine ⟨hsame, hco, ?_, fun j hj hjk ↦ ?_, fun n hn hn' ↦ ?_⟩
  · rw [hdest, length_putPart (by omega), hlen]
  · rcases Nat.lt_succ_iff_lt_or_eq.mp hjk with hjk | rfl
    · exact h.holds j hj hjk
    · exact hholds.hunkBytes_eq ▸ hholds
  · have hnext : n = r.pos k + r.count k := by
      rcases Nat.lt_or_ge r.last (k + 1) with hend | hmore
      · obtain rfl : k = r.last := by omega
        rw [hn' hend, hr.pos_add_count_last]
      · rw [hn hmore, hr.pos_add_count hfirst (by omega)]
    have htake : (putPart s.dest (r.pos k) (part bytes (r.startoffs k) (r.count k))).take _ = _ :=
      take_putPart (by omega)
    rw [hpart] at htake
    rw [hnext, window_add, ← h.read (r.pos k) (fun _ ↦ rfl) (by omega), hdest, htake,
      hr.offset_add_pos hfirst, window_of_piece (by rw [hholds.hunkBytes_eq, hsize]) hstart,
      hholds.hunkBytes_eq]

/-- **Reading bytes.** If it succeeds, `read_bytes` puts in the buffer what the hunks hold. -/
theorem Reads.readBytesWith (h : Reads codecs hunk spares) (dest : List Byte)
    (hfit : Fitting codecs (c :: ps)) (hco : Coherent codecs (c :: ps)) {offset bytes : ℕ}
    (hr : Range.Proper ⟨c.hunkbytes, offset, bytes⟩) (hdest : dest.length = bytes) :
    (∃ s', readBytesWith hunk offset bytes ⟨dest, c :: ps⟩ = .ok () s' ∧ Same s'.chds (c :: ps) ∧
      Coherent codecs s'.chds ∧ (∀ k, Range.first ⟨c.hunkbytes, offset, bytes⟩ ≤ k →
      k ≤ Range.last ⟨c.hunkbytes, offset, bytes⟩ →
        Holds codecs (c :: ps) k (hunkBytes codecs (c :: ps) k)) ∧
      s'.dest = window (hunkBytes codecs (c :: ps)) 0 c.hunkbytes offset bytes) ∨
    ∃ stop s', readBytesWith hunk offset bytes ⟨dest, c :: ps⟩ = .error stop s' ∧
      Same s'.chds (c :: ps) ∧ s'.dest.length = dest.length ∧
      ∃ k s₁, failure (Chd.readRound hunk) offset bytes ⟨dest, c :: ps⟩ = some (k, s₁) ∧
        (SparesRound spares ⟨c.hunkbytes, offset, bytes⟩ k s₁ → Coherent codecs s'.chds) := by
  -- what a round makes of what was read so far
  have hround : ∀ k s, Range.first ⟨c.hunkbytes, offset, bytes⟩ ≤ k →
      k ≤ Range.last ⟨c.hunkbytes, offset, bytes⟩ →
      ReadSoFar codecs (c :: ps) ⟨c.hunkbytes, offset, bytes⟩ k s →
      (∃ s', Chd.readRound hunk ⟨c.hunkbytes, offset, bytes⟩ k
          (Range.pos ⟨c.hunkbytes, offset, bytes⟩ k) s = .ok () s' ∧
        ReadSoFar codecs (c :: ps) ⟨c.hunkbytes, offset, bytes⟩ (k + 1) s') ∨
      ∃ stop s', Chd.readRound hunk ⟨c.hunkbytes, offset, bytes⟩ k
          (Range.pos ⟨c.hunkbytes, offset, bytes⟩ k) s = .error stop s' ∧
        Same s'.chds (c :: ps) ∧ s'.dest.length = bytes ∧
        (SparesRound spares ⟨c.hunkbytes, offset, bytes⟩ k s → Coherent codecs s'.chds) := by
    rintro k ⟨d, chds⟩ hfirst hlast hs
    obtain ⟨c', ps', rfl, hc, hps⟩ := hs.same.symm.eq_cons
    rcases h.readRound (hfit.of_same hs.same.symm) hs.coherent hr (hunkbytes_congr hc) hfirst hlast
        hs.length with ⟨c'', ps'', b, hok, hbare, hsame, hco', hholds⟩ |
        ⟨stop, s', herror, hlen, hsame, hspares⟩
    · refine .inl ⟨_, hok, hs.step hr hfirst hlast (hholds.of_same hs.same) ?_ rfl ?_ hco'⟩
      · exact hholds.length_eq.trans (hunkbytes_congr hc).symm
      · exact (Same.cons hbare hsame).trans hs.same
    · exact .inr ⟨stop, s', herror, hsame.trans hs.same, hlen.trans hs.length, hspares⟩
  have hstart : ReadSoFar codecs (c :: ps) ⟨c.hunkbytes, offset, bytes⟩
      (Range.first ⟨c.hunkbytes, offset, bytes⟩) ⟨dest, c :: ps⟩ := by
    refine ⟨.refl _, hco, hdest, fun j hj hj' ↦ absurd hj' (by omega), fun n hn _ ↦ ?_⟩
    rw [hn hr.first_le_last, hr.pos_first]
    rfl
  have hstep : ∀ k s s', Range.first ⟨c.hunkbytes, offset, bytes⟩ ≤ k →
      k ≤ Range.last ⟨c.hunkbytes, offset, bytes⟩ →
      ReadSoFar codecs (c :: ps) ⟨c.hunkbytes, offset, bytes⟩ k s →
      Chd.readRound hunk ⟨c.hunkbytes, offset, bytes⟩ k (Range.pos ⟨c.hunkbytes, offset, bytes⟩ k)
        s = .ok () s' → ReadSoFar codecs (c :: ps) ⟨c.hunkbytes, offset, bytes⟩ (k + 1) s' := by
    intro k s s' hfirst hlast hs hok
    rcases hround k s hfirst hlast hs with ⟨s₂, hok', hs₂⟩ | ⟨stop, s₂, herror, -⟩
    · obtain ⟨-, rfl⟩ := EStateM.Result.ok.inj (hok'.symm.trans hok)
      exact hs₂
    · rw [herror] at hok
      cases hok
  rcases overHunks_rule hr hstep hstart with
      ⟨s', hok, hs'⟩ | ⟨stop, s', herror, k, s₁, hfail, hfirst, hlast, hs₁, hk⟩
  · refine .inl ⟨s', hok, hs'.same, hs'.coherent, fun k hk hk' ↦ hs'.holds k hk (by omega), ?_⟩
    rw [← hs'.read bytes (fun hle ↦ absurd hle (by omega)) (fun _ ↦ rfl), List.take_of_length_le]
    exact hs'.length.le
  · rcases hround k s₁ hfirst hlast hs₁
        with ⟨s₂, hok, -⟩ | ⟨stop', s₂, herror', hsame, hlen, hspares⟩
    · rw [hok] at hk
      cases hk
    · obtain ⟨rfl, rfl⟩ := EStateM.Result.error.inj (herror'.symm.trans hk)
      exact .inr ⟨_, _, herror, hsame, hlen.trans hdest.symm, k, s₁, hfail, hspares⟩

theorem onParent_eq_ok (h : x ⟨dest, ps⟩ = .ok () s') :
    onParent x ⟨dest, c :: ps⟩ = .ok () ⟨s'.dest, c :: s'.chds⟩ := by
  simp only [onParent, h]

theorem onParent_eq_error {stop : Stop} (h : x ⟨dest, ps⟩ = .error stop s') :
    onParent x ⟨dest, c :: ps⟩ = .error stop ⟨s'.dest, c :: s'.chds⟩ := by
  simp only [onParent, h]

/-- The parents of a CHD may change their caches. -/
theorem Coherent.cons_of_same (hco : Coherent codecs (c :: ps)) {ps' : List ChdFile}
    (hsame : Same ps' ps) (hco' : Coherent codecs ps') : Coherent codecs (c :: ps') :=
  ⟨hco.1.imp_right fun h ↦ h.of_same (Same.cons rfl hsame.symm), hco.2.1, hco'⟩

theorem Kept.cons (h : Kept ⟨dest, ps⟩ s') : Kept ⟨dest, c :: ps⟩ ⟨s'.dest, c :: s'.chds⟩ :=
  ⟨Same.cons rfl h.same, rfl, h.length⟩

/-- **Reading hunks.** If it succeeds, `read_hunk` puts in the buffer what the hunk holds. -/
theorem reads_readHunk (codecs : Codecs) (fuel : ℕ) :
    Reads codecs (readHunk codecs fuel) (Spares codecs fuel) := by
  induction fuel with
  | zero => exact fun hunknum s _ hco _ ↦ .inr ⟨.hang, s, rfl, .refl s, fun _ ↦ hco⟩
  | succ fuel ih =>
    rintro hunknum ⟨dest, chds⟩ hfit hco hdest
    cases chds with
    | nil => exact .inr ⟨.fault .noParent, ⟨dest, []⟩, rfl, .refl _, fun _ ↦ hco⟩
    | cons c ps =>
      have hlen : dest.length = c.hunkbytes := hdest c rfl
      have hsized := c.sized_entry codecs hfit.1.mini ps.isEmpty hunknum
      rw [readHunk, readHunkOf_eq]
      cases hentry : c.entry codecs ps.isEmpty hunknum with
      | data bytes =>
        rw [hentry] at hsized
        have hall : overlay dest bytes = bytes := overlay_of_length_le (by rw [hlen, hsized])
        refine .inl ⟨_, rfl, ⟨.refl _, rfl, ?_⟩, hco, ?_⟩
        · rw [hall, hlen, hsized]
        · rw [hall]
          exact .data hentry hsized
      | broken stop leaves =>
        rw [hentry] at hsized
        exact .inr ⟨stop, _, rfl, ⟨.refl _, rfl, (hsized.2 dest hlen).trans hlen.symm⟩, fun _ ↦ hco⟩
      | self other =>
        rcases ih other ⟨dest, c :: ps⟩ hfit hco hdest with ⟨s', hok, hkept, hco', hholds⟩ |
            ⟨stop, s', herror, hkept, hspares⟩
        · exact .inl ⟨s', hok, hkept, hco', .self hentry hholds⟩
        · refine .inr ⟨stop, s', herror, hkept, fun h ↦ hspares ?_⟩
          simpa only [Spares, hentry] using h
      | parent other =>
        have hdest' : ∀ p ∈ ps.head?, dest.length = p.hunkbytes := by
          intro p hp
          have halone : ps.isEmpty = false := by
            cases ps with
            | nil => cases hp
            | cons => rfl
          rw [hlen, hfit.1.parent p hp hunknum other (halone ▸ hentry)]
        rcases ih other ⟨dest, ps⟩ hfit.2 hco.2.2 hdest' with ⟨s', hok, hkept, hco', hholds⟩ |
            ⟨stop, s', herror, hkept, hspares⟩
        · refine .inl ⟨_, onParent_eq_ok hok, hkept.cons, hco.cons_of_same hkept.same hco', ?_⟩
          exact .parent hentry (hkept.length.trans hlen) hholds
        · refine .inr ⟨stop, _, onParent_eq_error herror, hkept.cons, fun h ↦ ?_⟩
          refine hco.cons_of_same hkept.same (hspares ?_)
          simpa only [Spares, hentry] using h
      | parentBytes blockoffs =>
        cases ps with
        | nil => exact .inr ⟨.fault .noParent, _, rfl, .refl _, fun _ ↦ hco⟩
        | cons p ps =>
          have hproper : (parentRange c p blockoffs).Proper :=
            hfit.1.parentBytes p rfl hunknum blockoffs hentry
          rcases ih.readBytesWith dest hfit.2 hco.2.2 hproper hlen with
              ⟨s', hok, hsame, hco', hholds, hread⟩ | ⟨stop, s', herror, hsame, hlen', k, s₁,
                hfail, hspares⟩
          · have hkept : Kept ⟨dest, c :: p :: ps⟩ ⟨s'.dest, c :: s'.chds⟩ := by
              refine ⟨Same.cons rfl hsame, rfl, ?_⟩
              rw [hread, length_window, hlen]
            refine .inl ⟨_, onParent_eq_ok hok, hkept, hco.cons_of_same hsame hco', ?_⟩
            rw [hread]
            exact .parentBytes hentry hproper hholds
          · refine .inr ⟨stop, _, onParent_eq_error herror, ⟨Same.cons rfl hsame, rfl, hlen'⟩,
              fun h ↦ hco.cons_of_same hsame (hspares ?_)⟩
            have hround : SparesRound (Spares codecs fuel) (parentRange c p blockoffs) k s₁ := by
              simpa only [Spares, hentry, hfail] using h
            exact hround

end

end RoscoEmulator.Chd
