import RoscoEmulator.Chd.Caches

/-!
# How accesses stop

The ways in which an access can stop, for CHDs whose caches accesses have left behind. Which bytes
are in the caches does not matter here, only that a cache with a number holds a hunk that can be
read. A loop over hunks ends because there is a hunk that cannot be read: if the numbers of the
hunks wrap, the loop comes to that one. -/

namespace RoscoEmulator.Chd

open BigEndian Pieces AccessM

/-! ## Stops of entries -/

namespace HunkEntry

/-- Nothing can be read there. -/
def Broken : HunkEntry → Prop
  | broken _ _ => True
  | _ => False

/-- An entry stops an access only for a reason in `S`. -/
def StopsIn (S : Stop → Prop) : HunkEntry → Prop
  | broken stop _ => S stop
  | _ => True

end HunkEntry

/-! ## What entries are -/

namespace ChdFile

section

variable {P : HunkEntry → Prop} {codecs : Codecs} {c : ChdFile} (hdata : ∀ bytes, P (.data bytes))
  (herror : ∀ e leaves, P (.broken (.error e) leaves))

include herror

theorem parentEntry_rule {e : HunkEntry} (h : c.parentMissing = false → P e) :
    P (c.parentEntry e) := by
  rw [parentEntry]
  split_ifs with hmissing
  · exact herror _ _
  · exact h (Bool.eq_false_of_not_eq_true hmissing)

theorem read_rule {file : CoreFile} {offset length : ℕ} {stop : Stop} {l : List Byte → List Byte}
    (h : file.read offset length = .error stop) : P (.broken stop l) := by
  rw [CoreFile.read] at h
  split_ifs at h
  cases h
  exact herror _ _

include hdata

theorem checkedEntry_rule {valid : Prop} [Decidable valid] {bytes : List Byte} :
    P (checkedEntry valid bytes) := by
  rw [checkedEntry]
  split_ifs
  · exact hdata _
  · exact herror _ _

theorem storedEntry_rule (blockoffs : ℕ) (valid : List Byte → Bool) :
    P (c.storedEntry blockoffs valid) := by
  rw [storedEntry]
  cases hread : c.file.read blockoffs c.hunkbytes with
  | error stop => exact read_rule herror hread
  | ok bytes => exact checkedEntry_rule hdata herror

theorem codecEntry_rule {slot : Fin 4} {blockoffs blocklen : ℕ}
    {valid : BitVec 32 → List Byte → List Byte → Bool}
    (hover : c.hunkbytes < (c.file.arrived blockoffs blocklen).length →
      P (.broken (.fault .compressedOverrun) id))
    (hslot : ∀ src, c.file.read blockoffs blocklen = .ok src → c.compression slot = 0 →
      P (.broken (.fault .noDecompressor) id)) : P
      (c.codecEntry codecs slot blockoffs blocklen valid) := by
  rw [codecEntry]
  by_cases hlong : c.hunkbytes < (c.file.arrived blockoffs blocklen).length
  · rw [if_pos hlong]
    exact hover hlong
  rw [if_neg hlong]
  cases hread : c.file.read blockoffs blocklen with
  | error stop => exact read_rule herror hread
  | ok src =>
    by_cases hnone : c.compression slot = 0
    · simp only [if_pos hnone]
      exact hslot src hread hnone
    simp only [if_neg hnone]
    cases codecs.decompress (c.compression slot) src c.hunkbytes with
    | error e => exact herror _ _
    | ok bytes => exact checkedEntry_rule hdata herror

theorem entry_rule (hfault : ∀ f, P (.broken (.fault f) id))
    (hself : ∀ other < 2 ^ 32, P (.self other)) (hparent : ∀ other, P (.parent other))
    (hbytes : c.version = 5 → ∀ blockoffs, P (.parentBytes blockoffs))
    (alone : Bool) (hunknum : ℕ) : P (c.entry codecs alone hunknum) := by
  have hat : ∀ {count : ℕ} {entry : List Byte → HunkEntry}, (∀ rawmap, P (entry rawmap)) →
      P (c.entryAt count hunknum entry) := by
    intro count entry hentry
    rw [entryAt]
    split_ifs
    · exact hentry _
    · exact hfault _
  have hcodec : ∀ {slot : Fin 4} {blockoffs blocklen : ℕ}
      {valid : BitVec 32 → List Byte → List Byte → Bool},
      P (c.codecEntry codecs slot blockoffs blocklen valid) :=
    codecEntry_rule hdata herror (fun _ ↦ hfault _) fun _ _ _ ↦ hfault _
  have hmod : ∀ n : ℕ, P (.self (n % 2 ^ 32)) := fun n ↦ hself _ (Nat.mod_lt _ (by decide))
  rw [entry]
  split_ifs with hrange hold hnew
  · exact herror _ _
  · refine hat fun rawmap ↦ ?_
    rw [entryV34]
    split
    · exact hcodec
    · exact storedEntry_rule hdata herror _ _
    · exact checkedEntry_rule hdata herror
    · exact hmod _
    · exact parentEntry_rule herror fun _ ↦ hparent _
    · exact herror _ _
  · refine hat fun rawmap ↦ ?_
    rw [entryV5]
    split
    · exact hcodec
    · exact hcodec
    · exact hcodec
    · exact hcodec
    · exact storedEntry_rule hdata herror _ _
    · exact hmod _
    · exact parentEntry_rule herror fun _ ↦ hbytes hnew _
    · exact herror _ _
  · refine hat fun rawmap ↦ ?_
    rw [entryRaw]
    split_ifs
    · exact storedEntry_rule hdata herror _ _
    · exact parentEntry_rule herror fun _ ↦ hdata _
    · exact parentEntry_rule herror fun _ ↦ hparent _
  · exact herror _ _

end

end ChdFile

/-! ## Accesses -/

/-- An access in which the CHDs stay in `K`, and which stops only for a reason in `S`. -/
def StopsIn (S : Stop → Prop) (K : List ChdFile → Prop) (x : AccessM Unit) : Prop :=
  ∀ s, K s.chds → match x s with
    | .ok _ s' => K s'.chds
    | .error stop s' => S stop ∧ K s'.chds

/-- Caches as accesses leave them: a cache with a number holds a hunk that can be read. -/
def Tagged (codecs : Codecs) : List ChdFile → Prop
  | [] => True
  | c :: ps =>
      (c.cachehunk = noHunk ∨ ¬ (c.entry codecs ps.isEmpty c.cachehunk).Broken) ∧ Tagged codecs ps

/-- The CHDs in use: with other caches. -/
def InUse (codecs : Codecs) (chds chds' : List ChdFile) : Prop :=
  Same chds' chds ∧ Tagged codecs chds'

section

variable {codecs : Codecs} {S : Stop → Prop} {K : List ChdFile → Prop} {c c' : ChdFile}
  {chds chds' ps ps' : List ChdFile} {x y : AccessM Unit} {hunk : ℕ → AccessM Unit}

/-- The CHDs without a hunk in any cache. -/
def clean (chds : List ChdFile) : List ChdFile := chds.map fun c ↦ { c with cachehunk := noHunk }

theorem inUse_clean (codecs : Codecs) (chds : List ChdFile) : InUse codecs chds (clean chds) := by
  constructor
  · rw [Same, clean, List.map_map]
    rfl
  · induction chds with
    | nil => trivial
    | cons c ps ih => exact ⟨.inl rfl, ih⟩

theorem InUse.cons (hc : c'.bare = c.bare) (htag : c'.cachehunk = noHunk ∨
    ¬ (c.entry codecs ps.isEmpty c'.cachehunk).Broken) (h : InUse codecs ps ps') :
    InUse codecs (c :: ps) (c' :: ps') := by
  refine ⟨.cons hc h.1, ?_, h.2⟩
  rwa [entry_congr hc, h.1.isEmpty_eq]

theorem InUse.eq_cons (h : InUse codecs (c :: ps) chds') :
    ∃ c' ps', chds' = c' :: ps' ∧ c'.bare = c.bare ∧
      (c'.cachehunk = noHunk ∨ ¬ (c.entry codecs ps.isEmpty c'.cachehunk).Broken) ∧
      InUse codecs ps ps' := by
  obtain ⟨hsame, htag⟩ := h
  obtain ⟨c', ps', rfl, hc, hps⟩ := hsame.symm.eq_cons
  refine ⟨c', ps', rfl, hc.symm, ?_, hps.symm, htag.2⟩
  rw [entry_congr hc, hps.isEmpty_eq]
  exact htag.1

theorem InUse.eq_nil (h : InUse codecs [] chds') : chds' = [] := List.map_eq_nil_iff.mp h.1

theorem StopsIn.bind (hx : StopsIn S K x) (hy : StopsIn S K y) : StopsIn S K (do x; y) := by
  intro s hs
  have hfirst := hx s hs
  cases hxs : x s with
  | ok a s' =>
    rw [hxs] at hfirst
    rw [bind_of_ok hxs]
    exact hy s' hfirst
  | error stop s' =>
    rw [hxs] at hfirst
    rw [bind_eq_error.mpr (.inl hxs)]
    exact hfirst

theorem stopsIn_fill (bytes : List Byte) : StopsIn S K (fill bytes) := fun _ hs ↦ hs

theorem StopsIn.onPart (hx : StopsIn S K x) (pos count : ℕ) : StopsIn S K (onPart pos count x) := by
  intro s hs
  have hpart := hx { s with dest := part s.dest pos count } hs
  rw [AccessM.onPart]
  cases hxs : x { s with dest := part s.dest pos count } with
  | ok a s' =>
    rw [hxs] at hpart
    exact hpart
  | error stop s' =>
    rw [hxs] at hpart
    exact hpart

theorem StopsIn.onParent (hx : StopsIn S (InUse codecs ps) x) :
    StopsIn S (InUse codecs (c :: ps)) (onParent x) := by
  rintro ⟨dest, chds⟩ hs
  obtain ⟨c', ps', rfl, hc, htag, hps⟩ := hs.eq_cons
  have hparent := hx ⟨dest, ps'⟩ hps
  show match (match x ⟨dest, ps'⟩ with
      | .ok _ s' => (.ok () ⟨s'.dest, c' :: s'.chds⟩ : EStateM.Result Stop Access Unit)
      | .error stop s' => .error stop ⟨s'.dest, c' :: s'.chds⟩) with
    | .ok _ s' => InUse codecs (c :: ps) s'.chds
    | .error stop s' => S stop ∧ InUse codecs (c :: ps) s'.chds
  cases hxs : x ⟨dest, ps'⟩ with
  | ok a s' =>
    rw [hxs] at hparent
    exact .cons hc htag hparent
  | error stop s' =>
    rw [hxs] at hparent
    exact ⟨hparent.1, .cons hc htag hparent.2⟩

theorem InUse.setCache (h : InUse codecs (c :: ps) chds') (cache : List Byte) :
    InUse codecs (c :: ps) (setCache cache chds') := by
  obtain ⟨c', ps', rfl, hc, htag, hps⟩ := h.eq_cons
  have hbare : { c' with cache := cache }.bare = c.bare := hc
  exact .cons hbare htag hps

theorem StopsIn.onCache (hx : StopsIn S (InUse codecs (c :: ps)) x) :
    StopsIn S (InUse codecs (c :: ps)) (onCache x) := by
  rintro ⟨dest, chds⟩ hs
  obtain ⟨c', ps', rfl, -⟩ := hs.eq_cons
  have hcache := hx ⟨c'.cache, c' :: ps'⟩ hs
  show match (match x ⟨c'.cache, c' :: ps'⟩ with
      | .ok _ s' =>
          (.ok () ⟨dest, AccessM.setCache s'.dest s'.chds⟩ : EStateM.Result Stop Access Unit)
      | .error stop s' => .error stop ⟨dest, AccessM.setCache s'.dest s'.chds⟩) with
    | .ok _ s' => InUse codecs (c :: ps) s'.chds
    | .error stop s' => S stop ∧ InUse codecs (c :: ps) s'.chds
  cases hxs : x ⟨c'.cache, c' :: ps'⟩ with
  | ok a s' =>
    rw [hxs] at hcache
    exact hcache.setCache _
  | error stop s' =>
    rw [hxs] at hcache
    exact ⟨hcache.1, hcache.2.setCache _⟩

/-! ## Reading bytes -/

/-- A hunk that is broken cannot be read. -/
def BrokenFail (codecs : Codecs) (chds : List ChdFile) (hunk : ℕ → AccessM Unit) : Prop :=
  ∀ c ps k s, chds = c :: ps → InUse codecs chds s.chds → (c.entry codecs ps.isEmpty k).Broken →
    ∃ stop s', hunk k s = .error stop s'

variable {h fuel : ℕ} {s : Access}

theorem BrokenFail.onCache (h : BrokenFail codecs (c :: ps) hunk)
    {k : ℕ} (hs : InUse codecs (c :: ps) s.chds) (hk : (c.entry codecs ps.isEmpty k).Broken) :
    ∃ stop s', AccessM.onCache (hunk k) s = .error stop s' := by
  obtain ⟨dest, chds⟩ := s
  obtain ⟨c', ps', rfl, -⟩ := InUse.eq_cons hs
  obtain ⟨stop, s', herror⟩ := h c ps k ⟨c'.cache, c' :: ps'⟩ rfl hs hk
  exact ⟨stop, _, by simp only [AccessM.onCache, herror]; rfl⟩

/-- A hunk that is brought into a cache can be read. -/
theorem stopsIn_fillCache (hhunk : ∀ k, StopsIn S (InUse codecs (c :: ps)) (hunk k))
    (hbroken : BrokenFail codecs (c :: ps) hunk) (k : ℕ) :
    StopsIn S (InUse codecs (c :: ps)) (fillCache hunk k) := by
  rintro ⟨dest, chds⟩ hs
  obtain ⟨c', ps', rfl, -⟩ := hs.eq_cons
  rw [fillCache, current_bind]
  by_cases heq : k = c'.cachehunk
  · rw [if_pos heq]
    exact hs
  rw [if_neg heq]
  have hcache := (hhunk k).onCache ⟨dest, c' :: ps'⟩ hs
  cases hread : AccessM.onCache (hunk k) ⟨dest, c' :: ps'⟩ with
  | error stop s' =>
    rw [hread] at hcache
    rw [bind_eq_error.mpr (.inl hread)]
    exact hcache
  | ok _ s₁ =>
    rw [hread] at hcache
    rw [bind_of_ok hread]
    have hk : ¬ (c.entry codecs ps.isEmpty k).Broken := fun hk ↦ by
      obtain ⟨stop, s', herror⟩ := hbroken.onCache hs hk
      rw [herror] at hread
      cases hread
    obtain ⟨dest₁, chds₁⟩ := s₁
    obtain ⟨c₁, ps₁, rfl, hc₁, -, hps₁⟩ := InUse.eq_cons hcache
    have hbare : { c₁ with cachehunk := k }.bare = c.bare := hc₁
    exact .cons hbare (.inr hk) hps₁

theorem stopsIn_readRound (hhunk : ∀ k, StopsIn S (InUse codecs (c :: ps)) (hunk k))
    (hbroken : BrokenFail codecs (c :: ps) hunk) (r : Range) (k pos : ℕ) :
    StopsIn S (InUse codecs (c :: ps)) (readRound hunk r k pos) := by
  rintro ⟨dest, chds⟩ hs
  obtain ⟨c', ps', rfl, -⟩ := hs.eq_cons
  rw [readRound, current_bind]
  by_cases hwhole : r.Whole k ∧ k ≠ c'.cachehunk
  · rw [if_pos hwhole]
    exact (hhunk k).onPart pos r.hunkbytes ⟨dest, c' :: ps'⟩ hs
  · rw [if_neg hwhole]
    refine (stopsIn_fillCache hhunk hbroken k).bind (y := do
      let c ← current
      AccessM.onPart pos (r.count k) (fill (part c.cache (r.startoffs k) (r.count k)))) ?_
      ⟨dest, c' :: ps'⟩ hs
    rintro ⟨dest₁, chds₁⟩ hs₁
    obtain ⟨c₁, ps₁, rfl, -⟩ := InUse.eq_cons hs₁
    rw [current_bind]
    exact (stopsIn_fill (S := S) _).onPart pos (r.count k) ⟨dest₁, c₁ :: ps₁⟩ hs₁

theorem readRound_of_broken (hbroken : BrokenFail codecs (c :: ps) hunk) (hne : h ≠ noHunk)
    (hh : (c.entry codecs ps.isEmpty h).Broken) (r : Range)
    (pos : ℕ) (hs : InUse codecs (c :: ps) s.chds) :
    ∃ stop s', readRound hunk r h pos s = .error stop s' := by
  obtain ⟨dest, chds⟩ := s
  obtain ⟨c', ps', rfl, hc, htag, hps⟩ := InUse.eq_cons hs
  have hcached : h ≠ c'.cachehunk := by
    rintro rfl
    exact htag.elim hne fun hnot ↦ hnot hh
  rw [readRound, current_bind]
  by_cases hwhole : r.Whole h ∧ h ≠ c'.cachehunk
  · rw [if_pos hwhole]
    obtain ⟨stop, s', herror⟩ := hbroken c ps h ⟨part dest pos r.hunkbytes, c' :: ps'⟩ rfl hs hh
    exact ⟨stop, _, by simp only [AccessM.onPart, herror]; rfl⟩
  · rw [if_neg hwhole]
    obtain ⟨stop, s', herror⟩ := hbroken.onCache (s := ⟨dest, c' :: ps'⟩) hs hh
    refine ⟨stop, s', bind_eq_error.mpr (.inl ?_)⟩
    rw [fillCache, current_bind, if_neg hcached]
    exact bind_eq_error.mpr (.inl herror)

/-- A loop over hunks comes to a hunk at which every round fails, or ends in front of it. -/
theorem stopsIn_rounds {round : Range → ℕ → ℕ → AccessM Unit} {r : Range}
    (hround : ∀ k pos, StopsIn S K (round r k pos)) (hlt : h < 2 ^ 32)
    (hfail : ∀ pos s, K s.chds → ∃ stop s', round r h pos s = .error stop s') {k pos : ℕ}
    (hk : k < 2 ^ 32) (hfuel : (if k ≤ h then h - k else h + 2 ^ 32 - k) < fuel) :
    StopsIn S K (rounds round r fuel k pos) := by
  -- induction on the rounds up to the hunk `h`
  induction fuel generalizing k pos with
  | zero => exact absurd hfuel (Nat.not_lt_zero _)
  | succ fuel ih =>
    rw [rounds]
    by_cases hend : r.last < k
    · rw [if_pos hend]
      exact fun s hs ↦ hs
    rw [if_neg hend]
    by_cases heq : k = h
    · subst heq
      intro s hs
      obtain ⟨stop, s', herror⟩ := hfail pos s hs
      have hstop := hround k pos s hs
      rw [herror] at hstop
      rw [bind_eq_error.mpr (.inl herror)]
      exact hstop
    · refine (hround k pos).bind (ih (Nat.mod_lt _ (by decide)) ?_)
      by_cases hwrap : k + 1 < 2 ^ 32
      · rw [Nat.mod_eq_of_lt hwrap]
        split_ifs at hfuel ⊢ <;> omega
      · have hzero : k + 1 = 2 ^ 32 := by omega
        rw [hzero, Nat.mod_self]
        split_ifs at hfuel ⊢ <;> omega

/-- **Reading bytes.** `read_bytes` stops only as the hunks do, if there is a hunk that cannot be
read. -/
theorem stopsIn_readBytesWith (hhunk : ∀ k, StopsIn S (InUse codecs (c :: ps)) (hunk k))
    (hbroken : BrokenFail codecs (c :: ps) hunk) (hlt : h < noHunk)
    (hh : (c.entry codecs ps.isEmpty h).Broken)
    {offset bytes : ℕ} (hzero : S (.fault .divideByZero) ∨ bytes = 0 ∨ c.hunkbytes ≠ 0) :
    StopsIn S (InUse codecs (c :: ps)) (readBytesWith hunk offset bytes) := by
  rintro ⟨dest, chds⟩ hs
  obtain ⟨c', ps', rfl, hc, -⟩ := hs.eq_cons
  have hlt' : h < 2 ^ 32 - 1 := hlt
  rw [readBytesWith, overHunks]
  by_cases hbytes : bytes = 0
  · rw [if_pos hbytes]
    exact hs
  rw [if_neg hbytes, current_bind]
  by_cases hsize : c'.hunkbytes = 0
  · rw [if_pos hsize]
    refine ⟨?_, hs⟩
    rcases hzero with hS | h0 | hne
    · exact hS
    · exact absurd h0 hbytes
    · exact absurd (hunkbytes_congr hc ▸ hsize) hne
  · rw [if_neg hsize]
    refine stopsIn_rounds (fun k pos ↦ stopsIn_readRound hhunk hbroken _ k pos)
      (show h < 2 ^ 32 by omega) (fun pos s hs ↦ ?_) (Nat.mod_lt _ (by decide)) ?_
      ⟨dest, c' :: ps'⟩ hs
    · exact readRound_of_broken hbroken (by rw [noHunk]; omega) hh _ pos hs
    · split_ifs <;> omega

/-! ## Hunks -/

theorem readHunk_succ_of_inUse {n : ℕ} (hs : InUse codecs (c :: ps) s.chds) :
    readHunk codecs (fuel + 1) n s =
      (c.entry codecs ps.isEmpty n).access (readHunk codecs fuel) c.hunkbytes s := by
  obtain ⟨dest, chds⟩ := s
  obtain ⟨c', ps', rfl, hc, -, hps⟩ := InUse.eq_cons hs
  rw [readHunk, readHunkOf_eq, entry_congr hc, hps.1.isEmpty_eq, hunkbytes_congr hc]

theorem brokenFail_readHunk (codecs : Codecs) (chds : List ChdFile) (fuel : ℕ) :
    BrokenFail codecs chds (readHunk codecs fuel) := by
  rintro c ps k s rfl hs hk
  cases fuel with
  | zero => exact ⟨.hang, s, rfl⟩
  | succ fuel =>
    rw [readHunk_succ_of_inUse hs]
    cases hentry : c.entry codecs ps.isEmpty k with
    | broken stop leaves => exact ⟨stop, _, rfl⟩
    | data bytes => exact absurd hk (by rw [hentry]; exact id)
    | self m => exact absurd hk (by rw [hentry]; exact id)
    | parent m => exact absurd hk (by rw [hentry]; exact id)
    | parentBytes b => exact absurd hk (by rw [hentry]; exact id)

/-- **Hunks.** `read_hunk` stops as the entry of the hunk does, or as what it refers to. -/
theorem stopsIn_readHunk_succ {n : ℕ} (hstop : (c.entry codecs ps.isEmpty n).StopsIn S)
    (hself : ∀ m, c.entry codecs ps.isEmpty n = .self m →
      StopsIn S (InUse codecs (c :: ps)) (readHunk codecs fuel m))
    (hparent : ∀ m, c.entry codecs ps.isEmpty n = .parent m →
      StopsIn S (InUse codecs ps) (readHunk codecs fuel m))
    (hbytes : ∀ b, c.entry codecs ps.isEmpty n = .parentBytes b →
      StopsIn S (InUse codecs ps) (do
        let p ← current
        readBytesWith (readHunk codecs fuel) (b * p.unitbytes % 2 ^ 64) c.hunkbytes)) :
    StopsIn S (InUse codecs (c :: ps)) (readHunk codecs (fuel + 1) n) := by
  intro s hs
  rw [readHunk_succ_of_inUse hs]
  cases hentry : c.entry codecs ps.isEmpty n with
  | data bytes => exact hs
  | broken stop leaves =>
    rw [hentry] at hstop
    exact ⟨hstop, hs⟩
  | self m => exact hself m hentry s hs
  | parent m => exact (hparent m hentry).onParent s hs
  | parentBytes b => exact (hbytes b hentry).onParent s hs

end

end RoscoEmulator.Chd
