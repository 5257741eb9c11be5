import RoscoEmulator.Chd.ByteStore
import RoscoEmulator.Chd.Open

/-!
# Calls that fail

A `read_bytes` or `write_bytes` that fails leaves the CHD as it was but for its cache, and for the
hunks in front of the one at which it failed. The cache is filled and changed before it is known
whether that succeeds. So a read that fails spoils the cache if this holds another hunk, and a write
that fails spoils it if it has put other bytes in there; `Spared` says that neither is the case. -/

namespace RoscoEmulator.Chd

open List BigEndian Pieces Rows AccessM

/-- A CHD of any version with its parents, whose caches are right and whose hunks hold the bytes of
a row; if it can be written, it is a store of bytes. -/
structure Sound (codecs : Codecs) (c : ChdFile) (ps : List ChdFile) (row : ℕ → Byte) : Prop where
  fitting : Fitting codecs (c :: ps)
  coherent : Coherent codecs (c :: ps)
  holds : ∀ n bytes, Holds codecs (c :: ps) n bytes → bytes = hunkOf c row n
  store : c.allowWrites = true → c.compressed = false → ByteStore codecs c ps row

section

variable {codecs : Codecs} {c c' : ChdFile} {ps ps' : List ChdFile} {row : ℕ → Byte} {n : ℕ}
  {buffer dest bytes : List Byte} {fuel : ℕ} {s' : Access} {stop : Stop}

theorem Sound.of_byteStore (h : ByteStore codecs c ps row) : Sound codecs c ps row :=
  ⟨h.fitting', h.coherent, fun n bytes hb ↦ h.holds n hb.lt bytes hb, fun _ _ ↦ h⟩

/-- Nothing depends on caches that are right. -/
theorem Sound.of_same (h : Sound codecs c ps row) (hc : c.bare = c'.bare) (hps : Same ps ps')
    (hco : Coherent codecs (c' :: ps')) : Sound codecs c' ps' row := by
  have hsame : Same (c :: ps) (c' :: ps') := Same.cons hc hps
  have hwrites : c'.bare.allowWrites = c.bare.allowWrites := by rw [hc]
  have hcompressed : c'.bare.compressed = c.bare.compressed := by rw [hc]
  refine ⟨h.fitting.of_same hsame, hco, fun n bytes hb ↦ ?_, fun hw hcomp ↦ ?_⟩
  · rw [hunkOf, ← hunkbytes_congr hc]
    exact h.holds n bytes (hb.of_same hsame.symm)
  · exact (h.store (hwrites.symm.trans hw)
      (hcompressed.symm.trans hcomp)).toHunkStore.of_same hc hps hco

/-- The state is a CHD with hunks of some size that holds the bytes. -/
def SoundState (codecs : Codecs) (hunkbytes : ℕ) (s : List ChdFile × (ℕ → Byte)) : Prop :=
  ∃ c ps, s.1 = c :: ps ∧ c.hunkbytes = hunkbytes ∧ Sound codecs c ps s.2

theorem Sound.soundState (h : Sound codecs c ps row) {chds : List ChdFile}
    (hsame : Same (c :: ps) chds)
    (hco : Coherent codecs chds) : SoundState codecs c.hunkbytes (chds, row) := by
  obtain ⟨c', ps', rfl, hc, hps⟩ := hsame.eq_cons
  exact ⟨c', ps', rfl, (hunkbytes_congr hc).symm, h.of_same hc hps hco⟩

/-! ## Reads -/

/-- A `read_bytes` that fails does not break off while it fills a cache that holds a hunk. -/
def SparesRead (codecs : Codecs) (fuel : ℕ) (chds : List ChdFile) (offset : ℕ)
    (buffer : List Byte) : Prop :=
  match chds with
  | [] => True
  | c :: _ =>
      match failure (readRound (readHunk codecs fuel)) offset buffer.length ⟨buffer, chds⟩ with
      | none => True
      | some (k, s) => SparesRound (Spares codecs fuel) ⟨c.hunkbytes, offset, buffer.length⟩ k s

instance (codecs : Codecs) (fuel : ℕ) (offset : ℕ) (buffer : List Byte) :
    ∀ chds, Decidable (SparesRead codecs fuel chds offset buffer)
  | [] => instDecidableTrue
  | c :: ps =>
      match h :
        failure (readRound (readHunk codecs fuel)) offset buffer.length ⟨buffer, c :: ps⟩ with
      | none => .isTrue (by simp only [SparesRead, h])
      | some (k, s) => decidable_of_iff
          (SparesRound (Spares codecs fuel) ⟨c.hunkbytes, offset, buffer.length⟩ k s)
          (by simp only [SparesRead, h])

variable {offset : ℕ}

/-- **A read that fails.** It leaves what it found. -/
theorem Sound.readBytes_error (h : Sound codecs c ps row) (hin : InHunks c offset buffer.length)
    (herror : readBytes codecs fuel offset buffer.length ⟨buffer, c :: ps⟩ = .error stop s')
    (hspares : SparesRead codecs fuel (c :: ps) offset buffer) :
    SoundState codecs c.hunkbytes (s'.chds, row) := by
  rw [readBytes] at herror
  rcases hin with hnil | hr
  · rw [hnil, readBytesWith, overHunks, if_pos rfl] at herror
    cases herror
  rcases (reads_readHunk codecs fuel).readBytesWith buffer h.fitting h.coherent hr rfl with
      ⟨s'', hok, -⟩ | ⟨stop', s'', herror', hsame, -, k, s₁, hfail, hco⟩
  · rw [hok] at herror
    cases herror
  · obtain ⟨rfl, rfl⟩ := EStateM.Result.error.inj (herror'.symm.trans herror)
    have hspares' : SparesRound (Spares codecs fuel) ⟨c.hunkbytes, offset, buffer.length⟩ k s₁ := by
      simpa only [SparesRead, hfail] using hspares
    exact h.soundState hsame.symm (hco hspares')

theorem Sound.readBytes (h : Sound codecs c ps row) (hin : InHunks c offset buffer.length)
    (hok : readBytes codecs fuel offset buffer.length ⟨buffer, c :: ps⟩ = .ok () s') :
    s'.dest = slice row offset buffer.length ∧ SoundState codecs c.hunkbytes (s'.chds, row) := by
  obtain ⟨hread, hsame, hco⟩ := readBytes_slice h.fitting h.coherent h.holds hin rfl hok
  exact ⟨hread, h.soundState hsame hco⟩

/-! ## Writes -/

/-- A round of `write_bytes` that fails does not break off while it fills a cache that holds a hunk,
has put no other bytes in the cache, and has not appended a hunk whose place does not get into the
map. -/
def SparesWriteRound (codecs : Codecs) (fuel : ℕ) (buffer : List Byte) (r : Range) (k : ℕ)
    (s : Access) :
    Prop :=
  match s.chds with
  | [] => True
  | c :: _ =>
      (c.file.canWrite (c.nextPlace * c.hunkbytes) c.hunkbytes = true →
        c.file.canWrite (c.mapoffset + 4 * k) 4 = true) ∧
      if r.Whole k ∧ k ≠ c.cachehunk then True
      else
        match fillCache (readHunk codecs fuel) k s with
        | .error _ _ => c.cachehunk = noHunk ∧ Spares codecs fuel { s with dest := c.cache } k
        | .ok _ s' => ∀ d ∈ s'.chds.head?,
            putPart d.cache (r.startoffs k) (part buffer (r.pos k) (r.count k)) = d.cache

/-- The same where a `write_bytes` fails. -/
def SparesWrite (codecs : Codecs) (fuel : ℕ) (chds : List ChdFile) (offset : ℕ)
    (buffer : List Byte) :
    Prop :=
  match chds with
  | [] => True
  | c :: _ =>
      match failure (writeRound (readHunk codecs fuel) buffer) offset buffer.length ⟨[], chds⟩ with
      | none => True
      | some (k, s) => SparesWriteRound codecs fuel buffer ⟨c.hunkbytes, offset, buffer.length⟩ k s

instance (codecs : Codecs) (fuel : ℕ) (buffer : List Byte) (r : Range) (k : ℕ) :
    ∀ s, Decidable (SparesWriteRound codecs fuel buffer r k s)
  | ⟨_, []⟩ => instDecidableTrue
  | ⟨dest, c :: ps⟩ =>
      have : Decidable (match fillCache (readHunk codecs fuel) k ⟨dest, c :: ps⟩ with
        | .error _ _ => c.cachehunk = noHunk ∧ Spares codecs fuel ⟨c.cache, c :: ps⟩ k
        | .ok _ s' => ∀ d ∈ s'.chds.head?,
            putPart d.cache (r.startoffs k) (part buffer (r.pos k) (r.count k)) = d.cache) :=
        match fillCache (readHunk codecs fuel) k ⟨dest, c :: ps⟩ with
        | .error _ _ => inferInstanceAs (Decidable (_ ∧ _))
        | .ok _ s' => inferInstanceAs (Decidable (∀ d ∈ s'.chds.head?,
            putPart d.cache (r.startoffs k) (part buffer (r.pos k) (r.count k)) = d.cache))
      inferInstanceAs (Decidable (_ ∧ if r.Whole k ∧ k ≠ c.cachehunk then True else _))

instance (codecs : Codecs) (fuel : ℕ) (offset : ℕ) (buffer : List Byte) :
    ∀ chds, Decidable (SparesWrite codecs fuel chds offset buffer)
  | [] => instDecidableTrue
  | c :: ps =>
      match h :
        failure (writeRound (readHunk codecs fuel) buffer) offset buffer.length ⟨[], c :: ps⟩ with
      | none => .isTrue (by simp only [SparesWrite, h])
      | some (k, s) => decidable_of_iff
          (SparesWriteRound codecs fuel buffer ⟨c.hunkbytes, offset, buffer.length⟩ k s)
          (by simp only [SparesWrite, h])

/-- A CHD that cannot be written is not. -/
theorem writeHunk_error_of_readOnly {fromCache : Bool}
    (hno : ¬ (c.allowWrites = true ∧ c.compressed = false))
    (herror : writeHunk n buffer fromCache c = .error stop c') : c' = c := by
  rw [writeHunk, Chd.get_bind] at herror
  by_cases hn : c.hunkcount ≤ n
  · rw [if_pos hn] at herror
    cases herror
    rfl
  by_cases hwrites : c.allowWrites = true
  swap
  · rw [if_neg hn, if_pos hwrites] at herror
    cases herror
    rfl
  have hcompressed : c.compressed = true := by
    by_contra hcomp
    exact hno ⟨hwrites, Bool.eq_false_of_not_eq_true hcomp⟩
  rw [if_neg hn, if_neg (not_not_intro hwrites), if_pos hcompressed] at herror
  cases herror
  rfl

theorem ByteStore.padded (h : ByteStore codecs c ps row) : ByteStore codecs c.padded ps row := by
  refine ⟨⟨h.raw.padded, h.size, h.hunkbytes_lt, h.parent, h.fitting, h.parents, h.cache, ?_⟩,
    h.cached.imp_right h.raw.holds_padded.mpr⟩
  exact fun n hn bytes hb ↦ h.holds n hn bytes (h.raw.holds_padded.mp hb)

theorem Sound.writeHunk_error
    (h : Sound codecs c ps row) {fromCache : Bool} (hlen : buffer.length = c.hunkbytes)
    (hmap : c.file.canWrite (c.nextPlace * c.hunkbytes) c.hunkbytes = true →
      c.file.canWrite (c.mapoffset + 4 * n) 4 = true) (herror :
      writeHunk n buffer fromCache c = .error stop c') :
    Sound codecs c' ps row ∧ c'.hunkbytes = c.hunkbytes := by
  by_cases hwritable : c.allowWrites = true ∧ c.compressed = false
  · have hstore := h.store hwritable.1 hwritable.2
    rcases hstore.raw.writeHunk_error herror with rfl | rfl | ⟨rfl, hcan, hno⟩
    · exact ⟨h, rfl⟩
    · exact ⟨.of_byteStore hstore.padded, rfl⟩
    · rw [hlen] at hcan
      exact absurd (hmap hcan) hno
  · rw [writeHunk_error_of_readOnly hwritable herror]
    exact ⟨h, rfl⟩

theorem onCurrent_eq_error {α : Type} {x : ChdM α} : onCurrent x ⟨dest, c :: ps⟩ = .error stop s' ↔
    ∃ c', x c = .error stop c' ∧ s' = ⟨dest, c' :: ps⟩ := by
  rw [onCurrent_eq]
  cases x c with
  | ok b c' =>
    constructor
    · intro h
      cases h
    · rintro ⟨_, h, -⟩
      cases h
  | error stop c' =>
    constructor
    · intro h
      cases h
      exact ⟨c', rfl, rfl⟩
    · rintro ⟨c'', h, rfl⟩
      cases h
      rfl

/-- **A round of `write_bytes` that fails.** It leaves what it found. -/
theorem Sound.writeRound_error (h : Sound codecs c ps row) {r : Range} (hr : r.Proper)
    (hsize : r.hunkbytes = c.hunkbytes) {k : ℕ} (hfirst : r.first ≤ k) (hlast : k ≤ r.last)
    (hlen : buffer.length = r.bytes)
    (hspares : SparesWriteRound codecs fuel buffer r k ⟨dest, c :: ps⟩) (herror : writeRound
    (Chd.readHunk codecs fuel) buffer r k (r.pos k) ⟨dest, c :: ps⟩ = .error stop s') :
    SoundState codecs c.hunkbytes (s'.chds, row) := by
  obtain ⟨hmap, hspares⟩ := hspares
  have hlt := hr.last_lt
  have hinside := hr.pos_add_count_le hfirst hlast
  rw [writeRound, current_bind] at herror
  by_cases hwhole : r.Whole k ∧ k ≠ c.cachehunk
  · have hcount : r.count k = r.hunkbytes := by
      have hpos := hr.hunkbytes_pos
      rw [Range.count, hwhole.1.1, hwhole.1.2]
      omega
    rw [if_pos hwhole] at herror
    obtain ⟨c', hwrite, rfl⟩ := onCurrent_eq_error.mp herror
    have hpart : (part buffer (r.pos k) r.hunkbytes).length = c.hunkbytes :=
      (length_part (by omega)).trans hsize
    obtain ⟨hsound, hbytes⟩ := h.writeHunk_error hpart hmap hwrite
    exact ⟨c', ps, rfl, hbytes, hsound⟩
  rw [if_neg hwhole] at herror hspares
  have hnone : k ≠ noHunk := by
    rw [noHunk]
    omega
  rcases (reads_readHunk codecs fuel).fillCache dest h.fitting h.coherent hnone with
      ⟨c₁, ps₁, hfill, hbare, hsame, hco, -, -⟩ | ⟨stop', s₁, hfill, -, hsame, hco⟩
  · -- the cache has the hunk, and the bytes that were put in it
    have h₁ : Sound codecs c₁ ps₁ row := h.of_same hbare.symm hsame.symm hco
    simp only [hfill] at hspares
    have hcache := hspares c₁ rfl
    have hmodify : onCurrent (modify fun c ↦ { c with
        cache := putPart c.cache (r.startoffs k) (part buffer (r.pos k) (r.count k)) })
        ⟨dest, c₁ :: ps₁⟩ = .ok () ⟨dest, c₁ :: ps₁⟩ := by
      show EStateM.Result.ok () (⟨dest, { c₁ with cache := putPart _ _ _ } :: ps₁⟩ : Access) = _
      rw [hcache]
    rw [bind_of_ok hfill, bind_of_ok hmodify, current_bind] at herror
    obtain ⟨c', hwrite, rfl⟩ := onCurrent_eq_error.mp herror
    have hmap' : c₁.bare.file.canWrite (c₁.bare.nextPlace * c₁.bare.hunkbytes) c₁.bare.hunkbytes =
        true → c₁.bare.file.canWrite (c₁.bare.mapoffset + 4 * k) 4 = true := by
      rw [hbare]
      exact hmap
    obtain ⟨hsound, hbytes⟩ := h₁.writeHunk_error h₁.coherent.2.1 hmap' hwrite
    exact ⟨c', ps₁, rfl, hbytes.trans (hunkbytes_congr hbare), hsound⟩
  · simp only [hfill] at hspares
    rcases bind_eq_error.mp herror with herror | ⟨_, _, hok, -⟩
    · obtain ⟨rfl, rfl⟩ := EStateM.Result.error.inj (hfill.symm.trans herror)
      exact h.soundState hsame.symm (hco hspares)
    · rw [hfill] at hok
      cases hok

/-- No round of `write_bytes` succeeds on a CHD that cannot be written. -/
theorem Sound.first_round (h : Sound codecs c ps row) (fuel : ℕ)
    (hr : Range.Proper ⟨c.hunkbytes, offset, buffer.length⟩)
    (hno : ¬ (c.allowWrites = true ∧ c.compressed = false))
    (k : ℕ) (s s' : Access) (hfirst : Range.first ⟨c.hunkbytes, offset, buffer.length⟩ ≤ k)
    (hlast : k ≤ Range.last ⟨c.hunkbytes, offset, buffer.length⟩)
    (hs : k = Range.first ⟨c.hunkbytes, offset, buffer.length⟩ ∧ s = ⟨[], c :: ps⟩)
    (hround : writeRound (Chd.readHunk codecs fuel) buffer ⟨c.hunkbytes, offset, buffer.length⟩ k
      (Range.pos ⟨c.hunkbytes, offset, buffer.length⟩ k) s = .ok () s') :
    k + 1 = Range.first ⟨c.hunkbytes, offset, buffer.length⟩ ∧ s' = ⟨[], c :: ps⟩ := by
  obtain ⟨rfl, rfl⟩ := hs
  have hlt := hr.last_lt
  have hnone : Range.first ⟨c.hunkbytes, offset, buffer.length⟩ ≠ noHunk := by
    rw [noHunk]
    omega
  exact absurd (writable_of_writeRound h.fitting h.coherent hnone hround).2 hno

/-- **A write that fails.** It leaves what it found, with the bytes in front of the hunk at which it
failed. -/
theorem Sound.writeBytes_error (h : Sound codecs c ps row) (hin : InHunks c offset buffer.length)
    (hzero : ∀ k < c.hunkcount, rawEntry c k = 0 →
    AllZero (hunkOf c (Rows.store row offset buffer) k) →
      AllZero (hunkOf c row k)) (herror :
      writeBytes codecs fuel offset buffer ⟨[], c :: ps⟩ = .error stop s')
    (hspares : SparesWrite codecs fuel (c :: ps) offset buffer) :
    ∃ k s₁, failure (writeRound (Chd.readHunk codecs fuel) buffer) offset buffer.length
        ⟨[], c :: ps⟩ = some (k, s₁) ∧
      SoundState codecs c.hunkbytes (s'.chds, Rows.store row offset
        (buffer.take (Range.pos ⟨c.hunkbytes, offset, buffer.length⟩ k))) := by
  rw [writeBytes] at herror
  rcases hin with hnil | hr
  · rw [overHunks, if_pos hnil] at herror
    cases herror
  by_cases hwritable : c.allowWrites = true ∧ c.compressed = false
  · have hstore := h.store hwritable.1 hwritable.2
    have hstart : WrittenSoFar codecs c row ⟨c.hunkbytes, offset, buffer.length⟩ buffer
        (Range.first ⟨c.hunkbytes, offset, buffer.length⟩) ⟨[], c :: ps⟩ := by
      refine ⟨c, ps, rfl, ⟨rfl, rfl, rfl, rfl⟩, fun m _ _ ↦ rfl, fun n hn _ ↦ ?_⟩
      rw [hn hr.first_le_last, hr.pos_first, take_zero, store_nil]
      exact hstore
    rcases overHunks_rule hr (fun k s s' hfirst hlast' hs hround ↦
        hs.step hr rfl hfirst hlast' rfl (hzero k) hround) hstart with
        ⟨s'', hok, -⟩ | ⟨stop', s'', herror', k, s₁, hfail, hfirst, hlast, hs, hround⟩
    · rw [hok] at herror
      cases herror
    obtain ⟨rfl, rfl⟩ := EStateM.Result.error.inj (herror'.symm.trans herror)
    obtain ⟨c₁, ps₁, hchds, halike, -, hstore₁⟩ := hs.store
    obtain ⟨dest, chds⟩ := s₁
    obtain rfl : chds = c₁ :: ps₁ := hchds
    have hspares' : SparesWriteRound codecs fuel buffer ⟨c.hunkbytes, offset, buffer.length⟩ k
        ⟨dest, c₁ :: ps₁⟩ := by
      simpa only [SparesWrite, hfail] using hspares
    have hsound := Sound.of_byteStore (hstore₁ _ (fun _ ↦ rfl) fun hlt ↦ absurd hlt (by omega))
    have hstate := hsound.writeRound_error hr halike.hunkbytes.symm hfirst hlast rfl hspares' hround
    rw [halike.hunkbytes] at hstate
    exact ⟨k, _, hfail, hstate⟩
  · -- the first round fails
    have hstep := h.first_round fuel hr hwritable
    rcases overHunks_rule hr hstep ⟨rfl, rfl⟩ with
        ⟨s'', hok, -⟩ | ⟨stop', s'', herror', k, s₁, hfail, hfirst, hlast, ⟨rfl, rfl⟩, hround⟩
    · rw [hok] at herror
      cases herror
    · obtain ⟨rfl, rfl⟩ := EStateM.Result.error.inj (herror'.symm.trans herror)
      have hspares' : SparesWriteRound codecs fuel buffer ⟨c.hunkbytes, offset, buffer.length⟩
          (Range.first ⟨c.hunkbytes, offset, buffer.length⟩) ⟨[], c :: ps⟩ := by
        simpa only [SparesWrite, hfail] using hspares
      refine ⟨_, _, hfail, ?_⟩
      rw [hr.pos_first, take_zero, store_nil]
      exact h.writeRound_error hr rfl hfirst hlast rfl hspares' hround

theorem Sound.writeBytes (h : Sound codecs c ps row) (hin : InHunks c offset buffer.length) (hzero :
    ∀ k < c.hunkcount, rawEntry c k = 0 → AllZero (hunkOf c (Rows.store row offset buffer) k) →
      AllZero (hunkOf c row k)) (hok :
      writeBytes codecs fuel offset buffer ⟨[], c :: ps⟩ = .ok () s') :
    SoundState codecs c.hunkbytes (s'.chds, Rows.store row offset buffer) := by
  by_cases hwritable : c.allowWrites = true ∧ c.compressed = false
  · obtain ⟨c', ps', hchds, halike, hstore⟩ :=
      (h.store hwritable.1 hwritable.2).writeBytes hin hzero hok
    exact ⟨c', ps', hchds, halike.hunkbytes, .of_byteStore hstore⟩
  rw [Chd.writeBytes] at hok
  rcases hin with hnil | hr
  · rw [overHunks, if_pos hnil] at hok
    obtain rfl := (EStateM.Result.ok.inj hok).2
    rw [eq_nil_of_length_eq_zero hnil, store_nil]
    exact ⟨c, ps, rfl, rfl, h⟩
  · have hstep := h.first_round fuel hr hwritable
    rcases overHunks_rule hr hstep ⟨rfl, rfl⟩ with ⟨s'', -, hend, -⟩ | ⟨stop, s'', herror, -⟩
    · have hle := hr.first_le_last
      omega
    · rw [herror] at hok
      cases hok

end

/-! ## Runs -/

/-- A call of `read_bytes` or `write_bytes`. -/
inductive BytesCall
  | read (offset : ℕ) (buffer : List Byte)
  | write (offset : ℕ) (buffer : List Byte)
deriving DecidableEq, Repr

namespace BytesCall

/-- The call among all calls. -/
def op : BytesCall → ByteOp
  | read offset buffer => .readBytes offset buffer
  | write offset buffer => .writeBytes offset buffer

def offset : BytesCall → ℕ
  | read offset _ | write offset _ => offset

def buffer : BytesCall → List Byte
  | read _ buffer | write _ buffer => buffer

section

variable (codecs : Codecs) (fuel : ℕ)

/-- The hunk at which the call fails. -/
def failsAt (chds : List ChdFile) : BytesCall → Option ℕ
  | read offset buffer =>
      (failure (readRound (readHunk codecs fuel)) offset buffer.length ⟨buffer, chds⟩).map Prod.fst
  | write offset buffer =>
      (failure (writeRound (readHunk codecs fuel) buffer) offset buffer.length ⟨[],
        chds⟩).map Prod.fst

/-- The call fails. -/
def Fails (chds : List ChdFile) (call : BytesCall) : Prop :=
  match call.op.exec codecs fuel chds with
  | .ok _ _ => False
  | .error _ _ => True

instance (chds : List ChdFile) (call : BytesCall) : Decidable (call.Fails codecs fuel chds) :=
  match h : call.op.exec codecs fuel chds with
  | .ok _ _ => .isFalse (by simp only [Fails, h, not_false_eq_true])
  | .error _ _ => .isTrue (by simp only [Fails, h])

/-- The hunks that the call has completely written when it fails. -/
def Completed (c : ChdFile) (ps : List ChdFile) (call : BytesCall) (hunknum : ℕ) : Prop :=
  match call with
  | read _ _ => False
  | write offset buffer => ∃ k, call.failsAt codecs fuel (c :: ps) = some k ∧
      Range.first ⟨c.hunkbytes, offset, buffer.length⟩ ≤ hunknum ∧ hunknum < k

/-- The row after the call. -/
def store (row : ℕ → Byte) : BytesCall → ℕ → Byte
  | read _ _ => row
  | write offset buffer => Rows.store row offset buffer

/-- The row after the call if it fails. -/
def failedStore (c : ChdFile) (ps : List ChdFile) (row : ℕ → Byte) (call : BytesCall) : ℕ → Byte :=
  match call with
  | read _ _ => row
  | write offset buffer =>
      match call.failsAt codecs fuel (c :: ps) with
      | none => row
      | some k =>
        Rows.store row offset (buffer.take (Range.pos ⟨c.hunkbytes, offset, buffer.length⟩ k))

/-- A state is a CHD with its parents, and the bytes that it holds. -/
def step (s : List ChdFile × (ℕ → Byte)) (call : BytesCall) : List ChdFile × (ℕ → Byte) :=
  match s.1 with
  | [] => s
  | c :: ps =>
      match call.op.exec codecs fuel (c :: ps) with
      | .ok _ s' => (s'.chds, call.store s.2)
      | .error _ s' => (s'.chds, call.failedStore codecs fuel c ps s.2)

/-- The call spares the caches if it fails. -/
def Spares (chds : List ChdFile) : BytesCall → Prop
  | read offset buffer => SparesRead codecs fuel chds offset buffer
  | write offset buffer => SparesWrite codecs fuel chds offset buffer

instance decidableSpares (chds : List ChdFile) : DecidablePred (Spares codecs fuel chds)
  | read offset buffer => inferInstanceAs (Decidable (SparesRead codecs fuel chds offset buffer))
  | write offset buffer => inferInstanceAs (Decidable (SparesWrite codecs fuel chds offset buffer))

/-- The bytes lie in hunks that have a number, no hunk without a place becomes all zero that was
not, and the caches are spared if the call fails. -/
def Harmless (s : List ChdFile × (ℕ → Byte)) (call : BytesCall) : Prop :=
  match s.1 with
  | [] => False
  | c :: ps =>
      InHunks c call.offset call.buffer.length ∧
        (∀ n < c.hunkcount, rawEntry c n = 0 → AllZero (hunkOf c (call.store s.2) n) →
          AllZero (hunkOf c s.2 n)) ∧
        ∀ stop s', call.op.exec codecs fuel (c :: ps) = .error stop s' →
          call.Spares codecs fuel (c :: ps)

/-- The call reads, or it succeeds. -/
def Settled (s : List ChdFile × (ℕ → Byte)) (call : BytesCall) : Prop :=
  match call with
  | read _ _ => True
  | write _ _ => ∃ s', call.op.exec codecs fuel s.1 = .ok () s'

instance (s : List ChdFile × (ℕ → Byte)) : DecidablePred (Harmless codecs fuel s) := fun call ↦
  match s with
  | ([], _) => instDecidableFalse
  | (c :: ps, row) =>
      match h : call.op.exec codecs fuel (c :: ps) with
      | .ok _ _ => decidable_of_iff (InHunks c call.offset call.buffer.length ∧
          ∀ n < c.hunkcount, rawEntry c n = 0 → AllZero (hunkOf c (call.store row) n) →
            AllZero (hunkOf c row n))
              (by simp only [Harmless, h, reduceCtorEq, false_imp_iff, implies_true, and_true])
      | .error _ _ => decidable_of_iff ((InHunks c call.offset call.buffer.length ∧
          ∀ n < c.hunkcount, rawEntry c n = 0 → AllZero (hunkOf c (call.store row) n) →
            AllZero (hunkOf c row n)) ∧ call.Spares codecs fuel (c :: ps)) (by
              simp only [Harmless, h, and_assoc, EStateM.Result.error.injEq, and_imp]
              exact and_congr_right fun _ ↦ and_congr_right fun _ ↦
                ⟨fun hspares _ _ _ _ ↦ hspares, fun hspares ↦ hspares _ _ rfl rfl⟩)

instance (s : List ChdFile × (ℕ → Byte)) : DecidablePred (Settled codecs fuel s)
  | read _ _ => instDecidableTrue
  | write offset buffer =>
      match h : (write offset buffer).op.exec codecs fuel s.1 with
      | .ok () s' => .isTrue ⟨s', h⟩
      | .error _ _ => .isFalse fun hok ↦ by
          obtain ⟨s', hok⟩ := hok
          rw [h] at hok
          cases hok

end

end BytesCall

open BytesCall

section

variable {codecs : Codecs} {fuel hunkbytes : ℕ} {s : List ChdFile × (ℕ → Byte)} {call : BytesCall}

/-- **A call.** Whether it succeeds or fails, a harmless call leaves a CHD that holds the bytes of
the row after it. -/
theorem SoundState.step (h : SoundState codecs hunkbytes s) (hcall : call.Harmless codecs fuel s) :
    SoundState codecs hunkbytes (call.step codecs fuel s) := by
  obtain ⟨chds, row⟩ := s
  obtain ⟨c, ps, rfl, rfl, hsound⟩ := h
  obtain ⟨hin, hzero, hspares⟩ := hcall
  rw [step]
  cases hexec : call.op.exec codecs fuel (c :: ps) with
  | ok _ s' =>
    simp only [hexec]
    cases call with
    | read offset buffer => exact (hsound.readBytes hin hexec).2
    | write offset buffer => exact hsound.writeBytes hin hzero hexec
  | error stop s' =>
    simp only [hexec]
    cases call with
    | read offset buffer => exact hsound.readBytes_error hin hexec (hspares stop s' hexec)
    | write offset buffer =>
      obtain ⟨k, s₁, hfail, hsound'⟩ :=
        hsound.writeBytes_error hin hzero hexec (hspares stop s' hexec)
      have hat : failsAt codecs fuel (c :: ps) (.write offset buffer) = some k :=
        congrArg (Option.map Prod.fst) hfail
      rw [failedStore]
      simp only [hat]
      exact hsound'

theorem failedStore_of_not_completed {c : ChdFile} {ps : List ChdFile} {row : ℕ → Byte}
    (hin : InHunks c call.offset call.buffer.length) {i : ℕ}
    (hi : ¬ call.Completed codecs fuel c ps (i / c.hunkbytes)) :
    call.failedStore codecs fuel c ps row i = row i := by
  cases call with
  | read offset buffer => rfl
  | write offset buffer =>
    change buffer.length = 0 ∨ Range.Proper ⟨c.hunkbytes, offset, buffer.length⟩ at hin
    rw [failedStore]
    cases hat : failsAt codecs fuel (c :: ps) (.write offset buffer) with
    | none => rfl
    | some k =>
      rcases hin with hnil | hr
      · rw [eq_nil_of_length_eq_zero hnil]
        simp only [take_nil, store_nil]
      refine store_of_notMem fun hmem ↦ hi ⟨k, hat, ?_⟩
      obtain ⟨⟨j, s₁⟩, hfail, hj⟩ := Option.map_eq_some_iff.mp hat
      obtain rfl : k = j := hj.symm
      have hfirst := le_of_failing hr hfail
      have hpos := hr.offset_add_pos hfirst
      have hlen : (buffer.take (Range.pos ⟨c.hunkbytes, offset, buffer.length⟩ k)).length ≤
          Range.pos ⟨c.hunkbytes, offset, buffer.length⟩ k := length_take_le _ _
      constructor
      · rw [hr.first_eq]
        exact Nat.div_le_div_right hmem.1
      · refine Nat.div_lt_of_lt_mul ?_
        rw [Nat.mul_comm]
        rcases Nat.lt_or_eq_of_le hfirst with hlt | rfl
        · rw [Range.startoffs, if_neg (by omega)] at hpos
          change offset + _ = k * c.hunkbytes + 0 at hpos
          have hend := hmem.2
          omega
        · have hzero := hr.pos_first
          have hend := hmem.2
          omega

/-- Rows that agree outside some hunks still do after the same write. -/
theorem store_agree {row row' : ℕ → Byte} {i : ℕ} (h : row i = row' i) (call : BytesCall) :
    call.store row i = call.store row' i := by
  cases call with
  | read offset buffer => exact h
  | write offset buffer =>
    show Rows.store row offset buffer i = Rows.store row' offset buffer i
    rw [Rows.store, Rows.store, h]

/-- A read, and a write that succeeds, put in the row what they should. -/
theorem row_step (h : SoundState codecs hunkbytes s) (hcall : call.Settled codecs fuel s) :
    (call.step codecs fuel s).2 = call.store s.2 := by
  obtain ⟨chds, row⟩ := s
  obtain ⟨c, ps, rfl, -, -⟩ := h
  rw [step]
  cases call with
  | read offset buffer =>
    cases hexec : (BytesCall.read offset buffer).op.exec codecs fuel (c :: ps) with
    | ok _ s' => simp only [hexec, BytesCall.store]
    | error stop s' => simp only [hexec, BytesCall.store, failedStore]
  | write offset buffer =>
    obtain ⟨s', hexec⟩ := hcall
    simp only [hexec]

/-- **Two runs.** Calls that are harmless and settled in both runs leave states that hold bytes that
agree where they did before. -/
theorem agree_run {s s' : List ChdFile × (ℕ → Byte)} (h : SoundState codecs hunkbytes s)
    (h' : SoundState codecs hunkbytes s') {D : ℕ → Prop} (hrow : ∀ i, ¬ D i → s.2 i = s'.2 i)
    {later : List BytesCall} (hlater : Run.Meets (step codecs fuel)
      (fun s call ↦ call.Harmless codecs fuel s ∧ call.Settled codecs fuel s) s later)
    (hlater' : Run.Meets (step codecs fuel)
      (fun s call ↦ call.Harmless codecs fuel s ∧ call.Settled codecs fuel s) s' later) :
    SoundState codecs hunkbytes (Run.run (step codecs fuel) s later) ∧
      SoundState codecs hunkbytes (Run.run (step codecs fuel) s' later) ∧
      ∀ i, ¬ D i → (Run.run (step codecs fuel) s later).2 i =
        (Run.run (step codecs fuel) s' later).2 i := by
  induction later generalizing s s' with
  | nil => exact ⟨h, h', hrow⟩
  | cons call later ih =>
    refine ih (h.step hlater.1.1) (h'.step hlater'.1.1) (fun i hi ↦ ?_) hlater.2 hlater'.2
    rw [row_step h hlater.1.2, row_step h' hlater'.1.2]
    exact store_agree (hrow i hi) call

theorem SoundState.result
    (h : SoundState codecs hunkbytes s) {offset : ℕ} {buffer bytes : List Byte}
    (hin : buffer.length = 0 ∨ Range.Proper ⟨hunkbytes, offset, buffer.length⟩)
    (hread : (ByteOp.readBytes offset buffer).result codecs fuel s.1 = some bytes) : bytes =
    slice s.2 offset buffer.length := by
  obtain ⟨chds, row⟩ := s
  obtain ⟨c, ps, rfl, rfl, hsound⟩ := h
  rw [ByteOp.result] at hread
  cases hexec : (ByteOp.readBytes offset buffer).exec codecs fuel (c :: ps) with
  | ok _ s' =>
    simp only [hexec, Option.some.injEq] at hread
    rw [← hread, (hsound.readBytes hin hexec).1]
  | error stop s' =>
    simp only [hexec] at hread
    cases hread

/-- **Failures spare later reads.** After a harmless call that fails, and any later calls that are
harmless and settled with and without it, a read that succeeds gives the same bytes as without the
call, except inside hunks that the call had completely written. -/
theorem failure_spares_reads {c : ChdFile}
    {ps : List ChdFile} {row : ℕ → Byte} (h : Sound codecs c ps row)
    (hcall : call.Harmless codecs fuel (c :: ps, row)) (hfail : call.Fails codecs fuel (c :: ps))
    {later : List BytesCall} (hlater : Run.Meets (step codecs fuel)
      (fun s call ↦ call.Harmless codecs fuel s ∧ call.Settled codecs fuel s)
      (call.step codecs fuel (c :: ps, row)) later) (hlater' :
      Run.Meets (step codecs fuel) (fun s call ↦ call.Harmless codecs fuel s ∧
      call.Settled codecs fuel s) (c :: ps, row) later) {offset : ℕ}
    {buffer bytes bytes' : List Byte} (hin : InHunks c offset buffer.length)
    (hread : (ByteOp.readBytes offset buffer).result codecs fuel (Run.run (step codecs fuel)
      (call.step codecs fuel (c :: ps, row)) later).1 = some bytes)
    (hread' : (ByteOp.readBytes offset buffer).result codecs fuel (Run.run (step codecs fuel)
      (c :: ps, row) later).1 = some bytes') :
    bytes.length = bytes'.length ∧ ∀ i < bytes.length,
      ¬ call.Completed codecs fuel c ps ((offset + i) / c.hunkbytes) → bytes[i]? = bytes'[i]? := by
  have hstate : SoundState codecs c.hunkbytes (c :: ps, row) := ⟨c, ps, rfl, rfl, h⟩
  have hrow : ∀ i, ¬ call.Completed codecs fuel c ps (i / c.hunkbytes) →
      (call.step codecs fuel (c :: ps, row)).2 i = row i := by
    intro i hi
    rw [step]
    cases hexec : call.op.exec codecs fuel (c :: ps) with
    | ok _ s' => simp only [BytesCall.Fails, hexec] at hfail
    | error stop s' =>
      simp only [hexec]
      exact failedStore_of_not_completed hcall.1 hi
  obtain ⟨hend, hend', hagree⟩ := agree_run (hstate.step hcall) hstate hrow hlater hlater'
  have hbytes := hend.result hin hread
  have hbytes' := hend'.result hin hread'
  subst hbytes hbytes'
  refine ⟨by rw [length_slice, length_slice], fun i hi hout ↦ ?_⟩
  rw [length_slice] at hi
  simp only [slice, List.getElem?_map, List.getElem?_range hi, Option.map_some]
  rw [hagree _ hout]

end

/-- A write runs out of the hunks behind the one that it has completely written; another write
follows, and then all is read. -/
theorem failure_spares_reads_created :
    ([3, 0, 5, 6] : List Byte).length = ([3, 0, 0, 0] : List Byte).length ∧
      ∀ i < ([3, 0, 5, 6] : List Byte).length,
      ¬ (BytesCall.write 2 [5, 6, 7, 8]).Completed Codecs.none 1 (.created (fun _ ↦ 0) 4 2 1) []
        ((0 + i) / (ChdFile.created (fun _ ↦ 0) 4 2 1).hunkbytes) →
      ([3, 0, 5, 6] : List Byte)[i]? = ([3, 0, 0, 0] : List Byte)[i]? := by
  have hstore : ByteStore Codecs.none (.created (fun _ ↦ 0) 4 2 1) [] (fun _ ↦ 0) := by
    obtain ⟨c, ps, hs, hstore⟩ : Stands Codecs.none ([.created (fun _ ↦ 0) 4 2 1], fun _ ↦ 0) :=
      byteStore_created_alone (by decide) (by decide) (by decide)
    obtain ⟨rfl, rfl⟩ := List.cons.inj hs
    exact hstore
  have hlater : Run.Meets (step Codecs.none 1)
      (fun s call ↦ call.Harmless Codecs.none 1 s ∧ call.Settled Codecs.none 1 s)
      ((BytesCall.write 2 [5, 6, 7, 8]).step Codecs.none 1 ([.created (fun _ ↦ 0) 4 2 1],
      fun _ ↦ 0)) [.write 0 [3]] := by decide +kernel
  have hlater' : Run.Meets (step Codecs.none 1)
      (fun s call ↦ call.Harmless Codecs.none 1 s ∧ call.Settled Codecs.none 1 s)
      ([.created (fun _ ↦ 0) 4 2 1], fun _ ↦ 0) [.write 0 [3]] := by decide +kernel
  have hread : (ByteOp.readBytes 0 [0, 0, 0, 0]).result Codecs.none 1 (Run.run (step Codecs.none 1)
      ((BytesCall.write 2 [5, 6, 7, 8]).step Codecs.none 1 ([.created (fun _ ↦ 0) 4 2 1],
      fun _ ↦ 0)) [.write 0 [3]]).1 = some [3, 0, 5, 6] := by decide +kernel
  have hread' : (ByteOp.readBytes 0 [0, 0, 0, 0]).result Codecs.none 1 (Run.run (step Codecs.none 1)
      ([.created (fun _ ↦ 0) 4 2 1], fun _ ↦ 0) [.write 0 [3]]).1 =
      some [3, 0, 0, 0] := by decide +kernel
  exact failure_spares_reads (.of_byteStore hstore) (by decide +kernel)
    (by decide +kernel) hlater hlater' (by decide +kernel) hread hread'

/-- A medium that is only read. -/
def CoreFile.readOnly (file : CoreFile) : CoreFile where
  data := file.data
  canRead := file.canRead
  arriving := file.arriving
  canWrite _ _ := false
  le_of_canWrite _ _ := Bool.noConfusion
  canRead_of_canWrite _ _ := Bool.noConfusion

/-- A new file of two hunks, opened to be read. -/
def openedToRead : Except MapStop (List ChdFile) :=
  openCommon ⟨Codecs.none, fun _ _ ↦ none⟩ ⟨false, [], fun _ ↦ []⟩
    (ChdFile.created (fun _ ↦ 0) 4 2 1).file.readOnly

/-- A write to a file that cannot be written fails, and what it would have written is read
afterwards. -/
theorem not_failure_spares_reads :
    ∃ c ps, openedToRead = .ok (c :: ps) ∧
      (BytesCall.write 0 [1]).Fails Codecs.none 1 (c :: ps) ∧
      (∀ hunknum, ¬ (BytesCall.write 0 [1]).Completed Codecs.none 1 c ps hunknum) ∧
      (ByteOp.readBytes 0 [0]).result Codecs.none 1 (c :: ps) = some [0] ∧
      (ByteOp.readBytes 0 [0]).result Codecs.none 1
        ((BytesCall.write 0 [1]).step Codecs.none 1 (c :: ps, fun _ ↦ 0)).1 = some [1] := by
  have hruns : openedToRead.map (fun chds ↦ decide (chds ≠ [] ∧
      (BytesCall.write 0 [1]).Fails Codecs.none 1 chds ∧
      failsAt Codecs.none 1 chds (.write 0 [1]) = some 0 ∧
      (ByteOp.readBytes 0 [0]).result Codecs.none 1 chds = some [0] ∧
      (ByteOp.readBytes 0 [0]).result Codecs.none 1
        ((BytesCall.write 0 [1]).step Codecs.none 1 (chds, fun _ ↦ 0)).1 = some [1])) =
      .ok true := by decide +kernel
  cases hopen : openedToRead with
  | error stop =>
    rw [hopen] at hruns
    cases hruns
  | ok chds =>
    rw [hopen] at hruns
    obtain ⟨hne, hfails, hfirst, hread, hread'⟩ := of_decide_eq_true (Except.ok.inj hruns)
    obtain ⟨c, ps, rfl⟩ := exists_cons_of_ne_nil hne
    refine ⟨c, ps, rfl, hfails, ?_, hread, hread'⟩
    rintro hunknum ⟨k, hk, -, hlt⟩
    obtain rfl := Option.some.inj (hk.symm.trans hfirst)
    exact absurd hlt (Nat.not_lt_zero _)

end RoscoEmulator.Chd
