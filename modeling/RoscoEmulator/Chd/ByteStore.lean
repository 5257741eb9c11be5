import RoscoEmulator.Chd.Store
import RoscoEmulator.Chd.Create
import RoscoEmulator.Lib.GuardedRun

/-!
# A CHD as a store of bytes

What an uncompressed CHD is for: a row of bytes that reads give back and writes change. `ByteStore`
says which row a CHD with its parents stands for. Every access that succeeds keeps it, with the row
that the access makes of it, unless one of two things is missed: a hunk without a place that becomes
all zero stays as it is, and a hunk in the cache that is written with `write_hunk` stays in the
cache as it was. -/

namespace RoscoEmulator.Chd

open List BigEndian Pieces Rows AccessM

/-- All bytes are zero. -/
def AllZero (bytes : List Byte) : Prop := bytes.all (· = 0) = true

instance (bytes : List Byte) : Decidable (AllZero bytes) := inferInstanceAs (Decidable (_ = true))

theorem AllZero.eq {bytes bytes' : List Byte} (h : AllZero bytes) (h' : AllZero bytes')
    (hlen : bytes.length = bytes'.length) : bytes = bytes' := by
  rw [AllZero, all_eq_true] at h h'
  refine ext_getElem hlen fun i hi hi' ↦ ?_
  rw [of_decide_eq_true (h _ (getElem_mem hi)), of_decide_eq_true (h' _ (getElem_mem hi'))]

/-- The bytes of a hunk in a row. -/
def hunkOf (c : ChdFile) (row : ℕ → Byte) (hunknum : ℕ) : List Byte :=
  slice row (hunknum * c.hunkbytes) c.hunkbytes

/-- An uncompressed CHD with its parents whose hunks hold the bytes of a row, and whose cache need
not be right. -/
structure HunkStore (codecs : Codecs) (c : ChdFile) (ps : List ChdFile)
    (row : ℕ → Byte) : Prop where
  raw : c.RawStore
  size : c.logicalbytes ≤ c.hunkcount * c.hunkbytes
  hunkbytes_lt : c.hunkbytes < 2 ^ 32
  parent : ∀ p ∈ ps.head?, p.hunkbytes = c.hunkbytes
  fitting : Fitting codecs ps
  parents : Coherent codecs ps
  cache : c.cache.length = c.hunkbytes
  holds : ∀ n < c.hunkcount, ∀ bytes, Holds codecs (c :: ps) n bytes → bytes = hunkOf c row n

/-- The same with a right cache. -/
structure ByteStore (codecs : Codecs) (c : ChdFile) (ps : List ChdFile) (row : ℕ → Byte) : Prop
    extends HunkStore codecs c ps row where
  cached : c.cachehunk = noHunk ∨ Holds codecs (c :: ps) c.cachehunk c.cache

/-- A CHD that has the sizes of another. -/
structure Alike (c c' : ChdFile) : Prop where
  logicalbytes : c'.logicalbytes = c.logicalbytes
  hunkbytes : c'.hunkbytes = c.hunkbytes
  hunkcount : c'.hunkcount = c.hunkcount
  unitbytes : c'.unitbytes = c.unitbytes

variable {c c' : ChdFile}

theorem Alike.of_bare (h : c.bare = c'.bare) : Alike c c' := by
  have hlogical : c'.bare.logicalbytes = c.bare.logicalbytes := by rw [h]
  have hcount : c'.bare.hunkcount = c.bare.hunkcount := by rw [h]
  exact ⟨hlogical, (hunkbytes_congr h).symm, hcount, (unitbytes_congr h).symm⟩

theorem Alike.trans {c'' : ChdFile} (h : Alike c c') (h' : Alike c' c'') : Alike c c'' :=
  ⟨h'.1.trans h.1, h'.2.trans h.2, h'.3.trans h.3, h'.4.trans h.4⟩

theorem rawEntry_congr (h : c.bare = c'.bare) (n : ℕ) : rawEntry c' n = rawEntry c n := by
  show rawEntry c'.bare n = rawEntry c.bare n
  rw [h]

section

variable {codecs : Codecs} {c c' : ChdFile} {ps ps' : List ChdFile} {row : ℕ → Byte} {n : ℕ}
  {buffer : List Byte}

theorem HunkStore.fitting' (h : HunkStore codecs c ps row) : Fitting codecs (c :: ps) :=
  ⟨h.raw.fits h.parent, h.fitting⟩

theorem ByteStore.coherent (h : ByteStore codecs c ps row) : Coherent codecs (c :: ps) :=
  ⟨h.cached, h.cache, h.parents⟩

/-- The row of a CHD does not depend on caches. -/
theorem HunkStore.of_same (h : HunkStore codecs c ps row) (hc : c.bare = c'.bare)
    (hps : Same ps ps') (hco : Coherent codecs (c' :: ps')) : ByteStore codecs c' ps' row := by
  have halike := Alike.of_bare hc
  refine ⟨⟨h.raw.of_bare hc, ?_, halike.hunkbytes ▸ h.hunkbytes_lt, fun p' hp' ↦ ?_,
    h.fitting.of_same hps, hco.2.2, hco.2.1, fun n hn bytes hholds ↦ ?_⟩, hco.1⟩
  · rw [halike.logicalbytes, halike.hunkcount, halike.hunkbytes]
    exact h.size
  · cases ps' with
    | nil => cases hp'
    | cons q' qs' =>
      obtain rfl : q' = p' := by simpa using hp'
      obtain ⟨q, qs, rfl, hq, -⟩ := hps.symm.eq_cons
      rw [hunkbytes_congr hq, halike.hunkbytes]
      exact h.parent q rfl
  · rw [hunkOf, halike.hunkbytes]
    exact h.holds n (halike.hunkcount ▸ hn) bytes (hholds.of_same (Same.cons hc hps).symm)

theorem hunkOf_store_self (hlen : buffer.length = c.hunkbytes) :
    hunkOf c (store row (n * c.hunkbytes) buffer) n = buffer := by
  have hself : slice (store row (n * c.hunkbytes) buffer) _ buffer.length = buffer :=
    slice_store_self
  rwa [hlen] at hself

/-- Hunks lie apart from each other. -/
theorem hunkOf_store_of_ne {m : ℕ} (hlen : buffer.length = c.hunkbytes) (hne : m ≠ n) :
    hunkOf c (store row (n * c.hunkbytes) buffer) m = hunkOf c row m := by
  refine slice_store_of_disjoint ?_
  rw [hlen, ← Nat.succ_mul, ← Nat.succ_mul]
  rcases Nat.lt_or_gt_of_ne hne with hlt | hlt
  · exact .inl (Nat.mul_le_mul_right _ hlt)
  · exact .inr (Nat.mul_le_mul_right _ hlt)

/-- A CHD with other bytes in one hunk. -/
structure Rewritten (codecs : Codecs) (c c' : ChdFile) (ps : List ChdFile) (n : ℕ)
    (buffer : List Byte) : Prop where
  raw : c'.RawStore
  alike : Alike c c'
  entry : ∀ m < c.hunkcount, m ≠ n → rawEntry c' m = rawEntry c m
  others : ∀ m bytes, m ≠ n → (Holds codecs (c' :: ps) m bytes ↔ Holds codecs (c :: ps) m bytes)
  self : ∀ bytes, Holds codecs (c' :: ps) n bytes → bytes = buffer
  there : (∃ bytes, Holds codecs (c :: ps) n bytes) → Holds codecs (c' :: ps) n buffer

theorem Rewritten.of_bare (h : Rewritten codecs c c' ps n buffer) {c'' : ChdFile}
    (hbare : c'.bare = c''.bare) : Rewritten codecs c c'' ps n buffer := by
  have hsame : Same (c' :: ps) (c'' :: ps) := Same.cons hbare (.refl ps)
  refine ⟨h.raw.of_bare hbare, h.alike.trans (.of_bare hbare), fun m hm hne ↦ ?_,
    fun m bytes hne ↦ ?_,
    fun bytes hb ↦ ?_, fun hex ↦ (h.there hex).of_same hsame⟩
  · rw [rawEntry_congr hbare, h.entry m hm hne]
  · rw [← hsame.holds_iff, h.others m bytes hne]
  · exact h.self bytes (hsame.holds_iff.mpr hb)

/-- The row gets the other bytes too. -/
theorem HunkStore.rewritten (h : HunkStore codecs c ps row) (hr : Rewritten codecs c c' ps n buffer)
    (hlen : buffer.length = c.hunkbytes) (hcache : c'.cache.length = c.hunkbytes) :
    HunkStore codecs c' ps (store row (n * c.hunkbytes) buffer) := by
  refine ⟨hr.raw, ?_, hr.alike.hunkbytes ▸ h.hunkbytes_lt, fun p hp ↦ ?_, h.fitting, h.parents,
    hr.alike.hunkbytes ▸ hcache, fun m hm bytes hb ↦ ?_⟩
  · rw [hr.alike.logicalbytes, hr.alike.hunkcount, hr.alike.hunkbytes]
    exact h.size
  · rw [hr.alike.hunkbytes, h.parent p hp]
  · rw [hunkOf, hr.alike.hunkbytes, ← hunkOf]
    by_cases heq : m = n
    · subst heq
      rw [hunkOf_store_self hlen, hr.self bytes hb]
    · rw [hunkOf_store_of_ne hlen heq]
      exact h.holds m (hr.alike.hunkcount ▸ hm) bytes ((hr.others m bytes heq).mp hb)

/-- **Writing a hunk.** A write that succeeds leaves the hunk with other bytes, unless a hunk
without a place becomes all zero; and the cache with them only if the hunk gets a place. -/
theorem HunkStore.rewritten_writeHunk (h : HunkStore codecs c ps row) {fromCache : Bool}
    (hn : n < c.hunkcount) (hlen : buffer.length = c.hunkbytes)
    (hzero : rawEntry c n = 0 → AllZero buffer → hunkOf c row n = buffer)
    (hok : writeHunk n buffer fromCache c = .ok () c') :
    Rewritten codecs c c' ps n buffer ∧ c'.cachehunk = c.cachehunk ∧
      c'.cache = if (n = c.cachehunk ∧ ¬ fromCache) ∧ rawEntry c n = 0 ∧ ¬ AllZero buffer
        then buffer else c.cache := by
  rcases h.raw.writeHunk_ok hn hok with ⟨hplace, hcan, rfl⟩ | ⟨hplace, hall, rfl⟩ |
      ⟨hplace, hall, hcan, hc'⟩
  · obtain ⟨hself, hothers⟩ := h.raw.holds_overwritten codecs ps hn hplace hlen hcan
    rw [if_neg fun hnone ↦ hplace hnone.2.1]
    exact ⟨⟨h.raw.overwritten hn hplace hlen, ⟨rfl, rfl, rfl, rfl⟩, fun m _ _ ↦ rfl, hothers,
      fun bytes hb ↦ hb.unique hself, fun _ ↦ hself⟩, rfl, rfl⟩
  · have hsame := hzero hplace hall
    rw [if_neg fun hnone ↦ hnone.2.2 hall]
    refine ⟨⟨h.raw, ⟨rfl, rfl, rfl, rfl⟩, fun m _ _ ↦ rfl, fun m bytes _ ↦ Iff.rfl,
      fun bytes hb ↦ ?_,
      fun ⟨bytes, hb⟩ ↦ ?_⟩, rfl, rfl⟩
    · rw [h.holds n hn bytes hb, hsame]
    · rw [← hsame, ← h.holds n hn bytes hb]
      exact hb
  · obtain ⟨hself, hothers⟩ := h.raw.holds_appended codecs ps hn hplace hlen hcan
    have hr : Rewritten codecs c (c.appended n buffer) ps n buffer :=
      ⟨h.raw.appended hn hplace hlen, ⟨rfl, rfl, rfl, rfl⟩, fun m hm hne ↦
        (h.raw.rawEntry_withHunk hn hplace buffer m hm).trans (if_neg hne), hothers,
        fun bytes hb ↦ hb.unique hself, fun _ ↦ hself⟩
    subst hc'
    by_cases hcached : n = c.cachehunk ∧ ¬ fromCache
    · rw [if_pos hcached, if_pos ⟨hcached, hplace, hall⟩]
      exact ⟨hr.of_bare rfl, rfl, rfl⟩
    · rw [if_neg hcached, if_neg fun hnone ↦ hcached hnone.1]
      exact ⟨hr, rfl, rfl⟩

theorem HunkStore.byteStore_rewritten (h : HunkStore codecs c ps row)
    (hr : Rewritten codecs c c' ps n buffer)
    (hlen : buffer.length = c.hunkbytes) (hcachehunk : c'.cachehunk = c.cachehunk)
    (hself : n = c.cachehunk → (∃ bytes, Holds codecs (c :: ps) n bytes) ∧ c'.cache = buffer)
    (hother : n ≠ c.cachehunk → c'.cache = c.cache ∧
      (c.cachehunk = noHunk ∨ Holds codecs (c :: ps) c.cachehunk c.cache)) :
    ByteStore codecs c' ps (store row (n * c.hunkbytes) buffer) := by
  by_cases heq : n = c.cachehunk
  · obtain ⟨hex, hcache⟩ := hself heq
    refine ⟨h.rewritten hr hlen (by rw [hcache, hlen]), .inr ?_⟩
    rw [hcachehunk, ← heq, hcache]
    exact hr.there hex
  · obtain ⟨hcache, hright⟩ := hother heq
    refine ⟨h.rewritten hr hlen (by rw [hcache, h.cache]), ?_⟩
    rw [hcachehunk, hcache]
    exact hright.imp_right fun hb ↦ (hr.others _ _ (Ne.symm heq)).mpr hb

theorem onCurrent_eq {α : Type} (x : ChdM α) (dest : List Byte) :
    onCurrent x ⟨dest, c :: ps⟩ =
      match x c with
      | .ok a c' => .ok a ⟨dest, c' :: ps⟩
      | .error stop c' => .error stop ⟨dest, c' :: ps⟩ := rfl

theorem onCurrent_eq_ok {α : Type} {x : ChdM α} {dest : List Byte} {a : α} {s' : Access} :
    onCurrent x ⟨dest, c :: ps⟩ = .ok a s' ↔ ∃ c', x c = .ok a c' ∧ s' = ⟨dest, c' :: ps⟩ := by
  rw [onCurrent_eq]
  cases x c with
  | ok b c' =>
    constructor
    · intro h
      cases h
      exact ⟨c', rfl, rfl⟩
    · rintro ⟨c'', h, rfl⟩
      cases h
      rfl
  | error stop c' =>
    constructor
    · intro h
      cases h
    · rintro ⟨_, h, -⟩
      cases h

variable {fuel : ℕ} {dest : List Byte} {s' : Access}

variable {r : Range} {offset count k : ℕ}

theorem ByteStore.fillCache (h : ByteStore codecs c ps row) (hk : k ≠ noHunk)
    (hok : fillCache (readHunk codecs fuel) k ⟨dest, c :: ps⟩ = .ok () s') : ∃ c' ps',
    s' = ⟨dest, c' :: ps'⟩ ∧ ByteStore codecs c' ps' row ∧ c'.bare = c.bare ∧ Same ps' ps ∧
      c'.cachehunk = k ∧ Holds codecs (c' :: ps') k c'.cache := by
  rcases (reads_readHunk codecs fuel).fillCache dest h.fitting' h.coherent hk with
      ⟨c', ps', hok', hbare, hsame, hco, hcachehunk, hholds⟩ | ⟨stop, s'', herror, -⟩
  · obtain ⟨-, rfl⟩ := EStateM.Result.ok.inj (hok'.symm.trans hok)
    refine ⟨c', ps', rfl, h.toHunkStore.of_same hbare.symm hsame.symm hco, hbare, hsame,
      hcachehunk, ?_⟩
    exact hholds.of_same (Same.cons hbare.symm hsame.symm)
  · rw [herror] at hok
    cases hok

theorem ByteStore.writeDirect (h : ByteStore codecs c ps row) (hn : n < c.hunkcount)
    (hlen : buffer.length = c.hunkbytes)
    (hzero : rawEntry c n = 0 → AllZero buffer → AllZero (hunkOf c row n))
    (hcached : n = c.cachehunk → rawEntry c n ≠ 0 → c.cache = buffer)
    (hok : writeHunk n buffer false c = .ok () c') :
    ByteStore codecs c' ps (store row (n * c.hunkbytes) buffer) ∧ Alike c c' ∧
      ∀ m < c.hunkcount, m ≠ n → rawEntry c' m = rawEntry c m := by
  have hzero' : rawEntry c n = 0 → AllZero buffer → hunkOf c row n = buffer := fun hplace hall ↦
    (hzero hplace hall).eq hall (by rw [hlen, hunkOf, length_slice])
  obtain ⟨hrew, hcachehunk, hcache⟩ := h.toHunkStore.rewritten_writeHunk hn hlen hzero' hok
  refine ⟨h.toHunkStore.byteStore_rewritten hrew hlen hcachehunk (fun heq ↦ ?_) fun hne ↦ ?_,
    hrew.alike, hrew.entry⟩
  · have hlt := h.raw.hunkcount_lt
    have hholds : Holds codecs (c :: ps) n c.cache := by
      refine heq ▸ h.cached.resolve_left fun hnone ↦ ?_
      rw [noHunk] at hnone
      omega
    refine ⟨⟨_, hholds⟩, ?_⟩
    rw [hcache]
    by_cases hplaced : (n = c.cachehunk ∧ ¬ false = true) ∧ rawEntry c n = 0 ∧ ¬ AllZero buffer
    · exact if_pos hplaced
    · rw [if_neg hplaced]
      by_cases hplace : rawEntry c n = 0
      · have hall : AllZero buffer := not_not.mp fun hall ↦
          hplaced ⟨⟨heq, Bool.false_ne_true⟩, hplace, hall⟩
        rw [h.holds n hn _ hholds, hzero' hplace hall]
      · exact hcached heq hplace
  · rw [if_neg fun hplaced ↦ hne hplaced.1.1] at hcache
    exact ⟨hcache, h.cached⟩

theorem ByteStore.writeCached (h : ByteStore codecs c ps row) (hn : c.cachehunk < c.hunkcount)
    (hholds : Holds codecs (c :: ps) c.cachehunk c.cache) {start : ℕ} {l new : List Byte}
    (hstart : start + l.length ≤ c.hunkbytes) (hnew : new = putPart c.cache start l)
    (hzero : rawEntry c c.cachehunk = 0 →
      AllZero (hunkOf c (store row (c.cachehunk * c.hunkbytes + start) l) c.cachehunk) →
      AllZero (hunkOf c row c.cachehunk)) (hok :
      writeHunk c.cachehunk new true { c with cache := new } = .ok () c') :
    ByteStore codecs c' ps (store row (c.cachehunk * c.hunkbytes + start) l) ∧ Alike c c' ∧
      ∀ m < c.hunkcount, m ≠ c.cachehunk → rawEntry c' m = rawEntry c m := by
  have hcontent : c.cache = slice row (c.cachehunk * c.hunkbytes) c.hunkbytes :=
    h.holds _ hn _ hholds
  have hlen : new.length = c.hunkbytes := by
    rw [hnew, length_putPart, h.cache]
    rw [h.cache]
    exact hstart
  have hrow : store row (c.cachehunk * c.hunkbytes) new =
      store row (c.cachehunk * c.hunkbytes + start) l := by
    rw [hnew, hcontent, store_putPart_slice hstart]
  rw [← hrow] at hzero ⊢
  rw [hunkOf_store_self hlen] at hzero
  have hstore : HunkStore codecs { c with cache := new } ps row := by
    refine ⟨h.raw.of_bare rfl, h.size, h.hunkbytes_lt, h.parent, h.fitting, h.parents, hlen, ?_⟩
    exact fun n hn bytes hb ↦ h.holds n hn bytes (hb.of_same (Same.cons rfl (.refl ps)))
  obtain ⟨hrew, hcachehunk, hcache⟩ := hstore.rewritten_writeHunk hn hlen
    (fun hplace hall ↦ (hzero hplace hall).eq hall (by rw [hlen, hunkOf, length_slice])) hok
  rw [if_neg fun hcached ↦ hcached.1.2 rfl] at hcache
  refine ⟨hstore.byteStore_rewritten hrew hlen hcachehunk (fun _ ↦ ?_) fun hne ↦ absurd rfl hne,
    ⟨hrew.alike.1, hrew.alike.2, hrew.alike.3, hrew.alike.4⟩, hrew.entry⟩
  exact ⟨⟨_, hholds.of_same (Same.cons rfl (.refl ps))⟩, hcache⟩

theorem writable_of_writeHunk
    {fromCache : Bool} (hok : writeHunk n buffer fromCache c = .ok () c') :
    n < c.hunkcount ∧ c.allowWrites = true ∧ c.compressed = false := by
  rw [writeHunk, Chd.get_bind] at hok
  by_cases hn : c.hunkcount ≤ n
  · rw [if_pos hn] at hok
    cases hok
  by_cases hwrites : c.allowWrites = true
  swap
  · rw [if_neg hn, if_pos hwrites] at hok
    cases hok
  by_cases hcompressed : c.compressed = true
  · rw [if_neg hn, if_neg (not_not_intro hwrites), if_pos hcompressed] at hok
    cases hok
  · exact ⟨Nat.lt_of_not_le hn, hwrites, Bool.eq_false_of_not_eq_true hcompressed⟩

theorem writable_of_writeRound (hfit : Fitting codecs (c :: ps))
    (hco : Coherent codecs (c :: ps)) {pos : ℕ} (hk : k ≠ noHunk)
    (hok : writeRound (readHunk codecs fuel) buffer r k pos ⟨dest, c :: ps⟩ = .ok () s') :
    k < c.hunkcount ∧ c.allowWrites = true ∧ c.compressed = false := by
  rw [Chd.writeRound, current_bind] at hok
  by_cases hwhole : r.Whole k ∧ k ≠ c.cachehunk
  · rw [if_pos hwhole] at hok
    obtain ⟨c', hwrite, -⟩ := onCurrent_eq_ok.mp hok
    exact writable_of_writeHunk hwrite
  · rw [if_neg hwhole] at hok
    obtain ⟨_, s₁, hfill, hok⟩ := bind_eq_ok.mp hok
    rcases (reads_readHunk codecs fuel).fillCache dest hfit hco hk with
        ⟨c₁, ps₁, hfill', hbare, -⟩ | ⟨stop, s₂, herror, -⟩
    · obtain ⟨-, rfl⟩ := EStateM.Result.ok.inj (hfill'.symm.trans hfill)
      obtain ⟨_, s₂, hmodify, hok⟩ := bind_eq_ok.mp hok
      obtain ⟨c₂, hc₂, rfl⟩ := onCurrent_eq_ok.mp hmodify
      obtain rfl := (EStateM.Result.ok.inj hc₂).2
      rw [current_bind] at hok
      obtain ⟨c', hwrite, -⟩ := onCurrent_eq_ok.mp hok
      obtain ⟨hcount, hwrites, hcompressed⟩ := writable_of_writeHunk hwrite
      have hwritable : k < c₁.bare.hunkcount ∧ c₁.bare.allowWrites = true ∧
          c₁.bare.compressed = false :=
        ⟨hcount, hwrites, hcompressed⟩
      rw [hbare] at hwritable
      exact hwritable
    · rw [herror] at hfill
      cases hfill

/-- **A round of `write_bytes`.** The row gets the bytes of the hunk. -/
theorem ByteStore.writeRound (h : ByteStore codecs c ps row) (hr : r.Proper)
    (hsize : r.hunkbytes = c.hunkbytes) (hfirst : r.first ≤ k) (hlast : k ≤ r.last)
    (hlen : buffer.length = r.bytes) (hzero : k < c.hunkcount → rawEntry c k = 0 →
      AllZero (hunkOf c (store row (r.offset + r.pos k) (part buffer (r.pos k) (r.count k))) k) →
      AllZero (hunkOf c row k))
    (hok : writeRound (readHunk codecs fuel) buffer r k (r.pos k) ⟨dest, c :: ps⟩ = .ok () s') :
    ∃ c' ps', s' = ⟨dest, c' :: ps'⟩ ∧
      ByteStore codecs c' ps' (store row (r.offset + r.pos k) (part buffer (r.pos k) (r.count k))) ∧
      Alike c c' ∧ ∀ m < c.hunkcount, m ≠ k → rawEntry c' m = rawEntry c m := by
  have hlt := hr.last_lt
  have hnone : k ≠ noHunk := by
    rw [noHunk]
    omega
  have hk := (writable_of_writeRound h.fitting' h.coherent hnone hok).1
  replace hzero := hzero hk
  have hinside := hr.pos_add_count_le hfirst hlast
  have hstart := hr.startoffs_add_count_le k
  have hpart : (part buffer (r.pos k) (r.count k)).length = r.count k := length_part (by omega)
  rw [hr.offset_add_pos hfirst, hsize] at hzero ⊢
  rw [Chd.writeRound, current_bind] at hok
  by_cases hwhole : r.Whole k ∧ k ≠ c.cachehunk
  · -- the hunk goes right into the file
    have hcount : r.count k = c.hunkbytes := by
      have hpos := hr.hunkbytes_pos
      rw [Range.count, hwhole.1.1, hwhole.1.2]
      omega
    rw [hwhole.1.1, Nat.add_zero] at hzero ⊢
    rw [hcount] at hpart hzero ⊢
    rw [if_pos hwhole, hsize] at hok
    obtain ⟨c', hwrite, rfl⟩ := onCurrent_eq_ok.mp hok
    rw [hunkOf_store_self hpart] at hzero
    exact ⟨c', ps, rfl, h.writeDirect hk hpart hzero (fun heq ↦ absurd heq hwhole.2) hwrite⟩
  · rw [if_neg hwhole] at hok
    obtain ⟨_, s₁, hfill, hok⟩ := bind_eq_ok.mp hok
    obtain ⟨c₁, ps₁, rfl, h₁, hbare, -, rfl, hholds⟩ := h.fillCache hnone hfill
    have halike : Alike c c₁ := .of_bare hbare.symm
    obtain ⟨_, s₂, hmodify, hok⟩ := bind_eq_ok.mp hok
    obtain ⟨c₂, hc₂, rfl⟩ := onCurrent_eq_ok.mp hmodify
    obtain rfl := (EStateM.Result.ok.inj hc₂).2
    rw [current_bind] at hok
    obtain ⟨c', hwrite, rfl⟩ := onCurrent_eq_ok.mp hok
    rw [hsize, ← halike.hunkbytes, ← hpart] at hstart
    have hzero' : rawEntry c₁ c₁.cachehunk = 0 →
        AllZero (hunkOf c₁ (store row (c₁.cachehunk * c₁.hunkbytes + r.startoffs c₁.cachehunk)
          (part buffer (r.pos c₁.cachehunk) (r.count c₁.cachehunk))) c₁.cachehunk) →
        AllZero (hunkOf c₁ row c₁.cachehunk) := by
      rw [hunkOf, hunkOf, halike.hunkbytes, rawEntry_congr hbare.symm]
      exact hzero
    obtain ⟨hstore, halike', hentry⟩ :=
      h₁.writeCached (halike.hunkcount ▸ hk) hholds hstart rfl hzero' hwrite
    rw [halike.hunkbytes] at hstore
    refine ⟨c', ps₁, rfl, hstore, halike.trans halike', fun m hm hne ↦ ?_⟩
    rw [hentry m (halike.hunkcount ▸ hm) hne]
    exact rawEntry_congr hbare.symm m

/-- What was written in front of a hunk. -/
structure WrittenSoFar (codecs : Codecs) (c : ChdFile) (row : ℕ → Byte) (r : Range)
    (buffer : List Byte) (k : ℕ) (s : Access) : Prop where
  store : ∃ c' ps', s.chds = c' :: ps' ∧ Alike c c' ∧
    (∀ m < c.hunkcount, k ≤ m → rawEntry c' m = rawEntry c m) ∧
    ∀ n, (k ≤ r.last → n = r.pos k) → (r.last < k → n = r.bytes) →
      ByteStore codecs c' ps' (Rows.store row r.offset (buffer.take n))

theorem Range.Proper.next_eq (hr : r.Proper) {n : ℕ} (hfirst : r.first ≤ k) (hlast : k ≤ r.last)
    (hn : k + 1 ≤ r.last → n = r.pos (k + 1)) (hn' : r.last < k + 1 → n = r.bytes) :
    n = r.pos k + r.count k := by
  rcases Nat.lt_or_ge r.last (k + 1) with hend | hmore
  · obtain rfl : k = r.last := by omega
    rw [hn' hend, hr.pos_add_count_last]
  · rw [hn hmore, hr.pos_add_count hfirst (by omega)]

/-- Up to the end of a hunk, what is stored behind it does not matter. -/
theorem hunkOf_store_take (hr : r.Proper) (hsize : r.hunkbytes = c.hunkbytes) (hfirst : r.first ≤ k)
    (hlast : k ≤ r.last) (hlen : buffer.length = r.bytes) :
    hunkOf c (Rows.store row r.offset (buffer.take (r.pos k + r.count k))) k =
      hunkOf c (Rows.store row r.offset buffer) k := by
  rcases Nat.lt_or_ge k r.last with hlt | hge
  · refine slice_store_take ?_
    have hpos := hr.offset_add_pos (show r.first ≤ k + 1 by omega)
    rw [hr.pos_add_count hfirst hlt, hpos, hsize, Nat.succ_mul]
    omega
  · obtain rfl : k = r.last := by omega
    rw [hr.pos_add_count_last, ← hlen, take_length]

theorem hunkOf_store_front (hr : r.Proper)
    (hsize : r.hunkbytes = c.hunkbytes) (hfirst : r.first ≤ k) :
    hunkOf c (Rows.store row r.offset (buffer.take (r.pos k))) k = hunkOf c row k := by
  rcases Nat.lt_or_ge r.first k with hlt | hge
  · refine slice_store_of_disjoint (.inr ?_)
    have hpos := hr.offset_add_pos hfirst
    rw [Range.startoffs, if_neg (by omega), hsize] at hpos
    rw [length_take]
    omega
  · obtain rfl : k = r.first := by omega
    rw [hr.pos_first, take_zero, store_nil]

theorem WrittenSoFar.step (hr : r.Proper) (hsize : r.hunkbytes = c.hunkbytes) {s : Access}
    (h : WrittenSoFar codecs c row r buffer k s) (hfirst : r.first ≤ k) (hlast : k ≤ r.last)
    (hlen : buffer.length = r.bytes) (hzero : k < c.hunkcount → rawEntry c k = 0 →
    AllZero (hunkOf c (Rows.store row r.offset buffer) k) →
      AllZero (hunkOf c row k)) (hok :
      Chd.writeRound (readHunk codecs fuel) buffer r k (r.pos k) s = .ok () s') :
    WrittenSoFar codecs c row r buffer (k + 1) s' := by
  obtain ⟨c₁, ps₁, hchds, halike, hentry, hstore⟩ := h.store
  obtain ⟨dest, chds⟩ := s
  obtain rfl : chds = c₁ :: ps₁ := hchds
  have hinside := hr.pos_add_count_le hfirst hlast
  have htake : (buffer.take (r.pos k)).length = r.pos k := by
    rw [length_take]
    omega
  have hsum : Rows.store (Rows.store row r.offset (buffer.take (r.pos k))) (r.offset + r.pos k)
      (part buffer (r.pos k) (r.count k)) =
      Rows.store row r.offset (buffer.take (r.pos k + r.count k)) := by
    have hboth : Rows.store (Rows.store row r.offset (buffer.take (r.pos k)))
        (r.offset + (buffer.take (r.pos k)).length) (part buffer (r.pos k) (r.count k)) = _ :=
      store_store _
    rw [htake] at hboth
    rw [hboth, part, take_add]
  have hhunk : ∀ row', hunkOf c₁ row' k = hunkOf c row' k := fun row' ↦ by
    rw [hunkOf, hunkOf, halike.hunkbytes]
  obtain ⟨c', ps', rfl, hstore', halike', hentry'⟩ :=
    (hstore (r.pos k) (fun _ ↦ rfl) (by omega)).writeRound hr
      (hsize.trans halike.hunkbytes.symm) hfirst hlast hlen (fun hk ↦ by
        rw [halike.hunkcount] at hk
        rw [hsum, hhunk, hhunk, hentry k hk (Nat.le_refl k),
          hunkOf_store_take hr hsize hfirst hlast hlen, hunkOf_store_front hr hsize hfirst]
        exact hzero hk) hok
  refine ⟨c', ps', rfl, halike.trans halike', fun m hm hkm ↦ ?_, fun n hn hn' ↦ ?_⟩
  · rw [hentry' m (halike.hunkcount ▸ hm) (by omega), hentry m hm (by omega)]
  · rw [hr.next_eq hfirst hlast hn hn', ← hsum]
    exact hstore'

/-- The bytes lie in hunks that have a number. -/
def InHunks (c : ChdFile) (offset count : ℕ) : Prop :=
  count = 0 ∨ Range.Proper ⟨c.hunkbytes, offset, count⟩

instance (c : ChdFile) (offset count : ℕ) : Decidable (InHunks c offset count) :=
  inferInstanceAs (Decidable (_ ∨ _))

/-- A range within the logical size is in the hunks. -/
theorem HunkStore.inHunks (h : HunkStore codecs c ps row)
    (hinside : offset + count ≤ c.logicalbytes) : InHunks c offset count := by
  have hsize := h.size
  have hcount := h.raw.hunkcount_lt
  have hlt := h.hunkbytes_lt
  have hbytes := h.raw.hunkbytes_pos
  have hmax' : c.hunkcount * c.hunkbytes ≤ c.hunkbytes * (2 ^ 32 - 1) := by
    rw [Nat.mul_comm c.hunkcount]
    exact Nat.mul_le_mul_left _ (by omega)
  have hin : offset + count ≤ c.hunkbytes * (2 ^ 32 - 1) := by omega
  rcases Nat.eq_zero_or_pos count with hzero | hpos
  · exact .inl hzero
  · exact .inr ⟨hbytes, hpos, hin, show offset + count ≤ 2 ^ 64 by omega⟩

/-- **Writing bytes.** A `write_bytes` that succeeds puts the bytes in the row. -/
theorem ByteStore.writeBytes (h : ByteStore codecs c ps row) (hin : InHunks c offset buffer.length)
    (hzero : ∀ k < c.hunkcount, rawEntry c k = 0 → AllZero (hunkOf c (store row offset buffer) k) →
      AllZero (hunkOf c row k)) (hok :
      writeBytes codecs fuel offset buffer ⟨dest, c :: ps⟩ = .ok () s') :
    ∃ c' ps', s'.chds = c' :: ps' ∧ Alike c c' ∧
    ByteStore codecs c' ps' (store row offset buffer) := by
  rw [Chd.writeBytes] at hok
  rcases hin with hnil | hr
  · rw [overHunks, if_pos hnil] at hok
    obtain rfl := (EStateM.Result.ok.inj hok).2
    rw [eq_nil_of_length_eq_zero hnil, store_nil]
    exact ⟨c, ps, rfl, ⟨rfl, rfl, rfl, rfl⟩, h⟩
  have hstart : WrittenSoFar codecs c row ⟨c.hunkbytes, offset, buffer.length⟩ buffer
      (Range.first ⟨c.hunkbytes, offset, buffer.length⟩) ⟨dest, c :: ps⟩ := by
    refine ⟨c, ps, rfl, ⟨rfl, rfl, rfl, rfl⟩, fun m _ _ ↦ rfl, fun n hn _ ↦ ?_⟩
    rw [hn hr.first_le_last, hr.pos_first, take_zero, store_nil]
    exact h
  rcases overHunks_rule hr (fun k s s' hfirst hlast' hs hround ↦
      hs.step hr rfl hfirst hlast' rfl (hzero k) hround) hstart with
      ⟨s'', hok', hs⟩ | ⟨stop, s'', herror, -⟩
  · obtain ⟨-, rfl⟩ := EStateM.Result.ok.inj (hok'.symm.trans hok)
    obtain ⟨c', ps', hchds, halike, -, hstore⟩ := hs.store
    have hall := hstore buffer.length (fun hle ↦ absurd hle (by omega)) fun _ ↦ rfl
    rw [take_length] at hall
    exact ⟨c', ps', hchds, halike, hall⟩
  · rw [herror] at hok
    cases hok

/-- **Reading bytes.** If hunks hold the bytes of a row, a `read_bytes` that succeeds gives
those. -/
theorem readBytes_slice (hfit : Fitting codecs (c :: ps)) (hco : Coherent codecs (c :: ps))
    (hholds : ∀ n bytes, Holds codecs (c :: ps) n bytes → bytes = hunkOf c row n)
    (hin : InHunks c offset count) (hdest : dest.length = count)
    (hok : readBytes codecs fuel offset count ⟨dest, c :: ps⟩ = .ok () s') :
    s'.dest = slice row offset count ∧ Same (c :: ps) s'.chds ∧ Coherent codecs s'.chds := by
  rw [Chd.readBytes] at hok
  rcases hin with rfl | hr
  · rw [readBytesWith, overHunks, if_pos rfl] at hok
    obtain rfl := (EStateM.Result.ok.inj hok).2
    exact ⟨eq_nil_of_length_eq_zero hdest, .refl _, hco⟩
  rcases (reads_readHunk codecs fuel).readBytesWith dest hfit hco hr hdest with
      ⟨s'', hok', hsame, hco', hheld, hread⟩ | ⟨stop, s'', herror, -⟩
  · obtain ⟨-, rfl⟩ := EStateM.Result.ok.inj (hok'.symm.trans hok)
    refine ⟨?_, hsame.symm, hco'⟩
    rw [hread, window_congr_of_proper hr fun k hk hk' ↦ hholds k _ (hheld k hk hk')]
    exact window_slice hr.hunkbytes_pos 0
  · rw [herror] at hok
    cases hok

theorem ByteStore.of_kept (h : ByteStore codecs c ps row) {chds : List ChdFile}
    (hsame : Same (c :: ps) chds) (hco : Coherent codecs chds) :
    ∃ c' ps', chds = c' :: ps' ∧ Alike c c' ∧ ByteStore codecs c' ps' row := by
  obtain ⟨c', ps', rfl, hc, hps⟩ := hsame.eq_cons
  exact ⟨c', ps', rfl, .of_bare hc, h.toHunkStore.of_same hc hps hco⟩

theorem ByteStore.readBytes (h : ByteStore codecs c ps row)
    (hinside : offset + count ≤ c.logicalbytes) (hdest : dest.length = count)
    (hok : readBytes codecs fuel offset count ⟨dest, c :: ps⟩ = .ok () s') :
    s'.dest = slice row offset count ∧
      ∃ c' ps', s'.chds = c' :: ps' ∧ Alike c c' ∧ ByteStore codecs c' ps' row := by
  obtain ⟨hread, hsame, hco⟩ := readBytes_slice h.fitting' h.coherent
    (fun n bytes hb ↦ h.holds n hb.lt bytes hb) (h.toHunkStore.inHunks hinside) hdest hok
  exact ⟨hread, h.of_kept hsame hco⟩

/-- **Reading a hunk.** A `read_hunk` that succeeds gives the hunk of the row. -/
theorem ByteStore.readHunk (h : ByteStore codecs c ps row) (hn : n < c.hunkcount)
    (hdest : dest.length = c.hunkbytes) (hok : readHunk codecs fuel n ⟨dest, c :: ps⟩ = .ok () s') :
    s'.dest = hunkOf c row n ∧
      ∃ c' ps', s'.chds = c' :: ps' ∧ Alike c c' ∧ ByteStore codecs c' ps' row := by
  have hlen : ∀ d ∈ (c :: ps).head?, dest.length = d.hunkbytes := by
    intro d hd
    obtain rfl : c = d := by simpa using hd
    exact hdest
  rcases reads_readHunk codecs fuel n ⟨dest, c :: ps⟩ h.fitting' h.coherent hlen with
      ⟨s'', hok', hkept, hco, hholds⟩ | ⟨stop, s'', herror, -⟩
  · obtain ⟨-, rfl⟩ := EStateM.Result.ok.inj (hok'.symm.trans hok)
    exact ⟨h.holds n hn _ hholds, h.of_kept hkept.same.symm hco⟩
  · rw [herror] at hok
    cases hok

end

/-! ## Runs -/

/-- A call. A call that reads comes with the buffer that it fills. -/
inductive ByteOp
  | readHunk (hunknum : ℕ) (buffer : List Byte)
  | readBytes (offset : ℕ) (buffer : List Byte)
  | readUnits (unitnum count : ℕ) (buffer : List Byte)
  | writeHunk (hunknum : ℕ) (buffer : List Byte)
  | writeBytes (offset : ℕ) (buffer : List Byte)
  | writeUnits (unitnum count : ℕ) (buffer : List Byte)
deriving DecidableEq, Repr

namespace ByteOp

/-- The call on a CHD with its parents. -/
def exec (codecs : Codecs) (fuel : ℕ) (chds : List ChdFile) :
    ByteOp → EStateM.Result Stop Access Unit
  | readHunk hunknum buffer => Chd.readHunk codecs fuel hunknum ⟨buffer, chds⟩
  | readBytes offset buffer => Chd.readBytes codecs fuel offset buffer.length ⟨buffer, chds⟩
  | readUnits unitnum count buffer => Chd.readUnits codecs fuel unitnum count ⟨buffer, chds⟩
  | writeHunk hunknum buffer => onCurrent (Chd.writeHunk hunknum buffer false) ⟨[], chds⟩
  | writeBytes offset buffer => Chd.writeBytes codecs fuel offset buffer ⟨[], chds⟩
  | writeUnits unitnum count buffer => Chd.writeUnits codecs fuel unitnum count buffer ⟨[], chds⟩

/-- What is in the buffer after the call, if it succeeds. -/
def result (codecs : Codecs) (fuel : ℕ) (chds : List ChdFile) (op : ByteOp) : Option (List Byte) :=
  match op.exec codecs fuel chds with
  | .ok _ s' => some s'.dest
  | .error _ _ => none

/-- The buffer of the call. -/
def buffer : ByteOp → List Byte
  | readHunk _ buffer | readBytes _ buffer | readUnits _ _ buffer => buffer
  | writeHunk _ buffer | writeBytes _ buffer | writeUnits _ _ buffer => buffer

/-- Where the bytes of the call are. -/
def offset (c : ChdFile) : ByteOp → ℕ
  | readHunk hunknum _ | writeHunk hunknum _ => hunknum * c.hunkbytes
  | readBytes offset _ | writeBytes offset _ => offset
  | readUnits unitnum _ _ | writeUnits unitnum _ _ => unitnum * c.unitbytes

/-- The call reads. -/
def Reading : ByteOp → Prop
  | readHunk _ _ | readBytes _ _ | readUnits _ _ _ => True
  | writeHunk _ _ | writeBytes _ _ | writeUnits _ _ _ => False

/-- The call is within the logical size, and has a buffer of the right size. -/
def InRange (c : ChdFile) : ByteOp → Prop
  | readHunk hunknum buffer | writeHunk hunknum buffer =>
      hunknum < c.hunkcount ∧ buffer.length = c.hunkbytes
  | readBytes offset buffer | writeBytes offset buffer => offset + buffer.length ≤ c.logicalbytes
  | readUnits unitnum count buffer | writeUnits unitnum count buffer =>
      unitnum * c.unitbytes + buffer.length ≤ c.logicalbytes ∧ buffer.length = count * c.unitbytes

/-- The row after the call. -/
def store (c : ChdFile) (row : ℕ → Byte) : ByteOp → ℕ → Byte
  | readHunk _ _ | readBytes _ _ | readUnits _ _ _ => row
  | writeHunk hunknum buffer => Rows.store row (hunknum * c.hunkbytes) buffer
  | writeBytes offset buffer => Rows.store row offset buffer
  | writeUnits unitnum _ buffer => Rows.store row (unitnum * c.unitbytes) buffer

/-- No hunk without a place becomes all zero that was not; a hunk in the cache that has a place is
not written with other bytes by `write_hunk`; and the number of bytes of units has 32 bits. -/
def Allowed (c : ChdFile) (row : ℕ → Byte) (op : ByteOp) : Prop :=
  (∀ n < c.hunkcount, rawEntry c n = 0 → AllZero (hunkOf c (op.store c row) n) →
      AllZero (hunkOf c row n)) ∧
    match op with
    | writeHunk hunknum buffer => hunknum = c.cachehunk → rawEntry c hunknum ≠ 0 → c.cache = buffer
    | readUnits _ _ buffer | writeUnits _ _ buffer => buffer.length < 2 ^ 32
    | _ => True

section

variable (codecs : Codecs) (fuel : ℕ)

/-- A state is a CHD with its parents, and the bytes that it should hold. -/
def step (s : List ChdFile × (ℕ → Byte)) (op : ByteOp) : List ChdFile × (ℕ → Byte) :=
  match s.1 with
  | [] => s
  | c :: _ =>
      match op.exec codecs fuel s.1 with
      | .ok _ s' => (s'.chds, op.store c s.2)
      | .error _ s' => (s'.chds, s.2)

/-- The call is in range and comes to a good end. -/
def Succeeds (s : List ChdFile × (ℕ → Byte)) (op : ByteOp) : Prop :=
  match s.1 with
  | [] => False
  | c :: _ => op.InRange c ∧ ∃ s', op.exec codecs fuel s.1 = .ok () s'

/-- The call is allowed in a state. -/
def AllowedIn (s : List ChdFile × (ℕ → Byte)) (op : ByteOp) : Prop :=
  match s.1 with
  | [] => False
  | c :: _ => op.Allowed c s.2

end

instance (c : ChdFile) (op : ByteOp) : Decidable (op.InRange c) :=
  match op with
  | readHunk _ _ | writeHunk _ _ => inferInstanceAs (Decidable (_ ∧ _))
  | readBytes _ _ | writeBytes _ _ => inferInstanceAs (Decidable (_ ≤ _))
  | readUnits _ _ _ | writeUnits _ _ _ => inferInstanceAs (Decidable (_ ∧ _))

instance (c : ChdFile) (row : ℕ → Byte) (op : ByteOp) : Decidable (op.Allowed c row) :=
  match op with
  | readHunk _ _ | readBytes _ _ | writeBytes _ _ => inferInstanceAs (Decidable (_ ∧ True))
  | writeHunk _ _ => inferInstanceAs (Decidable (_ ∧ (_ → _ → _ = _)))
  | readUnits _ _ _ | writeUnits _ _ _ => inferInstanceAs (Decidable (_ ∧ _ < _))

instance (codecs : Codecs) (fuel : ℕ) (s : List ChdFile × (ℕ → Byte)) (op : ByteOp) :
    Decidable (Succeeds codecs fuel s op) :=
  match s with
  | ([], _) => instDecidableFalse
  | (c :: ps, _) =>
      match h : op.exec codecs fuel (c :: ps) with
      | .ok () s' => decidable_of_iff (op.InRange c)
          ⟨fun hrange ↦ ⟨hrange, s', h⟩, fun hok ↦ hok.1⟩
      | .error _ _ => .isFalse fun hok ↦ by
          obtain ⟨-, s', hok⟩ := hok
          rw [h] at hok
          cases hok

instance (s : List ChdFile × (ℕ → Byte)) (op : ByteOp) : Decidable (op.AllowedIn s) :=
  match s with
  | ([], _) => instDecidableFalse
  | (c :: _, row) => inferInstanceAs (Decidable (op.Allowed c row))

end ByteOp

/-- Every call that reads, if it succeeds, gives the bytes that the CHD should hold. -/
def ReadsRow (codecs : Codecs) (fuel : ℕ) (s : List ChdFile × (ℕ → Byte)) : Prop :=
  ∀ c ∈ s.1.head?, ∀ op : ByteOp, op.Reading → op.InRange c → op.AllowedIn s →
    ∀ bytes, op.result codecs fuel s.1 = some bytes →
      bytes = slice s.2 (op.offset c) op.buffer.length

/-- The state is a CHD that stands for the bytes. -/
def Stands (codecs : Codecs) (s : List ChdFile × (ℕ → Byte)) : Prop :=
  ∃ c ps, s.1 = c :: ps ∧ ByteStore codecs c ps s.2

section

variable {codecs : Codecs} {c : ChdFile} {ps : List ChdFile} {row : ℕ → Byte}
    {fuel : ℕ} {s' : Access}

theorem ByteStore.units (h : ByteStore codecs c ps row) {unitnum count : ℕ} {buffer : List Byte}
    (hinside : unitnum * c.unitbytes + buffer.length ≤ c.logicalbytes)
    (hlen : buffer.length = count * c.unitbytes) (hlt : buffer.length < 2 ^ 32) :
    unitnum * c.unitbytes % 2 ^ 64 = unitnum * c.unitbytes ∧
      count * c.unitbytes % 2 ^ 32 = buffer.length := by
  have hsize := h.size
  have hcount := h.raw.hunkcount_lt
  have hlt' := h.hunkbytes_lt
  have hmax : c.hunkcount * c.hunkbytes ≤ 2 ^ 30 * 2 ^ 32 := Nat.mul_le_mul (by omega) (by omega)
  constructor
  · exact Nat.mod_eq_of_lt (by omega)
  · rw [← hlen]
    exact Nat.mod_eq_of_lt hlt

/-- **Calls.** A call that succeeds gives bytes of the row if it reads, and leaves a CHD that stands
for the row after it. -/
theorem ByteStore.exec (h : ByteStore codecs c ps row) {op : ByteOp} (hrange : op.InRange c)
    (hallowed : op.Allowed c row) (hok : op.exec codecs fuel (c :: ps) = .ok () s') :
    (op.Reading → s'.dest = slice row (op.offset c) op.buffer.length) ∧
      ∃ c' ps', s'.chds = c' :: ps' ∧ Alike c c' ∧ ByteStore codecs c' ps' (op.store c row) := by
  obtain ⟨hzero, hcase⟩ := hallowed
  cases op with
  | readHunk n buffer =>
    obtain ⟨hdest, hstore⟩ := h.readHunk hrange.1 hrange.2 hok
    refine ⟨fun _ ↦ ?_, hstore⟩
    show s'.dest = slice row (n * c.hunkbytes) buffer.length
    rw [hdest, hunkOf, hrange.2]
  | readBytes offset buffer =>
    obtain ⟨hdest, hstore⟩ := h.readBytes hrange rfl hok
    exact ⟨fun _ ↦ hdest, hstore⟩
  | readUnits unitnum count buffer =>
    obtain ⟨hoffset, hbytes⟩ := h.units hrange.1 hrange.2 hcase
    have hread : Chd.readBytes codecs fuel (unitnum * c.unitbytes % 2 ^ 64)
        (count * c.unitbytes % 2 ^ 32) ⟨buffer, c :: ps⟩ = .ok () s' := hok
    rw [hoffset, hbytes] at hread
    obtain ⟨hdest, hstore⟩ := h.readBytes hrange.1 rfl hread
    exact ⟨fun _ ↦ hdest, hstore⟩
  | writeHunk n buffer =>
    obtain ⟨c', hwrite, rfl⟩ := onCurrent_eq_ok.mp hok
    have hzero' : rawEntry c n = 0 → AllZero buffer → AllZero (hunkOf c row n) := by
      intro hplace hall
      refine hzero n hrange.1 hplace ?_
      show AllZero (hunkOf c (Rows.store row (n * c.hunkbytes) buffer) n)
      rwa [hunkOf_store_self hrange.2]
    obtain ⟨hstore, halike, -⟩ := h.writeDirect hrange.1 hrange.2 hzero' hcase hwrite
    exact ⟨False.elim, c', ps, rfl, halike, hstore⟩
  | writeBytes offset buffer =>
    exact ⟨False.elim, h.writeBytes (h.toHunkStore.inHunks hrange) hzero hok⟩
  | writeUnits unitnum count buffer =>
    obtain ⟨hoffset, hbytes⟩ := h.units hrange.1 hrange.2 hcase
    have hwrite : Chd.writeBytes codecs fuel (unitnum * c.unitbytes % 2 ^ 64)
        (buffer.take (count * c.unitbytes % 2 ^ 32)) ⟨[], c :: ps⟩ = .ok () s' := hok
    rw [hoffset, hbytes, take_length] at hwrite
    exact ⟨False.elim, h.writeBytes (h.toHunkStore.inHunks hrange.1) hzero hwrite⟩

/-- What a hunk is that has no place: the one of the parent, or zeros. -/
def Unwritten (codecs : Codecs) (ps : List ChdFile) (hunkbytes n : ℕ) (bytes : List Byte) : Prop :=
  match ps with
  | [] => bytes = replicate hunkbytes 0
  | _ :: _ => Holds codecs ps n bytes

theorem holds_of_unwritten (h : c.RawStore) (hparent : ∀ p ∈ ps.head?, p.hunkbytes = c.hunkbytes)
    (hmissing : c.parentMissing = false) {n : ℕ} (hn : n < c.hunkcount) (hplace : rawEntry c n = 0)
    {bytes : List Byte} :
    Unwritten codecs ps c.hunkbytes n bytes ↔ Holds codecs (c :: ps) n bytes := by
  have hentry : ∀ alone, c.entry codecs alone n =
      if alone then .data (replicate c.hunkbytes 0) else .parent n := fun alone ↦ by
    rw [h.entry_eq hn, if_neg (not_not_intro hplace), ChdFile.parentEntry, hmissing,
      if_neg Bool.false_ne_true]
  cases ps with
  | nil =>
    constructor
    · rintro rfl
      exact .data (hentry _) length_replicate
    · intro hholds
      cases hholds with
      | data entry => exact (HunkEntry.data.inj ((hentry _).symm.trans entry)).symm
      | self entry => cases (hentry _).symm.trans entry
      | parent entry => cases (hentry _).symm.trans entry
  | cons p ps =>
    constructor
    · intro hholds
      have hlen : bytes.length = c.hunkbytes := by
        rw [Holds.length_eq hholds]
        exact hparent p rfl
      exact .parent (hentry _) hlen hholds
    · intro hholds
      cases hholds with
      | data entry => cases (hentry _).symm.trans entry
      | self entry => cases (hentry _).symm.trans entry
      | parent entry _ tail =>
        obtain rfl := HunkEntry.parent.inj ((hentry _).symm.trans entry)
        exact tail
      | parentBytes entry => cases (hentry _).symm.trans entry

/-- **A CHD is a store of bytes.** In a run of calls that succeed and are allowed, every call that
reads gives the bytes last written, and those of the start where nothing was written. There, a hunk
without a place is the one of the parent, or zeros. -/
theorem byteStore_readsRow {s : List ChdFile × (ℕ → Byte)} (h : Stands codecs s) {ops : List ByteOp}
    (hok : Run.Meets (ByteOp.step codecs fuel) (ByteOp.Succeeds codecs fuel) s ops)
    (hallowed : Run.Meets (ByteOp.step codecs fuel) ByteOp.AllowedIn s ops) :
    Run.Always (ByteOp.step codecs fuel) (ReadsRow codecs fuel) s ops ∧
      ∀ c ps, s.1 = c :: ps → c.parentMissing = false → ∀ n < c.hunkcount, rawEntry c n = 0 →
        ∀ bytes, Unwritten codecs ps c.hunkbytes n bytes → hunkOf c s.2 n = bytes := by
  have hstep : ∀ s op, Stands codecs s → ByteOp.Succeeds codecs fuel s op ∧ op.AllowedIn s →
      Stands codecs (ByteOp.step codecs fuel s op) := by
    rintro ⟨chds, row⟩ op ⟨c, ps, rfl, hstore⟩ ⟨⟨hrange, s', hok⟩, hallowed⟩
    obtain ⟨-, c', ps', hchds, -, hstore'⟩ := hstore.exec hrange hallowed hok
    rw [ByteOp.step]
    simp only [hok]
    exact ⟨c', ps', hchds, hstore'⟩
  refine ⟨(Run.always_of_meets hstep h (hok.and hallowed)).imp ?_,
    fun c ps hs hmissing n hn hplace bytes hb ↦ ?_⟩
  swap
  · obtain ⟨c', ps', hs', hstore⟩ := h
    obtain ⟨rfl, rfl⟩ := List.cons.inj (hs.symm.trans hs')
    have hholds := (holds_of_unwritten hstore.raw hstore.parent hmissing hn hplace).mp hb
    exact (hstore.holds n hn bytes hholds).symm
  rintro ⟨chds, row⟩ ⟨c, ps, rfl, hstore⟩ d hd op hreading hrange hop bytes hresult
  obtain rfl : c = d := by simpa using hd
  cases hexec : op.exec codecs fuel (c :: ps) with
  | ok _ s' =>
    have hdest := (hstore.exec hrange hop hexec).1 hreading
    rw [ByteOp.result] at hresult
    simp only [hexec, Option.some.injEq] at hresult
    rw [← hresult, hdest]
  | error stop s' =>
    rw [ByteOp.result] at hresult
    simp only [hexec] at hresult
    cases hresult

theorem rawEntry_created (logicalbytes hunkbytes unitbytes n : ℕ) :
    rawEntry (.created (fun _ ↦ 0) logicalbytes hunkbytes unitbytes) n = 0 := by
  rw [rawEntry, part]
  show ofBytes (((replicate _ 0).drop _).take 4) = 0
  rw [drop_replicate, take_replicate]
  exact ofBytes_replicate_zero _

variable {logicalbytes hunkbytes unitbytes : ℕ}

theorem rawStore_created (hpos : 0 < hunkbytes)
    (hroom : 124 + 5 * ((logicalbytes + hunkbytes - 1) / hunkbytes) < 2 ^ 32) :
    (ChdFile.created (fun _ ↦ 0) logicalbytes hunkbytes unitbytes).RawStore := by
  have hentry := rawEntry_created logicalbytes hunkbytes unitbytes
  have hlength : (ChdFile.created (fun _ ↦ 0) logicalbytes hunkbytes unitbytes).file.data.length =
      124 + 4 * ((logicalbytes + hunkbytes - 1) / hunkbytes) := by
    show (newHeader (fun _ ↦ 0) logicalbytes hunkbytes unitbytes ++
      replicate (4 * ((logicalbytes + hunkbytes - 1) / hunkbytes)) 0).length = _
    rw [length_append, length_newHeader, length_replicate]
  refine ⟨rfl, rfl, hpos, ?_, length_replicate, hlength.ge,
    fun n _ hplace ↦ absurd (hentry n) hplace,
    fun n _ hplace ↦ absurd (hentry n) hplace, fun m _ n _ _ hplace ↦ absurd (hentry m) hplace, ?_⟩
  · show (logicalbytes + hunkbytes - 1) / hunkbytes < 2 ^ 30
    omega
  · have hcard : (ChdFile.created (fun _ ↦ 0) logicalbytes hunkbytes unitbytes).unplaced.card ≤
        (logicalbytes + hunkbytes - 1) / hunkbytes :=
      (Finset.card_filter_le _ _).trans (Finset.card_range _).le
    have hnext : (ChdFile.created (fun _ ↦ 0) logicalbytes hunkbytes unitbytes).nextPlace ≤
        124 + 4 * ((logicalbytes + hunkbytes - 1) / hunkbytes) := by
      rw [ChdFile.nextPlace, hlength]
      show (124 + 4 * ((logicalbytes + hunkbytes - 1) / hunkbytes) + hunkbytes - 1) / hunkbytes ≤ _
      generalize (logicalbytes + hunkbytes - 1) / hunkbytes = k
      refine Nat.div_le_of_le_mul ?_
      have hmul : hunkbytes - 1 ≤ (hunkbytes - 1) * (124 + 4 * k) :=
        Nat.le_mul_of_pos_right _ (by omega)
      have hsplit :
          hunkbytes * (124 + 4 * k) = (hunkbytes - 1) * (124 + 4 * k) + (124 + 4 * k) := by
        rw [← Nat.succ_mul, Nat.succ_eq_add_one, Nat.sub_add_cancel hpos]
      omega
    omega

/-- A new CHD stands for the bytes of its parents, or for zeros. -/
theorem byteStore_created (hpos : 0 < hunkbytes) (hlt : hunkbytes < 2 ^ 32)
    (hroom : 124 + 5 * ((logicalbytes + hunkbytes - 1) / hunkbytes) < 2 ^ 32)
    (hparent : ∀ p ∈ ps.head?, p.hunkbytes = hunkbytes) (hfit : Fitting codecs ps)
    (hco : Coherent codecs ps) (hrow : ∀ n < (logicalbytes + hunkbytes - 1) / hunkbytes, ∀ bytes,
      Unwritten codecs ps hunkbytes n bytes → bytes = slice row (n * hunkbytes) hunkbytes) :
    ByteStore codecs (.created (fun _ ↦ 0) logicalbytes hunkbytes unitbytes) ps row := by
  have hraw : (ChdFile.created (fun _ ↦ 0) logicalbytes hunkbytes unitbytes).RawStore :=
    rawStore_created hpos hroom
  refine ⟨⟨hraw, ?_, hlt, hparent, hfit, hco, length_replicate, fun n hn bytes hholds ↦ ?_⟩,
    .inl rfl⟩
  · show logicalbytes ≤ (logicalbytes + hunkbytes - 1) / hunkbytes * hunkbytes
    have hsplit := Nat.div_add_mod' (logicalbytes + hunkbytes - 1) hunkbytes
    have hmod := Nat.mod_lt (logicalbytes + hunkbytes - 1) hpos
    omega
  · exact hrow n hn bytes
      ((holds_of_unwritten hraw hparent rfl hn (rawEntry_created _ _ _ n)).mpr hholds)

/-- A new CHD without a parent stands for zeros. -/
theorem byteStore_created_alone (hpos : 0 < hunkbytes) (hlt : hunkbytes < 2 ^ 32)
    (hroom : 124 + 5 * ((logicalbytes + hunkbytes - 1) / hunkbytes) < 2 ^ 32) :
    Stands codecs ([.created (fun _ ↦ 0) logicalbytes hunkbytes unitbytes], fun _ ↦ 0) := by
  refine ⟨_, [], rfl, byteStore_created hpos hlt hroom (fun p hp ↦ by cases hp) trivial trivial ?_⟩
  intro n _ bytes h
  rw [slice, map_const', length_range]
  exact h

end

/-- A hunk is written in parts and whole, one of zeros is written, and all is read. -/
theorem byteStore_readsRow_created :
    Run.Always (ByteOp.step Codecs.none 1) (ReadsRow Codecs.none 1)
      ([.created (fun _ ↦ 0) 6 2 1], fun _ ↦ 0)
      [.writeBytes 1 [1, 2], .writeHunk 2 [0, 0], .readBytes 0 [9, 9, 9, 9], .writeHunk 0 [5, 6],
        .writeUnits 2 3 [7, 8, 9], .readUnits 0 6 [0, 0, 0, 0, 0, 0], .readHunk 2 [0, 0]] :=
  (byteStore_readsRow (byteStore_created_alone (by decide) (by decide) (by decide))
    (by decide +kernel) (by decide +kernel)).1

/-- A hunk in the cache is written with `write_hunk`, and then read as it was. -/
theorem not_byteStore_cached :
    ∃ ops, Run.Meets (ByteOp.step Codecs.none 1) (ByteOp.Succeeds Codecs.none 1)
        ([.created (fun _ ↦ 0) 4 2 1], fun _ ↦ 0) ops ∧
      ¬ Run.Always (ByteOp.step Codecs.none 1) (ReadsRow Codecs.none 1)
        ([.created (fun _ ↦ 0) 4 2 1], fun _ ↦ 0) ops := by
  refine ⟨[.writeBytes 0 [1], .writeHunk 0 [2, 2]], by decide +kernel, fun h ↦ ?_⟩
  have hlast := h.last
  obtain ⟨s, hs⟩ : ∃ s, s = Run.run (ByteOp.step Codecs.none 1)
    ([.created (fun _ ↦ 0) 4 2 1], fun _ ↦ 0) [.writeBytes 0 [1], .writeHunk 0 [2, 2]] := ⟨_, rfl⟩
  have hok : ByteOp.Succeeds Codecs.none 1 s (.readBytes 0 [0]) := by
    rw [hs]
    decide +kernel
  have hallowed : ByteOp.AllowedIn s (.readBytes 0 [0]) := by
    rw [hs]
    decide +kernel
  have hread : ByteOp.result Codecs.none 1 s.1 (.readBytes 0 [0]) = some [1] := by
    rw [hs]
    decide +kernel
  have hrow : slice s.2 0 1 = [2] := by
    rw [hs]
    decide +kernel
  rw [← hs] at hlast
  obtain ⟨chds, row⟩ := s
  cases chds with
  | nil => exact hok
  | cons c ps =>
    have hbytes : [1] = slice row 0 1 :=
      hlast c rfl (.readBytes 0 [0]) trivial hok.1 hallowed _ hread
    rw [hrow] at hbytes
    exact absurd hbytes (by decide)

end RoscoEmulator.Chd
