import RoscoEmulator.Chd.Reading
import RoscoEmulator.Lib.Rows

/-!
# Uncompressed CHDs

A CHD of version 5 without compression that can be written. Its map says for each hunk where in the
file it is, or that it has no place yet; then the hunk is the one of the parent, or zeros. A write
to a hunk without a place appends it to the file. -/

namespace RoscoEmulator.Chd

open List Nat BigEndian Pieces ByteFile

namespace CoreFile

variable {file : CoreFile} {offset other count : ℕ} {bytes : List Byte}

theorem read_put_self (h : file.canWrite offset bytes.length = true) :
    (file.put offset bytes).read offset bytes.length = .ok bytes := by
  have hread : (file.put offset bytes).data.readAt offset bytes.length = bytes :=
    readAt_writeAt_self _
  rw [read]
  simp only [hread]
  exact if_pos ⟨file.canRead_of_canWrite _ _ h, trivial⟩

theorem read_put_of_disjoint (h : other + count ≤ file.data.length)
    (hdisj : Disjoint (extent other count) (extent offset bytes.length)) :
    (file.put offset bytes).read other count = file.read other count := by
  have hread : (file.put offset bytes).data.readAt other count = file.data.readAt other count :=
    readAt_writeAt_of_disjoint _ h hdisj
  have hcan : (file.put offset bytes).canRead = file.canRead := rfl
  rw [read, read]
  simp only [hread, hcan]

end CoreFile

namespace ChdFile

variable (c : ChdFile)

/-- Where in the file a hunk with a place is. -/
def placeOf (hunknum : ℕ) : ℕ := rawEntry c hunknum * c.hunkbytes

/-- The number of the first place behind the end of the file. -/
def nextPlace : ℕ := (c.file.data.length + c.hunkbytes - 1) / c.hunkbytes

/-- The hunks without a place. -/
def unplaced : Finset ℕ := (Finset.range c.hunkcount).filter fun n ↦ rawEntry c n = 0

/-- A map in the file, and places for hunks that keep clear of it and of each other. There are 32
bits for the number of a place, for every hunk that may get one. -/
structure RawStore : Prop where
  version : c.version = 5
  uncompressed : c.compressed = false
  hunkbytes_pos : 0 < c.hunkbytes
  hunkcount_lt : c.hunkcount < 2 ^ 30
  rawmap : c.rawmap.length = 4 * c.hunkcount
  map_inside : c.mapoffset + 4 * c.hunkcount ≤ c.file.data.length
  inside : ∀ n < c.hunkcount, rawEntry c n ≠ 0 → c.placeOf n + c.hunkbytes ≤ c.file.data.length
  clear : ∀ n < c.hunkcount, rawEntry c n ≠ 0 →
    Disjoint (extent (c.placeOf n) c.hunkbytes) (extent c.mapoffset (4 * c.hunkcount))
  apart :
    ∀ m < c.hunkcount, ∀ n < c.hunkcount, m ≠ n → rawEntry c m ≠ 0 → rawEntry c m ≠ rawEntry c n
  room : c.nextPlace + c.unplaced.card ≤ 2 ^ 32

theorem storedEntry_eq_data_iff {c : ChdFile} {blockoffs : ℕ} {bytes : List Byte} :
    (c.storedEntry blockoffs fun _ ↦ true) = .data bytes ↔
      c.file.read blockoffs c.hunkbytes = .ok bytes := by
  rw [storedEntry]
  cases c.file.read blockoffs c.hunkbytes with
  | error stop => exact iff_of_false (fun heq ↦ by cases heq) (fun heq ↦ by cases heq)
  | ok b =>
    show checkedEntry (true = true) b = .data bytes ↔ _
    rw [checkedEntry, if_pos rfl]
    constructor
    · intro heq
      cases heq
      rfl
    · intro heq
      cases heq
      rfl

theorem storedEntry_ne {c : ChdFile} {blockoffs n : ℕ} {valid : List Byte → Bool} :
    c.storedEntry blockoffs valid ≠ .self n ∧ c.storedEntry blockoffs valid ≠ .parent n ∧
      c.storedEntry blockoffs valid ≠ .parentBytes n := by
  rw [storedEntry]
  cases c.file.read blockoffs c.hunkbytes with
  | error stop => refine ⟨?_, ?_, ?_⟩ <;> intro h <;> cases h
  | ok b =>
    show checkedEntry _ b ≠ _ ∧ checkedEntry _ b ≠ _ ∧ checkedEntry _ b ≠ _
    rw [checkedEntry]
    split_ifs <;> refine ⟨?_, ?_, ?_⟩ <;> intro h <;> cases h

namespace RawStore

variable {c} (h : c.RawStore) {codecs : Codecs} {ps : List ChdFile} {n : ℕ} {bytes : List Byte}

include h

theorem four_mul_mod (hn : n < c.hunkcount) : 4 * n % 2 ^ 32 = 4 * n := by
  have hlt := h.hunkcount_lt
  exact mod_eq_of_lt (by omega)

theorem four_mul_add_le (hn : n < c.hunkcount) : 4 * n + 4 ≤ c.rawmap.length := by
  rw [h.rawmap]
  omega

/-- What is behind the entry of a hunk. -/
theorem entry_eq (hn : n < c.hunkcount) (alone : Bool) :
    c.entry codecs alone n =
      if rawEntry c n ≠ 0 then c.storedEntry (c.placeOf n) fun _ ↦ true
      else c.parentEntry (if alone then .data (replicate c.hunkbytes 0) else .parent n) := by
  have hmap := h.four_mul_add_le hn
  have hpos := h.hunkbytes_pos
  have hversion : ¬ (c.version = 3 ∨ c.version = 4) := by
    rw [h.version]
    omega
  rw [ChdFile.entry, if_neg (by omega), if_neg hversion, if_pos h.version, h.uncompressed,
    if_neg Bool.false_ne_true, entryAt, h.four_mul_mod hn, if_pos hmap, entryRaw]
  rw [rawEntry, placeOf, rawEntry, h.four_mul_mod hn]
  refine if_congr (not_congr ?_) rfl rfl
  rw [Nat.mul_eq_zero]
  omega

/-- A hunk out of range holds nothing, and none refers to another hunk of its CHD or to units. -/
theorem entry_cases (codecs : Codecs) (alone : Bool) (n : ℕ) :
    (∃ bytes, c.entry codecs alone n = .data bytes) ∨
      (∃ stop leaves, c.entry codecs alone n = .broken stop leaves) ∨
      c.entry codecs alone n = .parent n := by
  rcases Nat.lt_or_ge n c.hunkcount with hn | hn
  · rw [h.entry_eq hn]
    split_ifs with hplace halone
    · cases hstored : c.storedEntry (c.placeOf n) fun _ ↦ true with
      | data bytes => exact .inl ⟨bytes, rfl⟩
      | broken stop leaves => exact .inr (.inl ⟨stop, leaves, rfl⟩)
      | self => exact absurd hstored storedEntry_ne.1
      | parent => exact absurd hstored storedEntry_ne.2.1
      | parentBytes => exact absurd hstored storedEntry_ne.2.2
    · rw [parentEntry]
      split_ifs
      · exact .inr (.inl ⟨_, _, rfl⟩)
      · exact .inl ⟨_, rfl⟩
    · rw [parentEntry]
      split_ifs
      · exact .inr (.inl ⟨_, _, rfl⟩)
      · exact .inr (.inr rfl)
  · rw [ChdFile.entry, if_pos hn]
    exact .inr (.inl ⟨_, _, rfl⟩)

/-- A hunk holds what its own entry says, whatever the other entries are. -/
theorem holds_of_entry_eq {c' : ChdFile} (hhunkbytes : c'.hunkbytes = c.hunkbytes)
    (hentry : c'.entry codecs ps.isEmpty n = c.entry codecs ps.isEmpty n)
    (hholds : Holds codecs (c :: ps) n bytes) : Holds codecs (c' :: ps) n bytes := by
  cases hholds with
  | data entry length => exact .data (hentry.trans entry) (length.trans hhunkbytes.symm)
  | parent entry length tail =>
    exact .parent (hentry.trans entry) (length.trans hhunkbytes.symm) tail
  | self entry =>
    rcases h.entry_cases codecs ps.isEmpty n with ⟨_, h'⟩ | ⟨_, _, h'⟩ | h' <;>
      cases entry.symm.trans h'
  | parentBytes entry =>
    rcases h.entry_cases codecs false n with ⟨_, h'⟩ | ⟨_, _, h'⟩ | h' <;>
      cases entry.symm.trans h'

theorem holds_iff_of_ne (hn : n < c.hunkcount) (hplace : rawEntry c n ≠ 0) :
    Holds codecs (c :: ps) n bytes ↔ c.file.read (c.placeOf n) c.hunkbytes = .ok bytes := by
  have hentry : ∀ alone, c.entry codecs alone n = c.storedEntry (c.placeOf n) fun _ ↦ true :=
    fun alone ↦ by
    rw [h.entry_eq hn, if_pos hplace]
  constructor
  · intro hholds
    cases hholds with
    | data entry => exact storedEntry_eq_data_iff.mp ((hentry _).symm.trans entry)
    | self entry => exact absurd ((hentry _).symm.trans entry) storedEntry_ne.1
    | parent entry => exact absurd ((hentry _).symm.trans entry) storedEntry_ne.2.1
    | parentBytes entry => exact absurd ((hentry _).symm.trans entry) storedEntry_ne.2.2
  · intro hok
    exact .data ((hentry _).trans (storedEntry_eq_data_iff.mpr hok)) (CoreFile.read_eq_ok hok).2

theorem holds_of_read_eq {c' : ChdFile} (h' : c'.RawStore) (hhunkbytes : c'.hunkbytes = c.hunkbytes)
    (hhunkcount : c'.hunkcount = c.hunkcount) (hmissing : c'.parentMissing = c.parentMissing)
    (hentry : rawEntry c' n = rawEntry c n) (hread : n < c.hunkcount → rawEntry c n ≠ 0 →
      c'.file.read (c.placeOf n) c.hunkbytes = c.file.read (c.placeOf n) c.hunkbytes)
    (hholds : Holds codecs (c :: ps) n bytes) : Holds codecs (c' :: ps) n bytes := by
  rcases Nat.lt_or_ge n c.hunkcount with hn | hn
  · by_cases hplace : rawEntry c n = 0
    · refine h.holds_of_entry_eq hhunkbytes ?_ hholds
      rw [h.entry_eq hn, h'.entry_eq (hhunkcount ▸ hn), hentry, if_neg (not_not_intro hplace),
        if_neg (not_not_intro hplace), parentEntry, parentEntry, hhunkbytes, hmissing]
    · have hok := (h.holds_iff_of_ne hn hplace).mp hholds
      refine (h'.holds_iff_of_ne (hhunkcount ▸ hn) (hentry ▸ hplace)).mpr ?_
      rw [placeOf, hentry, hhunkbytes, ← placeOf, hread hn hplace, hok]
  · refine h.holds_of_entry_eq hhunkbytes ?_ hholds
    rw [entry, entry, if_pos hn, if_pos (hhunkcount ▸ hn)]

end RawStore

theorem rawStore_bare_iff {c : ChdFile} : c.bare.RawStore ↔ c.RawStore :=
  ⟨fun h ↦ ⟨h.1, h.2, h.3, h.4, h.5, h.6, h.7, h.8, h.9, h.10⟩,
    fun h ↦ ⟨h.1, h.2, h.3, h.4, h.5, h.6, h.7, h.8, h.9, h.10⟩⟩

theorem RawStore.of_bare {c c' : ChdFile} (h : c.RawStore) (hbare : c.bare = c'.bare) :
    c'.RawStore :=
  rawStore_bare_iff.mp (hbare ▸ rawStore_bare_iff.mpr h)

/-- A hunk of the parent is as large as one of the CHD. -/
theorem RawStore.fits {c : ChdFile} (h : c.RawStore) {codecs : Codecs} {ps : List ChdFile}
    (hparent : ∀ p ∈ ps.head?, p.hunkbytes = c.hunkbytes) : Fits codecs c ps := by
  refine ⟨.inl h.version, fun p hp _ _ _ ↦ hparent p hp, fun p _ n blockoffs hentry ↦ ?_⟩
  rcases h.entry_cases codecs false n with ⟨_, h'⟩ | ⟨_, _, h'⟩ | h' <;>
    cases hentry.symm.trans h'

/-! ## Writing a hunk -/

/-- The CHD with another hunk in its place. -/
def overwritten (n : ℕ) (buffer : List Byte) : ChdFile :=
  c.onFile fun file ↦ file.put (c.placeOf n) buffer

/-- The CHD with its file padded up to a place. -/
def padded : ChdFile :=
  c.onFile fun file ↦
    if appendPadding file.data.length c.hunkbytes = 0 then file
    else file.put file.data.length (replicate (appendPadding file.data.length c.hunkbytes) 0)

/-- The CHD with a hunk in a new place. -/
def withHunk (n : ℕ) (buffer : List Byte) : ChdFile :=
  { c.padded.onFile (fun file ↦ file.put (c.nextPlace * c.hunkbytes) buffer) with
    rawmap := putPart c.rawmap (4 * n) (toBytes 4 c.nextPlace) }

/-- The same with its place in the map of the file. -/
def appended (n : ℕ) (buffer : List Byte) : ChdFile :=
  (c.withHunk n buffer).onFile fun file ↦ file.put (c.mapoffset + 4 * n) (toBytes 4 c.nextPlace)

theorem length_add_appendPadding (hpos : 0 < c.hunkbytes) : c.file.data.length +
    appendPadding c.file.data.length c.hunkbytes = c.nextPlace * c.hunkbytes := by
  have hsplit := div_add_mod' c.file.data.length c.hunkbytes
  have hmod := mod_lt c.file.data.length hpos
  rw [appendPadding, nextPlace, if_neg (by omega)]
  split_ifs with hzero
  · have hdiv : (c.file.data.length + c.hunkbytes - 1) / c.hunkbytes =
        c.file.data.length / c.hunkbytes := by
      refine Nat.div_eq_of_lt_le ?_ ?_
      · omega
      · rw [succ_mul]
        omega
    rw [hdiv]
    omega
  · have hdiv : (c.file.data.length + c.hunkbytes - 1) / c.hunkbytes =
        c.file.data.length / c.hunkbytes + 1 := by
      refine Nat.div_eq_of_lt_le ?_ ?_
      · rw [succ_mul]
        omega
      · rw [succ_mul, succ_mul]
        omega
    rw [hdiv, succ_mul]
    omega

theorem le_nextPlace (hpos : 0 < c.hunkbytes) : c.file.data.length ≤ c.nextPlace * c.hunkbytes := by
  rw [← c.length_add_appendPadding hpos]
  exact Nat.le_add_right _ _

theorem writePadding_cases {c : ChdFile} {padding : ℕ}
    (hpadding : padding = appendPadding c.file.data.length c.hunkbytes) :
    writePadding c.file.data.length padding c = .ok () c.padded ∨
      ∃ stop, writePadding c.file.data.length padding c = .error stop c := by
  subst hpadding
  rw [writePadding, padded, onFile]
  split_ifs with hzero
  · exact .inl rfl
  · rw [fileWrite]
    split_ifs
    · exact .inl rfl
    · exact .inr ⟨_, rfl⟩

theorem fileAppend_cases (hpos : 0 < c.hunkbytes) (buffer : List Byte) :
    (c.file.canWrite (c.nextPlace * c.hunkbytes) buffer.length = true ∧
      fileAppend buffer c.hunkbytes c = .ok (c.nextPlace * c.hunkbytes)
        (c.padded.onFile fun file ↦ file.put (c.nextPlace * c.hunkbytes) buffer)) ∨
      ∃ stop c', fileAppend buffer c.hunkbytes c = .error stop c' ∧ (c' = c ∨ c' = c.padded) := by
  have hsum := c.length_add_appendPadding hpos
  have hcan : c.padded.file.canWrite = c.file.canWrite := by
    rw [padded, onFile_file]
    split_ifs <;> rfl
  rw [fileAppend, get_bind]
  rcases writePadding_cases (c := c) rfl with hok | ⟨stop, herror⟩
  · rw [bind_of_ok hok, hsum, ← hcan]
    cases hwrite : fileWrite (c.nextPlace * c.hunkbytes) buffer c.padded with
    | ok _ c' =>
      obtain ⟨hcan', rfl⟩ := fileWrite_eq_ok.mp hwrite
      exact .inl ⟨hcan', bind_of_ok hwrite⟩
    | error stop c' =>
      refine .inr ⟨stop, c', bind_eq_error.mpr (.inl hwrite), .inr ?_⟩
      rw [fileWrite] at hwrite
      split_ifs at hwrite
      cases hwrite
      rfl
  · exact .inr ⟨stop, c, bind_eq_error.mpr (.inl herror), .inl rfl⟩

namespace RawStore

variable {c} {n : ℕ} {buffer : List Byte} {fromCache : Bool} {c' : ChdFile}

/-- **What a write leaves.** A hunk with a place is overwritten there. For one without, nothing
happens if it gets zeros, and else it is appended. -/
theorem writeHunk_ok (h : c.RawStore)
    (hn : n < c.hunkcount) (hok : writeHunk n buffer fromCache c = .ok () c') :
    (rawEntry c n ≠ 0 ∧ c.file.canWrite (c.placeOf n) buffer.length = true ∧
        c' = c.overwritten n buffer) ∨
      (rawEntry c n = 0 ∧ buffer.all (· = 0) = true ∧ c' = c) ∨
      rawEntry c n = 0 ∧ ¬ buffer.all (· = 0) = true ∧
        c.file.canWrite (c.nextPlace * c.hunkbytes) buffer.length = true ∧
        c' = if n = c.cachehunk ∧ ¬ fromCache then { c.appended n buffer with cache := buffer }
          else c.appended n buffer := by
  have hmap := h.four_mul_add_le hn
  have hmod := h.four_mul_mod hn
  rw [writeHunk, get_bind, if_neg (by omega)] at hok
  by_cases hwrites : c.allowWrites = true
  swap
  · rw [if_pos hwrites] at hok
    cases hok
  rw [if_neg (not_not_intro hwrites), h.uncompressed, if_neg Bool.false_ne_true, hmod,
    if_neg (by omega)] at hok
  by_cases hplace : rawEntry c n = 0
  swap
  · rw [if_pos hplace] at hok
    obtain ⟨hcan, rfl⟩ := fileWrite_eq_ok.mp hok
    exact .inl ⟨hplace, hcan, rfl⟩
  rw [if_neg (not_not_intro hplace)] at hok
  by_cases hzero : buffer.all (· = 0) = true
  · rw [if_pos hzero] at hok
    obtain ⟨-, rfl⟩ := pure_eq_ok.mp hok
    exact .inr (.inl ⟨hplace, hzero, rfl⟩)
  rw [if_neg hzero, allocateHunk, get_bind] at hok
  rcases c.fileAppend_cases h.hunkbytes_pos buffer with ⟨hcan, happend⟩ | ⟨stop, c₁, herror, -⟩
  swap
  · obtain ⟨_, _, happend, -⟩ := bind_eq_ok.mp hok
    rw [herror] at happend
    cases happend
  refine .inr (.inr ⟨hplace, hzero, hcan, ?_⟩)
  rw [bind_of_ok happend, Nat.mul_div_cancel _ h.hunkbytes_pos, hmod] at hok
  obtain ⟨_, c₁, hmodify, hok⟩ := bind_eq_ok.mp hok
  obtain rfl : c.withHunk n buffer = c₁ := (EStateM.Result.ok.inj hmodify).2
  obtain ⟨_, c₂, hwrite, hok⟩ := bind_eq_ok.mp hok
  obtain ⟨-, rfl⟩ := fileWrite_eq_ok.mp hwrite
  split_ifs at hok ⊢ with hcached
  · exact (EStateM.Result.ok.inj hok).2.symm
  · exact (EStateM.Result.ok.inj hok).2.symm

theorem writeHunk_error (h : c.RawStore) {stop : Stop}
    (herror : writeHunk n buffer fromCache c = .error stop c') : c' = c ∨ c' = c.padded ∨
      c' = c.withHunk n buffer ∧ c.file.canWrite (c.nextPlace * c.hunkbytes) buffer.length = true ∧
        ¬ c.file.canWrite (c.mapoffset + 4 * n) 4 = true := by
  rw [writeHunk, get_bind] at herror
  by_cases hn : c.hunkcount ≤ n
  · rw [if_pos hn] at herror
    cases herror
    exact .inl rfl
  have hmap := h.four_mul_add_le (Nat.lt_of_not_le hn)
  have hmod := h.four_mul_mod (Nat.lt_of_not_le hn)
  rw [if_neg hn] at herror
  by_cases hwrites : c.allowWrites = true
  swap
  · rw [if_pos hwrites] at herror
    cases herror
    exact .inl rfl
  rw [if_neg (not_not_intro hwrites), h.uncompressed, if_neg Bool.false_ne_true, hmod,
    if_neg (by omega)] at herror
  by_cases hplace : rawEntry c n = 0
  swap
  · rw [if_pos hplace, fileWrite] at herror
    split_ifs at herror
    cases herror
    exact .inl rfl
  rw [if_neg (not_not_intro hplace)] at herror
  by_cases hzero : buffer.all (· = 0) = true
  · rw [if_pos hzero] at herror
    cases herror
  rw [if_neg hzero, allocateHunk, get_bind] at herror
  rcases c.fileAppend_cases h.hunkbytes_pos buffer with ⟨hcan, happend⟩ | ⟨stop', c₁, herror', hc₁⟩
  swap
  · rcases bind_eq_error.mp herror with herror | ⟨_, _, hok, -⟩
    · obtain ⟨-, rfl⟩ := EStateM.Result.error.inj (herror'.symm.trans herror)
      rcases hc₁ with rfl | rfl
      · exact .inl rfl
      · exact .inr (.inl rfl)
    · rw [herror'] at hok
      cases hok
  rw [bind_of_ok happend, Nat.mul_div_cancel _ h.hunkbytes_pos, hmod] at herror
  rcases bind_eq_error.mp herror with herror | ⟨_, c₁, hmodify, herror⟩
  · cases herror
  obtain rfl : c.withHunk n buffer = c₁ := (EStateM.Result.ok.inj hmodify).2
  have hcanWrite : (c.withHunk n buffer).file.canWrite = c.file.canWrite := by
    show c.padded.file.canWrite = _
    rw [padded, onFile_file]
    split_ifs <;> rfl
  rcases bind_eq_error.mp herror with herror | ⟨_, c₂, -, herror⟩
  · rw [fileWrite] at herror
    split_ifs at herror with hentry
    cases herror
    rw [length_toBytes, hcanWrite] at hentry
    exact .inr (.inr ⟨rfl, hcan, hentry⟩)
  · split_ifs at herror <;> cases herror

theorem length_padded (hpos : 0 < c.hunkbytes) :
    c.padded.file.data.length = c.nextPlace * c.hunkbytes ∨
      c.padded.file = c.file ∧ c.file.data.length = c.nextPlace * c.hunkbytes := by
  have hsum := c.length_add_appendPadding hpos
  rw [padded, onFile_file]
  split_ifs with hzero
  · exact .inr ⟨rfl, by omega⟩
  · refine .inl ?_
    have hne : replicate (appendPadding c.file.data.length c.hunkbytes) (0 : Byte) ≠ [] := fun h ↦
      hzero (replicate_eq_nil_iff _ |>.mp h)
    show (c.file.data.writeAt _ _).length = _
    rw [length_writeAt _ hne, length_replicate, hsum]
    exact Nat.max_eq_right (by omega)

theorem read_padded {offset count : ℕ} (hinside : offset + count ≤ c.file.data.length) :
    c.padded.file.read offset count = c.file.read offset count := by
  rw [padded, onFile_file]
  split_ifs
  · rfl
  · exact CoreFile.read_put_of_disjoint hinside (disjoint_extent_of_le (.inl hinside))

/-- A file that grows, with places for all hunks. -/
theorem onFile (h : c.RawStore) {f : CoreFile → CoreFile}
    (hlen : c.file.data.length ≤ (f c.file).data.length)
    (hroom : (c.onFile f).nextPlace ≤ c.nextPlace) : (c.onFile f).RawStore :=
  ⟨h.version, h.uncompressed, h.hunkbytes_pos, h.hunkcount_lt, h.rawmap, h.map_inside.trans hlen,
    fun n hn hplace ↦ (h.inside n hn hplace).trans hlen, h.clear, h.apart,
    (Nat.add_le_add_right hroom _).trans h.room⟩

theorem nextPlace_of_length (hpos : 0 < c.hunkbytes) {k : ℕ}
    (hlen : c.file.data.length = k * c.hunkbytes) : c.nextPlace = k := by
  rw [nextPlace, hlen]
  refine Nat.div_eq_of_lt_le (by omega) ?_
  rw [succ_mul]
  omega

theorem length_le_padded (hpos : 0 < c.hunkbytes) :
    c.file.data.length ≤ c.padded.file.data.length := by
  rcases length_padded hpos with hlen | ⟨hsame, -⟩
  · rw [hlen]
    exact c.le_nextPlace hpos
  · rw [hsame]

theorem padded (h : c.RawStore) : c.padded.RawStore := by
  refine h.onFile (length_le_padded h.hunkbytes_pos) (Nat.le_of_eq ?_)
  refine nextPlace_of_length (c := c.padded) h.hunkbytes_pos ?_
  rcases length_padded h.hunkbytes_pos with hlen | ⟨hsame, hlen⟩
  · exact hlen
  · rw [hsame]
    exact hlen

theorem overwritten (h : c.RawStore) (hn : n < c.hunkcount) (hplace : rawEntry c n ≠ 0)
    (hlen : buffer.length = c.hunkbytes) : (c.overwritten n buffer).RawStore := by
  have hinside := h.inside n hn hplace
  have hsame : (c.file.put (c.placeOf n) buffer).data.length = c.file.data.length :=
    length_writeAt_of_le _ (by rw [hlen]; exact hinside)
  refine h.onFile hsame.ge (Nat.le_of_eq ?_)
  rw [nextPlace]
  exact congrArg (fun k ↦ (k + c.hunkbytes - 1) / c.hunkbytes) hsame

theorem length_withHunk (h : c.RawStore) (hlen : buffer.length = c.hunkbytes) :
    (c.withHunk n buffer).file.data.length = (c.nextPlace + 1) * c.hunkbytes := by
  have hpos := h.hunkbytes_pos
  have hne : buffer ≠ [] := by
    rintro rfl
    rw [length_nil] at hlen
    omega
  show (c.padded.file.data.writeAt (c.nextPlace * c.hunkbytes) buffer).length = _
  rw [length_writeAt _ hne, hlen, succ_mul]
  rcases length_padded hpos with hlen' | ⟨hsame, hlen'⟩
  · omega
  · rw [hsame]
    omega

theorem nextPlace_pos (h : c.RawStore) (hn : n < c.hunkcount) : 0 < c.nextPlace := by
  have hinside := h.map_inside
  have hpos := h.hunkbytes_pos
  rw [nextPlace, Nat.div_pos_iff]
  omega

section

variable (h : c.RawStore) (hn : n < c.hunkcount) (hplace : rawEntry c n = 0)

include h hn hplace

theorem nextPlace_lt : c.nextPlace < 2 ^ 32 := by
  have hroom := h.room
  have hmem : n ∈ c.unplaced := Finset.mem_filter.mpr ⟨Finset.mem_range.mpr hn, hplace⟩
  have hcard := Finset.card_pos.mpr ⟨n, hmem⟩
  omega

theorem rawEntry_withHunk (buffer : List Byte) (m : ℕ) (hm : m < c.hunkcount) :
    rawEntry (c.withHunk n buffer) m = if m = n then c.nextPlace else rawEntry c m := by
  have hmap := h.four_mul_add_le hn
  have hmap' := h.four_mul_add_le hm
  have hbytes : (toBytes 4 c.nextPlace).length = 4 := length_toBytes 4 _
  rw [rawEntry, rawEntry, h.four_mul_mod hm]
  show ofBytes (part (putPart c.rawmap (4 * n) (toBytes 4 c.nextPlace)) (4 * m) 4) = _
  split_ifs with heq
  · subst heq
    have hself : part (putPart c.rawmap (4 * m) (toBytes 4 c.nextPlace)) (4 * m) _ = _ :=
      part_putPart_self (by omega)
    rw [hbytes] at hself
    rw [hself]
    exact ofBytes_toBytes_of_lt (h.nextPlace_lt hn hplace)
  · rw [part_putPart_of_disjoint (by omega) hmap' (by omega)]

theorem unplaced_withHunk : (c.withHunk n buffer).unplaced = c.unplaced.erase n := by
  ext m
  show m ∈ Finset.filter _ (Finset.range c.hunkcount) ↔ _
  rw [Finset.mem_filter, Finset.mem_erase, unplaced, Finset.mem_filter, Finset.mem_range]
  have hpos := h.nextPlace_pos hn
  constructor
  · rintro ⟨hm, hzero⟩
    rw [h.rawEntry_withHunk hn hplace buffer m hm] at hzero
    split_ifs at hzero with heq
    · omega
    · exact ⟨heq, hm, hzero⟩
  · rintro ⟨heq, hm, hzero⟩
    rw [h.rawEntry_withHunk hn hplace buffer m hm, if_neg heq]
    exact ⟨hm, hzero⟩

theorem withHunk (hlen : buffer.length = c.hunkbytes) : (c.withHunk n buffer).RawStore := by
  have hpos := h.hunkbytes_pos
  have hlength := h.length_withHunk (n := n) hlen
  have hnext := c.le_nextPlace hpos
  have hmap := h.map_inside
  have hentry : ∀ m < c.hunkcount, rawEntry (c.withHunk n buffer) m =
      if m = n then c.nextPlace else rawEntry c m := h.rawEntry_withHunk hn hplace buffer
  have hold : c.file.data.length ≤ (c.withHunk n buffer).file.data.length := by
    rw [hlength, succ_mul]
    omega
  have hplaceOf : ∀ m < c.hunkcount, (c.withHunk n buffer).placeOf m =
      if m = n then c.nextPlace * c.hunkbytes else c.placeOf m := by
    intro m hm
    rw [placeOf, hentry m hm, placeOf]
    split_ifs <;> rfl
  -- the new place is behind all others
  have hbelow : ∀ m < c.hunkcount, rawEntry c m ≠ 0 → rawEntry c m < c.nextPlace := by
    intro m hm hplace'
    have hinside := h.inside m hm hplace'
    refine Nat.lt_of_mul_lt_mul_right (a := c.hunkbytes) ?_
    rw [placeOf] at hinside
    omega
  refine ⟨h.version, h.uncompressed, hpos, h.hunkcount_lt, ?_, hmap.trans hold,
    fun m hm hplace' ↦ ?_,
    fun m hm hplace' ↦ ?_, fun m hm m' hm' hne hplace' ↦ ?_, ?_⟩
  · show (putPart c.rawmap (4 * n) (toBytes 4 c.nextPlace)).length = _
    rw [length_putPart, h.rawmap]
    · rfl
    · rw [length_toBytes]
      exact h.four_mul_add_le hn
  · rw [hplaceOf m hm]
    split_ifs with heq
    · rw [hlength, succ_mul]
      exact Nat.le_refl _
    · rw [hentry m hm, if_neg heq] at hplace'
      exact (h.inside m hm hplace').trans hold
  · rw [hplaceOf m hm]
    split_ifs with heq
    · exact disjoint_extent_of_le (.inr (hmap.trans hnext))
    · rw [hentry m hm, if_neg heq] at hplace'
      exact h.clear m hm hplace'
  · rw [hentry m hm] at hplace' ⊢
    rw [hentry m' hm']
    split_ifs at hplace' ⊢ with heq heq'
    · omega
    · by_cases hzero : rawEntry c m' = 0
      · omega
      · exact (hbelow m' hm' hzero).ne'
    · exact (hbelow m hm hplace').ne
    · exact h.apart m hm m' hm' hne hplace'
  · have hroom := h.room
    have hmem : n ∈ c.unplaced := Finset.mem_filter.mpr ⟨Finset.mem_range.mpr hn, hplace⟩
    have hcard := Finset.card_pos.mpr ⟨n, hmem⟩
    rw [nextPlace_of_length (c := c.withHunk n buffer) hpos hlength, h.unplaced_withHunk hn hplace,
      Finset.card_erase_of_mem hmem]
    omega

theorem appended (hlen : buffer.length = c.hunkbytes) : (c.appended n buffer).RawStore := by
  have hraw := h.withHunk hn hplace hlen
  have hsame :
      ((c.withHunk n buffer).file.put (c.mapoffset + 4 * n) (toBytes 4 c.nextPlace)).data.length =
      (c.withHunk n buffer).file.data.length := by
    refine length_writeAt_of_le _ ?_
    have hmap : c.mapoffset + 4 * c.hunkcount ≤ (c.withHunk n buffer).file.data.length :=
      hraw.map_inside
    rw [length_toBytes]
    omega
  refine hraw.onFile hsame.ge (Nat.le_of_eq ?_)
  exact congrArg (fun k ↦ (k + c.hunkbytes - 1) / c.hunkbytes) hsame

end

/-! ## What hunks hold after a write -/

variable {codecs : Codecs} {ps : List ChdFile} {m : ℕ} {bytes : List Byte}

theorem holds_iff_of_read_eq (h : c.RawStore) (h' : c'.RawStore)
    (hhunkbytes : c'.hunkbytes = c.hunkbytes)
    (hhunkcount : c'.hunkcount = c.hunkcount) (hmissing : c'.parentMissing = c.parentMissing)
    (hentry : rawEntry c' m = rawEntry c m) (hread : m < c.hunkcount → rawEntry c m ≠ 0 →
      c'.file.read (c.placeOf m) c.hunkbytes = c.file.read (c.placeOf m) c.hunkbytes) :
    Holds codecs (c' :: ps) m bytes ↔ Holds codecs (c :: ps) m bytes := by
  refine ⟨h'.holds_of_read_eq h hhunkbytes.symm hhunkcount.symm hmissing.symm hentry.symm ?_,
    h.holds_of_read_eq h' hhunkbytes hhunkcount hmissing hentry hread⟩
  intro hm hplace
  have hsame : c'.placeOf m = c.placeOf m := by rw [placeOf, placeOf, hentry, hhunkbytes]
  rw [hsame, hhunkbytes, hread (hhunkcount ▸ hm) (hentry ▸ hplace)]

theorem disjoint_places (h : c.RawStore) (hm : m < c.hunkcount) (hn : n < c.hunkcount) (hne : m ≠ n)
    (hplace : rawEntry c m ≠ 0) :
    Disjoint (extent (c.placeOf m) c.hunkbytes) (extent (c.placeOf n) c.hunkbytes) := by
  refine disjoint_extent_of_le ?_
  rw [placeOf, placeOf]
  rcases Nat.lt_or_gt_of_ne (h.apart m hm n hn hne hplace) with hlt | hlt
  · refine .inl ?_
    rw [← succ_mul]
    exact Nat.mul_le_mul_right _ hlt
  · refine .inr ?_
    rw [← succ_mul]
    exact Nat.mul_le_mul_right _ hlt

theorem holds_padded (h : c.RawStore) :
    Holds codecs (c.padded :: ps) m bytes ↔ Holds codecs (c :: ps) m bytes :=
  h.holds_iff_of_read_eq h.padded rfl rfl rfl rfl fun hm hplace ↦ read_padded (h.inside m hm hplace)

theorem holds_overwritten (h : c.RawStore) (codecs : Codecs) (ps : List ChdFile)
    (hn : n < c.hunkcount) (hplace : rawEntry c n ≠ 0) (hlen : buffer.length = c.hunkbytes)
    (hcan : c.file.canWrite (c.placeOf n) buffer.length = true) :
    Holds codecs (c.overwritten n buffer :: ps) n buffer ∧
      ∀ m bytes, m ≠ n →
        (Holds codecs (c.overwritten n buffer :: ps) m bytes ↔ Holds codecs (c :: ps) m bytes) := by
  have hraw := h.overwritten hn hplace hlen
  constructor
  · refine (hraw.holds_iff_of_ne hn hplace).mpr ?_
    have hread := CoreFile.read_put_self hcan
    rw [hlen] at hread
    exact hread
  · intro m bytes hne
    refine h.holds_iff_of_read_eq hraw rfl rfl rfl rfl fun hm hplace' ↦ ?_
    refine CoreFile.read_put_of_disjoint (h.inside m hm hplace') ?_
    rw [hlen]
    exact h.disjoint_places hm hn hne hplace'

theorem holds_appended (h : c.RawStore) (codecs : Codecs) (ps : List ChdFile) (hn : n < c.hunkcount)
    (hplace : rawEntry c n = 0) (hlen : buffer.length = c.hunkbytes)
    (hcan : c.file.canWrite (c.nextPlace * c.hunkbytes) buffer.length = true) :
    Holds codecs (c.appended n buffer :: ps) n buffer ∧
      ∀ m bytes, m ≠ n →
        (Holds codecs (c.appended n buffer :: ps) m bytes ↔ Holds codecs (c :: ps) m bytes) := by
  have hraw : (c.appended n buffer).RawStore := h.appended hn hplace hlen
  have hentry : ∀ m < c.hunkcount, rawEntry (c.withHunk n buffer) m =
      if m = n then c.nextPlace else rawEntry c m := h.rawEntry_withHunk hn hplace buffer
  have hpos := h.nextPlace_pos hn
  have hnext := c.le_nextPlace h.hunkbytes_pos
  have hmap := h.map_inside
  have hbytes : (toBytes 4 c.nextPlace).length = 4 := length_toBytes 4 _
  have hlength := h.length_withHunk (n := n) hlen
  have hcan' : c.padded.file.canWrite = c.file.canWrite := by
    rw [ChdFile.padded, onFile_file]
    split_ifs <;> rfl
  constructor
  · have hself : rawEntry (c.appended n buffer) n = c.nextPlace := (hentry n hn).trans (if_pos rfl)
    refine (hraw.holds_iff_of_ne hn (by omega)).mpr ?_
    rw [placeOf, hself]
    have hread : (c.padded.file.put (c.nextPlace * c.hunkbytes) buffer).read _ buffer.length = _ :=
      CoreFile.read_put_self (hcan' ▸ hcan)
    rw [hlen] at hread
    refine Eq.trans (CoreFile.read_put_of_disjoint ?_ (disjoint_extent_of_le (.inr ?_))) hread
    · show c.nextPlace * c.hunkbytes + c.hunkbytes ≤ (c.withHunk n buffer).file.data.length
      rw [hlength, succ_mul]
    · rw [hbytes]
      show c.mapoffset + 4 * n + 4 ≤ c.nextPlace * c.hunkbytes
      omega
  · intro m bytes hne
    by_cases hm : m < c.hunkcount
    swap
    · have hout : ∀ alone, (c.appended n buffer).entry codecs alone m = c.entry codecs alone m := by
        intro alone
        rw [entry, entry, if_pos (Nat.le_of_not_lt hm), if_pos]
        exact Nat.le_of_not_lt hm
      exact ⟨hraw.holds_of_entry_eq rfl (hout _).symm, h.holds_of_entry_eq rfl (hout _)⟩
    refine h.holds_iff_of_read_eq hraw rfl rfl rfl
      ((hentry m hm).trans (if_neg hne)) fun _ hplace' ↦ ?_
    have hinside := h.inside m hm hplace'
    -- the hunk keeps clear of the map, of the new place and of the padding
    have hmapped : extent (c.mapoffset + 4 * n) 4 ⊆ extent c.mapoffset (4 * c.hunkcount) :=
      extent_subset (by omega) (by omega)
    have hfirst : (c.appended n buffer).file.read (c.placeOf m) c.hunkbytes =
        (c.withHunk n buffer).file.read (c.placeOf m) c.hunkbytes := by
      refine CoreFile.read_put_of_disjoint ?_ ?_
      · rw [hlength, succ_mul]
        omega
      · rw [hbytes]
        exact (h.clear m hm hplace').mono_right hmapped
    have hsecond : (c.withHunk n buffer).file.read (c.placeOf m) c.hunkbytes =
        c.padded.file.read (c.placeOf m) c.hunkbytes :=
      CoreFile.read_put_of_disjoint (hinside.trans (length_le_padded h.hunkbytes_pos))
        (disjoint_extent_of_le (.inl (hinside.trans hnext)))
    rw [hfirst, hsecond, read_padded hinside]

end RawStore

end ChdFile

end RoscoEmulator.Chd
