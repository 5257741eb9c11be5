import RoscoEmulator.Chd.Create
import RoscoEmulator.Chd.Open
import RoscoEmulator.Chd.Outcomes

/-!
# Open CHDs

What is known of a CHD that `open` has accepted. Every parent is a CHD that was opened before.
-/

namespace RoscoEmulator.Chd

open List BigEndian Pieces AccessM

/-- CHDs that have been opened, each with those behind it as its parents. -/
inductive Opened (opener : Opener) : List ChdFile → Prop
  | nil : Opened opener []
  | cons {how : Opening} {file : CoreFile} {c : ChdFile} {ps qs : List ChdFile}
      (opened : openCommon opener how file = .ok (c :: ps)) (same : Same ps qs)
      (parents : Opened opener qs) : Opened opener (c :: ps)

/-- The size of an entry of the map. -/
def ChdFile.entrySize (c : ChdFile) : ℕ :=
  if c.version = 5 then if c.compressed then 12 else 4 else 16

/-- What a header says that is accepted. -/
structure HeaderOk (c : ChdFile) : Prop where
  version : c.version = 3 ∨ c.version = 4 ∨ c.version = 5
  hunkcount_lt : c.hunkcount < 2 ^ 32
  mapentrybytes : c.mapentrybytes = c.entrySize
  unitbytes : c.unitbytes ≠ 0
  hunkbytes : c.version = 5 → c.hunkbytes ≠ 0

/-- What `open` accepts. -/
structure OpenOk (c : ChdFile) (ps : List ChdFile) : Prop extends HeaderOk c where
  rawmap : c.rawmap.length = c.entrySize * c.hunkcount % 2 ^ 32
  missing : c.parentMissing = true → ps = []

/-! ## Headers -/

theorem ofBytes_part_lt (raw : List Byte) (pos count : ℕ) :
    ofBytes (part raw pos count) < 256 ^ count := by
  refine Nat.lt_of_lt_of_le (ofBytes_lt _) (Nat.pow_le_pow_right (by decide) ?_)
  rw [part, length_take]
  exact Nat.min_le_left _ _

/-- A computation in sequence is fine if both parts are. -/
theorem except_bind_eq_ok {ε α β : Type} {x : Except ε α} {f : α → Except ε β} {b : β}
    (h : (x >>= f) = .ok b) : ∃ a, x = .ok a ∧ f a = .ok b := by
  cases x with
  | error e => cases h
  | ok a => exact ⟨a, rfl, h⟩

variable {chds : List ChdFile} {file : CoreFile} {c : ChdFile} {rawmap sha1 : List Byte}

theorem headerOk_parseOldHeader {l : OldLayout} {version : ℕ} {raw : List Byte}
    (hversion : version = 3 ∨ version = 4)
    (h : parseOldHeader l version file raw = .ok (c, sha1)) : HeaderOk c := by
  rw [parseOldHeader] at h
  by_cases hsize : ofBytes (part raw 8 4) ≠ l.headerSize
  · rw [if_pos hsize] at h
    cases h
  rw [if_neg hsize] at h
  obtain ⟨codec, -, h⟩ := except_bind_eq_ok h
  obtain ⟨unitbytes, -, h⟩ := except_bind_eq_ok h
  by_cases hunit : unitbytes = 0
  · rw [if_pos hunit] at h
    cases h
  rw [if_neg hunit] at h
  obtain ⟨rfl, -⟩ := Prod.mk.inj (Except.ok.inj h)
  have hne : version ≠ 5 := by omega
  refine ⟨?_, ofBytes_part_lt raw 24 4, ?_, hunit, fun h5 ↦ absurd h5 hne⟩
  · show version = 3 ∨ version = 4 ∨ version = 5
    omega
  · rw [ChdFile.entrySize, if_neg hne]

theorem headerOk_parseV5Header {raw : List Byte} (h : parseV5Header file raw = .ok (c, sha1)) :
    HeaderOk c := by
  rw [parseV5Header] at h
  by_cases hsize : ofBytes (part raw 8 4) ≠ 124
  · simp only [if_pos hsize] at h
    cases h
  simp only [if_neg hsize] at h
  by_cases hzero : ofBytes (part raw 56 4) = 0 ∨ ofBytes (part raw 60 4) = 0
  · rw [if_pos hzero] at h
    cases h
  rw [if_neg hzero] at h
  obtain ⟨rfl, -⟩ := Prod.mk.inj (Except.ok.inj h)
  rw [not_or] at hzero
  refine ⟨.inr (.inr rfl), Nat.mod_lt _ (by decide), ?_, hzero.2, fun _ ↦ hzero.1⟩
  rw [ChdFile.entrySize, if_pos rfl, ChdFile.compressed]
  simp only [decide_eq_true_eq]

theorem headerOk_parseHeader (h : parseHeader file = .ok (c, sha1)) : HeaderOk c := by
  obtain ⟨raw, -, h⟩ := except_bind_eq_ok h
  by_cases htag : part raw 0 8 ≠ [77, 67, 111, 109, 112, 114, 72, 68]
  · rw [if_pos htag] at h
    cases h
  rw [if_neg htag] at h
  split at h
  · exact headerOk_parseOldHeader (.inl rfl) h
  · exact headerOk_parseOldHeader (.inr rfl) h
  · exact headerOk_parseV5Header h
  · cases h

/-! ## Maps -/

theorem MapEntry.length_bytes (e : MapEntry) : e.bytes.length = 12 := by
  simp [MapEntry.bytes]

theorem length_flatMap_bytes (entries : List MapEntry) :
    (entries.flatMap MapEntry.bytes).length = 12 * entries.length := by
  induction entries with
  | nil => rfl
  | cons e entries ih =>
    rw [flatMap_cons, length_append, ih, e.length_bytes, length_cons]
    omega

theorem length_decodeTypes {lookup : Util.Lookup} {hunks lastcomp count : ℕ}
    {b b' : Util.BitstreamIn} {comps : List ℕ}
    (h : decodeTypes lookup hunks lastcomp count b = some (comps, b')) : comps.length = hunks := by
  induction hunks generalizing lastcomp count b comps with
  | zero =>
    cases h
    rfl
  | succ hunks ih =>
    have hcons : ∀ {lastcomp count : ℕ} {x : ℕ} {b : Util.BitstreamIn},
        (decodeTypes lookup hunks lastcomp count b).map (fun rest ↦ (x :: rest.1, rest.2)) =
          some (comps, b') → comps.length = hunks + 1 := by
      intro lastcomp count x b h
      obtain ⟨⟨rest, b₁⟩, hrest, heq⟩ := Option.map_eq_some_iff.mp h
      obtain ⟨rfl, rfl⟩ := Prod.mk.inj heq
      rw [length_cons, ih hrest]
    cases count with
    | succ count => exact hcons h
    | zero =>
      obtain ⟨⟨val, b₁⟩, -, h⟩ := Option.bind_eq_some_iff.mp h
      dsimp only at h
      split_ifs at h with hsmall hlarge
      · obtain ⟨⟨x, b₂⟩, -, h⟩ := Option.bind_eq_some_iff.mp h
        exact hcons h
      · obtain ⟨⟨x, b₂⟩, -, h⟩ := Option.bind_eq_some_iff.mp h
        obtain ⟨⟨y, b₃⟩, -, h⟩ := Option.bind_eq_some_iff.mp h
        exact hcons h
      · exact hcons h

theorem length_decodeEntries {z : MapSizes} {w : FieldWidths} {hunknum : ℕ} {comps : List ℕ}
    {r : Running} {b : Util.BitstreamIn} {entries : List MapEntry}
    (h : decodeEntries z w hunknum comps r b = some entries) : entries.length = comps.length := by
  induction comps generalizing hunknum r b entries with
  | nil =>
    cases h
    rfl
  | cons comp comps ih =>
    obtain ⟨⟨e, r₁, b₁⟩, -, h⟩ := Option.bind_eq_some_iff.mp h
    obtain ⟨rest, hrest, rfl⟩ := Option.map_eq_some_iff.mp h
    rw [length_cons, length_cons, ih hrest]

theorem length_decompressedMap {z : MapSizes} {hunkcount : ℕ} {rawbuf compressed : List Byte}
    (h : decompressedMap z hunkcount rawbuf compressed = .ok rawmap) :
    rawmap.length = 12 * hunkcount ∧ 12 * hunkcount < 2 ^ 32 := by
  simp only [decompressedMap] at h
  split at h
  · cases h
  · cases h
  · split_ifs at h with hlarge
    split at h
    · cases h
    · rename_i entries hentries
      split_ifs at h with hcrc
      cases h
      obtain ⟨⟨comps, b₁⟩, hcomps, hentries⟩ := Option.bind_eq_some_iff.mp hentries
      refine ⟨?_, by omega⟩
      rw [length_flatMap_bytes, length_decodeEntries hentries, length_decodeTypes hcomps]

theorem length_decompressV5Map (h : decompressV5Map c = .ok rawmap) :
    rawmap.length = 12 * c.hunkcount % 2 ^ 32 := by
  rw [decompressV5Map] at h
  split_ifs at h with hzero
  · cases h
    exact length_replicate ..
  · split at h
    · cases h
    · split at h
      · cases h
      · obtain ⟨hlen, hlt⟩ := length_decompressedMap h
        rw [hlen, Nat.mod_eq_of_lt hlt]

theorem length_readMap (hc : HeaderOk c) (h : readMap c = .ok rawmap) :
    rawmap.length = c.entrySize * c.hunkcount % 2 ^ 32 := by
  have hversion := hc.version
  rw [readMap] at h
  split_ifs at h with hcomp
  · rw [length_decompressV5Map h, ChdFile.entrySize, if_pos (by omega), if_pos hcomp.2]
  · split at h
    · rename_i bytes hread
      cases h
      rw [(CoreFile.read_eq_ok hread).2, ChdFile.rawmapSize, hc.mapentrybytes, Nat.mul_comm]
    · cases h

/-! ## Opening -/

theorem openOk_of_openCommon {opener : Opener} {how : Opening} {ps : List ChdFile}
    (h : openCommon opener how file = .ok (c :: ps)) : OpenOk c ps := by
  rw [openCommon] at h
  split at h
  · cases h
  rename_i c₀ sha1 hparse
  split_ifs at h with hwrite
  split at h
  · cases h
  rename_i parents hparent
  split at h
  · cases h
  rename_i c₁ hcreate
  obtain ⟨rfl, rfl⟩ := List.cons.inj (Except.ok.inj h)
  have hheader : HeaderOk { c₀ with parentMissing := sha1 ≠ Util.sha1Null ∧ parents = [] } := by
    obtain ⟨hversion, hcount, hmap, hunit, hhunk⟩ := headerOk_parseHeader hparse
    exact ⟨hversion, hcount, hmap, hunit, hhunk⟩
  rw [createOpenCommon] at hcreate
  split at hcreate
  · cases hcreate
  split at hcreate
  · cases hcreate
  rename_i rawmap hmap
  cases hcreate
  have hlen := length_readMap hheader hmap
  obtain ⟨hversion, hcount, hmap, hunit, hhunk⟩ := hheader
  refine ⟨⟨hversion, hcount, hmap, hunit, hhunk⟩, hlen, fun hmissing ↦ ?_⟩
  exact (of_decide_eq_true hmissing).2

/-- What `open` accepts does not depend on the cache. -/
theorem OpenOk.of_same {c' : ChdFile} {ps ps' : List ChdFile} (h : OpenOk c ps)
    (hc : c.bare = c'.bare) (hps : Same ps ps') : OpenOk c' ps' := by
  have hbare : OpenOk c.bare ps :=
    ⟨⟨h.version, h.hunkcount_lt, h.mapentrybytes, h.unitbytes, h.hunkbytes⟩, h.rawmap, h.missing⟩
  rw [hc] at hbare
  refine ⟨⟨hbare.version, hbare.hunkcount_lt, hbare.mapentrybytes, hbare.unitbytes,
    hbare.hunkbytes⟩, hbare.rawmap, fun hmissing ↦ ?_⟩
  obtain rfl := hbare.missing hmissing
  exact List.map_eq_nil_iff.mp hps.symm

/-- A CHD and its parents are as `open` accepts them. -/
def Accepted : List ChdFile → Prop
  | [] => True
  | c :: ps => OpenOk c ps ∧ Accepted ps

theorem Accepted.of_same {chds' : List ChdFile} (h : Accepted chds) (hsame : Same chds chds') :
    Accepted chds' := by
  induction chds generalizing chds' with
  | nil =>
    obtain rfl : chds' = [] := List.map_eq_nil_iff.mp hsame.symm
    trivial
  | cons c ps ih =>
    obtain ⟨c', ps', rfl, hc, hps⟩ := hsame.eq_cons
    exact ⟨h.1.of_same hc hps, ih h.2 hps⟩

theorem Accepted.of_suffix {chds' : List ChdFile} (h : Accepted chds) (hsuffix : chds' <:+ chds) :
    Accepted chds' := by
  obtain ⟨front, rfl⟩ := hsuffix
  induction front with
  | nil => exact h
  | cons d front ih => exact ih h.2

theorem Opened.accepted {opener : Opener} (h : Opened opener chds) : Accepted chds := by
  induction h with
  | nil => trivial
  | cons opened same _ ih => exact ⟨openOk_of_openCommon opened, ih.of_same same.symm⟩

/-! ## A hunk that cannot be read -/

namespace OpenOk

variable {c : ChdFile} {ps : List ChdFile} (h : OpenOk c ps)

include h

/-- The map of a CHD with as many hunks as can be numbered is too short. -/
theorem exists_broken (codecs : Codecs) (alone : Bool) :
    ∃ hunknum < noHunk, (c.entry codecs alone hunknum).Broken := by
  have hcount := h.hunkcount_lt
  by_cases hlt : c.hunkcount < 2 ^ 32 - 1
  · refine ⟨c.hunkcount, hlt, ?_⟩
    rw [ChdFile.entry, if_pos (Nat.le_refl _)]
    trivial
  have hall : c.hunkcount = 2 ^ 32 - 1 := by omega
  have hmap := h.rawmap
  have hoverrun : ∀ {count n : ℕ} {entry : List Byte → HunkEntry},
      c.rawmap.length < count * n % 2 ^ 32 + count → (c.entryAt count n entry).Broken := by
    intro count n entry hlen
    rw [ChdFile.entryAt, if_neg (by omega)]
    trivial
  rw [hall, ChdFile.entrySize] at hmap
  by_cases hnew : c.version = 5
  · rw [if_pos hnew] at hmap
    by_cases hcomp : c.compressed = true
    · rw [if_pos hcomp] at hmap
      refine ⟨(2 ^ 32 - 4) / 12, by decide, ?_⟩
      rw [ChdFile.entry, hall, if_neg (by decide), if_neg (by omega), if_pos hnew, if_pos hcomp]
      exact hoverrun (by rw [hmap]; decide)
    · rw [if_neg hcomp] at hmap
      refine ⟨2 ^ 30 - 1, by decide, ?_⟩
      rw [ChdFile.entry, hall, if_neg (by decide), if_neg (by omega), if_pos hnew, if_neg hcomp]
      exact hoverrun (by rw [hmap]; decide)
  · rw [if_neg hnew] at hmap
    have hold : c.version = 3 ∨ c.version = 4 := by
      have hversion := h.version
      omega
    refine ⟨2 ^ 28 - 1, by decide, ?_⟩
    rw [ChdFile.entry, hall, if_neg (by decide), if_pos hold]
    exact hoverrun (by rw [hmap]; decide)

end OpenOk

/-! ## A file of version 3 with one hunk -/

/-- No codec, and no constructor that refuses anything. -/
def Opener.none : Opener := ⟨.none, fun _ _ ↦ .none⟩

/-- A file is opened for reads, without a parent. -/
def Opening.alone : Opening := ⟨false, [], fun _ ↦ []⟩

/-- A file of version 3 with one hunk of eight bytes, without metadata. -/
def hunkFile (compression : ℕ) (rawmap : List Byte) : CoreFile :=
  .ofData (bytesFile ([77, 67, 111, 109, 112, 114, 72, 68] ++ toBytes 4 120 ++ toBytes 4 3 ++
    toBytes 4 0 ++ toBytes 4 compression ++ toBytes 4 1 ++ toBytes 8 8 ++ toBytes 8 0 ++
    replicate 32 0 ++ toBytes 4 8 ++ replicate 40 0 ++ rawmap))

/-- What an open file says about its hunks and its metadata. -/
def ChdFile.summary (c : ChdFile) : ℕ × ℕ × ℕ × List Byte :=
  (c.version, c.hunkcount, c.metaoffset, c.rawmap)

theorem exists_opened {β : Type} (opener : Opener) (file : CoreFile) (f : ChdFile → β) (b : β)
    (h : (openCommon opener .alone file).toOption.map (·.map f) = some [b]) :
    ∃ c, openCommon opener .alone file = .ok [c] ∧ f c = b := by
  cases hchds : openCommon opener .alone file with
  | error stop =>
    rw [hchds] at h
    cases h
  | ok chds =>
    rw [hchds] at h
    obtain ⟨c, rfl, hc⟩ := List.map_eq_singleton_iff.mp (Option.some.inj h)
    exact ⟨c, rfl, hc⟩

end RoscoEmulator.Chd
