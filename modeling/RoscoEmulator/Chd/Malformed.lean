import RoscoEmulator.Chd.Opened

/-!
# Malformed CHDs

What `read_hunk` does with map entries that `open` has not looked at. A hunk is read without a
fault, for any contents of the caches, if and only if its entry and those that it leads to are in
order: the compressed data have room in the buffer for them, there is a decompressor for data that
can be read, and a parent that is read is there and has hunks. -/

namespace RoscoEmulator.Chd

open List BigEndian Pieces AccessM ChdFile

/-! ## Entries that are in order -/

namespace ChdFile

variable (c : ChdFile) (ps : List ChdFile)

/-- The compressed data of a hunk have room in the buffer, and if they are all there, there is a
decompressor for them. -/
def CodecFits (slot : Fin 4) (blockoffs blocklen : ℕ) : Prop :=
  (c.file.arrived blockoffs blocklen).length ≤ c.hunkbytes ∧
    ∀ src, c.file.read blockoffs blocklen = .ok src → c.compression slot ≠ 0

/-- An entry of versions 3 and 4 is in order. -/
def V34Fits (rawmap : List Byte) : Prop :=
  match (rawmap.getD 15 0 &&& 0x0f).toNat with
  | 1 => c.CodecFits 0 (ofBytes (part rawmap 0 8))
      (ofBytes (part rawmap 12 2) + (rawmap.getD 14 0).toNat * 2 ^ 16)
  | 5 => c.parentMissing = true ∨ ps ≠ []
  | _ => True

/-- An entry of version 5 with compression is in order. -/
def V5Fits (rawmap : List Byte) : Prop :=
  match (rawmap.getD 0 0).toNat with
  | 0 | 1 | 2 | 3 => c.CodecFits (Fin.ofNat 4 (rawmap.getD 0 0).toNat) (ofBytes (part rawmap 4 6))
      (ofBytes (part rawmap 1 3))
  | 6 => c.parentMissing = true ∨ ∃ p ∈ ps.head?, p.hunkbytes ≠ 0
  | _ => True

/-- The map has an entry for a hunk, and it is in order. -/
def EntryFits (hunknum : ℕ) : Prop :=
  c.entrySize * hunknum % 2 ^ 32 + c.entrySize ≤ c.rawmap.length ∧
    if c.version = 5 then
      c.compressed = true → c.V5Fits ps (part c.rawmap (12 * hunknum % 2 ^ 32) 12)
    else c.V34Fits ps (part c.rawmap (16 * hunknum % 2 ^ 32) 16)

end ChdFile

/-- The entry of a hunk does not lead to a fault by itself. -/
def HunkEntry.Harmless (ps : List ChdFile) : HunkEntry → Prop
  | broken stop _ => ∀ f, stop ≠ .fault f
  | parent _ => ps ≠ []
  | parentBytes _ => ∃ p ∈ ps.head?, p.hunkbytes ≠ 0
  | _ => True

section

variable {codecs : Codecs} {c : ChdFile} {ps chds : List ChdFile}

theorem harmless_data (ps : List ChdFile) (bytes : List Byte) :
    (HunkEntry.data bytes).Harmless ps := trivial

theorem harmless_error (ps : List ChdFile) (e : Error) (leaves : List Byte → List Byte) :
    (HunkEntry.broken (.error e) leaves).Harmless ps := fun _ h ↦ by cases h

theorem not_harmless_fault (ps : List ChdFile) (f : Fault) (leaves : List Byte → List Byte) :
    ¬ (HunkEntry.broken (.fault f) leaves).Harmless ps := fun h ↦ h f rfl

theorem harmless_codecEntry {slot : Fin 4}
    {blockoffs blocklen : ℕ} {valid : BitVec 32 → List Byte → List Byte → Bool} :
    (c.codecEntry codecs slot blockoffs blocklen valid).Harmless ps ↔
      c.CodecFits slot blockoffs blocklen := by
  constructor
  · intro h
    have hroom : ¬ c.hunkbytes < (c.file.arrived blockoffs blocklen).length := fun hover ↦ by
      rw [codecEntry, if_pos hover] at h
      exact not_harmless_fault _ _ _ h
    refine ⟨by omega, fun src hread hslot ↦ ?_⟩
    rw [codecEntry, if_neg hroom] at h
    simp only [hread, if_pos hslot] at h
    exact not_harmless_fault _ _ _ h
  · rintro ⟨hroom, hslot⟩
    exact codecEntry_rule (harmless_data ps) (harmless_error ps)
      (fun hover ↦ absurd hover (by omega)) fun src hread hnone ↦ absurd hnone (hslot src hread)

theorem harmless_parentEntry {e : HunkEntry} :
    (c.parentEntry e).Harmless ps ↔ c.parentMissing = true ∨ e.Harmless ps := by
  rw [parentEntry]
  split_ifs with hmissing
  · exact iff_of_true (harmless_error _ _ _) (.inl hmissing)
  · exact (or_iff_right hmissing).symm

theorem harmless_entryAt {count n : ℕ} {entry : List Byte → HunkEntry} :
    (c.entryAt count n entry).Harmless ps ↔ count * n % 2 ^ 32 + count ≤ c.rawmap.length ∧
      (entry (part c.rawmap (count * n % 2 ^ 32) count)).Harmless ps := by
  rw [ChdFile.entryAt]
  split_ifs with hmap
  · exact (and_iff_right hmap).symm
  · exact iff_of_false (not_harmless_fault _ _ _) fun h ↦ hmap h.1

theorem harmless_entryV34 (rawmap : List Byte) :
    (c.entryV34 codecs rawmap).Harmless ps ↔ c.V34Fits ps rawmap := by
  rw [entryV34, ChdFile.V34Fits]
  generalize (rawmap.getD 15 0 &&& 0x0f).toNat = type
  rcases type with _ | _ | _ | _ | _ | _ | type
  · exact iff_of_true (harmless_error _ _ _) trivial
  · exact harmless_codecEntry
  · exact iff_of_true (storedEntry_rule (harmless_data ps) (harmless_error ps) _ _) trivial
  · exact iff_of_true (checkedEntry_rule (harmless_data ps) (harmless_error ps)) trivial
  · exact iff_of_true trivial trivial
  · exact harmless_parentEntry
  · exact iff_of_true (harmless_error _ _ _) trivial

theorem harmless_entryV5 (rawmap : List Byte) :
    (c.entryV5 codecs rawmap).Harmless ps ↔ c.V5Fits ps rawmap := by
  rw [entryV5, ChdFile.V5Fits]
  generalize (rawmap.getD 0 0).toNat = type
  rcases type with _ | _ | _ | _ | _ | _ | _ | type
  · exact harmless_codecEntry
  · exact harmless_codecEntry
  · exact harmless_codecEntry
  · exact harmless_codecEntry
  · exact iff_of_true (storedEntry_rule (harmless_data ps) (harmless_error ps) _ _) trivial
  · exact iff_of_true trivial trivial
  · exact harmless_parentEntry
  · exact iff_of_true (harmless_error _ _ _) trivial

/-- Without compression, a hunk is in the file or in a parent that is there. -/
theorem harmless_entryRaw (n : ℕ) (rawmap : List Byte) :
    (c.entryRaw ps.isEmpty n rawmap).Harmless ps := by
  rw [entryRaw]
  split_ifs with hzero
  · exact storedEntry_rule (harmless_data ps) (harmless_error ps) _ _
  · exact harmless_parentEntry.mpr (.inr trivial)
  · refine harmless_parentEntry.mpr (.inr ?_)
    rintro rfl
    contradiction

/-- **Entries.** The entry of a hunk is harmless exactly if it is in order. -/
theorem harmless_entry (hok : OpenOk c ps) {n : ℕ} (hn : n < c.hunkcount) :
    (c.entry codecs ps.isEmpty n).Harmless ps ↔ c.EntryFits ps n := by
  have hversion := hok.version
  rw [ChdFile.entry, if_neg (by omega), ChdFile.EntryFits, entrySize]
  by_cases hnew : c.version = 5
  · rw [if_neg (by omega), if_pos hnew, if_pos hnew, if_pos hnew]
    by_cases hcomp : c.compressed = true
    · rw [if_pos hcomp, if_pos hcomp, harmless_entryAt, harmless_entryV5]
      exact and_congr_right fun _ ↦ (imp_iff_right hcomp).symm
    · rw [if_neg hcomp, if_neg hcomp, harmless_entryAt]
      exact and_congr_right fun _ ↦ iff_of_true (harmless_entryRaw _ _) fun h ↦ absurd h hcomp
  · rw [if_pos (by omega), if_neg hnew, if_neg hnew, harmless_entryAt, harmless_entryV34]

/-! ## Reads without faults -/

/-- No read of a hunk ends in a fault. -/
def ReadsWithoutFault (codecs : Codecs) (c : ChdFile) (ps : List ChdFile) : Prop :=
  ∀ s, InUse codecs (c :: ps) s.chds → ∀ fuel hunknum f s',
    readHunk codecs fuel hunknum s ≠ .error (.fault f) s'

theorem version_of_parentBytes {alone : Bool} {n b : ℕ}
    (h : c.entry codecs alone n = .parentBytes b) : c.version = 5 := by
  have hrule : ∀ b, c.entry codecs alone n = .parentBytes b → c.version = 5 :=
    entry_rule (P := fun e ↦ ∀ b, e = .parentBytes b → c.version = 5) (fun _ _ h ↦ (by cases h))
      (fun _ _ _ h ↦ (by cases h)) (fun _ _ h ↦ (by cases h)) (fun _ _ _ h ↦ (by cases h))
      (fun _ _ h ↦ (by cases h)) (fun hversion _ _ _ ↦ hversion) alone n
  exact hrule b h

theorem ReadsWithoutFault.harmless (h : ReadsWithoutFault codecs c ps) (hok : OpenOk c ps) (n : ℕ) :
    (c.entry codecs ps.isEmpty n).Harmless ps := by
  have huse := inUse_clean codecs (c :: ps)
  have hread := fun f s' ↦ h ⟨[], clean (c :: ps)⟩ huse 2 n f s'
  rw [readHunk_succ_of_inUse huse] at hread
  cases hentry : c.entry codecs ps.isEmpty n with
  | data bytes => trivial
  | self m => trivial
  | broken stop leaves =>
    rintro f rfl
    rw [hentry] at hread
    exact hread f _ rfl
  | parent m =>
    rintro rfl
    rw [hentry] at hread
    exact hread .noParent _ rfl
  | parentBytes b =>
    rw [hentry] at hread
    cases ps with
    | nil => exact absurd rfl (hread .noParent _)
    | cons p ps =>
      refine ⟨p, rfl, fun hzero ↦ ?_⟩
      have hsize : c.hunkbytes ≠ 0 := hok.hunkbytes (version_of_parentBytes hentry)
      refine hread .divideByZero ⟨[], clean (c :: p :: ps)⟩ ?_
      show onParent _ ⟨[], clean (c :: p :: ps)⟩ = _
      rw [clean, map_cons, map_cons, onParent]
      simp only [current_bind, readBytesWith, overHunks, if_neg hsize, if_pos hzero]
      rfl

theorem HunkEntry.Harmless.stopsIn {e : HunkEntry} (h : e.Harmless ps) :
    e.StopsIn fun stop ↦ ∀ f, stop ≠ .fault f := by
  cases e with
  | broken stop leaves => exact h
  | data bytes => trivial
  | self m => trivial
  | parent m => trivial
  | parentBytes b => trivial

theorem stopsIn_readHunk_of_harmless (hchds : Accepted chds)
    (h : ∀ c ps, c :: ps <:+ chds → ∀ n, (c.entry codecs ps.isEmpty n).Harmless ps) (fuel : ℕ)
    (hne : chds ≠ []) (n : ℕ) :
    StopsIn (fun stop ↦ ∀ f, stop ≠ .fault f) (InUse codecs chds) (readHunk codecs fuel n) := by
  induction fuel generalizing chds n with
  | zero => exact fun s hs ↦ ⟨fun f h ↦ (by cases h), hs⟩
  | succ fuel ih =>
    cases chds with
    | nil => exact absurd rfl hne
    | cons c ps =>
      have hentry := h c ps (suffix_refl _) n
      have hparents : ∀ c' ps', c' :: ps' <:+ ps →
          ∀ n, (c'.entry codecs ps'.isEmpty n).Harmless ps' :=
        fun c' ps' hsuffix ↦ h c' ps' (hsuffix.trans (suffix_cons c ps))
      refine stopsIn_readHunk_succ hentry.stopsIn (fun m _ ↦ ih hchds h hne m) (fun m hm ↦ ?_)
        fun b hb ↦ ?_
      · rw [hm] at hentry
        exact ih hchds.2 hparents hentry m
      · rw [hb] at hentry
        obtain ⟨p, hp, hsize⟩ := hentry
        cases ps with
        | nil => cases hp
        | cons q qs =>
          obtain rfl : q = p := by simpa using hp
          obtain ⟨k, hlt, hk⟩ := hchds.2.1.exists_broken codecs qs.isEmpty
          rintro ⟨dest, chds⟩ hs
          obtain ⟨q', qs', rfl, -⟩ := InUse.eq_cons hs
          rw [current_bind]
          exact stopsIn_readBytesWith (fun n ↦ ih hchds.2 hparents (cons_ne_nil q qs) n)
            (brokenFail_readHunk codecs (q :: qs) fuel) hlt hk (.inr (.inr hsize))
            ⟨dest, q' :: qs'⟩ hs

end

/-! ## Open CHDs -/

/-- **Malformed CHDs.** The hunks of an open CHD and of its parents are read without faults if and
only if their map entries are in order. -/
theorem readsWithoutFault_iff_entryFits {opener : Opener} {chds : List ChdFile}
    (h : Opened opener chds) : (∀ c ps, c :: ps <:+ chds → ReadsWithoutFault opener.codecs c ps) ↔
      ∀ c ps, c :: ps <:+ chds → ∀ n < c.hunkcount, c.EntryFits ps n := by
  constructor
  · intro hreads c ps hsuffix n hn
    have hok := (h.accepted.of_suffix hsuffix).1
    exact (harmless_entry hok hn).mp ((hreads c ps hsuffix).harmless hok n)
  · intro hfits c ps hsuffix s hs fuel n f s' hfault
    have hharmless : ∀ c' ps', c' :: ps' <:+ c :: ps → ∀ n,
        (c'.entry opener.codecs ps'.isEmpty n).Harmless ps' := by
      intro c' ps' hsuffix' n
      have hok := (h.accepted.of_suffix (hsuffix'.trans hsuffix)).1
      by_cases hn : n < c'.hunkcount
      · exact (harmless_entry hok hn).mpr (hfits c' ps' (hsuffix'.trans hsuffix) n hn)
      · rw [ChdFile.entry, if_pos (Nat.le_of_not_lt hn)]
        exact harmless_error _ _ _
    have hstop := stopsIn_readHunk_of_harmless (h.accepted.of_suffix hsuffix) hharmless fuel
      (cons_ne_nil c ps) n s hs
    rw [hfault] at hstop
    exact hstop.1 f rfl

/-! ## A hunk of more compressed data than there is room for -/

/-- The map of one hunk that is compressed to a hundred bytes at the start of the file. -/
def longMap : List Byte := toBytes 8 0 ++ toBytes 4 0 ++ toBytes 2 100 ++ [0, 1]

/-- How a read of the first hunk stops. -/
def firstStop (c : ChdFile) : Option Stop :=
  match readHunk .none 1 0 ⟨[], clean [c]⟩ with
  | .ok _ _ => .none
  | .error stop _ => .some stop

/-- **Too many compressed bytes.** The file can be opened, and more bytes of it are read into the
buffer for compressed data than the buffer has. -/
theorem not_readsWithoutFault_longMap :
    ¬ ∀ opener chds, Opened opener chds → ∀ c ps, c :: ps <:+ chds →
      ReadsWithoutFault opener.codecs c ps := by
  intro hall
  obtain ⟨c, hopen, hstop⟩ := exists_opened .none (hunkFile 0 longMap) firstStop
    (some (.fault .compressedOverrun)) (by decide +kernel)
  have hreads := hall .none [c] (.cons hopen (.refl _) .nil) c [] (suffix_refl _)
  have hread := hreads ⟨[], clean [c]⟩ (inUse_clean Opener.none.codecs [c]) 1 0
  rw [firstStop] at hstop
  split at hstop
  · cases hstop
  · rename_i stop s' heq
    cases hstop
    exact hread _ s' heq

/-- The map of one hunk that is compressed to eight bytes, all that there is room for. -/
def roomyMap : List Byte := toBytes 8 0 ++ toBytes 4 0 ++ toBytes 2 8 ++ [0, 1]

/-- There is a codec for every tag, which takes nothing. -/
def Opener.failing : Opener := ⟨{ Codecs.none with codecExists := (· ≠ 0) }, fun _ _ ↦ .none⟩

/-- A compressed hunk that fits is read without faults. -/
theorem readsWithoutFault_roomyMap :
    ∃ c, openCommon .failing .alone (hunkFile 1 roomyMap) = .ok [c] ∧
      ReadsWithoutFault Opener.failing.codecs c [] := by
  obtain ⟨c, hopen, hc⟩ := exists_opened .failing (hunkFile 1 roomyMap)
    (fun c ↦ decide (c.version = 3 ∧ c.hunkcount = 1 ∧ c.rawmap = roomyMap ∧
      (c.file.arrived 0 8).length ≤ c.hunkbytes ∧ c.compression 0 ≠ 0)) true (by decide +kernel)
  obtain ⟨hversion, hcount, hmap, hroom, hcodec⟩ := of_decide_eq_true hc
  have hopened : Opened .failing [c] := .cons hopen (.refl _) .nil
  refine ⟨c, hopen, (readsWithoutFault_iff_entryFits hopened).mpr ?_ c [] (suffix_refl _)⟩
  intro c' ps' hsuffix n hn
  have hlast : c' = c ∧ ps' = [] := by
    rcases List.suffix_cons_iff.mp hsuffix with heq | hnil
    · exact List.cons.inj heq
    · cases List.suffix_nil.mp hnil
  obtain ⟨rfl, rfl⟩ := hlast
  obtain rfl : n = 0 := by omega
  have hold : c'.version ≠ 5 := by omega
  rw [ChdFile.EntryFits, entrySize, if_neg hold, if_neg hold, hmap]
  have hfits : c'.CodecFits 0 0 8 := ⟨hroom, fun _ _ ↦ hcodec⟩
  exact ⟨by decide, hfits⟩

end RoscoEmulator.Chd
