import RoscoEmulator.Chd.Opened
import RoscoEmulator.Lib.References

/-!
# Termination

`read_hunk` and `codec_process_hunk` follow references of a CHD to itself, and `metadata_find`
follows the links of the metadata; nothing in an open file keeps these from coming back to where
they were. The calls on a CHD and its parents come to their end exactly if no such reference does:
references to a parent lead down a finite chain, and the loop over the hunks of a range always comes
to an end. -/

namespace RoscoEmulator.Chd

open List BigEndian Pieces AccessM References ChdFile

/-! ## Calls and references -/

namespace ChdFile

variable (codecs : Codecs) (c : ChdFile)

/-- The hunk that the entry of a hunk refers to, if it refers to the CHD itself. -/
def selfNext (alone : Bool) (hunknum : ℕ) : Option ℕ :=
  match c.entry codecs alone hunknum with
  | .self other => some other
  | _ => none

/-- The offset of the next record of metadata, for an offset at which there is one. -/
def metadataNext (offset : ℕ) : Option ℕ :=
  if offset = 0 then none
  else
    match c.file.read offset metadataHeaderSize with
    | .error _ => none
    | .ok raw => some (ofBytes ((raw.drop 8).take 8))

/-- Where `metadata_find` starts: at the beginning, or behind what it found before. -/
inductive Search : MetadataEntry → Prop
  | begin : Search (.begin c.metaoffset)
  | resume {e e' : MetadataEntry} {tag : Tag} {metaindex : ℤ} {fuel : ℕ} (search : Search e)
      (found : c.metadataFindLoop tag fuel metaindex e = .found e') : Search e'.resume

end ChdFile

/-- An access terminates if it does not take more references in a row than some number. -/
def Terminates (x : ℕ → AccessM Unit) (s : Access) : Prop :=
  ∃ least, ∀ fuel, least ≤ fuel → ∀ s', x fuel s ≠ .error .hang s'

/-- The calls on an open CHD terminate. -/
structure CallsTerminate (codecs : Codecs) (c : ChdFile) (ps : List ChdFile) : Prop where
  readHunk : ∀ s, InUse codecs (c :: ps) s.chds → ∀ hunknum,
    Terminates (fun fuel ↦ readHunk codecs fuel hunknum) s
  codecProcessHunk : ∀ s, InUse codecs (c :: ps) s.chds → ∀ hunknum,
    Terminates (fun fuel ↦ codecProcessHunk codecs fuel hunknum) s
  metadataFind : ∀ e, c.Search e → ∀ tag metaindex, ∃ least, ∀ fuel, least ≤ fuel →
    c.metadataFindLoop tag fuel metaindex e ≠ .failed .hang

/-- No reference of a CHD to itself and no link of its metadata comes round again. -/
structure NoCycles (codecs : Codecs) (c : ChdFile) (ps : List ChdFile) : Prop where
  hunks : ∀ hunknum, NoCycle (c.selfNext codecs ps.isEmpty) hunknum
  metadata : NoCycle c.metadataNext c.metaoffset

section

variable {codecs : Codecs} {S : Stop → Prop} {c c' : ChdFile} {ps ps' chds : List ChdFile}

/-! ## References to the CHD itself -/

variable {alone : Bool} {K : List ChdFile → Prop} {offset next : ℕ} {e : MetadataEntry}
    {n k m fuel : ℕ}

theorem selfNext_eq_some :
    c.selfNext codecs alone n = some m ↔ c.entry codecs alone n = .self m := by
  rw [selfNext]
  cases c.entry codecs alone n with
  | self other => exact ⟨fun h ↦ by rw [Option.some.inj h], fun h ↦ by cases h; rfl⟩
  | data bytes => exact ⟨fun h ↦ (by cases h), fun h ↦ by cases h⟩
  | broken stop leaves => exact ⟨fun h ↦ (by cases h), fun h ↦ by cases h⟩
  | parent other => exact ⟨fun h ↦ (by cases h), fun h ↦ by cases h⟩
  | parentBytes b => exact ⟨fun h ↦ (by cases h), fun h ↦ by cases h⟩

theorem self_lt (h : c.entry codecs alone n = .self m) : m < 2 ^ 32 := by
  have hrule : ∀ m, c.entry codecs alone n = .self m → m < 2 ^ 32 :=
    entry_rule (P := fun e ↦ ∀ m, e = .self m → m < 2 ^ 32) (fun _ _ h ↦ (by cases h))
      (fun _ _ _ h ↦ (by cases h)) (fun _ _ h ↦ (by cases h))
      (fun other hlt _ h ↦ HunkEntry.self.inj h ▸ hlt) (fun _ _ h ↦ (by cases h))
      (fun _ _ _ h ↦ (by cases h)) alone n
  exact hrule m h

theorem selfNext_lt (h : c.selfNext codecs alone n = some m) : m < 2 ^ 32 :=
  self_lt (selfNext_eq_some.mp h)

/-- References have few places to lead to. -/
theorem follow_lt {next : ℕ → Option ℕ} {bound : ℕ} (h : ∀ n m, next n = some m → m < bound)
    {a b : ℕ} (hk : follow next k a = some b) : b = a ∨ b < bound := by
  induction k generalizing a with
  | zero => exact .inl (Option.some.inj hk).symm
  | succ k ih =>
    rw [follow] at hk
    obtain ⟨m, hm, hk⟩ := Option.bind_eq_some_iff.mp hk
    rcases ih hk with rfl | hlt
    · exact .inr (h a b hm)
    · exact .inr hlt

/-- References that do not come round again end. -/
theorem ends_of_noCycle {next : ℕ → Option ℕ} {bound a : ℕ} (h : ∀ n m, next n = some m → m < bound)
    (hno : NoCycle next a) : References.Ends next a := by
  refine hno.ends (s := insert a {b | b < bound})
    ((Set.finite_lt_nat bound).insert a) fun k b hk ↦ ?_
  exact follow_lt h hk

theorem readHunk_eq_hang (h : ¬ References.Ends (c.selfNext codecs ps.isEmpty) n) (fuel : ℕ)
    {s : Access}
    (hs : InUse codecs (c :: ps) s.chds) : readHunk codecs fuel n s = .error .hang s := by
  induction fuel generalizing n with
  | zero => rfl
  | succ fuel ih =>
    cases hnext : c.selfNext codecs ps.isEmpty n with
    | none => exact absurd (.of_none hnext) h
    | some m =>
      rw [readHunk_succ_of_inUse hs, selfNext_eq_some.mp hnext]
      exact ih fun hends ↦ h ((ends_iff_of_some hnext).mpr hends)

/-! ## Accesses that end -/

theorem stopsIn_current_nil {f : ChdFile → AccessM Unit} (hfault : S (.fault .noParent)) :
    StopsIn S (InUse codecs []) (current >>= f) := by
  rintro ⟨dest, chds⟩ hs
  obtain rfl := InUse.eq_nil hs
  exact ⟨hfault, hs⟩

theorem stopsIn_entry (alone : Bool) (n : ℕ) : (c.entry codecs alone n).StopsIn (· ≠ .hang) :=
  entry_rule (fun _ ↦ trivial) (fun _ _ h ↦ (by cases h)) (fun _ h ↦ (by cases h))
    (fun _ _ ↦ trivial) (fun _ ↦ trivial) (fun _ _ ↦ trivial) alone n

theorem stopsIn_parentBytes {b hunkbytes : ℕ} (hps : Accepted ps)
    (hread : ∀ n, StopsIn (· ≠ .hang) (InUse codecs ps) (readHunk codecs fuel n)) :
    StopsIn (· ≠ .hang) (InUse codecs ps) (do
      let p ← current
      readBytesWith (readHunk codecs fuel) (b * p.unitbytes % 2 ^ 64) hunkbytes) := by
  cases ps with
  | nil => exact stopsIn_current_nil fun h ↦ by cases h
  | cons p ps =>
    obtain ⟨h, hlt, hh⟩ := hps.1.exists_broken codecs ps.isEmpty
    rintro ⟨dest, chds⟩ hs
    obtain ⟨p', ps', rfl, -⟩ := InUse.eq_cons hs
    rw [current_bind]
    exact stopsIn_readBytesWith hread (brokenFail_readHunk codecs (p :: ps) fuel) hlt hh
      (.inl fun h ↦ (by cases h)) ⟨dest, p' :: ps'⟩ hs

theorem stopsIn_readHunk {least : ℕ} (hps : Accepted ps) (hparents : ∀ fuel, least ≤ fuel → ∀ n,
      StopsIn (· ≠ .hang) (InUse codecs ps) (readHunk codecs fuel n))
    (hk : follow (c.selfNext codecs ps.isEmpty) k n = none) (hfuel : k + least ≤ fuel) :
    StopsIn (· ≠ .hang) (InUse codecs (c :: ps)) (readHunk codecs fuel n) := by
  induction k generalizing n fuel with
  | zero => cases hk
  | succ k ih =>
    obtain ⟨fuel, rfl⟩ := Nat.exists_eq_add_of_le' (show 1 ≤ fuel by omega)
    refine stopsIn_readHunk_succ (stopsIn_entry _ _) (fun m hm ↦ ?_) (fun m _ ↦ ?_) fun b _ ↦ ?_
    · exact ih (by rw [← follow_succ_of_some (selfNext_eq_some.mpr hm), hk]) (by omega)
    · exact hparents fuel (by omega) m
    · exact stopsIn_parentBytes hps fun n ↦ hparents fuel (by omega) n

theorem stopsIn_processCompressed (slot : Fin 4) (blockoffs blocklen : ℕ) (hK : ¬ K []) :
    StopsIn (· ≠ .hang) K (processCompressed codecs slot blockoffs blocklen) := by
  rintro ⟨dest, chds⟩ hs
  cases chds with
  | nil => exact absurd hs hK
  | cons c' ps' =>
    rw [processCompressed, readCompressed_bind]
    split_ifs
    · exact ⟨fun h ↦ (by cases h), hs⟩
    · cases hread : c'.file.read blockoffs blocklen with
      | error stop =>
        exact ⟨read_rule (P := fun e ↦ e.StopsIn (· ≠ .hang)) (l := id)
          (fun _ _ h ↦ (by cases h)) hread, hs⟩
      | ok src =>
        simp only [decompressor_bind]
        split_ifs
        · exact ⟨fun h ↦ (by cases h), hs⟩
        · cases codecs.process (c'.compression slot) src with
          | error e => exact ⟨fun h ↦ (by cases h), hs⟩
          | ok _ => exact hs

theorem stopsIn_fail (e : Error) : StopsIn (· ≠ .hang) K (AccessM.fail e) :=
  fun _ hs ↦ ⟨fun h ↦ (by cases h), hs⟩

theorem stopsIn_throw (f : Fault) : StopsIn (· ≠ .hang) K (throw (.fault f)) :=
  fun _ hs ↦ ⟨fun h ↦ (by cases h), hs⟩

theorem stopsIn_parentHunk {hunk : ℕ → AccessM Unit} (b : ℕ)
    (hhunk : ∀ n, StopsIn (· ≠ .hang) (InUse codecs ps) (hunk n)) :
    StopsIn (· ≠ .hang) (InUse codecs ps) (do
      let p ← current
      hunk (← parentHunk p b)) := by
  cases ps with
  | nil => exact stopsIn_current_nil fun h ↦ by cases h
  | cons p ps =>
    rintro ⟨dest, chds⟩ hs
    obtain ⟨p', ps', rfl, -⟩ := InUse.eq_cons hs
    rw [current_bind, parentHunk]
    split_ifs
    · exact ⟨fun h ↦ (by cases h), hs⟩
    · exact hhunk _ ⟨dest, p' :: ps'⟩ hs

/-- **Processing.** `codec_process_hunk` hangs only as what a hunk refers to. -/
theorem stopsIn_codecProcessHunkOf {hunk : ℕ → AccessM Unit}
    (hself : ∀ m, c.entry codecs ps.isEmpty n = .self m →
      StopsIn (· ≠ .hang) (InUse codecs (c :: ps)) (hunk m))
    (hparent : ∀ m, StopsIn (· ≠ .hang) (InUse codecs ps) (hunk m)) :
    StopsIn (· ≠ .hang) (InUse codecs (c :: ps)) (codecProcessHunkOf codecs hunk n) := by
  have hnil : ¬ InUse codecs (c :: ps) [] := fun h ↦ by
    obtain ⟨c', ps', h, -⟩ := h.eq_cons
    cases h
  rintro ⟨dest, chds⟩ hs
  obtain ⟨c', ps', rfl, hc, -, hps⟩ := InUse.eq_cons hs
  rw [← entry_congr hc, ← hps.1.isEmpty_eq] at hself
  rw [codecProcessHunkOf, current_bind]
  by_cases hrange : c'.hunkcount ≤ n
  · rw [if_pos hrange]
    exact stopsIn_fail _ _ hs
  rw [if_neg hrange]
  by_cases hold : c'.version = 3 ∨ c'.version = 4
  · rw [if_pos hold, codecProcessHunkV34, current_bind, mapEntry_bind]
    by_cases hmap : 16 * n % 2 ^ 32 + 16 ≤ c'.rawmap.length
    · rw [ChdFile.entry, if_neg hrange, if_pos hold, ChdFile.entryAt, if_pos hmap,
        entryV34] at hself
      rw [if_pos hmap]
      generalize (part c'.rawmap (16 * n % 2 ^ 32) 16) = rawmap at hself ⊢
      generalize (rawmap.getD 15 0 &&& 0x0f).toNat = type at hself ⊢
      rcases type with _ | _ | _ | _ | _ | _ | type
      · exact stopsIn_fail _ _ hs
      · exact stopsIn_processCompressed 0 _ _ hnil ⟨dest, c' :: ps'⟩ hs
      · exact stopsIn_fail _ _ hs
      · exact stopsIn_fail _ _ hs
      · exact hself _ rfl ⟨dest, c' :: ps'⟩ hs
      · split_ifs
        · exact stopsIn_fail _ _ hs
        · exact (hparent _).onParent ⟨dest, c' :: ps'⟩ hs
      · exact stopsIn_fail _ _ hs
    · rw [if_neg hmap]
      exact stopsIn_throw _ _ hs
  rw [if_neg hold]
  by_cases hnew : c'.version = 5
  · rw [if_pos hnew]
    by_cases hcomp : c'.compressed = true
    · rw [if_pos hcomp, codecProcessHunkV5, current_bind, mapEntry_bind]
      by_cases hmap : 12 * n % 2 ^ 32 + 12 ≤ c'.rawmap.length
      · rw [ChdFile.entry, if_neg hrange, if_neg hold, if_pos hnew, if_pos hcomp, ChdFile.entryAt,
          if_pos hmap, entryV5] at hself
        rw [if_pos hmap]
        generalize (part c'.rawmap (12 * n % 2 ^ 32) 12) = rawmap at hself ⊢
        generalize (rawmap.getD 0 0).toNat = type at hself ⊢
        rcases type with _ | _ | _ | _ | _ | _ | _ | type
        · exact stopsIn_processCompressed _ _ _ hnil ⟨dest, c' :: ps'⟩ hs
        · exact stopsIn_processCompressed _ _ _ hnil ⟨dest, c' :: ps'⟩ hs
        · exact stopsIn_processCompressed _ _ _ hnil ⟨dest, c' :: ps'⟩ hs
        · exact stopsIn_processCompressed _ _ _ hnil ⟨dest, c' :: ps'⟩ hs
        · exact stopsIn_fail _ _ hs
        · exact hself _ rfl ⟨dest, c' :: ps'⟩ hs
        · split_ifs
          · exact stopsIn_fail _ _ hs
          · exact (stopsIn_parentHunk _ hparent).onParent ⟨dest, c' :: ps'⟩ hs
        · exact stopsIn_fail _ _ hs
      · rw [if_neg hmap]
        exact stopsIn_throw _ _ hs
    · rw [if_neg hcomp]
      exact stopsIn_fail _ _ hs
  · rw [if_neg hnew]
    exact stopsIn_fail _ _ hs

theorem stopsIn_codecProcessHunk {least : ℕ} (hparents : ∀ fuel, least ≤ fuel → ∀ n,
      StopsIn (· ≠ .hang) (InUse codecs ps) (codecProcessHunk codecs fuel n))
    (hk : follow (c.selfNext codecs ps.isEmpty) k n = none) (hfuel : k + least ≤ fuel) :
    StopsIn (· ≠ .hang) (InUse codecs (c :: ps)) (codecProcessHunk codecs fuel n) := by
  induction k generalizing n fuel with
  | zero => cases hk
  | succ k ih =>
    obtain ⟨fuel, rfl⟩ := Nat.exists_eq_add_of_le' (show 1 ≤ fuel by omega)
    refine stopsIn_codecProcessHunkOf (fun m hm ↦ ?_) fun m ↦ hparents fuel (by omega) m
    exact ih (by rw [← follow_succ_of_some (selfNext_eq_some.mpr hm), hk]) (by omega)

/-- References of a CHD to itself that end, end after one number of steps. -/
theorem exists_follow_selfNext (h : ∀ n, NoCycle (c.selfNext codecs ps.isEmpty) n)
    (hok : OpenOk c ps) : ∃ k, ∀ n, follow (c.selfNext codecs ps.isEmpty) k n = none := by
  obtain ⟨k, hk⟩ := exists_follow_eq_none (2 ^ 32) fun n _ ↦
    ends_of_noCycle (fun _ _ h ↦ selfNext_lt h) (h n)
  refine ⟨k + 1, fun n ↦ ?_⟩
  by_cases hn : n < 2 ^ 32
  · exact follow_eq_none_of_le (hk n hn) (Nat.le_succ k)
  · refine follow_succ_of_none ?_ k
    have hcount := hok.hunkcount_lt
    rw [selfNext, ChdFile.entry, if_pos (by omega)]

/-- No call hangs with as many references in a row as there are in all the CHDs. -/
theorem exists_least (codecs : Codecs) (hchds : Accepted chds)
    (h : ∀ c ps, c :: ps <:+ chds → ∀ n, NoCycle (c.selfNext codecs ps.isEmpty) n) :
    ∃ least, ∀ fuel, least ≤ fuel → ∀ n,
      StopsIn (· ≠ .hang) (InUse codecs chds) (readHunk codecs fuel n) ∧
        StopsIn (· ≠ .hang) (InUse codecs chds) (codecProcessHunk codecs fuel n) := by
  induction chds with
  | nil =>
    refine ⟨1, fun fuel hfuel n ↦ ?_⟩
    obtain ⟨fuel, rfl⟩ := Nat.exists_eq_add_of_le' hfuel
    exact ⟨stopsIn_current_nil fun h ↦ (by cases h), stopsIn_current_nil fun h ↦ (by cases h)⟩
  | cons c ps ih =>
    obtain ⟨least, hleast⟩ :=
      ih hchds.2 fun c' ps' hsuffix ↦ h c' ps' (hsuffix.trans (suffix_cons c ps))
    obtain ⟨k, hk⟩ := exists_follow_selfNext (h c ps (suffix_refl _)) hchds.1
    refine ⟨k + least, fun fuel hfuel n ↦ ⟨?_, ?_⟩⟩
    · exact stopsIn_readHunk hchds.2 (fun fuel hfuel n ↦ (hleast fuel hfuel n).1) (hk n) hfuel
    · exact stopsIn_codecProcessHunk (fun fuel hfuel n ↦ (hleast fuel hfuel n).2) (hk n) hfuel

/-! ## Metadata -/

theorem metadataNext_eq_some (h : c.metadataNext offset = some next) :
    offset ≠ 0 ∧ ∃ raw, c.file.read offset metadataHeaderSize = .ok raw ∧
      next = ofBytes ((raw.drop 8).take 8) := by
  rw [metadataNext] at h
  split_ifs at h with hzero
  refine ⟨hzero, ?_⟩
  cases hread : c.file.read offset metadataHeaderSize with
  | error stop => simp only [hread] at h; cases h
  | ok raw =>
    simp only [hread] at h
    exact ⟨raw, rfl, (Option.some.inj h).symm⟩

theorem metadataNext_eq_none (h : c.metadataNext offset = none) :
    offset = 0 ∨ ∃ stop, stop ≠ .hang ∧ c.file.read offset metadataHeaderSize = .error stop := by
  rw [metadataNext] at h
  split_ifs at h with hzero
  · exact .inl hzero
  · cases hread : c.file.read offset metadataHeaderSize with
    | error stop =>
      exact .inr ⟨stop, read_rule (P := fun e ↦ e.StopsIn (· ≠ .hang)) (l := id)
        (fun _ _ h ↦ (by cases h)) hread, rfl⟩
    | ok raw => simp only [hread] at h; cases h

theorem metadataNext_lt (h : c.metadataNext offset = some next) : next < 2 ^ 64 := by
  obtain ⟨-, raw, -, rfl⟩ := metadataNext_eq_some h
  refine Nat.lt_of_lt_of_le (ofBytes_lt _) ?_
  have hlen : ((raw.drop 8).take 8).length ≤ 8 := length_take_le 8 _
  calc 256 ^ ((raw.drop 8).take 8).length ≤ 256 ^ 8 := Nat.pow_le_pow_right (by decide) hlen
    _ = 2 ^ 64 := by decide

theorem metadataFindLoop_succ (h : c.metadataNext e.offset = some next) (tag : Tag) (fuel : ℕ)
    (metaindex : ℤ) : ∃ e', e'.offset = e.offset ∧ e'.next = next ∧
      (c.metadataFindLoop tag (fuel + 1) metaindex e = .found e' ∧ metaindex = 0 ∨
        c.metadataFindLoop tag (fuel + 1) metaindex e =
          c.metadataFindLoop tag fuel (metaindex - 1) e'.advance ∧ metaindex ≠ 0 ∨
        c.metadataFindLoop tag (fuel + 1) metaindex e =
          c.metadataFindLoop tag fuel metaindex e'.advance) := by
  obtain ⟨hzero, raw, hread, rfl⟩ := metadataNext_eq_some h
  refine ⟨e.parse raw, rfl, rfl, ?_⟩
  rw [metadataFindLoop, if_neg hzero]
  simp only [hread]
  by_cases htag : tag = wildcard ∨ (e.parse raw).metatag = tag
  · rw [if_pos htag]
    by_cases hindex : metaindex = 0
    · rw [if_pos hindex]
      exact .inl ⟨rfl, hindex⟩
    · rw [if_neg hindex]
      exact .inr (.inl ⟨rfl, hindex⟩)
  · rw [if_neg htag]
    exact .inr (.inr rfl)

theorem metadataFindLoop_ne_hang (hk : follow c.metadataNext k e.offset = none) (hfuel : k ≤ fuel)
    (tag : Tag) (metaindex : ℤ) : c.metadataFindLoop tag fuel metaindex e ≠ .failed .hang := by
  induction k generalizing fuel e metaindex with
  | zero => cases hk
  | succ k ih =>
    obtain ⟨fuel, rfl⟩ := Nat.exists_eq_add_of_le' (show 1 ≤ fuel by omega)
    cases hnext : c.metadataNext e.offset with
    | none =>
      rw [metadataFindLoop]
      rcases metadataNext_eq_none hnext with hzero | ⟨stop, hstop, hread⟩
      · rw [if_pos hzero]
        exact fun h ↦ by cases h
      · by_cases hzero : e.offset = 0
        · rw [if_pos hzero]
          exact fun h ↦ by cases h
        · rw [if_neg hzero]
          simp only [hread]
          exact fun h ↦ hstop (Found.failed.inj h)
    | some next =>
      obtain ⟨e', -, hadv, hcases⟩ := metadataFindLoop_succ hnext tag fuel metaindex
      have hk' : follow c.metadataNext k e'.advance.offset = none := by
        rw [show e'.advance.offset = next from hadv, ← follow_succ_of_some hnext, hk]
      rcases hcases with ⟨hfound, -⟩ | ⟨hgo, -⟩ | hgo
      · rw [hfound]
        exact fun h ↦ by cases h
      · rw [hgo]
        exact ih hk' (by omega) _
      · rw [hgo]
        exact ih hk' (by omega) _

/-- `metadata_find` for a negative index goes on for as long as there are links. -/
theorem metadataFindLoop_eq_hang (h : ¬ References.Ends c.metadataNext e.offset)
    (tag : Tag) (fuel : ℕ) {metaindex : ℤ}
    (hindex : metaindex < 0) : c.metadataFindLoop tag fuel metaindex e = .failed .hang := by
  induction fuel generalizing e metaindex with
  | zero => rfl
  | succ fuel ih =>
    cases hnext : c.metadataNext e.offset with
    | none => exact absurd (.of_none hnext) h
    | some next =>
      obtain ⟨e', -, hadv, hcases⟩ := metadataFindLoop_succ hnext tag fuel metaindex
      have hends : ¬ References.Ends c.metadataNext e'.advance.offset := by
        rw [show e'.advance.offset = next from hadv, ← ends_iff_of_some hnext]
        exact h
      rcases hcases with ⟨-, hzero⟩ | ⟨hgo, -⟩ | hgo
      · omega
      · rw [hgo]
        exact ih hends (by omega)
      · rw [hgo]
        exact ih hends hindex

/-- A record that is found is on the way, and its link leads on. -/
theorem ends_of_found {tag : Tag} {metaindex : ℤ} {e' : MetadataEntry}
    (h : c.metadataFindLoop tag fuel metaindex e = .found e')
    (hends : References.Ends c.metadataNext e.offset) : References.Ends c.metadataNext e'.next := by
  induction fuel generalizing e metaindex with
  | zero => cases h
  | succ fuel ih =>
    cases hnext : c.metadataNext e.offset with
    | none =>
      rw [metadataFindLoop] at h
      rcases metadataNext_eq_none hnext with hzero | ⟨stop, -, hread⟩
      · rw [if_pos hzero] at h
        cases h
      · by_cases hzero : e.offset = 0
        · rw [if_pos hzero] at h
          cases h
        · rw [if_neg hzero] at h
          simp only [hread] at h
          cases h
    | some next =>
      have htail := (ends_iff_of_some hnext).mp hends
      obtain ⟨e₁, -, hadv, hcases⟩ := metadataFindLoop_succ hnext tag fuel metaindex
      have hadvance : References.Ends c.metadataNext e₁.advance.offset := by
        rwa [show e₁.advance.offset = next from hadv]
      rcases hcases with ⟨hfound, -⟩ | ⟨hgo, -⟩ | hgo
      · rw [hfound] at h
        obtain rfl := Found.found.inj h
        rwa [hadv]
      · exact ih (hgo ▸ h) hadvance
      · exact ih (hgo ▸ h) hadvance

theorem ends_of_search (h : c.Search e) (hends : References.Ends c.metadataNext c.metaoffset) :
    References.Ends c.metadataNext e.offset := by
  induction h with
  | begin => exact hends
  | resume _ found ih => exact ends_of_found found ih

end

/-! ## Open CHDs -/

/-- **Termination.** The calls on an open CHD and on its parents terminate if and only if no
reference of one of them to itself and no link of its metadata comes round again. -/
theorem callsTerminate_iff_noCycles {opener : Opener} {chds : List ChdFile}
    (h : Opened opener chds) : (∀ c ps, c :: ps <:+ chds → CallsTerminate opener.codecs c ps) ↔
      ∀ c ps, c :: ps <:+ chds → NoCycles opener.codecs c ps := by
  constructor
  · intro hcalls c ps hsuffix
    obtain ⟨hread, -, hfind⟩ := hcalls c ps hsuffix
    constructor
    · intro n
      by_contra hcycle
      have hends : ¬ References.Ends (c.selfNext opener.codecs ps.isEmpty) n :=
        fun h ↦ hcycle h.noCycle
      have huse := inUse_clean opener.codecs (c :: ps)
      obtain ⟨least, hleast⟩ := hread ⟨[], clean (c :: ps)⟩ huse n
      exact hleast least (Nat.le_refl _) _ (readHunk_eq_hang hends least huse)
    · by_contra hcycle
      have hends : ¬ References.Ends c.metadataNext c.metaoffset := fun h ↦ hcycle h.noCycle
      obtain ⟨least, hleast⟩ := hfind _ .begin wildcard (-1)
      exact hleast least (Nat.le_refl _) (metadataFindLoop_eq_hang hends wildcard least (by decide))
  · intro hno c ps hsuffix
    obtain ⟨least, hleast⟩ :=
      exists_least opener.codecs (h.accepted.of_suffix hsuffix) fun c' ps' hsuffix' ↦
      (hno c' ps' (hsuffix'.trans hsuffix)).hunks
    have hstops : ∀ {x : AccessM Unit} {s s' : Access},
        StopsIn (· ≠ .hang) (InUse opener.codecs (c :: ps)) x →
          InUse opener.codecs (c :: ps) s.chds → x s ≠ .error .hang s' := by
      intro x s s' hx hs herror
      have hstop := hx s hs
      rw [herror] at hstop
      exact hstop.1 rfl
    refine ⟨fun s hs n ↦ ⟨least, fun fuel hfuel s' ↦ hstops (hleast fuel hfuel n).1 hs⟩,
      fun s hs n ↦
      ⟨least, fun fuel hfuel s' ↦ hstops (hleast fuel hfuel n).2 hs⟩, fun e he tag i ↦ ?_⟩
    have hends : References.Ends c.metadataNext c.metaoffset :=
      ends_of_noCycle (fun _ _ h ↦ metadataNext_lt h) (hno c ps hsuffix).metadata
    obtain ⟨k, hk⟩ := ends_of_search he hends
    exact ⟨k, fun fuel hfuel ↦ metadataFindLoop_ne_hang hk hfuel tag i⟩

/-! ## A hunk that is a copy of itself -/

/-- The map of one hunk that is a copy of another. -/
def copyMap (hunknum : ℕ) : List Byte := toBytes 8 hunknum ++ replicate 7 0 ++ [4]

theorem selfNext_of_copyMap {codecs : Codecs} {c : ChdFile} {hunknum : ℕ} (hversion : c.version = 3)
    (hcount : c.hunkcount = 1) (hmap : c.rawmap = copyMap hunknum)
    (hpart : part (copyMap hunknum) (16 * 0 % 2 ^ 32) 16 = copyMap hunknum)
    (hoffset : ofBytes (part (copyMap hunknum) 0 8) % 2 ^ 32 = hunknum)
    (htype : ((copyMap hunknum).getD 15 0 &&& 0x0f).toNat = 4) (alone : Bool) :
    c.selfNext codecs alone 0 = some hunknum := by
  have hlen : (copyMap hunknum).length = 16 := by
    rw [copyMap, length_append, length_append, length_toBytes]
    rfl
  rw [selfNext_eq_some, ChdFile.entry, hcount, if_neg (by decide), if_pos (.inl hversion),
    ChdFile.entryAt, hmap, hlen, if_pos (by decide), hpart, entryV34]
  simp only [htype, hoffset]

/-- **A hunk that is a copy of itself.** The file can be opened, and its hunk cannot be read to the
end. -/
theorem not_callsTerminate_copyMap :
    ¬ ∀ opener chds, Opened opener chds → ∀ c ps, c :: ps <:+ chds →
      CallsTerminate opener.codecs c ps := by
  intro hall
  obtain ⟨c, hopen, hc⟩ := exists_opened .none (hunkFile 0 (copyMap 0)) summary (3, 1, 0, copyMap 0)
    (by decide +kernel)
  simp only [summary, Prod.mk.injEq] at hc
  obtain ⟨hversion, hcount, -, hmap⟩ := hc
  have hnext : follow (c.selfNext Opener.none.codecs true) 1 0 = some 0 := by
    rw [follow_succ_of_some
      (selfNext_of_copyMap hversion hcount hmap (by decide) (by decide) (by decide) true)]
    rfl
  have hends : ¬ References.Ends (c.selfNext Opener.none.codecs true) 0 := fun h ↦
    h.noCycle 0 1 0 Nat.one_pos rfl hnext
  have hcalls := hall .none [c] (.cons hopen (.refl _) .nil) c [] (suffix_refl _)
  have huse := inUse_clean Opener.none.codecs [c]
  obtain ⟨least, hleast⟩ := hcalls.readHunk ⟨[], clean [c]⟩ huse 0
  exact hleast least (Nat.le_refl _) _ (readHunk_eq_hang hends least huse)

/-- A hunk that is a copy of one that is not there is read to the end, with an error. -/
theorem callsTerminate_copyMap_one :
    ∃ c, openCommon .none .alone (hunkFile 0 (copyMap 1)) = .ok [c] ∧
      CallsTerminate Opener.none.codecs c [] := by
  obtain ⟨c, hopen, hc⟩ := exists_opened .none (hunkFile 0 (copyMap 1)) summary (3, 1, 0, copyMap 1)
    (by decide +kernel)
  simp only [summary, Prod.mk.injEq] at hc
  obtain ⟨hversion, hcount, hmeta, hmap⟩ := hc
  have hopened : Opened .none [c] := .cons hopen (.refl _) .nil
  refine ⟨c, hopen, (callsTerminate_iff_noCycles hopened).mpr ?_ c [] (suffix_refl _)⟩
  intro c' ps' hsuffix
  have hlast : c' = c ∧ ps' = [] := by
    rcases List.suffix_cons_iff.mp hsuffix with heq | hnil
    · exact List.cons.inj heq
    · cases List.suffix_nil.mp hnil
  obtain ⟨rfl, rfl⟩ := hlast
  have hfirst : c'.selfNext Opener.none.codecs true 0 = some 1 :=
    selfNext_of_copyMap hversion hcount hmap (by decide) (by decide) (by decide) true
  have hnone : ∀ n, 1 ≤ n → c'.selfNext Opener.none.codecs true n = none := fun n hn ↦ by
    rw [selfNext, ChdFile.entry, hcount, if_pos hn]
  refine ⟨fun n ↦ References.Ends.noCycle ?_, References.Ends.noCycle (.of_none ?_)⟩
  · cases n with
    | zero => exact (ends_iff_of_some hfirst).mpr (.of_none (hnone 1 (Nat.le_refl _)))
    | succ n => exact .of_none (hnone (n + 1) (by omega))
  · rw [metadataNext, if_pos hmeta]

end RoscoEmulator.Chd
