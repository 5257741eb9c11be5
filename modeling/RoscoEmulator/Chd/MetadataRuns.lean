import RoscoEmulator.Chd.Create
import RoscoEmulator.Lib.GuardedRun

/-!
# Runs of metadata operations

The metadata that are read back, against a list to which the same operations are applied. A write
whose data do not fit in place takes the entry out of the chain, but links the new record to the one
in front of the old: the entries behind it are lost. The list is read back exactly as long as an
entry whose data grow is the last one. -/

namespace RoscoEmulator.Chd

open Nat List BigEndian ByteFile

/-! ## Going through the entries -/

namespace ChdFile

variable {c : ChdFile}

/-- What a search found and all that it would find when it is resumed. -/
inductive Listing (c : ChdFile) : Found → List Entry → Prop
  | nil (m : MetadataEntry) : Listing c (.notFound m) []
  | cons {m : MetadataEntry} {e : Entry} {l : List Entry} (tag : m.metatag = e.tag)
      (flags : m.flags = e.flags)
      (data : c.file.read (m.offset + metadataHeaderSize) m.length = .ok e.data)
      (pos : 0 < e.data.length) (lt : e.data.length < 2 ^ 24)
      (tail : Listing c (c.metadataFindNext m) l) : Listing c (.found m) (e :: l)

variable {rs : List (ℕ × Entry)}

/-- A search of any tag goes through a chain. -/
theorem listing_of_segment (hfile : c.file.Faithful) {first : ℕ}
    (h : Segment c.file.data first rs 0)
    (hfuel : rs.length < c.metadataFuel) {m : MetadataEntry} (hm : m.offset = first) :
    c.Listing (c.metadataFindLoop wildcard c.metadataFuel 0 m) (rs.map Prod.snd) := by
  induction rs generalizing first m with
  | nil =>
    cases h
    rw [metadataFuel, metadataFindLoop, if_pos hm]
    exact .nil m
  | cons r rs ih =>
    cases h with
    | @cons _ next _ e _ stored tail =>
      subst hm
      rw [metadataFuel, metadataFindLoop_stored hfile stored,
        if_pos ⟨decide_eq_true (.inl rfl), rfl⟩]
      refine .cons rfl rfl ?_ stored.length_pos stored.length_lt ?_
      · show c.file.read (m.offset + 16) e.data.length = _
        rw [CoreFile.read_of_le hfile stored.inside, stored.data]
      · exact ih tail (lt_of_succ_lt hfuel) (m := (readEntry m e next).resume) rfl

theorem Layout.listing (h : c.Layout rs) :
    c.Listing (c.metadataFind wildcard 0) (rs.map Prod.snd) :=
  listing_of_segment h.faithful h.chain h.length_lt_fuel rfl

/-- The entries from one on, as the loop of `clone_all_metadata` reads them. -/
def metadataFrom (c : ChdFile) : ℕ → Found → Except Stop (List Entry)
  | 0, _ => .error .hang
  | _ + 1, .failed stop => .error stop
  | _ + 1, .notFound _ => .ok []
  | fuel + 1, .found m =>
      match c.file.read (m.offset + metadataHeaderSize) m.length with
      | .error stop => .error stop
      | .ok data =>
          (metadataFrom c fuel (c.metadataFindNext m)).map fun l ↦ ⟨m.metatag, m.flags, data⟩ :: l

/-- All entries. -/
def allMetadata (c : ChdFile) : Except Stop (List Entry) :=
  c.metadataFrom c.metadataFuel (c.metadataFind wildcard 0)

theorem Listing.metadataFrom {f : Found} {l : List Entry} (h : c.Listing f l) {fuel : ℕ}
    (hfuel : l.length < fuel) : c.metadataFrom fuel f = .ok l := by
  induction h generalizing fuel with
  | nil m =>
    obtain ⟨fuel, rfl⟩ := exists_eq_succ_of_ne_zero (Nat.ne_zero_of_lt hfuel)
    rfl
  | cons htag hflags hdata _ _ _ ih =>
    obtain ⟨fuel, rfl⟩ := exists_eq_succ_of_ne_zero (Nat.ne_zero_of_lt hfuel)
    rw [ChdFile.metadataFrom, hdata]
    simp only [ih (lt_of_succ_lt_succ hfuel), htag, hflags]
    rfl

theorem Layout.allMetadata (h : c.Layout rs) : c.allMetadata = .ok (rs.map Prod.snd) :=
  h.listing.metadataFrom (by rw [length_map]; exact h.length_lt_fuel)

/-- The bytes that `compute_overall_sha1` collects for an entry. -/
def entryHash (e : Entry) : List Byte := toBytes 4 e.tag.toNat ++ Util.sha1 e.data

/-- The entries that go into the hash. -/
def entryHashes (l : List Entry) : List (List Byte) :=
  (l.filter fun e ↦ e.flags.getLsbD 0).map entryHash

theorem Listing.metadataHashes {f : Found} {l : List Entry} (h : c.Listing f l) {fuel : ℕ}
    (hfuel : l.length < fuel) : c.metadataHashes fuel f = .ok (entryHashes l) := by
  induction h generalizing fuel with
  | nil m =>
    obtain ⟨fuel, rfl⟩ := exists_eq_succ_of_ne_zero (Nat.ne_zero_of_lt hfuel)
    rfl
  | @cons m e l htag hflags hdata _ _ _ ih =>
    obtain ⟨fuel, rfl⟩ := exists_eq_succ_of_ne_zero (Nat.ne_zero_of_lt hfuel)
    rw [ChdFile.metadataHashes, hdata, hflags, entryHashes, filter_cons]
    simp only [ih (lt_of_succ_lt_succ hfuel), htag]
    split_ifs <;> rfl

/-- The hash that the header should hold. -/
def overallHash (c : ChdFile) (l : List Entry) : List Byte := overallSha1 c.rawSha1 (entryHashes l)

theorem Layout.computeOverallSha1 (h : c.Layout rs)
    (hversion : ¬ c.version < 4) (rawsha1 : List Byte) :
    c.computeOverallSha1 rawsha1 = .ok (overallSha1 rawsha1 (entryHashes (rs.map Prod.snd))) := by
  rw [ChdFile.computeOverallSha1, if_neg hversion,
    h.listing.metadataHashes (by rw [length_map]; exact h.length_lt_fuel)]
  rfl

/-- What `metadata_update_hash` leaves. -/
def rehash (c : ChdFile) (l : List Entry) : ChdFile :=
  if c.version < 4 ∨ ¬ c.compressed then c
  else c.onFile fun file ↦ file.put c.sha1Offset (c.overallHash l)

theorem length_overallHash (c : ChdFile) (l : List Entry) : (c.overallHash l).length = 20 :=
  Util.length_sha1 _

theorem Layout.metadataUpdateHash_eq_ok (h : c.Layout rs) {c' : ChdFile} :
    metadataUpdateHash c = .ok () c' ↔
      (c.version < 4 ∨ ¬ c.compressed ∨ c.file.canWrite c.sha1Offset 20 = true) ∧
        c' = c.rehash (rs.map Prod.snd) := by
  rw [metadataUpdateHash, get_bind, rehash]
  split_ifs with hnone
  · rw [pure_eq_ok]
    exact ⟨fun h ↦ ⟨hnone.imp_right .inl, h.2.symm⟩, fun h ↦ ⟨rfl, h.2.symm⟩⟩
  · rw [not_or] at hnone
    rw [h.computeOverallSha1 hnone.1]
    show fileWrite c.sha1Offset (c.overallHash (rs.map Prod.snd)) c = _ ↔ _
    rw [fileWrite_eq_ok, length_overallHash]
    refine and_congr_left fun _ ↦ ⟨fun hcan ↦ .inr (.inr hcan), ?_⟩
    rintro (hversion | hcompressed | hcan)
    · exact absurd hversion hnone.1
    · exact absurd hcompressed hnone.2
    · exact hcan

theorem Layout.rehash (h : c.Layout rs) (l : List Entry) : (c.rehash l).Layout rs := by
  rw [ChdFile.rehash]
  split_ifs
  · exact h
  · exact h.putHeader (by rw [length_overallHash]; exact h.fields.inside.2.1)

end ChdFile

/-! ## What the operations make of a list -/

namespace MetadataList

/-- What `write_metadata` makes of a list. An entry that has to move takes those behind it along. -/
def written (l : List Entry) (tag : Tag) (n : ℤ) (data : List Byte) (flags : Byte) : List Entry :=
  match findSplit (Entry.hasTag tag) n l with
  | none => l ++ [⟨tag, flags, data⟩]
  | some (before, e, after) =>
      if data.length ≤ e.data.length then before ++ { e with data := data } :: after
      else before ++ [⟨tag, flags, data⟩]

/-- The data fit, or the entry is the last one and of the tag that is written. -/
def Keeps (l : List Entry) (tag : Tag) (n : ℤ) (data : List Byte) : Prop :=
  match findSplit (Entry.hasTag tag) n l with
  | none => True
  | some (_, e, after) => data.length ≤ e.data.length ∨ after = [] ∧ e.tag = tag

instance (l : List Entry) (tag : Tag) (n : ℤ) (data : List Byte) :
    Decidable (Keeps l tag n data) := by
  unfold Keeps
  split <;> infer_instance

theorem written_eq_write_iff {l : List Entry} {tag : Tag} {n : ℤ}
    {data : List Byte} {flags : Byte} :
    written l tag n data flags = write l tag n data flags ↔ Keeps l tag n data := by
  rw [written, write, Keeps]
  cases findSplit (Entry.hasTag tag) n l with
  | none => exact iff_of_true rfl trivial
  | some s =>
    obtain ⟨before, e, after⟩ := s
    simp only [replace]
    split_ifs with hfit
    · exact iff_of_true rfl (.inl hfit)
    · rw [or_iff_right hfit, append_cancel_left_eq, List.cons.injEq, Entry.mk.injEq]
      constructor
      · rintro ⟨⟨htag, -⟩, hafter⟩
        exact ⟨hafter.symm, htag.symm⟩
      · rintro ⟨rfl, htag⟩
        exact ⟨⟨htag.symm, rfl, rfl⟩, rfl⟩

/-- An index below zero is never reached. -/
theorem findSplit_neg {α : Type} {p : α → Bool} {n : ℤ} (hn : n < 0) (l : List α) :
    findSplit p n l = none := by
  induction l generalizing n with
  | nil => rfl
  | cons x l ih =>
    rw [findSplit, if_neg (fun h ↦ absurd h.2 hn.ne), ih (by split_ifs <;> omega)]
    rfl

end MetadataList

open MetadataList

namespace ChdFile

variable {c c' : ChdFile}

variable {rs : List (ℕ × Entry)} {l : List Entry} {tag : Tag} {data : List Byte} {n : ℤ}
    {flags : Byte}

theorem Layout.metadataFind_of_none (h : c.Layout rs)
    (hfind : findSplit (recordHasTag tag) n rs = none) :
    ∃ m, c.metadataFind tag n = .notFound m ∧ m.prev = lastOffset 0 rs :=
  metadataFindLoop_notFound h.faithful h.chain hfind h.length_lt_fuel rfl

theorem Layout.metadataFind_of_some {before after : List (ℕ × Entry)} {r : ℕ × Entry}
    (h : c.Layout rs) (hfind : findSplit (recordHasTag tag) n rs = some (before, r, after)) :
    c.metadataFind tag n = .found (foundEntry (.begin c.metaoffset) before r after) :=
  metadataFindLoop_found h.faithful h.chain hfind h.length_lt_fuel rfl

/-- A record is appended to the records of a chain. -/
theorem Layout.append {before after : List (ℕ × Entry)} (h : c.Layout (before ++ after))
    (hpos : 0 < data.length) (hlt : data.length < 2 ^ 24)
    (hok : appendMetadata (lastOffset 0 before) tag data flags c = .ok () c') :
    c'.Layout (before ++ [(c.file.data.length, ⟨tag, flags, data⟩)]) := by
  obtain ⟨hcan, -, -, rfl⟩ := appendMetadata_eq_ok.mp hok
  obtain ⟨mid, hbefore, -⟩ := h.chain.split
  have hlen := c.file.le_of_canWrite _ _ hcan
  refine (h.toPlaces.sublist ?_).append hbefore hpos hlt (by omega)
  exact sublist_append_left _ _

theorem Layout.writeFound (h : c.Layout rs) (hpos : 0 < data.length) (hlt : data.length < 2 ^ 24)
    (hok : writeFound tag data flags (c.metadataFind tag n) c = .ok () c') :
    ∃ rs', c'.Layout rs' ∧ rs'.map Prod.snd = written (rs.map Prod.snd) tag n data flags := by
  rw [written, findSplit_map,
    show (fun x : ℕ × Entry ↦ Entry.hasTag tag x.2) = recordHasTag tag from rfl]
  cases hfind : findSplit (recordHasTag tag) n rs with
  | none =>
    obtain ⟨m, hm, hprev⟩ := h.metadataFind_of_none hfind
    rw [hm, Chd.writeFound, hprev] at hok
    rw [← append_nil rs] at h
    exact ⟨_, h.append hpos hlt hok, map_append⟩
  | some s =>
    obtain ⟨before, r, after⟩ := s
    obtain ⟨rfl, -⟩ := eq_of_findSplit hfind
    rw [h.metadataFind_of_some hfind, Chd.writeFound,
      show (foundEntry (.begin c.metaoffset) before r after).length =
      r.2.data.length from rfl] at hok
    simp only [Option.map_some]
    split_ifs at hok ⊢ with hfit
    · exact ⟨_, h.overwrite hpos hfit rfl rfl hok, map_append⟩
    · obtain ⟨_, c₁, hunlink, hok⟩ := bind_eq_ok.mp hok
      obtain ⟨-, rfl⟩ := metadataSetPreviousNext_eq_ok.mp hunlink
      exact ⟨_, h.unlink.append hpos hlt hok, map_append⟩

theorem Represents.write (h : c.Represents l) {index : BitVec 32}
    (hok : writeMetadata tag index data flags c = .ok () c') :
    c'.Represents (written l tag index.toInt data flags) := by
  obtain ⟨rs, hrs, rfl⟩ := h
  rw [writeMetadata] at hok
  split_ifs at hok with hsize
  · cases hok
  rw [get_bind] at hok
  obtain ⟨_, c₁, hwrite, hok⟩ := bind_eq_ok.mp hok
  obtain ⟨rs', hrs', heq⟩ := hrs.writeFound (by omega) (by omega) hwrite
  obtain ⟨-, rfl⟩ := hrs'.metadataUpdateHash_eq_ok.mp hok
  exact ⟨rs', hrs'.rehash _, heq⟩

theorem Represents.delete (h : c.Represents l) {index : BitVec 32}
    (hok : deleteMetadata tag index c = .ok () c') :
    c'.Represents (MetadataList.delete l tag index.toInt) := by
  obtain ⟨rs, hrs, rfl⟩ := h
  rw [deleteMetadata, get_bind] at hok
  rw [MetadataList.delete, findSplit_map]
  cases hfind : findSplit (recordHasTag tag) index.toInt rs with
  | none =>
    obtain ⟨m, hm, -⟩ := hrs.metadataFind_of_none hfind
    rw [hm] at hok
    cases hok
  | some s =>
    obtain ⟨before, r, after⟩ := s
    obtain ⟨rfl, -⟩ := eq_of_findSplit hfind
    rw [hrs.metadataFind_of_some hfind] at hok
    obtain ⟨-, rfl⟩ := metadataSetPreviousNext_eq_ok.mp hok
    refine ⟨_, hrs.unlink, ?_⟩
    rw [show (fun x : ℕ × Entry ↦ Entry.hasTag tag x.2) = recordHasTag tag from rfl, hfind]
    exact map_append

theorem Represents.read (h : c.Represents l) (tag : Tag) (index : BitVec 32) :
    c.readMetadata tag index =
      match MetadataList.read l tag index.toInt with
      | some e => .ok (e.data, e.tag, e.flags)
      | none => .error (.error .metadataNotFound) := by
  obtain ⟨rs, hrs, rfl⟩ := h
  rw [readMetadata, MetadataList.read, findSplit_map,
    show (fun x : ℕ × Entry ↦ Entry.hasTag tag x.2) = recordHasTag tag from rfl]
  cases hfind : findSplit (recordHasTag tag) index.toInt rs with
  | none =>
    obtain ⟨m, hm, -⟩ := hrs.metadataFind_of_none hfind
    rw [hm]
    rfl
  | some s =>
    obtain ⟨before, ⟨offset, e⟩, after⟩ := s
    obtain ⟨rfl, -⟩ := eq_of_findSplit hfind
    obtain ⟨mid, -, htail⟩ := hrs.chain.split
    cases htail with
    | cons stored _ =>
      rw [hrs.metadataFind_of_some hfind]
      show (c.file.read (offset + 16) e.data.length).map _ = .ok (e.data, e.tag, e.flags)
      rw [CoreFile.read_of_le hrs.faithful stored.inside, stored.data]
      rfl

end ChdFile

/-! ## Cloning -/

namespace ChdFile

variable {c c' : ChdFile}

theorem toInt_appendIndex : appendIndex.toInt = -1 := by decide

theorem written_appendIndex (l : List Entry) (e : Entry) :
    written l e.tag appendIndex.toInt e.data e.flags = l ++ [e] := by
  rw [written, toInt_appendIndex, findSplit_neg (by decide)]

/-- The link that a new record needs is inside the file. -/
theorem Layout.linkOffset_le {rs : List (ℕ × Entry)} (h : c.Layout rs) :
    linkOffset c (lastOffset 0 rs) + 8 ≤ c.file.data.length := by
  rw [linkOffset]
  split_ifs with hzero
  · exact h.fields.inside.1.trans h.size
  · rcases eq_nil_or_concat' rs with rfl | ⟨rs, r, rfl⟩
    · exact absurd rfl hzero
    · have hinside := h.inside r (by simp)
      rw [show lastOffset 0 (rs ++ [r]) = r.1 by
        rw [lastOffset, List.getLast?_append, List.getLast?_singleton]; rfl]
      omega

theorem length_relink_of_le {c : ChdFile}
    {prev next : ℕ} (h : linkOffset c prev + 8 ≤ c.file.data.length) :
    (c.relink prev next).file.data.length = c.file.data.length := by
  have hlen : (toBytes 8 next).length = 8 := length_toBytes _ _
  rw [linkOffset] at h
  rw [ChdFile.relink]
  split_ifs at h ⊢ <;> exact length_writeAt_of_le _ (by omega)

theorem length_withRecord (c : ChdFile) {e : Entry} (hpos : 0 < e.data.length) :
    (c.withRecord e).file.data.length = c.file.data.length + (16 + e.data.length) := by
  have hheader : (recordHeader e 0).length = 16 := length_recordHeader _ _
  have hlen : (c.file.data.writeAt c.file.data.length (recordHeader e 0)).length =
      c.file.data.length + 16 := by
    rw [length_writeAt _ (ne_nil_of_length_pos (by omega)), hheader]
    omega
  show ((c.file.data.writeAt _ _).writeAt _ _).length = _
  rw [length_writeAt _ (ne_nil_of_length_pos hpos), hlen]
  omega

theorem Layout.length_rehash {rs : List (ℕ × Entry)} (h : c.Layout rs) (l : List Entry) :
    (c.rehash l).file.data.length = c.file.data.length := by
  have hsha1 : c.sha1Offset + 20 ≤ c.file.data.length := h.fields.inside.2.1.trans h.size
  rw [ChdFile.rehash]
  split_ifs
  · rfl
  · exact length_writeAt_of_le _ (by rwa [length_overallHash])

variable {l : List Entry}

theorem Represents.append_ok (h : c.Represents l) {e : Entry} (hpos : 0 < e.data.length)
    (hlt : e.data.length < 2 ^ 24) (hroom : c.file.data.length + (16 + e.data.length) ≤ 2 ^ 64) :
    ∃ c', writeMetadata e.tag appendIndex e.data e.flags c = .ok () c' ∧
      c'.file.data.length = c.file.data.length + (16 + e.data.length) := by
  obtain ⟨rs, hrs, rfl⟩ := h
  have hfind : findSplit (recordHasTag e.tag) appendIndex.toInt rs = none := by
    rw [toInt_appendIndex, findSplit_neg (by decide)]
  obtain ⟨m, hm, hprev⟩ := hrs.metadataFind_of_none hfind
  have hlink := hrs.linkOffset_le
  have hwrite : appendMetadata (lastOffset 0 rs) e.tag e.data e.flags c =
      .ok () ((c.withRecord e).relink (lastOffset 0 rs) c.file.data.length) := by
    refine appendMetadata_eq_ok.mpr ⟨?_, ?_, ?_, rfl⟩ <;>
      exact hrs.faithful.canWrite _ _ (by omega)
  have hrs' : ((c.withRecord e).relink (lastOffset 0 rs) c.file.data.length).Layout
      (rs ++ [(c.file.data.length, e)]) := by
    rw [← append_nil rs] at hrs
    exact hrs.append hpos hlt hwrite
  have hlen : ((c.withRecord e).relink (lastOffset 0 rs) c.file.data.length).file.data.length =
      c.file.data.length + (16 + e.data.length) := by
    rw [length_relink_of_le, length_withRecord c hpos]
    show linkOffset c (lastOffset 0 rs) + 8 ≤ _
    rw [length_withRecord c hpos]
    omega
  have hsha1 := hrs'.fields.inside.2.1.trans hrs'.size
  have hupdate := hrs'.metadataUpdateHash_eq_ok.mpr
    ⟨.inr (.inr (hrs'.faithful.canWrite _ _ (by omega))), rfl⟩
  have hsame := hrs'.length_rehash ((rs ++ [(c.file.data.length, e)]).map Prod.snd)
  refine ⟨_, ?_, hsame.trans hlen⟩
  rw [writeMetadata, if_neg (by omega), get_bind, hm, Chd.writeFound, hprev]
  exact bind_eq_ok.mpr ⟨(), _, hwrite, hupdate⟩

/-- The room that the records of a list take. -/
def recordsSize (l : List Entry) : ℕ := (l.map fun e ↦ 16 + e.data.length).sum

/-- The loop of `clone_all_metadata` appends what it goes through. -/
theorem Listing.clone {source : ChdFile} {f : Found} (h : source.Listing f l) {l₀ : List Entry}
    (hc : c.Represents l₀) {fuel : ℕ} (hfuel : l.length < fuel)
    (hok : cloneMetadataFrom source fuel f c = .ok () c') : c'.Represents (l₀ ++ l) := by
  induction h generalizing c l₀ fuel with
  | nil m =>
    obtain ⟨fuel, rfl⟩ := exists_eq_succ_of_ne_zero (Nat.ne_zero_of_lt hfuel)
    obtain ⟨-, rfl⟩ := pure_eq_ok.mp hok
    rwa [append_nil]
  | @cons m e l htag hflags hdata _ _ _ ih =>
    obtain ⟨fuel, rfl⟩ := exists_eq_succ_of_ne_zero (Nat.ne_zero_of_lt hfuel)
    rw [cloneMetadataFrom, hdata, htag, hflags] at hok
    obtain ⟨_, c₁, hwrite, hok⟩ := bind_eq_ok.mp hok
    have hc₁ := hc.write hwrite
    rw [written_appendIndex] at hc₁
    rw [append_cons]
    exact ih hc₁ (lt_of_succ_lt_succ hfuel) hok

theorem Listing.clone_ok {source : ChdFile} {f : Found} (h : source.Listing f l) {l₀ : List Entry}
    (hc : c.Represents l₀) {fuel : ℕ} (hfuel : l.length < fuel)
    (hroom : c.file.data.length + recordsSize l ≤ 2 ^ 64) :
    ∃ c', cloneMetadataFrom source fuel f c = .ok () c' := by
  induction h generalizing c l₀ fuel with
  | nil m =>
    obtain ⟨fuel, rfl⟩ := exists_eq_succ_of_ne_zero (Nat.ne_zero_of_lt hfuel)
    exact ⟨c, rfl⟩
  | @cons m e l htag hflags hdata hpos hlt _ ih =>
    obtain ⟨fuel, rfl⟩ := exists_eq_succ_of_ne_zero (Nat.ne_zero_of_lt hfuel)
    rw [recordsSize, map_cons, sum_cons, ← recordsSize] at hroom
    obtain ⟨c₁, hwrite, hlen⟩ := hc.append_ok hpos hlt (by omega)
    obtain ⟨c', hok⟩ := ih (hc.write hwrite) (lt_of_succ_lt_succ hfuel) (by omega)
    rw [cloneMetadataFrom, hdata, htag, hflags]
    exact ⟨c', bind_eq_ok.mpr ⟨(), c₁, hwrite, hok⟩⟩

end ChdFile

/-! ## Runs -/

/-- An operation that changes the metadata. -/
inductive MetadataOp
  | write (tag : Tag) (index : BitVec 32) (data : List Byte) (flags : Byte)
  | delete (tag : Tag) (index : BitVec 32)
deriving DecidableEq, Repr

namespace MetadataOp

/-- The operation on a CHD. -/
def exec : MetadataOp → ChdM Unit
  | write tag index data flags => writeMetadata tag index data flags
  | delete tag index => deleteMetadata tag index

/-- The operation on a list. -/
def apply (l : List Entry) : MetadataOp → List Entry
  | write tag index data flags => MetadataList.write l tag index.toInt data flags
  | delete tag index => MetadataList.delete l tag index.toInt

/-- A write of an entry that is there has data that fit, or else it is to the last entry, under the
tag of that. -/
def Keeps (l : List Entry) : MetadataOp → Prop
  | write tag index data _ => MetadataList.Keeps l tag index.toInt data
  | delete _ _ => True

/-- The operation on a CHD and on a list that goes with it. -/
def step (s : ChdFile × List Entry) (op : MetadataOp) : ChdFile × List Entry :=
  match op.exec s.1 with
  | .ok _ c => (c, op.apply s.2)
  | .error _ c => (c, s.2)

/-- The operation comes to a good end. -/
def Succeeds (s : ChdFile × List Entry) (op : MetadataOp) : Prop := ∃ c, op.exec s.1 = .ok () c

end MetadataOp

namespace MetadataOp

instance (s : ChdFile × List Entry) (op : MetadataOp) : Decidable (Succeeds s op) :=
  match h : op.exec s.1 with
  | .ok () c => .isTrue ⟨c, h⟩
  | .error _ _ => .isFalse fun hok ↦ by
      obtain ⟨c, hok⟩ := hok
      rw [h] at hok
      cases hok

instance (l : List Entry) (op : MetadataOp) : Decidable (op.Keeps l) :=
  match op with
  | write tag index data _ =>
    inferInstanceAs (Decidable (MetadataList.Keeps l tag index.toInt data))
  | delete _ _ => instDecidableTrue

end MetadataOp

/-- The metadata that are read back are the list: all of it in order when it is gone through, and
each entry under its tag and index. -/
def ReadsBack (c : ChdFile) (l : List Entry) : Prop :=
  c.allMetadata = .ok l ∧
    ∀ tag index, c.readMetadata tag index =
      match MetadataList.read l tag index.toInt with
      | some e => .ok (e.data, e.tag, e.flags)
      | none => .error (.error .metadataNotFound)

theorem ChdFile.Represents.readsBack {c : ChdFile} {l : List Entry} (h : c.Represents l) :
    ReadsBack c l := by
  refine ⟨?_, h.read⟩
  obtain ⟨rs, hrs, rfl⟩ := h
  exact hrs.allMetadata

theorem ReadsBack.eq {c : ChdFile} {l l' : List Entry} (h : ReadsBack c l)
    (h' : ReadsBack c l') : l = l' :=
  Except.ok.inj (h.1.symm.trans h'.1)

namespace MetadataOp

theorem represents_step {c : ChdFile} {l : List Entry} {op : MetadataOp} (h : c.Represents l)
    (hok : Succeeds (c, l) op) :
    ∃ l', (step (c, l) op).1.Represents l' ∧ (step (c, l) op).2 = op.apply l ∧
      (l' = op.apply l ↔ op.Keeps l) := by
  obtain ⟨c', hok⟩ := hok
  rw [step, hok]
  cases op with
  | write tag index data flags =>
    exact ⟨_, h.write hok, rfl, written_eq_write_iff⟩
  | delete tag index =>
    exact ⟨_, h.delete hok, rfl, iff_of_true rfl trivial⟩

end MetadataOp

/-- **Runs of metadata operations.** Over operations that succeed, the metadata are those of the
list exactly as long as no entry but the last one gets data that do not fit. The entries that
`clone_all_metadata` leaves in a CHD that had none are those of its source. -/
theorem metadata_readsBack {c : ChdFile} {l : List Entry} (h : c.Represents l) :
    (∀ ops, Run.Meets MetadataOp.step MetadataOp.Succeeds (c, l) ops →
      (Run.Always MetadataOp.step (fun s ↦ ReadsBack s.1 s.2) (c, l) ops ↔
        Run.Meets MetadataOp.step (fun s op ↦ op.Keeps s.2) (c, l) ops)) ∧
    (∀ dest c' : ChdFile, dest.Represents [] → cloneAllMetadata c dest = .ok () c' →
    ReadsBack c' l) ∧ ∀ dest : ChdFile, dest.Represents [] →
      dest.file.data.length + ChdFile.recordsSize l ≤ 2 ^ 64 →
      ∃ c', cloneAllMetadata c dest = .ok () c' := by
  refine ⟨fun ops hops ↦ ?_, fun dest c' hdest hok ↦ ?_, fun dest hdest hroom ↦ ?_⟩
  · refine Run.always_iff_meets_of_meets (Q := fun s ↦ s.1.Represents s.2)
      (fun s hs ↦ hs.readsBack) ?_ ?_ h hops
    · rintro ⟨c, l⟩ op hs hok hkeeps
      obtain ⟨l', hl', hsnd, hiff⟩ := MetadataOp.represents_step hs hok
      rw [hsnd, ← hiff.mpr hkeeps]
      exact hl'
    · rintro ⟨c, l⟩ op hs hok hread
      obtain ⟨l', hl', hsnd, hiff⟩ := MetadataOp.represents_step hs hok
      exact hiff.mp ((hl'.readsBack.eq hread).trans hsnd)
  · obtain ⟨rs, hrs, rfl⟩ := h
    have hfuel : (rs.map Prod.snd).length < c.metadataFuel := by
      rw [length_map]
      exact hrs.length_lt_fuel
    exact (hrs.listing.clone hdest hfuel hok).readsBack
  · obtain ⟨rs, hrs, rfl⟩ := h
    have hfuel : (rs.map Prod.snd).length < c.metadataFuel := by
      rw [length_map]
      exact hrs.length_lt_fuel
    exact hrs.listing.clone_ok hdest hfuel hroom

/-- Two entries are written, the first again with data that fit, and then it is deleted. -/
theorem metadata_readsBack_created :
    Run.Always MetadataOp.step (fun s ↦ ReadsBack s.1 s.2) (.created (fun _ ↦ 0) 0 4096 512, [])
      [.write 1 0 [1, 2] 1, .write 2 0 [3] 0, .write 1 0 [4] 0, .delete 1 0] :=
  ((metadata_readsBack (ChdFile.represents_created (fun _ ↦ 0) 0 4096 512)).1 _
    (by decide +kernel)).mpr (by decide +kernel)

/-- An entry gets longer data, and the one behind it is gone. -/
theorem not_readsBack_longer :
    ∃ ops, Run.Meets MetadataOp.step MetadataOp.Succeeds (.created (fun _ ↦ 0) 0 4096 512, []) ops ∧
      ¬ Run.Always MetadataOp.step (fun s ↦ ReadsBack s.1 s.2) (.created (fun _ ↦ 0) 0 4096 512, [])
        ops := by
  refine ⟨[.write 1 0 [1] 0, .write 2 0 [2] 0, .write 1 0 [3, 4] 0], by decide +kernel, fun h ↦ ?_⟩
  have hlist : MetadataList.read (Run.run MetadataOp.step (.created (fun _ ↦ 0) 0 4096 512, [])
      [.write 1 0 [1] 0, .write 2 0 [2] 0, .write 1 0 [3, 4] 0]).2 2 0 = some ⟨2, 0, [2]⟩ := by
    decide +kernel
  have hlost : (Run.run MetadataOp.step (.created (fun _ ↦ 0) 0 4096 512, [])
      [.write 1 0 [1] 0, .write 2 0 [2] 0, .write 1 0 [3, 4] 0]).1.readMetadata 2 0 =
      .error (.error .metadataNotFound) := by decide +kernel
  have hlast := h.last
  generalize Run.run MetadataOp.step _ _ = s at hlist hlost hlast
  have hread := hlast.2 2 0
  rw [show (0 : BitVec 32).toInt = 0 by decide, hlist, hlost] at hread
  cases hread

end RoscoEmulator.Chd
