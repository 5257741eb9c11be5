import RoscoEmulator.Chd.MetadataRuns

/-!
# The overall hash of a CHD

The header of a CHD holds a hash over its raw hash and its metadata. Every operation that changes
one of the two has to compute it anew. `write_metadata` and `set_raw_sha1` do; `delete_metadata`
does not, so the hash stays in step only as long as what is deleted does not go into it. -/

namespace RoscoEmulator.Chd

open BigEndian ByteFile MetadataList

/-! ## The order of the entries -/

namespace ChdFile

instance : Std.Total memcmpLe := ⟨fun a b ↦ Nat.le_total (ofBytes a) (ofBytes b)⟩

instance : IsTrans (List Byte) memcmpLe := ⟨fun _ _ _ ↦ Nat.le_trans⟩

/-- `memcmp` tells arrays of one length apart. -/
theorem memcmpLe_antisymm {a b : List Byte} (hlen : a.length = b.length) (hab : memcmpLe a b)
    (hba : memcmpLe b a) : a = b := by
  have heq : ofBytes a = ofBytes b := Nat.le_antisymm hab hba
  rw [← toBytes_ofBytes a, hlen, heq, toBytes_ofBytes]

@[simp] theorem length_entryHash (e : Entry) : (entryHash e).length = 24 := by
  rw [entryHash, List.length_append, length_toBytes, Util.length_sha1]

theorem length_of_mem_entryHashes {l : List Entry} {h : List Byte} (hh : h ∈ entryHashes l) :
    h.length = 24 := by
  obtain ⟨e, -, rfl⟩ := List.mem_map.mp hh
  exact length_entryHash e

/-- The hash does not depend on the order of the entries. -/
theorem overallSha1_perm {l l' : List Entry} (h : l.Perm l') (rawsha1 : List Byte) :
    overallSha1 rawsha1 (entryHashes l) = overallSha1 rawsha1 (entryHashes l') := by
  have hperm : (entryHashes l).Perm (entryHashes l') := (h.filter _).map _
  have hsort :
      (entryHashes l).insertionSort memcmpLe = (entryHashes l').insertionSort memcmpLe := by
    refine List.Perm.eq_of_pairwise (fun a b ha hb hab hba ↦ memcmpLe_antisymm ?_ hab hba)
      (List.pairwise_insertionSort memcmpLe _) (List.pairwise_insertionSort memcmpLe _)
      (((List.perm_insertionSort _ _).trans hperm).trans (List.perm_insertionSort _ _).symm)
    rw [length_of_mem_entryHashes ((List.mem_insertionSort memcmpLe).mp ha),
      length_of_mem_entryHashes ((List.mem_insertionSort memcmpLe).mp hb)]
  rw [overallSha1, overallSha1, hsort]

/-! ## The hash in the header -/

variable {c c' : ChdFile}

/-- The hash in the header is that of the raw hash in the header and of the metadata. -/
def InStep (c : ChdFile) : Prop :=
  ∃ hash, c.file.read c.sha1Offset 20 = .ok hash ∧ c.computeOverallSha1 c.rawSha1 = .ok hash

instance (c : ChdFile) : Decidable c.InStep :=
  match hread : c.file.read c.sha1Offset 20 with
  | .error _ => .isFalse fun h ↦ by
      obtain ⟨hash, h, -⟩ := h
      rw [hread] at h
      cases h
  | .ok hash => decidable_of_iff (c.computeOverallSha1 c.rawSha1 = .ok hash) (by
      constructor
      · exact fun h ↦ ⟨hash, hread, h⟩
      · rintro ⟨hash', h, hcompute⟩
        rw [Except.ok.inj (hread.symm.trans h)]
        exact hcompute)

/-- A compressed CHD of version 5. -/
def Compressed5 (c : ChdFile) : Prop := c.version = 5 ∧ c.compressed = true

instance (c : ChdFile) : Decidable c.Compressed5 := inferInstanceAs (Decidable (_ ∧ _))

/-- The header fields that no operation changes. -/
def format (c : ChdFile) : ℕ × (Fin 4 → BitVec 32) := (c.version, c.compression)

theorem Compressed5.of_format_eq (h : c.Compressed5) (heq : c'.format = c.format) :
    c'.Compressed5 := by
  obtain ⟨hversion, hcompression⟩ := Prod.mk.inj heq
  exact ⟨hversion.trans h.1, by rw [compressed, hcompression]; exact h.2⟩

@[simp] theorem format_relink (prev next : ℕ) : (c.relink prev next).format = c.format := by
  rw [relink]
  split_ifs <;> rfl

@[simp] theorem format_withRecord (e : Entry) : (c.withRecord e).format = c.format := rfl

theorem format_overwriteMetadata {m : MetadataEntry} {data : List Byte}
    (h : overwriteMetadata m data c = .ok () c') : c'.format = c.format := by
  rw [overwriteMetadata_eq_ok h]
  split_ifs <;> rfl

theorem format_writeFound {tag : Tag} {data : List Byte} {flags : Byte} {f : Found}
    (h : Chd.writeFound tag data flags f c = .ok () c') : c'.format = c.format := by
  cases f with
  | failed stop => cases h
  | notFound m =>
    obtain ⟨-, -, -, rfl⟩ := appendMetadata_eq_ok.mp h
    rw [format_relink, format_withRecord]
  | found m =>
    rw [Chd.writeFound] at h
    split_ifs at h
    · exact format_overwriteMetadata h
    · obtain ⟨_, c₁, hunlink, h⟩ := bind_eq_ok.mp h
      obtain ⟨-, rfl⟩ := metadataSetPreviousNext_eq_ok.mp hunlink
      obtain ⟨-, -, -, rfl⟩ := appendMetadata_eq_ok.mp h
      rw [format_relink, format_withRecord, format_relink]

variable {rs : List (ℕ × Entry)}

/-- The header of a version 5 CHD has a raw hash and a hash behind it. -/
theorem Compressed5.offsets (h : c.Compressed5) (hrs : c.Layout rs) :
    c.metaoffsetOffset = 48 ∧ c.rawsha1Offset = 64 ∧ c.sha1Offset = 84 ∧
      124 ≤ c.file.data.length ∧ ∀ r ∈ rs, 124 ≤ r.1 := by
  have hheader : headerSize c.version = 124 := by rw [h.1]; rfl
  have hsize := hrs.size
  have hbehind := hrs.behind
  rw [hheader] at hsize hbehind
  obtain ⟨hv, -⟩ | ⟨hv, -⟩ | ⟨-, hm, hs, hr⟩ := hrs.fields
  · rw [h.1] at hv
    cases hv
  · rw [h.1] at hv
    cases hv
  · exact ⟨hm, hr, hs, hsize, hbehind⟩

theorem Layout.read_header (hrs : c.Layout rs) {offset : ℕ} (h : offset + 20 ≤ c.file.data.length) :
    c.file.read offset 20 = .ok (c.file.data.readAt offset 20) :=
  CoreFile.read_of_le hrs.faithful h

theorem Compressed5.rawSha1_eq (h : c.Compressed5) (hrs : c.Layout rs) :
    c.rawSha1 = c.file.data.readAt 64 20 := by
  obtain ⟨-, hraw, -, hsize, -⟩ := h.offsets hrs
  rw [rawSha1, hraw, if_neg (by decide), hrs.read_header (by omega)]

theorem Compressed5.inStep_iff (h : c.Compressed5) (hrs : c.Layout rs) :
    c.InStep ↔ c.file.data.readAt 84 20 =
      overallSha1 (c.file.data.readAt 64 20) (entryHashes (rs.map Prod.snd)) := by
  obtain ⟨-, -, hsha1, hsize, -⟩ := h.offsets hrs
  have hcompute := hrs.computeOverallSha1 (by rw [h.1]; decide) c.rawSha1
  rw [InStep, hsha1, hrs.read_header (by omega), hcompute, h.rawSha1_eq hrs]
  constructor
  · rintro ⟨hash, hread, hhash⟩
    rw [Except.ok.inj hread, Except.ok.inj hhash]
  · exact fun heq ↦ ⟨_, rfl, congrArg Except.ok heq.symm⟩

theorem Compressed5.inStep_rehash (h : c.Compressed5) (hrs : c.Layout rs) :
    (c.rehash (rs.map Prod.snd)).InStep := by
  obtain ⟨-, -, hsha1, hsize, -⟩ := h.offsets hrs
  have hrehash : c.rehash (rs.map Prod.snd) =
      c.onFile fun file ↦ file.put 84 (c.overallHash (rs.map Prod.snd)) := by
    rw [rehash, if_neg (not_or.mpr ⟨by rw [h.1]; decide, not_not_intro h.2⟩), hsha1]
  have hlen : (c.overallHash (rs.map Prod.snd)).length = 20 := length_overallHash _ _
  have h' : (c.rehash (rs.map Prod.snd)).Compressed5 := h.of_format_eq (by rw [hrehash]; rfl)
  rw [h'.inStep_iff (hrs.rehash _), hrehash]
  show (c.file.data.writeAt 84 _).readAt 84 20 =
    overallSha1 ((c.file.data.writeAt 84 _).readAt 64 20) (entryHashes (rs.map Prod.snd))
  rw [readAt_writeAt_of_length _ hlen,
    readAt_writeAt_of_disjoint _ (by omega) (disjoint_extent_of_le (by omega)), overallHash,
    h.rawSha1_eq hrs]

/-- A change of a link leaves both hashes in the header. -/
theorem Compressed5.readAt_relink {before after : List (ℕ × Entry)} {next offset : ℕ}
    (h : c.Compressed5) (hrs : c.Layout (before ++ after)) (hlow : 64 ≤ offset)
    (hhigh : offset + 20 ≤ 124) : (c.relink (lastOffset 0 before) next).file.data.readAt offset 20 =
      c.file.data.readAt offset 20 := by
  have hlen : (toBytes 8 next).length = 8 := length_toBytes _ _
  obtain ⟨hmeta, -, -, hsize, hbehind⟩ := h.offsets hrs
  rcases List.eq_nil_or_concat' before with rfl | ⟨before, r, rfl⟩
  · rw [show lastOffset 0 ([] : List (ℕ × Entry)) = 0 from rfl, relink_zero, hmeta]
    exact readAt_writeAt_of_disjoint _ (by omega) (disjoint_extent_of_le (by omega))
  · have hr : 124 ≤ r.1 := hbehind r (by simp)
    rw [show lastOffset 0 (before ++ [r]) = r.1 by
      rw [lastOffset, List.getLast?_append, List.getLast?_singleton]; rfl, relink_of_pos (by omega)]
    exact readAt_writeAt_of_disjoint _ (by omega) (disjoint_extent_of_le (by omega))

theorem Compressed5.inStep_unlink {before after : List (ℕ × Entry)} {r : ℕ × Entry}
    (h : c.Compressed5) (hrs : c.Layout (before ++ r :: after))
    (hflag : r.2.flags.getLsbD 0 = false) (hstep : c.InStep) :
    (c.relink (lastOffset 0 before) (headOffset after)).InStep := by
  have h' : (c.relink (lastOffset 0 before) (headOffset after)).Compressed5 :=
    h.of_format_eq (format_relink _ _)
  have hhashes : entryHashes ((before ++ r :: after).map Prod.snd) =
      entryHashes ((before ++ after).map Prod.snd) := by
    rw [entryHashes, entryHashes, List.map_append, List.map_append, List.filter_append,
      List.filter_append, List.map_cons, List.filter_cons_of_neg (by rw [hflag]; decide)]
  rw [h'.inStep_iff hrs.unlink, h.readAt_relink hrs (by decide) (by decide),
    h.readAt_relink hrs (by decide) (by decide), ← hhashes]
  exact (h.inStep_iff hrs).mp hstep

end ChdFile

/-! ## Runs -/

/-- An operation that changes what goes into the hash. -/
inductive HashOp
  | metadata (op : MetadataOp)
  | setRawSha1 (rawdata : Vector Byte 20)

namespace HashOp

/-- The operation on a CHD. -/
def exec : HashOp → ChdM Unit
  | metadata op => op.exec
  | setRawSha1 rawdata => Chd.setRawSha1 rawdata.toList

/-- The CHD after an operation. -/
def step (c : ChdFile) (op : HashOp) : ChdFile :=
  match op.exec c with
  | .ok _ c' => c'
  | .error _ c' => c'

/-- The operation comes to a good end. -/
def Succeeds (c : ChdFile) (op : HashOp) : Prop := ∃ c', op.exec c = .ok () c'

/-- What is deleted does not have `CHD_MDFLAGS_CHECKSUM`. -/
def Unhashed (c : ChdFile) : HashOp → Prop
  | metadata (.delete tag index) =>
      match c.metadataFind tag index.toInt with
      | .found m => m.flags.getLsbD 0 = false
      | _ => True
  | _ => True

instance (c : ChdFile) (op : HashOp) : Decidable (Succeeds c op) :=
  match h : op.exec c with
  | .ok () c' => .isTrue ⟨c', h⟩
  | .error _ _ => .isFalse fun hok ↦ by
      obtain ⟨c', hok⟩ := hok
      rw [h] at hok
      cases hok

instance (c : ChdFile) (op : HashOp) : Decidable (Unhashed c op) := by
  unfold Unhashed
  split
  · split <;> infer_instance
  · infer_instance

variable {c c' : ChdFile} {rs : List (ℕ × Entry)}

theorem inStep_write (h : c.Compressed5) (hrs : c.Layout rs) {tag : Tag} {index : BitVec 32}
    {data : List Byte} {flags : Byte} (hok : writeMetadata tag index data flags c = .ok () c') :
    c'.Compressed5 ∧ (∃ rs', c'.Layout rs') ∧ c'.InStep := by
  rw [writeMetadata] at hok
  split_ifs at hok with hsize
  · cases hok
  rw [get_bind] at hok
  obtain ⟨_, c₁, hwrite, hok⟩ := bind_eq_ok.mp hok
  obtain ⟨rs', hrs', -⟩ := hrs.writeFound (by omega) (by omega) hwrite
  have h₁ : c₁.Compressed5 := h.of_format_eq (ChdFile.format_writeFound hwrite)
  obtain ⟨-, rfl⟩ := hrs'.metadataUpdateHash_eq_ok.mp hok
  refine ⟨h₁.of_format_eq ?_, ⟨rs', hrs'.rehash _⟩, h₁.inStep_rehash hrs'⟩
  rw [ChdFile.rehash]
  split_ifs <;> rfl

theorem inStep_setRawSha1 (h : c.Compressed5) (hrs : c.Layout rs) {rawdata : Vector Byte 20}
    (hok : Chd.setRawSha1 rawdata.toList c = .ok () c') :
    c'.Compressed5 ∧ (∃ rs', c'.Layout rs') ∧ c'.InStep := by
  obtain ⟨-, hraw, -⟩ := h.offsets hrs
  have hheader : headerSize c.version = 124 := by rw [h.1]; rfl
  rw [Chd.setRawSha1, get_bind, if_neg (by rw [hraw]; decide)] at hok
  obtain ⟨_, c₁, hwrite, hok⟩ := bind_eq_ok.mp hok
  obtain ⟨-, rfl⟩ := fileWrite_eq_ok.mp hwrite
  have hrs' : (c.onFile fun file ↦ file.put c.rawsha1Offset rawdata.toList).Layout rs :=
    hrs.putHeader (by
      rw [hraw, hheader, Vector.length_toList]
      decide)
  have h₁ : (c.onFile fun file ↦ file.put c.rawsha1Offset rawdata.toList).Compressed5 :=
    h.of_format_eq rfl
  obtain ⟨-, rfl⟩ := hrs'.metadataUpdateHash_eq_ok.mp hok
  refine ⟨h₁.of_format_eq ?_, ⟨rs, hrs'.rehash _⟩, h₁.inStep_rehash hrs'⟩
  rw [ChdFile.rehash]
  split_ifs <;> rfl

theorem inStep_delete (h : c.Compressed5) (hrs : c.Layout rs) {tag : Tag} {index : BitVec 32}
    (hstep : c.InStep) (hflag : Unhashed c (.metadata (.delete tag index)))
    (hok : deleteMetadata tag index c = .ok () c') :
    c'.Compressed5 ∧ (∃ rs', c'.Layout rs') ∧ c'.InStep := by
  rw [deleteMetadata, get_bind] at hok
  rw [Unhashed] at hflag
  cases hfind : findSplit (recordHasTag tag) index.toInt rs with
  | none =>
    obtain ⟨m, hm, -⟩ := hrs.metadataFind_of_none hfind
    rw [hm] at hok
    cases hok
  | some s =>
    obtain ⟨before, r, after⟩ := s
    obtain ⟨rfl, -⟩ := eq_of_findSplit hfind
    rw [hrs.metadataFind_of_some hfind] at hok hflag
    obtain ⟨-, rfl⟩ := metadataSetPreviousNext_eq_ok.mp hok
    refine ⟨h.of_format_eq (ChdFile.format_relink _ _), ⟨_, hrs.unlink⟩, ?_⟩
    exact h.inStep_unlink hrs hflag hstep

end HashOp

/-- **The overall hash.** In every run of operations that succeed, the hash in the header stays in
step as long as no entry is deleted that goes into it. The hash of the entries of a list does not
depend on their order. -/
theorem overallHash_inStep {c : ChdFile} (h : c.Compressed5) {l : List Entry} (hl : c.Represents l)
    (hstep : c.InStep) : (∀ ops, Run.Meets HashOp.step HashOp.Succeeds c ops →
      Run.Meets HashOp.step HashOp.Unhashed c ops → Run.Always HashOp.step ChdFile.InStep c ops) ∧
    ∀ (c' : ChdFile) (l' : List Entry), c'.version = c.version → c'.Represents l' → l.Perm l' →
      ∀ rawsha1, c.computeOverallSha1 rawsha1 = c'.computeOverallSha1 rawsha1 := by
  obtain ⟨rs, hrs, rfl⟩ := hl
  refine ⟨fun ops hops hflags ↦ ?_, fun c' l' hversion hl' hperm rawsha1 ↦ ?_⟩
  · refine (Run.always_of_meets (P := fun c : ChdFile ↦ c.Compressed5 ∧ (∃ rs, c.Layout rs) ∧
      c.InStep) ?_ ⟨h, ⟨rs, hrs⟩, hstep⟩ (hops.and hflags)).imp fun c hc ↦ hc.2.2
    rintro c op ⟨h, ⟨rs, hrs⟩, hstep⟩ ⟨⟨c', hok⟩, hflag⟩
    rw [HashOp.step, hok]
    cases op with
    | setRawSha1 rawdata => exact HashOp.inStep_setRawSha1 h hrs hok
    | metadata op =>
      cases op with
      | write tag index data flags => exact HashOp.inStep_write h hrs hok
      | delete tag index => exact HashOp.inStep_delete h hrs hstep hflag hok
  · obtain ⟨rs', hrs', rfl⟩ := hl'
    have hfour : ¬ c.version < 4 := by
      rw [h.1]
      decide
    rw [hrs.computeOverallSha1 hfour, hrs'.computeOverallSha1 (hversion ▸ hfour),
      ChdFile.overallSha1_perm hperm]

/-- A new CHD that has got a raw hash gets two entries, of which one is not hashed and deleted. -/
theorem overallHash_inStep_created :
    Run.Always HashOp.step ChdFile.InStep
      (HashOp.step (.created (fun _ ↦ 0x7a6c6962) 0 4096 512) (.setRawSha1 (.replicate 20 1)))
      [.metadata (.write 1 0 [1] 1), .metadata (.write 2 0 [2] 0), .metadata (.delete 2 0)] := by
  obtain ⟨rs, hrs, -⟩ := ChdFile.represents_created (fun _ ↦ 0x7a6c6962) 0 4096 512
  obtain ⟨c, hok⟩ : HashOp.Succeeds (.created (fun _ ↦ 0x7a6c6962) 0 4096 512)
      (.setRawSha1 (.replicate 20 1)) := by decide +kernel
  obtain ⟨h, ⟨rs', hrs'⟩, hstep⟩ := HashOp.inStep_setRawSha1 ⟨rfl, rfl⟩ hrs hok
  have hc : HashOp.step (.created (fun _ ↦ 0x7a6c6962) 0 4096 512) (.setRawSha1 (.replicate 20 1)) =
      c := by
    rw [HashOp.step, hok]
  rw [← hc] at h hrs' hstep
  exact (overallHash_inStep h ⟨rs', hrs', rfl⟩ hstep).1 _ (by decide +kernel) (by decide +kernel)

/-- A hashed entry is deleted, and the hash in the header is that of a list that is gone. -/
theorem not_overallHash_delete :
    ∃ c : ChdFile, c.Compressed5 ∧ c.InStep ∧ ∃ ops, Run.Meets HashOp.step HashOp.Succeeds c ops ∧
      ¬ (Run.run HashOp.step c ops).InStep :=
  ⟨HashOp.step (.created (fun _ ↦ 0x7a6c6962) 0 4096 512) (.setRawSha1 (.replicate 20 1)),
    by decide +kernel, by decide +kernel,
    [.metadata (.write 1 0 [1] 1), .metadata (.delete 1 0)], by decide +kernel, by decide +kernel⟩

end RoscoEmulator.Chd
