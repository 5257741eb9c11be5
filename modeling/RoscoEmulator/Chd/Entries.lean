import RoscoEmulator.Chd.Hunks

/-!
# Map entries

What `read_hunk` makes of a map entry, without a buffer: either the bytes of a hunk, or a reason why
there are none and what is left in the buffer then, or a reference to another hunk. `readHunkOf_eq`
says that an access to a hunk does what its entry says; everything about references, failures and
caches is proved about entries. -/

namespace RoscoEmulator.Chd

open BigEndian Pieces AccessM

/-- What is behind a map entry. -/
inductive HunkEntry
  | data (bytes : List Byte)
  | broken (stop : Stop) (leaves : List Byte → List Byte)
  | self (hunknum : ℕ)
  | parent (hunknum : ℕ)
  | parentBytes (blockoffs : ℕ)

namespace ChdFile

variable (codecs : Codecs) (c : ChdFile)

/-- Bytes that pass a check, or else stay in the buffer. -/
def checkedEntry (valid : Prop) [Decidable valid] (bytes : List Byte) : HunkEntry :=
  if valid then .data bytes else .broken (.error .decompressionError) fun dest ↦ overlay dest bytes

/-- A compressed hunk. -/
def codecEntry (slot : Fin 4) (blockoffs blocklen : ℕ)
    (valid : BitVec 32 → List Byte → List Byte → Bool) : HunkEntry :=
  if c.hunkbytes < (c.file.arrived blockoffs blocklen).length
    then .broken (.fault .compressedOverrun) id
  else
    match c.file.read blockoffs blocklen with
    | .error stop => .broken stop id
    | .ok src =>
        if c.compression slot = 0 then .broken (.fault .noDecompressor) id
        else
          match codecs.decompress (c.compression slot) src c.hunkbytes with
          | .error e => .broken (.error e) fun dest ↦
              overlay dest (codecs.leaves (c.compression slot) src (dest.take c.hunkbytes))
          | .ok bytes => checkedEntry (valid (c.compression slot) src bytes) bytes

/-- A hunk that is not compressed. -/
def storedEntry (blockoffs : ℕ) (valid : List Byte → Bool) : HunkEntry :=
  match c.file.read blockoffs c.hunkbytes with
  | .error stop => .broken stop fun dest ↦ overlay dest (c.file.arrived blockoffs c.hunkbytes)
  | .ok bytes => checkedEntry (valid bytes) bytes

/-- A reference to the parent. -/
def parentEntry (e : HunkEntry) : HunkEntry :=
  if c.parentMissing then .broken (.error .requiresParent) id else e

/-- An entry of the map of versions 3 and 4. -/
def entryV34 (rawmap : List Byte) : HunkEntry :=
  let blockoffs := ofBytes (part rawmap 0 8)
  let valid := fun bytes : List Byte ↦ (rawmap.getD 15 0).getLsbD 4 ∨
    (Util.crc32 (bytes.take c.hunkbytes)).toNat = ofBytes (part rawmap 8 4)
  match (rawmap.getD 15 0 &&& 0x0f).toNat with
  | 1 => c.codecEntry codecs 0 blockoffs
      (ofBytes (part rawmap 12 2) + (rawmap.getD 14 0).toNat * 2 ^ 16) fun _ _ bytes ↦ valid bytes
  | 2 => c.storedEntry blockoffs fun bytes ↦ valid bytes
  | 3 => checkedEntry (valid (miniHunk blockoffs c.hunkbytes)) (miniHunk blockoffs c.hunkbytes)
  | 4 => .self (blockoffs % 2 ^ 32)
  | 5 => c.parentEntry (.parent (blockoffs % 2 ^ 32))
  | _ => .broken (.error .invalidData) id

/-- An entry of the map of version 5 without compression. -/
def entryRaw (alone : Bool) (hunknum : ℕ) (rawmap : List Byte) : HunkEntry :=
  if ofBytes rawmap * c.hunkbytes ≠ 0 then
    c.storedEntry (ofBytes rawmap * c.hunkbytes) fun _ ↦ true
  else
    c.parentEntry (if alone then .data (List.replicate c.hunkbytes 0) else .parent hunknum)

/-- An entry of the map of version 5 with compression. -/
def entryV5 (rawmap : List Byte) : HunkEntry :=
  let blockoffs := ofBytes (part rawmap 4 6)
  let valid := fun bytes ↦ (Util.crc16 bytes).toNat = ofBytes (part rawmap 10 2)
  match (rawmap.getD 0 0).toNat with
  | 0 | 1 | 2 | 3 => c.codecEntry codecs (Fin.ofNat 4 (rawmap.getD 0 0).toNat) blockoffs
      (ofBytes (part rawmap 1 3)) fun tag src bytes ↦
      valid (if codecs.lossy tag then src else bytes)
  | 4 => c.storedEntry blockoffs fun bytes ↦ valid bytes
  | 5 => .self (blockoffs % 2 ^ 32)
  | 6 => c.parentEntry (.parentBytes blockoffs)
  | _ => .broken (.error .invalidData) id

/-- The entry in the map, if the map has one. -/
def entryAt (count hunknum : ℕ) (entry : List Byte → HunkEntry) : HunkEntry :=
  if count * hunknum % 2 ^ 32 + count ≤ c.rawmap.length then
    entry (part c.rawmap (count * hunknum % 2 ^ 32) count)
  else .broken (.fault .mapOverrun) id

/-- What is behind the entry of a hunk. -/
def entry (alone : Bool) (hunknum : ℕ) : HunkEntry :=
  if c.hunkcount ≤ hunknum then .broken (.error .hunkOutOfRange) id
  else if c.version = 3 ∨ c.version = 4 then c.entryAt 16 hunknum (c.entryV34 codecs)
  else if c.version = 5 then
    if c.compressed then c.entryAt 12 hunknum (c.entryV5 codecs)
    else c.entryAt 4 hunknum (c.entryRaw alone hunknum)
  else .broken (.error .invalidData) id

end ChdFile

/-! ## Accesses by their steps -/

namespace AccessM

variable {α β : Type} {dest : List Byte} {c : ChdFile} {ps : List ChdFile}

theorem current_bind (f : ChdFile → AccessM β) :
    (current >>= f) ⟨dest, c :: ps⟩ = f c ⟨dest, c :: ps⟩ := rfl

theorem get_bind (f : Access → AccessM β) (s : Access) : (get >>= f) s = f s s := rfl

theorem fill_bind (bytes : List Byte) (f : Unit → AccessM β) (s : Access) :
    (fill bytes >>= f) s = f () { s with dest := overlay s.dest bytes } := rfl

end AccessM

/-- What an access does that finds an entry. -/
def HunkEntry.access (hunk : ℕ → AccessM Unit) (hunkbytes : ℕ) : HunkEntry → AccessM Unit
  | data bytes => fill bytes
  | broken stop leaves => fun s ↦ .error stop { s with dest := leaves s.dest }
  | self hunknum => hunk hunknum
  | parent hunknum => onParent (hunk hunknum)
  | parentBytes blockoffs => onParent do
      let p ← current
      readBytesWith hunk (blockoffs * p.unitbytes % 2 ^ 64) hunkbytes

theorem CoreFile.read_eq_ok {file : CoreFile} {offset length : ℕ} {bytes : List Byte}
    (h : file.read offset length = .ok bytes) :
    file.arrived offset length = bytes ∧ bytes.length = length := by
  rw [CoreFile.read] at h
  split_ifs at h with hread
  cases h
  exact ⟨if_pos hread.1, hread.2⟩

section

variable {hunk : ℕ → AccessM Unit} {dest : List Byte} {c : ChdFile} {ps : List ChdFile} {β : Type}

theorem readDest_bind (f : Unit → AccessM β) (offset length : ℕ) :
    (readDest offset length >>= f) ⟨dest, c :: ps⟩ =
      match c.file.read offset length with
      | .ok bytes => f () ⟨overlay dest bytes, c :: ps⟩
      | .error stop => .error stop ⟨overlay dest (c.file.arrived offset length), c :: ps⟩ := by
  rw [readDest, bind_assoc, current_bind, bind_assoc, fill_bind]
  cases h : c.file.read offset length with
  | ok bytes =>
    rw [(CoreFile.read_eq_ok h).1]
    rfl
  | error stop => rfl

theorem readCompressed_bind (f : List Byte → AccessM β) (offset length : ℕ) :
    (readCompressed offset length >>= f) ⟨dest, c :: ps⟩ =
      if c.hunkbytes < (c.file.arrived offset length).length then
        .error (.fault .compressedOverrun) ⟨dest, c :: ps⟩
      else
        match c.file.read offset length with
        | .ok bytes => f bytes ⟨dest, c :: ps⟩
        | .error stop => .error stop ⟨dest, c :: ps⟩ := by
  rw [readCompressed, bind_assoc, current_bind]
  split_ifs
  · rfl
  · cases c.file.read offset length <;> rfl

theorem decompressor_bind (f : BitVec 32 → AccessM β) (slot : Fin 4) :
    (decompressor slot >>= f) ⟨dest, c :: ps⟩ =
      if c.compression slot = 0 then .error (.fault .noDecompressor) ⟨dest, c :: ps⟩
      else f (c.compression slot) ⟨dest, c :: ps⟩ := by
  rw [decompressor, bind_assoc, current_bind]
  split_ifs <;> rfl

theorem decompressDest_bind (codecs : Codecs) (f : Unit → AccessM β) (tag : BitVec 32)
    (src : List Byte) : (decompressDest codecs tag src >>= f) ⟨dest, c :: ps⟩ =
      match codecs.decompress tag src c.hunkbytes with
      | .ok bytes => f () ⟨overlay dest bytes, c :: ps⟩
      | .error e =>
          .error (.error e) ⟨overlay dest (codecs.leaves tag src (dest.take c.hunkbytes)),
            c :: ps⟩ := by
  rw [decompressDest, bind_assoc, current_bind]
  cases codecs.decompress tag src c.hunkbytes <;> rfl

theorem mapEntry_bind (f : List Byte → AccessM β) (count hunknum : ℕ) :
    (mapEntry count hunknum >>= f) ⟨dest, c :: ps⟩ =
      if count * hunknum % 2 ^ 32 + count ≤ c.rawmap.length then
        f (part c.rawmap (count * hunknum % 2 ^ 32) count) ⟨dest, c :: ps⟩
      else .error (.fault .mapOverrun) ⟨dest, c :: ps⟩ := by
  rw [mapEntry, bind_assoc, current_bind]
  split_ifs <;> rfl

theorem checkCrc32_eq (nocrc : Bool) (blockcrc : ℕ) :
    checkCrc32 nocrc blockcrc ⟨dest, c :: ps⟩ =
      if nocrc ∨ (Util.crc32 (dest.take c.hunkbytes)).toNat = blockcrc then .ok () ⟨dest, c :: ps⟩
      else .error (.error .decompressionError) ⟨dest, c :: ps⟩ := by
  rw [checkCrc32, current_bind, AccessM.get_bind]
  by_cases hnone : nocrc = true
  · rw [if_neg (fun h ↦ h.1 hnone), if_pos (.inl hnone)]
    rfl
  · by_cases hcrc : (Util.crc32 (dest.take c.hunkbytes)).toNat = blockcrc
    · rw [if_neg (fun h ↦ h.2 hcrc), if_pos (.inr hcrc)]
      rfl
    · rw [if_pos ⟨hnone, hcrc⟩, if_neg (not_or.mpr ⟨hnone, hcrc⟩)]
      rfl

theorem checkCrc16_eq (bytes : List Byte) (blockcrc : ℕ) (s : Access) :
    checkCrc16 bytes blockcrc s =
      if (Util.crc16 bytes).toNat = blockcrc then .ok () s
      else .error (.error .decompressionError) s := by
  rw [checkCrc16, ite_not]
  split_ifs <;> rfl

variable {n : ℕ}

theorem checkedEntry_access {valid : Prop} [Decidable valid] {bytes : List Byte} :
    (ChdFile.checkedEntry valid bytes).access hunk n ⟨dest, c :: ps⟩ =
      if valid then .ok () ⟨overlay dest bytes, c :: ps⟩
      else .error (.error .decompressionError) ⟨overlay dest bytes, c :: ps⟩ := by
  rw [ChdFile.checkedEntry]
  split_ifs <;> rfl

/-- A hunk that is not compressed, with a check at the end. -/
theorem storedEntry_access {f : Unit → AccessM Unit} {blockoffs : ℕ} {valid : List Byte → Bool}
    (hf : ∀ bytes, bytes.length = c.hunkbytes → f () ⟨overlay dest bytes, c :: ps⟩ =
      if valid bytes then .ok () ⟨overlay dest bytes, c :: ps⟩
      else .error (.error .decompressionError) ⟨overlay dest bytes, c :: ps⟩) :
    (readDest blockoffs c.hunkbytes >>= f) ⟨dest, c :: ps⟩ =
      (c.storedEntry blockoffs valid).access hunk n ⟨dest, c :: ps⟩ := by
  rw [readDest_bind, ChdFile.storedEntry]
  cases h : c.file.read blockoffs c.hunkbytes with
  | error stop => rfl
  | ok bytes => exact (hf bytes (CoreFile.read_eq_ok h).2).trans checkedEntry_access.symm

theorem codecEntry_access {codecs : Codecs} {f : BitVec 32 → List Byte → AccessM Unit}
    {slot : Fin 4} {blockoffs blocklen : ℕ} {valid : BitVec 32 → List Byte → List Byte → Bool}
    (hf : ∀ tag src bytes, bytes.length = c.hunkbytes → f tag src ⟨overlay dest bytes, c :: ps⟩ =
      if valid tag src bytes then .ok () ⟨overlay dest bytes, c :: ps⟩
      else .error (.error .decompressionError) ⟨overlay dest bytes, c :: ps⟩) :
    (do
      let src ← readCompressed blockoffs blocklen
      let tag ← decompressor slot
      decompressDest codecs tag src
      f tag src : AccessM Unit) ⟨dest, c :: ps⟩ =
      (c.codecEntry codecs slot blockoffs blocklen valid).access hunk n ⟨dest, c :: ps⟩ := by
  rw [readCompressed_bind, ChdFile.codecEntry]
  by_cases hover : c.hunkbytes < (c.file.arrived blockoffs blocklen).length
  · rw [if_pos hover, if_pos hover]
    rfl
  rw [if_neg hover, if_neg hover]
  cases c.file.read blockoffs blocklen with
  | error stop => rfl
  | ok src =>
    simp only [decompressor_bind]
    split_ifs
    · rfl
    rw [decompressDest_bind]
    cases h : codecs.decompress (c.compression slot) src c.hunkbytes with
    | error e => rfl
    | ok bytes => exact (hf _ _ bytes (codecs.length_decompress h)).trans checkedEntry_access.symm

variable (codecs : Codecs)

theorem parentEntry_access {e : HunkEntry} :
    (if c.parentMissing then AccessM.fail .requiresParent else e.access hunk n) ⟨dest, c :: ps⟩ =
      (c.parentEntry e).access hunk n ⟨dest, c :: ps⟩ := by
  rw [ChdFile.parentEntry]
  split_ifs <;> rfl

theorem entryAt_access {count hunknum : ℕ}
    {entry : List Byte → HunkEntry} {f : List Byte → AccessM Unit}
    (hf : ∀ rawmap, f rawmap ⟨dest, c :: ps⟩ = (entry rawmap).access hunk n ⟨dest, c :: ps⟩) :
    (mapEntry count hunknum >>= f) ⟨dest, c :: ps⟩ =
      (c.entryAt count hunknum entry).access hunk n ⟨dest, c :: ps⟩ := by
  rw [mapEntry_bind, ChdFile.entryAt]
  split_ifs
  · exact hf _
  · rfl

theorem readHunkV34_eq (hunknum : ℕ) :
    readHunkV34 codecs hunk hunknum ⟨dest, c :: ps⟩ =
      (c.entryAt 16 hunknum (c.entryV34 codecs)).access hunk c.hunkbytes ⟨dest, c :: ps⟩ := by
  refine entryAt_access fun rawmap ↦ ?_
  have htake : ∀ bytes : List Byte, bytes.length = c.hunkbytes →
      (overlay dest bytes).take c.hunkbytes = bytes.take c.hunkbytes := fun bytes h ↦
    take_overlay h.ge
  rw [ChdFile.entryV34]
  generalize (rawmap.getD 15 0 &&& 0x0f).toNat = type
  match type with
  | 1 =>
    refine codecEntry_access fun tag src bytes h ↦ ?_
    rw [checkCrc32_eq, htake bytes h]
    simp only [decide_eq_true_eq]
  | 2 =>
    refine storedEntry_access fun bytes h ↦ ?_
    rw [checkCrc32_eq, htake bytes h]
    simp only [decide_eq_true_eq]
  | 3 =>
    have hcheck : checkCrc32 ((rawmap.getD 15 0).getLsbD 4) (ofBytes (part rawmap 8 4))
        ⟨overlay dest (miniHunk (ofBytes (part rawmap 0 8)) c.hunkbytes), c :: ps⟩ = _ :=
      checkCrc32_eq _ _
    rw [take_overlay (by simp [miniHunk])] at hcheck
    exact hcheck.trans checkedEntry_access.symm
  | 4 => rfl
  | 5 => exact parentEntry_access (e := .parent (ofBytes (part rawmap 0 8) % 2 ^ 32))
  | 0 => rfl
  | _ + 6 => rfl

theorem readHunkRaw_eq (hunknum : ℕ) :
    readHunkRaw hunk hunknum ⟨dest, c :: ps⟩ =
      (c.entryAt 4 hunknum (c.entryRaw ps.isEmpty hunknum)).access hunk c.hunkbytes
        ⟨dest, c :: ps⟩ := by
  refine entryAt_access fun rawmap ↦ ?_
  rw [AccessM.get_bind, ChdFile.entryRaw]
  by_cases hzero : ofBytes rawmap * c.hunkbytes = 0
  · rw [if_neg (not_not_intro hzero), if_neg (not_not_intro hzero)]
    rw [← parentEntry_access]
    cases ps <;> rfl
  · rw [if_pos hzero, if_pos hzero]
    rw [← storedEntry_access (f := pure) fun bytes _ ↦ rfl]
    rw [bind_pure]

theorem readHunkV5_eq (hunknum : ℕ) :
    readHunkV5 hunk codecs hunknum ⟨dest, c :: ps⟩ =
      (c.entryAt 12 hunknum (c.entryV5 codecs)).access hunk c.hunkbytes ⟨dest, c :: ps⟩ := by
  refine entryAt_access fun rawmap ↦ ?_
  have htake : ∀ bytes : List Byte, bytes.length = c.hunkbytes →
      (overlay dest bytes).take c.hunkbytes = bytes := fun bytes h ↦ by
    rw [take_overlay h.ge, List.take_of_length_le h.le]
  have hcodec : ∀ slot, (do
      let src ← readCompressed (ofBytes (part rawmap 4 6)) (ofBytes (part rawmap 1 3))
      let tag ← decompressor slot
      decompressDest codecs tag src
      let s ← get
      checkCrc16 (if codecs.lossy tag then src else s.dest.take c.hunkbytes)
        (ofBytes (part rawmap 10 2)) : AccessM Unit) ⟨dest, c :: ps⟩ =
      (c.codecEntry codecs slot (ofBytes (part rawmap 4 6)) (ofBytes (part rawmap 1 3))
        fun tag src bytes ↦ (Util.crc16 (if codecs.lossy tag then src else bytes)).toNat =
          ofBytes (part rawmap 10 2)).access hunk c.hunkbytes ⟨dest, c :: ps⟩ := by
    intro slot
    refine codecEntry_access (f := fun tag src ↦ do
      let s ← get
      checkCrc16 (if codecs.lossy tag then src else s.dest.take c.hunkbytes)
        (ofBytes (part rawmap 10 2))) fun tag src bytes h ↦ ?_
    rw [AccessM.get_bind, checkCrc16_eq, htake bytes h]
    simp only [decide_eq_true_eq]
  rw [ChdFile.entryV5]
  generalize (rawmap.getD 0 0).toNat = type
  match type with
  | 0 => exact hcodec _
  | 1 => exact hcodec _
  | 2 => exact hcodec _
  | 3 => exact hcodec _
  | 4 =>
    refine storedEntry_access fun bytes h ↦ ?_
    rw [AccessM.get_bind, checkCrc16_eq, htake bytes h]
    simp only [decide_eq_true_eq]
  | 5 => rfl
  | 6 => exact parentEntry_access (e := .parentBytes (ofBytes (part rawmap 4 6)))
  | _ + 7 => rfl

/-- **Entries.** An access to a hunk does what the entry of the hunk says. -/
theorem readHunkOf_eq (hunknum : ℕ) :
    readHunkOf hunk codecs hunknum ⟨dest, c :: ps⟩ =
      (c.entry codecs ps.isEmpty hunknum).access hunk c.hunkbytes ⟨dest, c :: ps⟩ := by
  rw [readHunkOf, current_bind, ChdFile.entry]
  split_ifs
  · rfl
  · exact readHunkV34_eq codecs hunknum
  · exact readHunkV5_eq codecs hunknum
  · exact readHunkRaw_eq hunknum
  · rfl

end

end RoscoEmulator.Chd
