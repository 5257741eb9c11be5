import RoscoEmulator.Chd.Basic
import RoscoEmulator.Lib.Pieces
import RoscoEmulator.Util.Hashing

/-!
# Hunks

`read_hunk` and `write_hunk`, the reads and writes of bytes and units that go through the cache of
one hunk, and `codec_process_hunk`. An access works on a buffer of its caller and on a CHD with its
parents, the nearest first; it keeps what it has done so far when it fails, in the buffers too.

A hunk can be a reference to another hunk or to the parent. The definitions for one hunk take the
accesses behind such references as an argument; `readHunk` ties the knot, for at most `fuel`
references in a row.
-/

namespace RoscoEmulator.Chd

open BigEndian Pieces

/-- The decompressors. A destination is filled, or else left with something in it. -/
structure Codecs where
  codecExists : BitVec 32 → Bool
  lossy : BitVec 32 → Bool
  decompress : BitVec 32 → List Byte → ℕ → Except Error (List Byte)
  leaves : BitVec 32 → List Byte → List Byte → List Byte
  process : BitVec 32 → List Byte → Except Error Unit
  length_decompress : ∀ {tag src n bytes}, decompress tag src n = .ok bytes → bytes.length = n
  length_leaves : ∀ tag src dest, (leaves tag src dest).length = dest.length

/-- No codec at all. -/
def Codecs.none : Codecs where
  codecExists _ := false
  lossy _ := false
  decompress _ _ _ := .error .decompressionError
  leaves _ _ dest := dest
  process _ _ := .error .decompressionError
  length_decompress := nofun
  length_leaves _ _ _ := rfl

/-! ## Accesses -/

/-- What an access works on. -/
structure Access where
  dest : List Byte
  chds : List ChdFile

abbrev AccessM : Type → Type := EStateM Stop Access

namespace CoreFile

variable (file : CoreFile)

/-- The bytes that a read puts in the buffer. -/
def arrived (offset length : ℕ) : List Byte :=
  if file.canRead offset length then file.data.readAt offset length
  else (file.data.readAt offset length).take (file.arriving offset length)

end CoreFile

namespace AccessM

/-- The CHD itself. A parent that is not there has none. -/
def current : AccessM ChdFile := fun s ↦
  match s.chds with
  | [] => .error (.fault .noParent) s
  | c :: _ => .ok c s

/-- An error that ends an access. -/
def fail {α : Type} (e : Error) : AccessM α := throw (.error e)

/-- An operation on the CHD itself. -/
def onCurrent {α : Type} (x : ChdM α) : AccessM α := fun s ↦
  match s.chds with
  | [] => .error (.fault .noParent) s
  | c :: ps =>
      match x c with
      | .ok a c' => .ok a { s with chds := c' :: ps }
      | .error stop c' => .error stop { s with chds := c' :: ps }

/-- An access to the parent. -/
def onParent (x : AccessM Unit) : AccessM Unit := fun s ↦
  match s.chds with
  | [] => .error (.fault .noParent) s
  | c :: ps =>
      match x { s with chds := ps } with
      | .ok _ s' => .ok () { s' with chds := c :: s'.chds }
      | .error stop s' => .error stop { s' with chds := c :: s'.chds }

/-- An access to a part of the buffer. -/
def onPart (pos count : ℕ) (x : AccessM Unit) : AccessM Unit := fun s ↦
  match x { s with dest := part s.dest pos count } with
  | .ok _ s' => .ok () { s' with dest := putPart s.dest pos s'.dest }
  | .error stop s' => .error stop { s' with dest := putPart s.dest pos s'.dest }

/-- The CHDs with another cache in the first. -/
def setCache (cache : List Byte) : List ChdFile → List ChdFile
  | [] => []
  | c :: ps => { c with cache := cache } :: ps

/-- An access with the cache as the buffer. -/
def onCache (x : AccessM Unit) : AccessM Unit := fun s ↦
  match s.chds with
  | [] => .error (.fault .noParent) s
  | c :: _ =>
      match x { s with dest := c.cache } with
      | .ok _ s' => .ok () { dest := s.dest, chds := setCache s'.dest s'.chds }
      | .error stop s' => .error stop { dest := s.dest, chds := setCache s'.dest s'.chds }

/-- Bytes for the buffer. -/
def fill (bytes : List Byte) : AccessM Unit :=
  fun s ↦ .ok () { s with dest := overlay s.dest bytes }

end AccessM

open AccessM

/-! ## Reading a hunk -/

/-- `file_read` into the buffer. -/
def readDest (offset length : ℕ) : AccessM Unit := do
  let c ← current
  fill (c.file.arrived offset length)
  match c.file.read offset length with
  | .ok _ => pure ()
  | .error stop => throw stop

/-- `file_read` into the buffer for compressed data. -/
def readCompressed (offset length : ℕ) : AccessM (List Byte) := do
  let c ← current
  if c.hunkbytes < (c.file.arrived offset length).length then throw (.fault .compressedOverrun)
  else
    match c.file.read offset length with
    | .ok bytes => pure bytes
    | .error stop => throw stop

/-- The codec of a slot that has a decompressor. -/
def decompressor (slot : Fin 4) : AccessM (BitVec 32) := do
  let c ← current
  if c.compression slot = 0 then throw (.fault .noDecompressor) else pure (c.compression slot)

/-- The bytes of the map entry of a hunk, of `count` bytes each. -/
def mapEntry (count hunknum : ℕ) : AccessM (List Byte) := do
  let c ← current
  if count * hunknum % 2 ^ 32 + count ≤ c.rawmap.length then
    pure (part c.rawmap (count * hunknum % 2 ^ 32) count)
  else throw (.fault .mapOverrun)

/-- A check of the CRC-32 of the hunk in the buffer, unless there is none. -/
def checkCrc32 (nocrc : Bool) (blockcrc : ℕ) : AccessM Unit := do
  let c ← current
  let s ← get
  if ¬ nocrc ∧ (Util.crc32 (s.dest.take c.hunkbytes)).toNat ≠ blockcrc then
    AccessM.fail .decompressionError
  else pure ()

/-- A check of the CRC-16 of some bytes. -/
def checkCrc16 (bytes : List Byte) (blockcrc : ℕ) : AccessM Unit :=
  if (Util.crc16 bytes).toNat ≠ blockcrc then AccessM.fail .decompressionError else pure ()

/-- The hunk of `V34_MAP_ENTRY_TYPE_MINI`. -/
def miniHunk (blockoffs hunkbytes : ℕ) : List Byte :=
  (List.range (max 8 hunkbytes)).map fun i ↦ (toBytes 8 blockoffs).getD (i % 8) 0

section

variable (codecs : Codecs)

/-- `decompress` into the buffer. -/
def decompressDest (tag : BitVec 32) (src : List Byte) : AccessM Unit := do
  let c ← current
  match codecs.decompress tag src c.hunkbytes with
  | .ok bytes => fill bytes
  | .error e => do
      let s ← get
      fill (codecs.leaves tag src (s.dest.take c.hunkbytes))
      AccessM.fail e

/-- The part of `read_hunk` for versions 3 and 4. `hunk` reads the hunks behind references. -/
def readHunkV34 (hunk : ℕ → AccessM Unit) (hunknum : ℕ) : AccessM Unit := do
  let c ← current
  let rawmap ← mapEntry 16 hunknum
  let blockoffs := ofBytes (part rawmap 0 8)
  let blockcrc := ofBytes (part rawmap 8 4)
  let flags := rawmap.getD 15 0
  match (flags &&& 0x0f).toNat with
  | 1 => do
      let blocklen := ofBytes (part rawmap 12 2) + (rawmap.getD 14 0).toNat * 2 ^ 16
      let src ← readCompressed blockoffs blocklen
      let tag ← decompressor 0
      decompressDest codecs tag src
      checkCrc32 (flags.getLsbD 4) blockcrc
  | 2 => do
      readDest blockoffs c.hunkbytes
      checkCrc32 (flags.getLsbD 4) blockcrc
  | 3 => do
      fill (miniHunk blockoffs c.hunkbytes)
      checkCrc32 (flags.getLsbD 4) blockcrc
  | 4 => hunk (blockoffs % 2 ^ 32)
  | 5 =>
    if c.parentMissing then AccessM.fail .requiresParent else onParent (hunk (blockoffs % 2 ^ 32))
  | _ => AccessM.fail .invalidData

/-- The part of `read_hunk` for version 5 without compression. -/
def readHunkRaw (hunk : ℕ → AccessM Unit) (hunknum : ℕ) : AccessM Unit := do
  let c ← current
  let rawmap ← mapEntry 4 hunknum
  let blockoffs := ofBytes rawmap * c.hunkbytes
  let s ← get
  if blockoffs ≠ 0 then readDest blockoffs c.hunkbytes
  else if c.parentMissing then AccessM.fail .requiresParent
  else if s.chds.length = 1 then fill (List.replicate c.hunkbytes 0)
  else onParent (hunk hunknum)

end

/-! ## Reading bytes -/

/-- A range of bytes, in hunks of `hunkbytes` bytes. -/
structure Range where
  hunkbytes : ℕ
  offset : ℕ
  bytes : ℕ

namespace Range

variable (r : Range)

/-- The position of the last byte. -/
def final : ℕ := (r.offset + (r.bytes - 1)) % 2 ^ 64

/-- `first_hunk`. -/
def first : ℕ := r.offset / r.hunkbytes % 2 ^ 32

/-- `last_hunk`. -/
def last : ℕ := r.final / r.hunkbytes % 2 ^ 32

/-- `startoffs`. -/
def startoffs (curhunk : ℕ) : ℕ := if curhunk = r.first then r.offset % r.hunkbytes else 0

/-- `endoffs`. -/
def endoffs (curhunk : ℕ) : ℕ :=
  if curhunk = r.last then r.final % r.hunkbytes else r.hunkbytes - 1

/-- The bytes of a hunk that are in the range. -/
def count (curhunk : ℕ) : ℕ := r.endoffs curhunk + 1 - r.startoffs curhunk

/-- All of a hunk is in the range. -/
def Whole (curhunk : ℕ) : Prop := r.startoffs curhunk = 0 ∧ r.endoffs curhunk = r.hunkbytes - 1

instance (curhunk : ℕ) : Decidable (r.Whole curhunk) := inferInstanceAs (Decidable (_ ∧ _))

end Range

section

variable (hunk : ℕ → AccessM Unit)

/-- The part of `read_bytes` and `write_bytes` that brings a hunk into the cache. -/
def fillCache (curhunk : ℕ) : AccessM Unit := do
  let c ← current
  if curhunk = c.cachehunk then pure ()
  else do
    onCache (hunk curhunk)
    onCurrent (modify fun c ↦ { c with cachehunk := curhunk })

/-- One round of `read_bytes`. -/
def readRound (r : Range) (curhunk pos : ℕ) : AccessM Unit := do
  let c ← current
  if r.Whole curhunk ∧ curhunk ≠ c.cachehunk then onPart pos r.hunkbytes (hunk curhunk)
  else do
    fillCache hunk curhunk
    let c ← current
    onPart pos (r.count curhunk) (fill (part c.cache (r.startoffs curhunk) (r.count curhunk)))

/-- The rounds of a loop over the hunks of a range. The number of a hunk has 32 bits. -/
def rounds (round : Range → ℕ → ℕ → AccessM Unit) (r : Range) : ℕ → ℕ → ℕ → AccessM Unit
  | 0, _, _ => throw .hang
  | fuel + 1, curhunk, pos =>
      if r.last < curhunk then pure ()
      else do
        round r curhunk pos
        rounds round r fuel ((curhunk + 1) % 2 ^ 32) (pos + r.count curhunk)

/-- The loop over the hunks of a range. No loop that ends takes more rounds. -/
def overHunks (round : Range → ℕ → ℕ → AccessM Unit) (offset bytes : ℕ) : AccessM Unit :=
  if bytes = 0 then pure ()
  else do
    let c ← current
    if c.hunkbytes = 0 then throw (.fault .divideByZero)
    else
      rounds round ⟨c.hunkbytes, offset, bytes⟩ (2 ^ 33)
        (Range.first ⟨c.hunkbytes, offset, bytes⟩) 0

/-- `read_bytes`. -/
def readBytesWith (offset bytes : ℕ) : AccessM Unit := overHunks (readRound hunk) offset bytes

variable (codecs : Codecs)

/-- The part of `read_hunk` for version 5 with compression. -/
def readHunkV5 (hunknum : ℕ) : AccessM Unit := do
  let c ← current
  let rawmap ← mapEntry 12 hunknum
  let blocklen := ofBytes (part rawmap 1 3)
  let blockoffs := ofBytes (part rawmap 4 6)
  let blockcrc := ofBytes (part rawmap 10 2)
  match (rawmap.getD 0 0).toNat with
  | 0 | 1 | 2 | 3 => do
      let src ← readCompressed blockoffs blocklen
      let tag ← decompressor (Fin.ofNat 4 (rawmap.getD 0 0).toNat)
      decompressDest codecs tag src
      let s ← get
      checkCrc16 (if codecs.lossy tag then src else s.dest.take c.hunkbytes) blockcrc
  | 4 => do
      readDest blockoffs c.hunkbytes
      let s ← get
      checkCrc16 (s.dest.take c.hunkbytes) blockcrc
  | 5 => hunk (blockoffs % 2 ^ 32)
  | 6 =>
      if c.parentMissing then AccessM.fail .requiresParent
      else onParent do
        let p ← current
        readBytesWith hunk (blockoffs * p.unitbytes % 2 ^ 64) c.hunkbytes
  | _ => AccessM.fail .invalidData

/-- `read_hunk`, with the accesses behind references as an argument. -/
def readHunkOf (hunknum : ℕ) : AccessM Unit := do
  let c ← current
  if c.hunkcount ≤ hunknum then AccessM.fail .hunkOutOfRange
  else if c.version = 3 ∨ c.version = 4 then readHunkV34 codecs hunk hunknum
  else if c.version = 5 then
    if c.compressed then readHunkV5 hunk codecs hunknum else readHunkRaw hunk hunknum
  else AccessM.fail .invalidData

end

section

variable (codecs : Codecs)

/-- `read_hunk`, for at most `fuel` references in a row. -/
def readHunk : ℕ → ℕ → AccessM Unit
  | 0 => fun _ ↦ throw .hang
  | fuel + 1 => readHunkOf (readHunk fuel) codecs

/-- `read_bytes`. -/
def readBytes (fuel offset bytes : ℕ) : AccessM Unit :=
  readBytesWith (readHunk codecs fuel) offset bytes

/-- `read_units`. -/
def readUnits (fuel unitnum count : ℕ) : AccessM Unit := do
  let c ← current
  readBytes codecs fuel (unitnum * c.unitbytes % 2 ^ 64) (count * c.unitbytes % 2 ^ 32)

end

/-! ## Writing -/

/-- A map entry of four bytes. -/
def rawEntry (c : ChdFile) (hunknum : ℕ) : ℕ := ofBytes (part c.rawmap (4 * hunknum % 2 ^ 32) 4)

/-- The part of `write_hunk` for a hunk that has no place in the file. -/
def allocateHunk (hunknum : ℕ) (buffer : List Byte) (fromCache : Bool) : ChdM Unit := do
  let c ← get
  let offset ← fileAppend buffer c.hunkbytes
  let rawmap := toBytes 4 (offset / c.hunkbytes)
  modify fun c ↦ { c with rawmap := putPart c.rawmap (4 * hunknum % 2 ^ 32) rawmap }
  fileWrite (c.mapoffset + 4 * hunknum % 2 ^ 32) rawmap
  if hunknum = c.cachehunk ∧ ¬ fromCache then modify fun c ↦ { c with cache := buffer } else pure ()

/-- `write_hunk`. -/
def writeHunk (hunknum : ℕ) (buffer : List Byte) (fromCache : Bool) : ChdM Unit := do
  let c ← get
  if c.hunkcount ≤ hunknum then fail .hunkOutOfRange
  else if ¬ c.allowWrites then fail .fileNotWriteable
  else if c.compressed then fail .fileNotWriteable
  else if c.rawmap.length < 4 * hunknum % 2 ^ 32 + 4 then throw (.fault .mapOverrun)
  else if rawEntry c hunknum ≠ 0 then fileWrite (rawEntry c hunknum * c.hunkbytes) buffer
  else if buffer.all (· = 0) then pure ()
  else allocateHunk hunknum buffer fromCache

/-- One round of `write_bytes`. -/
def writeRound (hunk : ℕ → AccessM Unit) (buffer : List Byte) (r : Range) (curhunk pos : ℕ) :
    AccessM Unit := do
  let c ← current
  if r.Whole curhunk ∧ curhunk ≠ c.cachehunk then
    onCurrent (writeHunk curhunk (part buffer pos r.hunkbytes) false)
  else do
    fillCache hunk curhunk
    onCurrent (modify fun c ↦
      { c with cache := putPart c.cache (r.startoffs curhunk) (part buffer pos (r.count curhunk)) })
    let c ← current
    onCurrent (writeHunk curhunk c.cache true)

section

variable (codecs : Codecs)

/-- `write_bytes`. -/
def writeBytes (fuel offset : ℕ) (buffer : List Byte) : AccessM Unit :=
  overHunks (writeRound (readHunk codecs fuel) buffer) offset buffer.length

/-- `write_units`. The caller's buffer holds `count` units. -/
def writeUnits (fuel unitnum count : ℕ) (buffer : List Byte) : AccessM Unit := do
  let c ← current
  writeBytes codecs fuel (unitnum * c.unitbytes % 2 ^ 64)
    (buffer.take (count * c.unitbytes % 2 ^ 32))

/-! ## Processing a hunk -/

/-- `process` of what is read for a decompressor. -/
def processCompressed (slot : Fin 4) (blockoffs blocklen : ℕ) : AccessM Unit := do
  let src ← readCompressed blockoffs blocklen
  let tag ← decompressor slot
  match codecs.process tag src with
  | .ok _ => pure ()
  | .error e => AccessM.fail e

/-- The part of `codec_process_hunk` for versions 3 and 4. -/
def codecProcessHunkV34 (hunk : ℕ → AccessM Unit) (hunknum : ℕ) : AccessM Unit := do
  let c ← current
  let rawmap ← mapEntry 16 hunknum
  let blockoffs := ofBytes (part rawmap 0 8)
  match (rawmap.getD 15 0 &&& 0x0f).toNat with
  | 1 =>
      processCompressed codecs 0 blockoffs
        (ofBytes (part rawmap 12 2) + (rawmap.getD 14 0).toNat * 2 ^ 16)
  | 2 | 3 => AccessM.fail .unsupportedFormat
  | 4 => hunk (blockoffs % 2 ^ 32)
  | 5 =>
    if c.parentMissing then AccessM.fail .requiresParent else onParent (hunk (blockoffs % 2 ^ 32))
  | _ => AccessM.fail .invalidData

/-- The hunk of the parent that `codec_process_hunk` takes for a unit. -/
def parentHunk (p : ChdFile) (blockoffs : ℕ) : AccessM ℕ :=
  if p.unitbytes = 0 ∨ p.hunkbytes / p.unitbytes = 0 then throw (.fault .divideByZero)
  else pure (blockoffs / (p.hunkbytes / p.unitbytes) % 2 ^ 32)

/-- The part of `codec_process_hunk` for version 5. -/
def codecProcessHunkV5 (hunk : ℕ → AccessM Unit) (hunknum : ℕ) : AccessM Unit := do
  let c ← current
  let rawmap ← mapEntry 12 hunknum
  let blockoffs := ofBytes (part rawmap 4 6)
  match (rawmap.getD 0 0).toNat with
  | 0 | 1 | 2 | 3 =>
      processCompressed codecs (Fin.ofNat 4 (rawmap.getD 0 0).toNat) blockoffs
        (ofBytes (part rawmap 1 3))
  | 4 => AccessM.fail .unsupportedFormat
  | 5 => hunk (blockoffs % 2 ^ 32)
  | 6 =>
      if c.parentMissing then AccessM.fail .requiresParent
      else onParent do
        let p ← current
        hunk (← parentHunk p blockoffs)
  | _ => AccessM.fail .invalidData

/-- `codec_process_hunk`, with the accesses behind references as an argument. -/
def codecProcessHunkOf (hunk : ℕ → AccessM Unit) (hunknum : ℕ) : AccessM Unit := do
  let c ← current
  if c.hunkcount ≤ hunknum then AccessM.fail .hunkOutOfRange
  else if c.version = 3 ∨ c.version = 4 then codecProcessHunkV34 codecs hunk hunknum
  else if c.version = 5 then
    if c.compressed then codecProcessHunkV5 codecs hunk hunknum else AccessM.fail .unsupportedFormat
  else AccessM.fail .invalidData

/-- `codec_process_hunk`, for at most `fuel` references in a row. -/
def codecProcessHunk : ℕ → ℕ → AccessM Unit
  | 0 => fun _ ↦ throw .hang
  | fuel + 1 => codecProcessHunkOf codecs (codecProcessHunk fuel)

end

end RoscoEmulator.Chd
