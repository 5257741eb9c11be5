import RoscoEmulator.Chd.Basic
import RoscoEmulator.Util.Sha1

/-!
# Metadata of a CHD

The metadata are a chain of records in the file. A record is a header of sixteen bytes, with the
tag, the flags, the length of the data and the offset of the next record, and the data behind it. An
entry is found by its tag and its place among the entries of that tag; the search keeps the offset
of the record in front, whose link the other operations change. -/

namespace RoscoEmulator.Chd

open BigEndian

/-- `chd_metadata_tag`. -/
abbrev Tag : Type := BitVec 32

/-- `CHDMETATAG_WILDCARD`. -/
def wildcard : Tag := 0

/-- `CHDMETAINDEX_APPEND`. -/
def appendIndex : BitVec 32 := ~~~0

/-- `METADATA_HEADER_SIZE`. -/
def metadataHeaderSize : ℕ := 16

/-- `metadata_entry`. -/
structure MetadataEntry where
  index : ℕ
  offset : ℕ
  next : ℕ
  prev : ℕ
  length : ℕ
  metatag : Tag
  flags : Byte
deriving DecidableEq, Repr

namespace MetadataEntry

/-- A search from a record on. -/
def begin (offset : ℕ) : MetadataEntry := ⟨0, offset, 0, 0, 0, 0, 0⟩

/-- The fields of a header. -/
def parse (e : MetadataEntry) (raw : List Byte) : MetadataEntry :=
  { e with
    metatag := BitVec.ofNat 32 (ofBytes (raw.take 4))
    flags := raw.getD 4 0
    length := ofBytes ((raw.drop 5).take 3)
    next := ofBytes ((raw.drop 8).take 8) }

/-- The search goes on with the next link. -/
def advance (e : MetadataEntry) : MetadataEntry :=
  { e with index := e.index + 1, prev := e.offset, offset := e.next }

/-- A search that is resumed. -/
def resume (e : MetadataEntry) : MetadataEntry := { e with prev := e.offset, offset := e.next }

end MetadataEntry

/-- What `metadata_find` returns, with what it leaves in the entry. -/
inductive Found
  | found (e : MetadataEntry)
  | notFound (e : MetadataEntry)
  | failed (stop : Stop)
deriving DecidableEq, Repr

/-- The bytes of a new header. -/
def metadataHeader (metatag : Tag) (flags : Byte) (length : ℕ) : List Byte :=
  toBytes 4 metatag.toNat ++ flags :: toBytes 3 length ++ toBytes 8 0

namespace ChdFile

variable (c : ChdFile)

/-! ## Searching -/

/-- The loop of `metadata_find`, for at most `fuel` rounds. -/
def metadataFindLoop (metatag : Tag) : ℕ → ℤ → MetadataEntry → Found
  | 0, _, _ => .failed .hang
  | fuel + 1, metaindex, e =>
      if e.offset = 0 then .notFound e
      else
        match c.file.read e.offset metadataHeaderSize with
        | .error stop => .failed stop
        | .ok raw =>
            if metatag = wildcard ∨ (e.parse raw).metatag = metatag then
              if metaindex = 0 then .found (e.parse raw)
              else metadataFindLoop metatag fuel (metaindex - 1) (e.parse raw).advance
            else metadataFindLoop metatag fuel metaindex (e.parse raw).advance

/-- More rounds than there are records that do not come round again. -/
def metadataFuel : ℕ := c.file.data.length + 1

/-- `metadata_find`. -/
def metadataFind (metatag : Tag) (metaindex : ℤ) : Found :=
  c.metadataFindLoop metatag c.metadataFuel metaindex (.begin c.metaoffset)

/-- `metadata_find` for the next entry of any tag. -/
def metadataFindNext (e : MetadataEntry) : Found :=
  c.metadataFindLoop wildcard c.metadataFuel 0 e.resume

/-- `read_metadata`. -/
def readMetadata (searchtag : Tag) (searchindex : BitVec 32) :
    Except Stop (List Byte × Tag × Byte) :=
  match c.metadataFind searchtag searchindex.toInt with
  | .failed stop => .error stop
  | .notFound _ => .error (.error .metadataNotFound)
  | .found e =>
      (c.file.read (e.offset + metadataHeaderSize) e.length).map fun data ↦
        (data, e.metatag, e.flags)

/-! ## The overall hash -/

/-- `raw_sha1`. -/
def rawSha1 : List Byte :=
  if c.rawsha1Offset = 0 then Util.sha1Null
  else
    match c.file.read c.rawsha1Offset 20 with
    | .ok bytes => bytes
    | .error _ => Util.sha1Null

/-- The loop of `compute_overall_sha1`, for at most `fuel` rounds: the bytes of a `metadata_hash`
for each entry with `CHD_MDFLAGS_CHECKSUM`. -/
def metadataHashes : ℕ → Found → Except Stop (List (List Byte))
  | 0, _ => .error .hang
  | _ + 1, .failed stop => .error stop
  | _ + 1, .notFound _ => .ok []
  | fuel + 1, .found e =>
      if e.flags.getLsbD 0 then
        match c.file.read (e.offset + metadataHeaderSize) e.length with
        | .error stop => .error stop
        | .ok data =>
            (metadataHashes fuel (c.metadataFindNext e)).map fun hashes ↦
              (toBytes 4 e.metatag.toNat ++ Util.sha1 data) :: hashes
      else metadataHashes fuel (c.metadataFindNext e)

/-- The order of `memcmp` on arrays of one length. -/
def memcmpLe (a b : List Byte) : Prop := ofBytes a ≤ ofBytes b

instance : DecidableRel memcmpLe := fun a b ↦ inferInstanceAs (Decidable (ofBytes a ≤ ofBytes b))

/-- The hash of `compute_overall_sha1` over what is in the array. -/
def overallSha1 (rawsha1 : List Byte) (hashes : List (List Byte)) : List Byte :=
  Util.sha1 (rawsha1 ++ (hashes.insertionSort memcmpLe).flatten)

/-- `compute_overall_sha1`. -/
def computeOverallSha1 (rawsha1 : List Byte) : Except Stop (List Byte) :=
  if c.version < 4 then .ok rawsha1
  else (c.metadataHashes c.metadataFuel (c.metadataFind wildcard 0)).map (overallSha1 rawsha1)

end ChdFile

/-- `metadata_update_hash`. -/
def metadataUpdateHash : ChdM Unit := do
  let c ← get
  if c.version < 4 ∨ ¬ c.compressed then pure ()
  else
    match c.computeOverallSha1 c.rawSha1 with
    | .error stop => throw stop
    | .ok fullsha1 => fileWrite c.sha1Offset fullsha1

/-- `set_raw_sha1`. -/
def setRawSha1 (rawdata : List Byte) : ChdM Unit := do
  let c ← get
  if c.rawsha1Offset = 0 then fileWrite c.sha1Offset rawdata
  else do
    fileWrite c.rawsha1Offset rawdata
    metadataUpdateHash

/-! ## Changing -/

/-- `metadata_set_previous_next`. -/
def metadataSetPreviousNext (prevoffset nextoffset : ℕ) : ChdM Unit :=
  if prevoffset = 0 then do
    let c ← get
    set { c with metaoffset := nextoffset }
    fileWrite c.metaoffsetOffset (toBytes 8 nextoffset)
  else fileWrite (prevoffset + 8) (toBytes 8 nextoffset)

/-- The part of `write_metadata` for data that fit over the old data. -/
def overwriteMetadata (e : MetadataEntry) (inputbuf : List Byte) : ChdM Unit := do
  fileWrite (e.offset + metadataHeaderSize) inputbuf
  if inputbuf.length = e.length then pure ()
  else fileWrite (e.offset + 5) (toBytes 3 inputbuf.length)

/-- The part of `write_metadata` that appends a record and links it to the one in front. -/
def appendMetadata (prev : ℕ) (metatag : Tag) (inputbuf : List Byte) (flags : Byte) : ChdM Unit :=
  do
  let offset ← fileAppend (metadataHeader metatag flags inputbuf.length) 0
  let _ ← fileAppend inputbuf 0
  metadataSetPreviousNext prev offset

/-- The part of `write_metadata` behind the search. -/
def writeFound (metatag : Tag) (inputbuf : List Byte) (flags : Byte) : Found → ChdM Unit
  | .failed stop => throw stop
  | .notFound e => appendMetadata e.prev metatag inputbuf flags
  | .found e =>
      if inputbuf.length ≤ e.length then overwriteMetadata e inputbuf
      else do
        -- the entry is unlinked, and the record in front then gets a second link
        metadataSetPreviousNext e.prev e.next
        appendMetadata e.prev metatag inputbuf flags

/-- `write_metadata`. -/
def writeMetadata (metatag : Tag) (metaindex : BitVec 32) (inputbuf : List Byte) (flags : Byte) :
    ChdM Unit :=
  if inputbuf.length < 1 ∨ 16 * 1024 * 1024 ≤ inputbuf.length then fail .invalidArgument
  else do
    let c ← get
    writeFound metatag inputbuf flags (c.metadataFind metatag metaindex.toInt)
    metadataUpdateHash

/-- The part of `delete_metadata` behind the search. -/
def deleteFound : Found → ChdM Unit
  | .failed stop => throw stop
  | .notFound _ => fail .metadataNotFound
  | .found e => metadataSetPreviousNext e.prev e.next

/-- `delete_metadata`. -/
def deleteMetadata (metatag : Tag) (metaindex : BitVec 32) : ChdM Unit := do
  let c ← get
  deleteFound (c.metadataFind metatag metaindex.toInt)

/-- The loop of `clone_all_metadata`, for at most `fuel` rounds. -/
def cloneMetadataFrom (source : ChdFile) : ℕ → Found → ChdM Unit
  | 0, _ => throw .hang
  | _ + 1, .failed stop => throw stop
  | _ + 1, .notFound _ => return
  | fuel + 1, .found e =>
      match source.file.read (e.offset + metadataHeaderSize) e.length with
      | .error stop => throw stop
      | .ok filedata => do
          writeMetadata e.metatag appendIndex filedata e.flags
          cloneMetadataFrom source fuel (source.metadataFindNext e)

/-- `clone_all_metadata`. -/
def cloneAllMetadata (source : ChdFile) : ChdM Unit :=
  cloneMetadataFrom source source.metadataFuel (source.metadataFind wildcard 0)

end RoscoEmulator.Chd
