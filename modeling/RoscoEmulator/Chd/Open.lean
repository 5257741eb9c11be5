import RoscoEmulator.Chd.Map
import RoscoEmulator.Chd.Metadata
import RoscoEmulator.Chd.Hunks

/-!
# Opening a CHD

`open_common` for the file versions 3 to 5: the header, the parent and the map. What it leaves is
the CHD with its parents, the nearest first.

Versions 3 and 4 have no unit size in the header. It is guessed from the metadata, so opening such a
file searches them, and does not come to an end if the search does not.
-/

namespace RoscoEmulator.Chd

open BigEndian Pieces

/-! ## The unit size of old versions -/

/-- `isspace`. -/
def isSpace (byte : Byte) : Bool := byte.toNat = 32 ∨ 9 ≤ byte.toNat ∧ byte.toNat ≤ 13

/-- A decimal digit. -/
def digit? (byte : Byte) : Option ℕ :=
  if 48 ≤ byte.toNat ∧ byte.toNat ≤ 57 then some (byte.toNat - 48) else none

/-- The digits at the start of a text, as a number behind `n`, and the rest of the text. -/
def scanDigits : ℕ → List Byte → ℕ × List Byte
  | n, [] => (n, [])
  | n, byte :: text =>
      match digit? byte with
      | none => (n, byte :: text)
      | some d => scanDigits (n * 10 + d) text

/-- A number that is too large for a `long` becomes the nearest one. -/
def clampLong (n : ℤ) : ℤ := max (-2 ^ 63) (min n (2 ^ 63 - 1))

/-- The conversion `%d`. -/
def scanInt (text : List Byte) : Option (BitVec 32 × List Byte) :=
  let text := text.dropWhile isSpace
  let negative := text.headD 0 = 45
  let text := if text.headD 0 = 45 ∨ text.headD 0 = 43 then text.tail else text
  if (text.headD 0 |> digit?).isNone then none
  else
    let (n, rest) := scanDigits 0 text
    some (BitVec.ofInt 32 (clampLong (if negative then -(n : ℤ) else n)), rest)

/-- Characters of the format that stand for themselves. -/
def scanLiteral (literal text : List Byte) : Option (List Byte) :=
  if text.take literal.length = literal then some (text.drop literal.length) else none

/-- `HARD_DISK_METADATA_FORMAT`, in front of each conversion. -/
def hardDiskFormat : List (List Byte) :=
  [[67, 89, 76, 83, 58], [44, 72, 69, 65, 68, 83, 58], [44, 83, 69, 67, 83, 58],
    [44, 66, 80, 83, 58]]

/-- `sscanf`, for literals with a conversion behind each: the last number, if there is one for
each. -/
def scanFormat : List (List Byte) → BitVec 32 → List Byte → Option (BitVec 32)
  | [], last, _ => some last
  | literal :: format, _, text =>
      ((scanLiteral literal text).bind scanInt).bind fun (n, rest) ↦ scanFormat format n rest

/-- `HARD_DISK_METADATA_TAG`. -/
def hardDiskTag : Tag := 0x47444444#32

/-- The tags of the metadata of compact discs, in the order of the search. -/
def cdromTags : List Tag :=
  [0x43484344#32, 0x43485452#32, 0x43485432#32, 0x43484754#32, 0x43484744#32]

/-- `cdrom_file::FRAME_SIZE`. -/
def frameSize : ℕ := 2352 + 96

namespace ChdFile

variable (c : ChdFile)

/-- There are metadata, unless the search does not end. -/
def hasMetadata (tag : Tag) : Except Stop (Option (List Byte)) :=
  match c.readMetadata tag 0 with
  | .ok (metadata, _) => .ok (some metadata)
  | .error .hang => .error .hang
  | .error _ => .ok none

/-- The part of `guess_unitbytes` for compact discs. -/
def guessCdrom : List Tag → Except Stop ℕ
  | [] => .ok c.hunkbytes
  | tag :: tags => do
      match ← c.hasMetadata tag with
      | some _ => .ok frameSize
      | none => guessCdrom tags

/-- `guess_unitbytes`. -/
def guessUnitbytes : Except Stop ℕ := do
  match (← c.hasMetadata hardDiskTag).bind fun metadata ↦
      scanFormat hardDiskFormat 0 (metadata.takeWhile (· ≠ 0)) with
  | some bps => .ok bps.toNat
  | none => c.guessCdrom cdromTags

/-- `sha1`. -/
def sha1 : List Byte :=
  match c.file.read c.sha1Offset 20 with
  | .ok bytes => bytes
  | .error _ => Util.sha1Null

end ChdFile

/-! ## Headers -/

/-- Where the headers of versions 3 and 4 differ. -/
structure OldLayout where
  headerSize : ℕ
  hunkbytesOffset : ℕ
  sha1Offset : ℕ
  rawsha1Offset : ℕ
  parentsha1Offset : ℕ

/-- `CHD_CODEC_ZLIB`. -/
def codecZlib : BitVec 32 := 0x7a6c6962#32

/-- `CHD_CODEC_AVHUFF`. -/
def codecAvhuff : BitVec 32 := 0x61766875#32

/-- The codec of a compression type. -/
def oldCodec : ℕ → Except Stop (BitVec 32)
  | 0 => .ok 0
  | 1 | 2 => .ok codecZlib
  | 3 => .ok codecAvhuff
  | _ => .error (.error .unknownCompression)

/-- What `parse_v3_header` and `parse_v4_header` have in common. -/
def parseOldHeader (l : OldLayout) (version : ℕ) (file : CoreFile) (raw : List Byte) :
    Except Stop (ChdFile × List Byte) := do
  if ofBytes (part raw 8 4) ≠ l.headerSize then .error (.error .invalidFile)
  else
    let codec ← oldCodec (ofBytes (part raw 20 4))
    let c : ChdFile :=
      { file := file
        -- only version 5 can be written
        allowWrites := false
        version := version
        logicalbytes := ofBytes (part raw 28 8)
        mapoffset := l.headerSize
        metaoffset := ofBytes (part raw 36 8)
        hunkbytes := ofBytes (part raw l.hunkbytesOffset 4)
        hunkcount := ofBytes (part raw 24 4)
        unitbytes := 0
        compression := fun slot ↦ if slot = 0 then codec else 0
        parentMissing := false
        mapoffsetOffset := 0
        metaoffsetOffset := 36
        sha1Offset := l.sha1Offset
        rawsha1Offset := l.rawsha1Offset
        mapentrybytes := 16
        rawmap := []
        cache := []
        cachehunk := 2 ^ 32 - 1 }
    let unitbytes ← c.guessUnitbytes
    -- the number of units is computed at once
    if unitbytes = 0 then .error (.fault .divideByZero)
    else
      .ok ({ c with unitbytes := unitbytes },
        if (ofBytes (part raw 16 4)).testBit 0 then part raw l.parentsha1Offset 20
        else Util.sha1Null)

/-- `parse_v3_header`. -/
def parseV3Header : CoreFile → List Byte → Except Stop (ChdFile × List Byte) :=
  parseOldHeader ⟨120, 76, 80, 0, 100⟩ 3

/-- `parse_v4_header`. -/
def parseV4Header : CoreFile → List Byte → Except Stop (ChdFile × List Byte) :=
  parseOldHeader ⟨108, 44, 48, 88, 68⟩ 4

/-- `parse_v5_header`. -/
def parseV5Header (file : CoreFile) (raw : List Byte) : Except Stop (ChdFile × List Byte) :=
  let logicalbytes := ofBytes (part raw 32 8)
  let hunkbytes := ofBytes (part raw 56 4)
  let unitbytes := ofBytes (part raw 60 4)
  let compression : Fin 4 → BitVec 32 := fun i ↦ BitVec.ofNat 32 (ofBytes (part raw (16 + 4 * i) 4))
  if ofBytes (part raw 8 4) ≠ 124 then .error (.error .invalidFile)
  else if hunkbytes = 0 ∨ unitbytes = 0 then .error (.error .invalidFile)
  else
    .ok
      ({ file := file
         allowWrites := compression 0 = 0
         version := 5
         logicalbytes := logicalbytes
         mapoffset := ofBytes (part raw 40 8)
         metaoffset := ofBytes (part raw 48 8)
         hunkbytes := hunkbytes
         hunkcount := (logicalbytes + hunkbytes - 1) % 2 ^ 64 / hunkbytes % 2 ^ 32
         unitbytes := unitbytes
         compression := compression
         parentMissing := false
         mapoffsetOffset := 40
         metaoffsetOffset := 48
         sha1Offset := 84
         rawsha1Offset := 64
         mapentrybytes := if compression 0 ≠ 0 then 12 else 4
         rawmap := []
         cache := []
         cachehunk := 2 ^ 32 - 1 },
        part raw 104 20)

/-! ## Opening -/

/-- The codecs, with the constructors of the decompressors, which refuse some hunk sizes. -/
structure Opener where
  codecs : Codecs
  refuses : BitVec 32 → ℕ → Option Error

/-- How a file is opened: for reads only or not, with its parent or with a way to look for one. A
parent comes with its own parents behind it, and there is none if the list is empty. -/
structure Opening where
  writeable : Bool
  parent : List ChdFile
  openParent : List Byte → List ChdFile

/-- The decompressors of all slots. -/
def newDecompressors (opener : Opener) (hunkbytes : ℕ) : List (BitVec 32) → Except Stop Unit
  | [] => .ok ()
  | tag :: tags =>
      if opener.codecs.codecExists tag then
        match opener.refuses tag hunkbytes with
        | some e => .error (.error e)
        | none => newDecompressors opener hunkbytes tags
      else if tag ≠ 0 then .error (.error .unknownCompression)
      else newDecompressors opener hunkbytes tags

/-- The size of the raw map. The computation has 32 bits. -/
def ChdFile.rawmapSize (c : ChdFile) : ℕ := c.hunkcount * c.mapentrybytes % 2 ^ 32

/-- The map of an open file. -/
def readMap (c : ChdFile) : Except MapStop (List Byte) :=
  if 5 ≤ c.version ∧ c.compressed then decompressV5Map c
  else
    match c.file.read c.mapoffset c.rawmapSize with
    | .ok rawmap => .ok rawmap
    | .error stop => .error (.stop stop)

/-- `create_open_common`. -/
def createOpenCommon (opener : Opener) (c : ChdFile) : Except MapStop ChdFile :=
  match newDecompressors opener c.hunkbytes (List.ofFn c.compression) with
  | .error stop => .error (.stop stop)
  | .ok _ =>
      match readMap c with
      | .error stop => .error stop
      | .ok rawmap => .ok { c with rawmap := rawmap, cache := List.replicate c.hunkbytes 0 }

/-- The parents of a file that names one, or does not. -/
def findParent (how : Opening) (parentsha1 : List Byte) : Except Stop (List ChdFile) :=
  if parentsha1 ≠ Util.sha1Null then
    match if how.parent = [] then how.openParent parentsha1 else how.parent with
    | [] => .ok []
    | p :: ps => if p.sha1 ≠ parentsha1 then .error (.error .invalidParent) else .ok (p :: ps)
  else if how.parent ≠ [] then .error (.error .invalidArgument)
  else .ok []

/-- The header of a file. -/
def parseHeader (file : CoreFile) : Except Stop (ChdFile × List Byte) := do
  let raw ← file.read 0 124
  if part raw 0 8 ≠ [77, 67, 111, 109, 112, 114, 72, 68] then .error (.error .invalidFile)
  else
    match ofBytes (part raw 12 4) with
    | 3 => parseV3Header file raw
    | 4 => parseV4Header file raw
    | 5 => parseV5Header file raw
    | _ => .error (.error .unsupportedVersion)

/-- `open_common`. -/
def openCommon (opener : Opener) (how : Opening) (file : CoreFile) :
    Except MapStop (List ChdFile) :=
  match parseHeader file with
  | .error stop => .error (.stop stop)
  | .ok (c, parentsha1) =>
      if how.writeable ∧ ¬ c.allowWrites then .error (.stop (.error .fileNotWriteable))
      else
        match findParent how parentsha1 with
        | .error stop => .error (.stop stop)
        | .ok parents =>
            match createOpenCommon opener
                { c with parentMissing := parentsha1 ≠ Util.sha1Null ∧ parents = [] } with
            | .error stop => .error stop
            | .ok c => .ok (c :: parents)

end RoscoEmulator.Chd
