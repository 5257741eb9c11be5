import RoscoEmulator.Chd.Basic
import RoscoEmulator.Lib.Pieces
import RoscoEmulator.Util.Hashing
import RoscoEmulator.Util.Huffman

/-!
# The compressed map

`decompress_v5_map`. The types of the hunks, with references promoted to relative ones, are
run-length coded and then Huffman coded; behind them stand the lengths, checksums and references
that the types do not say. The running state of the decoder is the last reference to the file
itself, the last one to the parent, and the offset of the next hunk. -/

namespace RoscoEmulator.Chd

open BigEndian Pieces Util

/-- Why a map is not decompressed. What is `undefined` includes the exception for a buffer
of negative size, which no caller handles. -/
inductive MapStop
  | stop (s : Stop)
  | undefined
deriving DecidableEq, Repr

/-- An entry of the map of version 5 with compression. -/
structure MapEntry where
  comp : ℕ
  length : ℕ
  offset : ℕ
  crc : ℕ
deriving DecidableEq, Repr

namespace MapEntry

def bytes (e : MapEntry) : List Byte :=
  BitVec.ofNat 8 e.comp :: (toBytes 3 e.length ++ toBytes 6 e.offset ++ toBytes 2 e.crc)

end MapEntry

/-- The sizes of the header. -/
structure MapSizes where
  hunkbytes : ℕ
  unitbytes : ℕ
deriving DecidableEq, Repr

namespace MapSizes

variable (z : MapSizes)

/-- The unit of a parent at which a hunk of the same place starts. -/
def ownUnit (hunknum : ℕ) : ℕ := hunknum * z.hunkbytes / z.unitbytes

/-- The units of a hunk. -/
def stride : ℕ := z.hunkbytes / z.unitbytes

end MapSizes

/-- The widths of the fields behind the types. -/
structure FieldWidths where
  lengthbits : ℕ
  selfbits : ℕ
  parentbits : ℕ
deriving DecidableEq, Repr

/-- The loop of `decompress_v5_map` over the types. -/
def decodeTypes (lookup : Lookup) :
    ℕ → ℕ → ℕ → BitstreamIn → Option (List ℕ × BitstreamIn)
  | 0, _, _, b => some ([], b)
  | hunks + 1, lastcomp, count + 1, b =>
      (decodeTypes lookup hunks lastcomp count b).map fun (comps, b) ↦ (lastcomp :: comps, b)
  | hunks + 1, lastcomp, 0, b =>
      (decodeOne 8 lookup b).bind fun (val, b) ↦
        if val = 7 then
          (decodeOne 8 lookup b).bind fun (x, b) ↦
            (decodeTypes lookup hunks lastcomp (2 + x) b).map fun (comps, b) ↦
              (lastcomp :: comps, b)
        else if val = 8 then
          (decodeOne 8 lookup b).bind fun (x, b) ↦
            (decodeOne 8 lookup b).bind fun (y, b) ↦
              (decodeTypes lookup hunks lastcomp (2 + 16 + x * 16 + y) b).map fun (comps, b) ↦
                (lastcomp :: comps, b)
        else (decodeTypes lookup hunks val 0 b).map fun (comps, b) ↦ (val :: comps, b)

/-- The running state of the loop over the hunks. -/
structure Running where
  curoffset : ℕ
  lastSelf : ℕ
  lastParent : ℕ
deriving DecidableEq, Repr

/-- The entry of a hunk of a given type, and the state behind it. -/
def decodeEntry (z : MapSizes) (w : FieldWidths) (hunknum comp : ℕ) (r : Running)
    (b : BitstreamIn) : Option (MapEntry × Running × BitstreamIn) :=
  match comp with
  | 0 | 1 | 2 | 3 =>
      (b.read w.lengthbits).bind fun (length, b) ↦
        (b.read 16).map fun (crc, b) ↦
          (⟨comp, length, r.curoffset, crc⟩,
            { r with curoffset := (r.curoffset + length) % 2 ^ 64 }, b)
  | 4 =>
      (b.read 16).map fun (crc, b) ↦
        (⟨4, z.hunkbytes, r.curoffset, crc⟩,
          { r with curoffset := (r.curoffset + z.hunkbytes) % 2 ^ 64 }, b)
  | 5 =>
    (b.read w.selfbits).map fun (offset, b) ↦ (⟨5, 0, offset, 0⟩, { r with lastSelf := offset }, b)
  | 6 =>
      (b.read w.parentbits).map fun (offset, b) ↦
        (⟨6, 0, offset, 0⟩, { r with lastParent := offset }, b)
  | 9 => some (⟨5, 0, r.lastSelf, 0⟩, r, b)
  | 10 =>
      some (⟨5, 0, (r.lastSelf + 1) % 2 ^ 32, 0⟩,
        { r with lastSelf := (r.lastSelf + 1) % 2 ^ 32 }, b)
  | 11 => some (⟨6, 0, z.ownUnit hunknum, 0⟩, { r with lastParent := z.ownUnit hunknum }, b)
  | 12 => some (⟨6, 0, r.lastParent, 0⟩, r, b)
  | 13 =>
      some (⟨6, 0, (r.lastParent + z.stride) % 2 ^ 64, 0⟩,
        { r with lastParent := (r.lastParent + z.stride) % 2 ^ 64 }, b)
  | comp => some (⟨comp, 0, r.curoffset, 0⟩, r, b)

/-- The loop over the hunks. -/
def decodeEntries (z : MapSizes) (w : FieldWidths) :
    ℕ → List ℕ → Running → BitstreamIn → Option (List MapEntry)
  | _, [], _, _ => some []
  | hunknum, comp :: comps, r, b =>
      (decodeEntry z w hunknum comp r b).bind fun (e, r, b) ↦
        (decodeEntries z w (hunknum + 1) comps r b).map (e :: ·)

/-- The part of `decompress_v5_map` behind the reads. -/
def decompressedMap (z : MapSizes) (hunkcount : ℕ) (rawbuf compressed : List Byte) :
    Except MapStop (List Byte) :=
  let w : FieldWidths :=
    ⟨(rawbuf.getD 12 0).toNat, (rawbuf.getD 13 0).toNat, (rawbuf.getD 14 0).toNat⟩
  match importTreeRle 16 8 (.start compressed) with
  | .error .undefined => .error .undefined
  | .error _ => .error (.stop (.error .decompressionError))
  | .ok (lookup, b) =>
      -- the raw map has fewer bytes then
      if 2 ^ 32 ≤ 12 * hunkcount then .error (.stop (.fault .mapOverrun))
      else
        match (decodeTypes lookup hunkcount 0 0 b).bind fun (comps, b) ↦
            decodeEntries z w 0 comps ⟨ofBytes (part rawbuf 4 6), 0, 0⟩ b with
        | none => .error .undefined
        | some entries =>
            let rawmap := entries.flatMap MapEntry.bytes
            if (crc16 rawmap).toNat ≠ ofBytes (part rawbuf 10 2) then
              .error (.stop (.error .decompressionError))
            else .ok rawmap

/-- `decompress_v5_map`: the raw map. -/
def decompressV5Map (c : ChdFile) : Except MapStop (List Byte) :=
  if c.mapoffset = 0 then .ok (List.replicate (12 * c.hunkcount % 2 ^ 32) 0xff)
  else
    match c.file.read c.mapoffset 16 with
    | .error stop => .error (.stop stop)
    | .ok rawbuf =>
        match c.file.read (c.mapoffset + 16) (ofBytes (part rawbuf 0 4)) with
        | .error stop => .error (.stop stop)
        | .ok compressed => decompressedMap ⟨c.hunkbytes, c.unitbytes⟩ c.hunkcount rawbuf compressed

end RoscoEmulator.Chd
