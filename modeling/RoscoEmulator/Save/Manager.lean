import Mathlib
import RoscoEmulator.Lib.Cells
import RoscoEmulator.Util.Hashing

/-!
# Save states

`save_manager`: the registered entries, the header with its signature, and the two loops that write
the entries to a transport and read them back. A transport is what `do_write` and `do_read` are
called with; there are three of each, for streams, buffers and files.

An entry is a number of blocks, a stride of bytes apart, of values of one size each. The machine
stores values with their most significant byte first or last, and says in the header which; a reader
of the other kind turns the bytes of every value round. -/

namespace RoscoEmulator.Save

open Cells

abbrev Byte := BitVec 8

abbrev Memory := ℕ → Byte

/-- `save_error`. -/
inductive SaveError where
  | none
  | notFound
  | invalidHeader
  | readError
  | writeError
  | disabled
  deriving DecidableEq, Repr

/-- `save_manager::state_entry`, as `save_memory` asserts it to be. -/
structure StateEntry where
  data : ℕ
  name : List Byte
  typesize : ℕ
  typecount : ℕ
  blockcount : ℕ
  stride : ℕ
  typesize_mem : typesize ∈ [1, 2, 4, 8]
  typecount_lt : typecount < 2 ^ 32
  blockcount_lt : blockcount < 2 ^ 32
  stride_lt : stride < 2 ^ 32

namespace StateEntry

variable (e : StateEntry)

/-- The product is one of 32 bits. -/
def blocksize : ℕ := e.typesize * e.typecount % 2 ^ 32

/-- Where a value begins: the block, and the value in the block. -/
def valueAt (b count : ℕ) : ℕ := e.data + b * e.stride + count * e.typesize

/-- The addresses of the values that have more than one byte. -/
def flipped : List ℕ :=
  if e.typesize = 1 then []
  else (List.range e.blockcount).flatMap fun b ↦ (List.range e.typecount).map (e.valueAt b)

/-- `flip_data`. -/
def flipData (m : Memory) : Memory := reverseAll m e.flipped e.typesize

end StateEntry

/-- `save_manager`, on a machine with this name and byte order. -/
structure SaveManager where
  entryList : List StateEntry
  presaveList : List (Memory → Memory)
  postloadList : List (Memory → Memory)
  systemName : List Byte
  msbFirst : Bool

/-! ## The header -/

def headerSize : ℕ := 32

def saveVersion : Byte := 2

/-- `SS_MSB_FIRST`. -/
def ssMsbFirst : Byte := 0x02

/-- `STATE_MAGIC_NUM`: the text "MAMESAVE". -/
def stateMagicNum : List Byte := [0x4d, 0x41, 0x4d, 0x45, 0x53, 0x41, 0x56, 0x45]

/-- `strncpy`: the text, filled up with zeros. -/
def strncpy (text : List Byte) (n : ℕ) : List Byte :=
  let text := (text.takeWhile (· ≠ 0)).take n
  text ++ List.replicate (n - text.length) 0

/-- `strncmp`, as a test for equality. A text ends with a zero, or with its list. -/
def strncmpEq : ℕ → List Byte → List Byte → Bool
  | 0, _, _ => true
  | n + 1, s, t =>
      if s.headD 0 ≠ t.headD 0 then false
      else if s.headD 0 = 0 then true
      else strncmpEq n s.tail t.tail

/-- `put_u32le`. -/
def putU32le (x : BitVec 32) : List Byte := (List.range 4).map fun i ↦ (x >>> (8 * i)).setWidth 8

/-- `get_u32le`. -/
def getU32le (bytes : List Byte) : BitVec 32 :=
  (List.range 4).foldr (fun i x ↦ (bytes.getD i 0).setWidth 32 <<< (8 * i) ||| x) 0

namespace SaveManager

variable (s : SaveManager)

/-- What an entry adds to the signature. -/
def signed (e : StateEntry) : List Byte :=
  e.name ++ putU32le (BitVec.ofNat 32 e.typesize) ++ putU32le (BitVec.ofNat 32 e.typecount) ++
    putU32le (BitVec.ofNat 32 e.blockcount) ++ putU32le 0

/-- `signature`. -/
def signature : BitVec 32 := Util.crc32 (s.entryList.flatMap signed)

/-- The header that `do_write` generates. -/
def header : List Byte :=
  stateMagicNum ++ [saveVersion, if s.msbFirst then ssMsbFirst else 0] ++
    strncpy s.systemName (0x1c - 0x0a) ++ putU32le s.signature

/-- `validate_header`. -/
def validateHeader (header gamename : List Byte) (signature : BitVec 32) : SaveError :=
  if header.take 8 ≠ stateMagicNum then .invalidHeader
  else if header.getD 8 0 ≠ saveVersion then .invalidHeader
  else if ¬ strncmpEq (0x1c - 0x0a) gamename (header.drop 0x0a) then .invalidHeader
  else if signature ≠ 0 ∧ signature ≠ getU32le (header.drop 0x1c) then .invalidHeader
  else .none

/-- Whether `do_read` turns the values round. -/
def flip (header : List Byte) : Bool :=
  if s.msbFirst then decide (header.getD 9 0 &&& ssMsbFirst = 0)
    else decide (header.getD 9 0 &&& ssMsbFirst ≠ 0)

/-- The size that both loops ask their transport for. The product is one of 32 bits, and the sum one
of 64. -/
def totalSize : ℕ :=
  s.entryList.foldl
    (fun total e ↦ (total + e.typesize * e.typecount * e.blockcount % 2 ^ 32) % 2 ^ 64) headerSize

end SaveManager

/-! ## Writing -/

/-- What `do_write` is called with. -/
structure Writer (τ : Type) where
  checkSpace : ℕ → Bool
  writeBlock : List Byte → τ → Option τ
  startHeader : τ → Option τ
  startData : τ → Option τ

section Writing

variable {τ : Type} (w : Writer τ) (m : Memory)

/-- The blocks of an entry, as many as are left. -/
def writeBlocks (e : StateEntry) : ℕ → ℕ → τ → Option τ
  | 0, _, t => some t
  | n + 1, data, t =>
    (w.writeBlock (fetch m data e.blocksize) t).bind (writeBlocks e n (data + e.stride))

def writeEntries : List StateEntry → τ → Option τ
  | [], t => some t
  | e :: entries, t => (writeBlocks w m e e.blockcount e.data t).bind (writeEntries entries)

end Writing

/-- `do_write`. -/
def doWrite {τ : Type} (w : Writer τ) (s : SaveManager) (m : Memory) (t : τ) : Except SaveError τ :=
  if ¬ w.checkSpace s.totalSize then .error .writeError
  else
    match ((w.startHeader t).bind (w.writeBlock s.header)).bind w.startData with
    | none => .error .writeError
    | some t =>
        match writeEntries w (s.presaveList.foldl (fun m f ↦ f m) m) s.entryList t with
        | none => .error .writeError
        | some t => .ok t

/-- `write_stream`. -/
def streamWriter : Writer (List Byte) where
  checkSpace _ := true
  writeBlock data str := some (str ++ data)
  startHeader := some
  startData := some

/-! ## Reading -/

/-- What `do_read` is called with. A block that is not there may leave its first bytes in memory. -/
structure Reader (τ : Type) where
  checkLength : ℕ → Bool
  readBlock : ℕ → τ → List Byte × Option τ
  startHeader : τ → Option τ
  startData : τ → Option τ

section Reading

variable {τ : Type} (r : Reader τ)

/-- The blocks of an entry, as many as are left. -/
def readBlocks (e : StateEntry) : ℕ → ℕ → Memory → τ → Memory × Option τ
  | 0, _, m, t => (m, some t)
  | n + 1, data, m, t =>
      match r.readBlock e.blocksize t with
      | (bytes, none) => (store m data bytes, none)
      | (bytes, some t) => readBlocks e n (data + e.stride) (store m data bytes) t

def readEntries (flip : Bool) : List StateEntry → Memory → τ → Memory × Option τ
  | [], m, t => (m, some t)
  | e :: entries, m, t =>
      match readBlocks r e e.blockcount e.data m t with
      | (m, none) => (m, none)
      | (m, some t) => readEntries flip entries (if flip then e.flipData m else m) t

end Reading

/-- What a load leaves behind: its result, the memory, and the number of post-load functions that
have run. -/
structure Loaded where
  error : SaveError
  memory : Memory
  dispatched : ℕ

/-- How `do_read` ends behind the entries. -/
def SaveManager.finish {τ : Type} (s : SaveManager) : Memory × Option τ → Loaded
  | (m, none) => ⟨.readError, m, 0⟩
  | (m, some _) => ⟨.none, s.postloadList.foldl (fun m f ↦ f m) m, s.postloadList.length⟩

/-- `do_read`. -/
def doRead {τ : Type} (r : Reader τ) (s : SaveManager) (m : Memory) (t : τ) : Loaded :=
  if ¬ r.checkLength s.totalSize then ⟨.readError, m, 0⟩
  else
    match (r.startHeader t).map (r.readBlock headerSize) with
    | none | some (_, none) => ⟨.readError, m, 0⟩
    | some (header, some t) =>
        match r.startData t with
        | none => ⟨.readError, m, 0⟩
        | some t =>
            if SaveManager.validateHeader header s.systemName s.signature ≠ .none
              then ⟨.invalidHeader, m, 0⟩
            else s.finish (readEntries r (s.flip header) s.entryList m t)

/-- Reads from a stream: the bytes that there are are stored. -/
def readSome (size : ℕ) (str : List Byte) : List Byte × Option (List Byte) :=
  (str.take size, if size ≤ str.length then some (str.drop size) else none)

/-- Reads from a buffer: nothing is stored of a block that is not there. -/
def readWhole (size : ℕ) (ptr : List Byte) : List Byte × Option (List Byte) :=
  if size ≤ ptr.length then (ptr.take size, some (ptr.drop size)) else ([], none)

/-- `read_stream`. -/
def streamReader : Reader (List Byte) where
  checkLength _ := true
  readBlock := readSome
  startHeader := some
  startData := some

/-- `read_buffer`, from the pointer to the end of the buffer. -/
def bufferReader (size : ℕ) : Reader (List Byte) where
  checkLength totalSize := size = totalSize
  readBlock := readWhole
  startHeader := some
  startData := some

/-- `read_file`. What comes out of the decompressor takes the place of what is behind the header. -/
def fileReader (inflate : List Byte → List Byte) : Reader (List Byte) where
  checkLength _ := true
  readBlock := readSome
  startHeader := some
  startData file := some (inflate file)

def readStream (s : SaveManager) (m : Memory) (str : List Byte) : Loaded :=
  doRead streamReader s m str

def readBuffer (s : SaveManager) (m : Memory) (buf : List Byte) : Loaded :=
  doRead (bufferReader buf.length) s m buf

def readFile (inflate : List Byte → List Byte) (s : SaveManager) (m : Memory)
    (file : List Byte) : Loaded :=
  doRead (fileReader inflate) s m file

def writeStream (s : SaveManager) (m : Memory) : Except SaveError (List Byte) :=
  doWrite streamWriter s m []

end RoscoEmulator.Save
