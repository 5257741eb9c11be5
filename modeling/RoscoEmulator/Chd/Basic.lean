import RoscoEmulator.Lib.BigEndian
import RoscoEmulator.Lib.ByteFile

/-!
# CHD files

`chd_file` over its underlying file, from an open file on: the header fields that it keeps, its raw
map, its one-hunk cache, and the three operations `file_read`, `file_write` and `file_append` that
everything else goes through. A parent is another `chd_file` and stands beside its child, not inside
it.

The underlying file is a growable array of bytes with a medium that may refuse an access. An
operation that fails keeps what it has done so far, so the operations that change a CHD are
computations in `EStateM`. A loop over offsets that come from the file need not end; it stops with
`hang`. -/

namespace RoscoEmulator.Chd

abbrev Byte : Type := BitVec 8

/-- `chd_file::error`, and the conditions of `std::errc` that are returned beside it. -/
inductive Error
  | ioError | invalidArgument
  | invalidFile | invalidData | requiresParent | fileNotWriteable | invalidParent | hunkOutOfRange
  | decompressionError | compressionError | metadataNotFound | unsupportedVersion
  | unsupportedFormat | unknownCompression
deriving DecidableEq, Repr

/-- What has no defined result. -/
inductive Fault
  /-- More bytes are read into the buffer for compressed data than it has. -/
  | compressedOverrun
  /-- A codec slot has no decompressor. -/
  | noDecompressor
  /-- There is no parent. -/
  | noParent
  /-- A division by a hunk size, a unit size or their quotient. -/
  | divideByZero
  /-- The map has no entry for the hunk. -/
  | mapOverrun
deriving DecidableEq, Repr

/-- Why an operation does not come to its end. -/
inductive Stop
  | error (e : Error)
  | hang
  | fault (f : Fault)
deriving DecidableEq, Repr

/-! ## The underlying file -/

/-- `util::random_read_write`. -/
structure CoreFile where
  data : ByteFile Byte
  /-- The medium reads these bytes. -/
  canRead : ℕ → ℕ → Bool
  /-- The number of bytes that arrive when it does not. -/
  arriving : ℕ → ℕ → ℕ
  /-- The medium takes these bytes. -/
  canWrite : ℕ → ℕ → Bool
  /-- The positions in a file are 64-bit numbers. -/
  le_of_canWrite : ∀ offset count, canWrite offset count = true → offset + count ≤ 2 ^ 64
  /-- The medium gives back what it takes. -/
  canRead_of_canWrite : ∀ offset count, canWrite offset count = true → canRead offset count = true

namespace CoreFile

/-- A medium that refuses nothing that has a position. -/
structure Faithful (file : CoreFile) : Prop where
  canRead : ∀ offset count, file.canRead offset count = true
  canWrite : ∀ offset count, offset + count ≤ 2 ^ 64 → file.canWrite offset count = true

/-- A file on such a medium. -/
def ofData (data : ByteFile Byte) : CoreFile where
  data := data
  canRead _ _ := true
  arriving _ _ := 0
  canWrite offset count := offset + count ≤ 2 ^ 64
  le_of_canWrite _ _ h := of_decide_eq_true h
  canRead_of_canWrite _ _ _ := rfl

theorem faithful_ofData (data : ByteFile Byte) : (ofData data).Faithful :=
  ⟨fun _ _ ↦ rfl, fun _ _ h ↦ decide_eq_true h⟩

variable (file : CoreFile)

/-- `file_read`. A file that ends too early is an error. -/
def read (offset length : ℕ) : Except Stop (List Byte) :=
  let bytes := file.data.readAt offset length
  if file.canRead offset length ∧ bytes.length = length then .ok bytes
  else .error (.error .ioError)

/-- What a write leaves in the file. -/
def put (offset : ℕ) (bytes : List Byte) : CoreFile :=
  { file with data := file.data.writeAt offset bytes }

end CoreFile

/-! ## The open file -/

/-- The number of the compression slots. -/
scoped instance neZeroSlots : NeZero 4 := ⟨by decide⟩

/-- `chd_file`. -/
structure ChdFile where
  file : CoreFile
  allowWrites : Bool
  version : ℕ
  logicalbytes : ℕ
  mapoffset : ℕ
  metaoffset : ℕ
  hunkbytes : ℕ
  hunkcount : ℕ
  unitbytes : ℕ
  compression : Fin 4 → BitVec 32
  parentMissing : Bool
  mapoffsetOffset : ℕ
  metaoffsetOffset : ℕ
  sha1Offset : ℕ
  rawsha1Offset : ℕ
  mapentrybytes : ℕ
  rawmap : List Byte
  cache : List Byte
  cachehunk : ℕ

/-- What an operation on a CHD does. -/
abbrev ChdM : Type → Type := EStateM Stop ChdFile

section

variable {σ α β : Type} {x : EStateM Stop σ α} {f : α → EStateM Stop σ β} {s s'' : σ}

theorem bind_eq_ok {b : β} :
    (x >>= f) s = .ok b s'' ↔ ∃ a s', x s = .ok a s' ∧ f a s' = .ok b s'' := by
  rw [show (x >>= f) s = EStateM.bind x f s from rfl, EStateM.bind]
  cases x s with
  | ok a s' =>
    constructor
    · exact fun h ↦ ⟨a, s', rfl, h⟩
    · rintro ⟨_, _, heq, h⟩
      obtain ⟨rfl, rfl⟩ := EStateM.Result.ok.inj heq
      exact h
  | error e s' =>
    constructor
    · intro h
      cases h
    · rintro ⟨_, _, heq, -⟩
      cases heq

theorem bind_eq_error {stop : Stop} :
    (x >>= f) s = .error stop s'' ↔
      x s = .error stop s'' ∨ ∃ a s', x s = .ok a s' ∧ f a s' = .error stop s'' := by
  rw [show (x >>= f) s = EStateM.bind x f s from rfl, EStateM.bind]
  cases x s with
  | ok a s' =>
    constructor
    · exact fun h ↦ .inr ⟨a, s', rfl, h⟩
    · rintro (h | ⟨_, _, heq, h⟩)
      · cases h
      · obtain ⟨rfl, rfl⟩ := EStateM.Result.ok.inj heq
        exact h
  | error e s' =>
    constructor
    · intro h
      cases h
      exact .inl rfl
    · rintro (h | ⟨_, _, heq, -⟩)
      · cases h
        rfl
      · cases heq

theorem bind_of_ok {a : α} (h : x s = .ok a s'') : (x >>= f) s = f a s'' := by
  rw [show (x >>= f) s = EStateM.bind x f s from rfl, EStateM.bind, h]

end

namespace ChdFile

variable (c : ChdFile)

/-- `compressed`. -/
def compressed : Bool := c.compression 0 ≠ 0

/-- The file holds other bytes. -/
def onFile (f : CoreFile → CoreFile) : ChdFile := { c with file := f c.file }

@[simp] theorem onFile_file (f : CoreFile → CoreFile) : (c.onFile f).file = f c.file := rfl

end ChdFile

/-- An error that ends an operation. -/
def fail {α : Type} (e : Error) : ChdM α := throw (.error e)

/-- `file_write`. -/
def fileWrite (offset : ℕ) (bytes : List Byte) : ChdM Unit := fun c ↦
  if c.file.canWrite offset bytes.length then .ok () (c.onFile fun file ↦ file.put offset bytes)
  else .error (.error .ioError) c

variable {c c' : ChdFile}

theorem fileWrite_eq_ok {offset : ℕ} {bytes : List Byte} :
    fileWrite offset bytes c = .ok () c' ↔
      c.file.canWrite offset bytes.length = true ∧ c' = c.onFile fun file ↦
      file.put offset bytes := by
  rw [fileWrite]
  split_ifs with hcan
  · constructor
    · intro h
      cases h
      exact ⟨hcan, rfl⟩
    · rintro ⟨-, rfl⟩
      rfl
  · constructor
    · intro h
      cases h
    · exact fun h ↦ absurd h.1 hcan

/-- The zeros that `file_append` puts in front of the data. -/
def appendPadding (length alignment : ℕ) : ℕ :=
  if alignment = 0 then 0 else if length % alignment = 0 then 0 else alignment - length % alignment

/-- The part of `file_append` that pads the file with zeros. -/
def writePadding (offset padding : ℕ) : ChdM Unit :=
  if padding = 0 then pure () else fileWrite offset (List.replicate padding 0)

/-- `file_append`. -/
def fileAppend (bytes : List Byte) (alignment : ℕ) : ChdM ℕ := do
  let c ← get
  let length := c.file.data.length
  let padding := appendPadding length alignment
  writePadding length padding
  fileWrite (length + padding) bytes
  return length + padding

theorem get_bind {α : Type} (f : ChdFile → ChdM α) (c : ChdFile) : (get >>= f) c = f c c := rfl

theorem pure_eq_ok {α : Type} {a b : α} : (pure a : ChdM α) c = .ok b c' ↔ a = b ∧ c = c' := by
  constructor
  · intro h
    cases h
    exact ⟨rfl, rfl⟩
  · rintro ⟨rfl, rfl⟩
    rfl

/-- An append without an alignment is a write at the end. -/
theorem fileAppend_zero_eq_ok {bytes : List Byte} {offset : ℕ} :
    fileAppend bytes 0 c = .ok offset c' ↔
      c.file.canWrite c.file.data.length bytes.length = true ∧ offset = c.file.data.length ∧
        c' = c.onFile fun file ↦ file.put c.file.data.length bytes := by
  rw [fileAppend, get_bind]
  constructor
  · intro h
    obtain ⟨_, c₁, hpad, h⟩ := bind_eq_ok.mp h
    obtain ⟨-, rfl⟩ := pure_eq_ok.mp hpad
    obtain ⟨_, c₂, hwrite, h⟩ := bind_eq_ok.mp h
    obtain ⟨hcan, rfl⟩ := fileWrite_eq_ok.mp hwrite
    obtain ⟨rfl, rfl⟩ := pure_eq_ok.mp h
    exact ⟨hcan, rfl, rfl⟩
  · rintro ⟨hcan, rfl, rfl⟩
    refine bind_eq_ok.mpr ⟨(), c, rfl, ?_⟩
    exact bind_eq_ok.mpr ⟨(), _, fileWrite_eq_ok.mpr ⟨hcan, rfl⟩, rfl⟩

end RoscoEmulator.Chd
