import RoscoEmulator.Chd.MetadataStore

/-!
# New CHDs

What `create_common` leaves when it succeeds without a parent: a version 5 header with null hashes
and, if nothing is compressed, a map of zeros behind it.
-/

namespace RoscoEmulator.Chd

open BigEndian ByteFile

/-- The file of these bytes. -/
def bytesFile (bytes : List Byte) : ByteFile Byte := ⟨bytes.length, fun i ↦ bytes.getD i 0⟩

/-- The header that `create_common` writes. -/
def newHeader (compression : Fin 4 → BitVec 32)
    (logicalbytes hunkbytes unitbytes : ℕ) : List Byte :=
  [77, 67, 111, 109, 112, 114, 72, 68] ++ toBytes 4 124 ++ toBytes 4 5 ++
    toBytes 4 (compression 0).toNat ++ toBytes 4 (compression 1).toNat ++
    toBytes 4 (compression 2).toNat ++ toBytes 4 (compression 3).toNat ++
    toBytes 8 logicalbytes ++ toBytes 8 (if compression 0 ≠ 0 then 0 else 124) ++ toBytes 8 0 ++
    toBytes 4 hunkbytes ++ toBytes 4 unitbytes ++ Util.sha1Null ++ Util.sha1Null ++ Util.sha1Null

/-- The open CHD that `create_common` leaves. -/
def ChdFile.created (compression : Fin 4 → BitVec 32) (logicalbytes hunkbytes unitbytes : ℕ) :
    ChdFile :=
  let hunkcount := (logicalbytes + hunkbytes - 1) / hunkbytes
  let mapentrybytes := if compression 0 ≠ 0 then 12 else 4
  { file := .ofData (bytesFile (newHeader compression logicalbytes hunkbytes unitbytes ++
      if compression 0 ≠ 0 then [] else List.replicate (mapentrybytes * hunkcount) 0))
    allowWrites := true
    version := 5
    logicalbytes := logicalbytes
    mapoffset := if compression 0 ≠ 0 then 0 else 124
    metaoffset := 0
    hunkbytes := hunkbytes
    hunkcount := hunkcount
    unitbytes := unitbytes
    compression := compression
    parentMissing := false
    mapoffsetOffset := 40
    metaoffsetOffset := 48
    sha1Offset := 84
    rawsha1Offset := 64
    mapentrybytes := mapentrybytes
    rawmap := List.replicate (mapentrybytes * hunkcount) 0
    cache := List.replicate hunkbytes 0
    cachehunk := 2 ^ 32 - 1 }

theorem length_newHeader (compression : Fin 4 → BitVec 32) (logicalbytes hunkbytes unitbytes : ℕ) :
    (newHeader compression logicalbytes hunkbytes unitbytes).length = 124 := by
  simp [newHeader, Util.sha1Null]

theorem ChdFile.represents_created (compression : Fin 4 → BitVec 32)
    (logicalbytes hunkbytes unitbytes : ℕ) :
    (created compression logicalbytes hunkbytes unitbytes).Represents [] := by
  refine ⟨[],
    ⟨⟨CoreFile.faithful_ofData _, .inr (.inr ⟨rfl, rfl, rfl, rfl⟩), ?_, .nil, ?_⟩, .nil 0⟩, rfl⟩
  · show 124 ≤ (newHeader compression logicalbytes hunkbytes unitbytes ++ _).length
    rw [List.length_append, length_newHeader]
    exact Nat.le_add_right _ _
  · exact fun r hr ↦ absurd hr List.not_mem_nil

end RoscoEmulator.Chd
