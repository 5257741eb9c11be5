import RoscoEmulator.Chd.Metadata

/-!
# The list behind the metadata chain

What the metadata are for is a list of entries, each with a tag, flags and data. A chain of records
in the file holds such a list when every record is where the link in front of it points, the records
keep out of each other's way, and all of them lie behind the header. On such a chain the search
finds what the list says, a link can be set to any other chain without moving a record, and data
that fit are written over in place. -/

namespace RoscoEmulator.Chd

open List BigEndian ByteFile

/-! ## Lists of entries -/

/-- An entry of the metadata. -/
structure Entry where
  tag : Tag
  flags : Byte
  data : List Byte
deriving DecidableEq, Repr

/-- The entries that a search for a tag counts. -/
def Entry.hasTag (tag : Tag) (e : Entry) : Bool := tag = wildcard ∨ e.tag = tag

/-- The element number `n` of those that satisfy `p`, between what is in front of it and behind. -/
def findSplit {α : Type} (p : α → Bool) : ℤ → List α → Option (List α × α × List α)
  | _, [] => none
  | n, x :: xs =>
      if p x ∧ n = 0 then some ([], x, xs)
      else
        (findSplit p (if p x then n - 1 else n) xs).map fun s ↦ (x :: s.1, s.2.1, s.2.2)

theorem eq_of_findSplit {α : Type} {p : α → Bool} {n : ℤ} {l before after : List α} {x : α}
    (h : findSplit p n l = some (before, x, after)) : l = before ++ x :: after ∧ p x = true := by
  induction l generalizing n before with
  | nil => exact absurd h (by simp [findSplit])
  | cons y ys ih =>
    rw [findSplit] at h
    generalize (if p y then n - 1 else n) = n' at h
    split_ifs at h with hy
    · obtain ⟨rfl, rfl, rfl⟩ : [] = before ∧ y = x ∧ ys = after := by simpa using h
      exact ⟨rfl, hy.1⟩
    · obtain ⟨⟨before', x', after'⟩, hfind, heq⟩ := Option.map_eq_some_iff.mp h
      obtain ⟨rfl, rfl, rfl⟩ : y :: before' = before ∧ x' = x ∧ after' = after := by simpa using heq
      obtain ⟨rfl, hx⟩ := ih hfind
      exact ⟨rfl, hx⟩

theorem findSplit_map {α β : Type} (f : α → β) (p : β → Bool) (n : ℤ) (l : List α) :
    findSplit p n (l.map f) =
      (findSplit (fun x ↦ p (f x)) n l).map fun s ↦ (s.1.map f, f s.2.1, s.2.2.map f) := by
  induction l generalizing n with
  | nil => rfl
  | cons y ys ih =>
    rw [map_cons, findSplit, findSplit]
    split_ifs with hy
    · rfl
    all_goals
      rw [ih, Option.map_map, Option.map_map]
      rfl

namespace MetadataList

/-- The entry with new data. One whose data fit in place keeps its flags. -/
def replace (e : Entry) (data : List Byte) (flags : Byte) : Entry :=
  { e with data := data, flags := if data.length ≤ e.data.length then e.flags else flags }

/-- What `write_metadata` is for. -/
def write (l : List Entry) (tag : Tag) (n : ℤ) (data : List Byte) (flags : Byte) : List Entry :=
  match findSplit (Entry.hasTag tag) n l with
  | none => l ++ [⟨tag, flags, data⟩]
  | some (before, e, after) => before ++ replace e data flags :: after

/-- What `delete_metadata` is for. -/
def delete (l : List Entry) (tag : Tag) (n : ℤ) : List Entry :=
  match findSplit (Entry.hasTag tag) n l with
  | none => l
  | some (before, _, after) => before ++ after

/-- What `read_metadata` is for. -/
def read (l : List Entry) (tag : Tag) (n : ℤ) : Option Entry :=
  (findSplit (Entry.hasTag tag) n l).map fun s ↦ s.2.1

end MetadataList

/-! ## Records in the file -/

/-- The header of a record. -/
def recordHeader (e : Entry) (next : ℕ) : List Byte :=
  toBytes 4 e.tag.toNat ++ e.flags :: toBytes 3 e.data.length ++ toBytes 8 next

@[simp] theorem length_recordHeader (e : Entry) (next : ℕ) : (recordHeader e next).length = 16 := by
  simp [recordHeader]

/-- The positions that a record takes. -/
def recordExtent (r : ℕ × Entry) : Set ℕ := extent r.1 (16 + r.2.data.length)

/-- The record of an entry is at `offset`, with a link to `next`. -/
structure Stored (file : ByteFile Byte) (offset : ℕ) (e : Entry) (next : ℕ) : Prop where
  header : file.readAt offset 16 = recordHeader e next
  data : file.readAt (offset + 16) e.data.length = e.data
  inside : offset + 16 + e.data.length ≤ file.length
  pos : 0 < offset
  next_lt : next < 2 ^ 64
  length_pos : 0 < e.data.length
  length_lt : e.data.length < 2 ^ 24

/-- The records of a list, from the link `first` on, with a last link to `last`. -/
inductive Segment (file : ByteFile Byte) : ℕ → List (ℕ × Entry) → ℕ → Prop
  | nil (offset : ℕ) : Segment file offset [] offset
  | cons {offset next last : ℕ} {e : Entry} {rs : List (ℕ × Entry)}
      (stored : Stored file offset e next) (tail : Segment file next rs last) :
      Segment file offset ((offset, e) :: rs) last

/-- The offset of the last record, or `p` if there is none. -/
def lastOffset (p : ℕ) (rs : List (ℕ × Entry)) : ℕ := (rs.getLast?.map Prod.fst).getD p

theorem lastOffset_cons (p : ℕ) (r : ℕ × Entry) (rs : List (ℕ × Entry)) :
    lastOffset p (r :: rs) = lastOffset r.1 rs := by
  rw [lastOffset, lastOffset, List.getLast?_cons]
  cases rs.getLast? <;> rfl

namespace Stored

variable {file : ByteFile Byte} {offset next : ℕ} {e : Entry}

section

variable (h : Stored file offset e next)
include h

theorem writeAt_of_disjoint {start : ℕ} {bytes : List Byte}
    (hdisj : Disjoint (recordExtent (offset, e)) (extent start bytes.length)) :
    Stored (file.writeAt start bytes) offset e next := by
  have hinside : offset + 16 + e.data.length ≤ file.length := h.inside
  have hheader : extent offset 16 ⊆ recordExtent (offset, e) :=
    extent_subset (Nat.le_refl _) (by omega)
  have hdata : extent (offset + 16) e.data.length ⊆ recordExtent (offset, e) :=
    extent_subset (Nat.le_add_right _ _) (Nat.add_assoc _ _ _).le
  refine ⟨?_, ?_, hinside.trans file.le_length_writeAt, h.pos, h.next_lt, h.length_pos, h.length_lt⟩
  · rw [readAt_writeAt_of_disjoint file (by omega) (hdisj.mono_left hheader), h.header]
  · rw [readAt_writeAt_of_disjoint file hinside (hdisj.mono_left hdata), h.data]

theorem parse_header (m : MetadataEntry) :
    m.parse (file.readAt offset 16) =
      { m with metatag := e.tag, flags := e.flags, length := e.data.length, next := next } := by
  have htag : ofBytes ((recordHeader e next).take 4) = e.tag.toNat := by
    show ofBytes (toBytes 4 e.tag.toNat) = e.tag.toNat
    exact ofBytes_toBytes_of_lt e.tag.isLt
  have hlength : ofBytes (((recordHeader e next).drop 5).take 3) = e.data.length := by
    show ofBytes (toBytes 3 e.data.length) = e.data.length
    exact ofBytes_toBytes_of_lt h.length_lt
  have hnext : ofBytes (((recordHeader e next).drop 8).take 8) = next := by
    show ofBytes (toBytes 8 next) = next
    exact ofBytes_toBytes_of_lt h.next_lt
  rw [MetadataEntry.parse, h.header, htag, hlength, hnext, BitVec.ofNat_toNat, BitVec.setWidth_eq]
  rfl

theorem setNext {next' : ℕ} (hnext : next' < 2 ^ 64) :
    Stored (file.writeAt (offset + 8) (toBytes 8 next')) offset e next' := by
  have hinside : offset + 16 + e.data.length ≤ file.length := h.inside
  have hlen : (toBytes 8 next').length = 8 := length_toBytes _ _
  have hle : file.length ≤ (file.writeAt (offset + 8) (toBytes 8 next')).length :=
    file.le_length_writeAt
  have hlow : file.readAt offset 8 = (recordHeader e next).take 8 := by
    rw [← h.header, take_readAt (by decide)]
  refine ⟨?_, ?_, hinside.trans hle, h.pos, hnext, h.length_pos, h.length_lt⟩
  · show (file.writeAt _ _).readAt offset (8 + 8) = _
    rw [readAt_add (by omega), readAt_writeAt_of_disjoint file (by omega)
      (disjoint_extent_of_le (by omega)), readAt_writeAt_of_length file hlen, hlow]
    rfl
  · rw [readAt_writeAt_of_disjoint file hinside (disjoint_extent_of_le (by omega)), h.data]

theorem setData {data : List Byte} (hpos : 0 < data.length) (hfit : data.length ≤ e.data.length) :
    Stored ((file.writeAt (offset + 16) data).writeAt (offset + 5) (toBytes 3 data.length)) offset
      { e with data := data } next := by
  have hinside : offset + 16 + e.data.length ≤ file.length := h.inside
  have hlen : (toBytes 3 data.length).length = 3 := length_toBytes _ _
  have hle : file.length ≤ (file.writeAt (offset + 16) data).length := file.le_length_writeAt
  have hle' : (file.writeAt (offset + 16) data).length ≤
    ((file.writeAt (offset + 16) data).writeAt (offset + 5) (toBytes 3 data.length)).length :=
    le_length_writeAt _
  have hlow : file.readAt offset 5 = (recordHeader e next).take 5 := by
    rw [← h.header, take_readAt (by decide)]
  have hhigh : file.readAt (offset + 8) 8 = (recordHeader e next).drop 8 := by
    rw [← take_drop_readAt (by decide : 8 + 8 ≤ 16), h.header]
    rfl
  refine ⟨?_, ?_, by show offset + 16 + data.length ≤ _; omega, h.pos, h.next_lt, hpos,
    hfit.trans_lt h.length_lt⟩
  · show ((file.writeAt _ _).writeAt _ _).readAt offset (5 + (3 + 8)) = _
    rw [readAt_add (by omega), readAt_add (by omega), readAt_writeAt_of_length _ hlen,
      readAt_writeAt_of_disjoint _ (by omega) (disjoint_extent_of_le (by omega)),
      readAt_writeAt_of_disjoint _ (by omega) (disjoint_extent_of_le (by omega)),
      readAt_writeAt_of_disjoint _ (by omega) (disjoint_extent_of_le (by omega)),
      readAt_writeAt_of_disjoint _ (by omega) (disjoint_extent_of_le (by omega)), hlow, hhigh]
    rfl
  · show ((file.writeAt _ _).writeAt _ _).readAt (offset + 16) data.length = data
    rw [readAt_writeAt_of_disjoint _ (by omega) (disjoint_extent_of_le (by omega)),
      readAt_writeAt_self]

theorem setData_of_length_eq {data : List Byte} (hlen : data.length = e.data.length) :
    Stored (file.writeAt (offset + 16) data) offset { e with data := data } next := by
  have hinside : offset + 16 + e.data.length ≤ file.length := h.inside
  have hle : file.length ≤ (file.writeAt (offset + 16) data).length := file.le_length_writeAt
  refine ⟨?_, file.readAt_writeAt_self, by show offset + 16 + data.length ≤ _; omega, h.pos,
    h.next_lt, by show 0 < data.length; exact hlen ▸ h.length_pos,
    by show data.length < _; exact hlen ▸ h.length_lt⟩
  rw [readAt_writeAt_of_disjoint _ (by omega) (disjoint_extent_of_le (by omega)), h.header,
    recordHeader, recordHeader, hlen]

end

end Stored

theorem stored_append {file : ByteFile Byte} {e : Entry} (hfile : 0 < file.length)
    (hpos : 0 < e.data.length) (hlt : e.data.length < 2 ^ 24) : Stored
    ((file.writeAt file.length (recordHeader e 0)).writeAt (file.length + 16) e.data) file.length
      e 0 := by
  have hheader : (recordHeader e 0).length = 16 := length_recordHeader e 0
  have hlen : (file.writeAt file.length (recordHeader e 0)).length = file.length + 16 := by
    rw [length_writeAt _ (ne_nil_of_length_pos (by omega)), hheader]
    omega
  have hlen' : ((file.writeAt file.length (recordHeader e 0)).writeAt (file.length + 16)
      e.data).length = file.length + 16 + e.data.length := by
    rw [length_writeAt _ (ne_nil_of_length_pos hpos), hlen]
    omega
  refine ⟨?_, readAt_writeAt_self _, hlen'.ge, hfile, by decide, hpos, hlt⟩
  rw [readAt_writeAt_of_disjoint _ (by omega) (disjoint_extent_of_le (by omega)),
    readAt_writeAt_of_length _ hheader]

namespace Segment

variable {file : ByteFile Byte} {first last : ℕ} {rs : List (ℕ × Entry)}

theorem writeAt_of_disjoint (h : Segment file first rs last) {start : ℕ} {bytes : List Byte}
    (hdisj : ∀ r ∈ rs, Disjoint (recordExtent r) (extent start bytes.length)) :
    Segment (file.writeAt start bytes) first rs last := by
  induction h with
  | nil offset => exact .nil offset
  | cons stored _ ih =>
    refine .cons (stored.writeAt_of_disjoint (hdisj _ mem_cons_self)) (ih fun r hr ↦ ?_)
    exact hdisj r (mem_cons_of_mem _ hr)

theorem append {mid : ℕ} {rs' : List (ℕ × Entry)} (h : Segment file first rs mid)
    (h' : Segment file mid rs' last) : Segment file first (rs ++ rs') last := by
  induction h with
  | nil => exact h'
  | cons stored _ ih => exact .cons stored (ih h')

theorem split {rs' : List (ℕ × Entry)} (h : Segment file first (rs ++ rs') last) :
    ∃ mid, Segment file first rs mid ∧ Segment file mid rs' last := by
  induction rs generalizing first with
  | nil => exact ⟨first, .nil first, h⟩
  | cons r rs ih =>
    cases h with
    | cons stored tail =>
      obtain ⟨mid, hrs, hrs'⟩ := ih tail
      exact ⟨mid, .cons stored hrs, hrs'⟩

theorem inside (h : Segment file first rs last) :
    ∀ r ∈ rs, 0 < r.1 ∧ r.1 + 16 + r.2.data.length ≤ file.length := by
  induction h with
  | nil => exact fun r hr ↦ absurd hr not_mem_nil
  | cons stored _ ih =>
    intro r hr
    rcases List.mem_cons.mp hr with rfl | hr
    · exact ⟨stored.pos, stored.inside⟩
    · exact ih r hr

/-- The last link of a chain is changed. The other records are out of the way of the write. -/
theorem setLast {p next : ℕ}
    {r : ℕ × Entry} (h : Segment file first (rs ++ [r]) last) (hnext : next < 2 ^ 64)
    (hdisj : (rs ++ [r]).Pairwise fun r s ↦ Disjoint (recordExtent r) (recordExtent s)) : Segment
    (file.writeAt (lastOffset p (rs ++ [r]) + 8) (toBytes 8 next)) first (rs ++ [r]) next := by
  obtain ⟨offset, e⟩ := r
  have hlast : lastOffset p (rs ++ [(offset, e)]) = offset := by
    rw [lastOffset, List.getLast?_append, List.getLast?_singleton]
    rfl
  obtain ⟨mid, hrs, hr⟩ := h.split
  cases hr with
  | cons stored _ =>
    rw [hlast]
    have hwrite : extent (offset + 8) (toBytes 8 next).length ⊆ recordExtent (offset, e) :=
      extent_subset (Nat.le_add_right _ _) (by rw [length_toBytes]; omega)
    refine (hrs.writeAt_of_disjoint fun s hs ↦ ?_).append (.cons (stored.setNext hnext) (.nil next))
    exact ((List.pairwise_append.mp hdisj).2.2 s hs _ (mem_singleton_self _)).mono_right hwrite

end Segment

/-! ## Searching a chain -/

/-- The offset of the first record, or the link that ends the chain. -/
def headOffset (rs : List (ℕ × Entry)) : ℕ := (rs.head?.map Prod.fst).getD 0

theorem Segment.first_eq {file : ByteFile Byte} {first : ℕ} {rs : List (ℕ × Entry)}
    (h : Segment file first rs 0) : first = headOffset rs := by
  cases h <;> rfl

theorem CoreFile.read_of_le {file : CoreFile} (hfile : file.Faithful) {offset length : ℕ}
    (h : offset + length ≤ file.data.length) :
    file.read offset length = .ok (file.data.readAt offset length) := by
  rw [CoreFile.read, if_pos ⟨hfile.canRead _ _, length_readAt_of_le h⟩]

/-- What the search leaves in the entry for a record. -/
def foundEntry (e : MetadataEntry) (before : List (ℕ × Entry)) (r : ℕ × Entry)
    (after : List (ℕ × Entry)) : MetadataEntry where
  index := e.index + before.length
  offset := r.1
  next := headOffset after
  prev := lastOffset e.prev before
  length := r.2.data.length
  metatag := r.2.tag
  flags := r.2.flags

/-- The records that a search for a tag counts. -/
def recordHasTag (tag : Tag) (r : ℕ × Entry) : Bool := r.2.hasTag tag

namespace ChdFile

variable {c : ChdFile} {first : ℕ} {rs : List (ℕ × Entry)}

/-- What the search makes of the header of a record. -/
def readEntry (m : MetadataEntry) (e : Entry) (next : ℕ) : MetadataEntry :=
  { m with metatag := e.tag, flags := e.flags, length := e.data.length, next := next }

variable {m : MetadataEntry}

theorem metadataFindLoop_stored (hfile : c.file.Faithful) {e : Entry} {next : ℕ}
    (h : Stored c.file.data m.offset e next) (tag : Tag) (fuel : ℕ) (n : ℤ) :
    c.metadataFindLoop tag (fuel + 1) n m =
      if e.hasTag tag ∧ n = 0 then .found (readEntry m e next)
      else
        c.metadataFindLoop tag fuel (if e.hasTag tag then n - 1 else n)
        (readEntry m e next).advance := by
  have hinside : m.offset + 16 + e.data.length ≤ c.file.data.length := h.inside
  have hread : c.file.read m.offset metadataHeaderSize = .ok (c.file.data.readAt m.offset 16) :=
    CoreFile.read_of_le hfile (by rw [metadataHeaderSize]; omega)
  have hparse : m.parse (c.file.data.readAt m.offset 16) = readEntry m e next := h.parse_header m
  have htag : (e.hasTag tag = true) = (tag = wildcard ∨ (readEntry m e next).metatag = tag) :=
    decide_eq_true_eq
  rw [metadataFindLoop, if_neg (Nat.pos_iff_ne_zero.mp h.pos), hread]
  simp only [hparse, htag]
  split_ifs with hmatch hzero hboth hboth
  · rfl
  · exact absurd ⟨hmatch, hzero⟩ hboth
  · exact absurd hboth.2 hzero
  · rfl
  · exact absurd ‹_ ∧ _›.1 hmatch
  · rfl

theorem metadataFindLoop_found (hfile : c.file.Faithful) (h : Segment c.file.data first rs 0)
    {tag : Tag} {n : ℤ} {before after : List (ℕ × Entry)} {r : ℕ × Entry}
    (hfind : findSplit (recordHasTag tag) n rs = some (before, r, after)) {fuel : ℕ}
    (hfuel : rs.length < fuel) (hm : m.offset = first) :
    c.metadataFindLoop tag fuel n m = .found (foundEntry m before r after) := by
  induction rs generalizing first n before fuel m with
  | nil => exact absurd hfind (by simp [findSplit])
  | cons x rs ih =>
    obtain ⟨fuel, rfl⟩ := Nat.exists_eq_succ_of_ne_zero (Nat.ne_zero_of_lt hfuel)
    cases h with
    | @cons _ next _ e _ stored tail =>
      rw [← hm] at stored
      rw [findSplit, show recordHasTag tag (first, e) = e.hasTag tag from rfl] at hfind
      rw [Nat.succ_eq_add_one, metadataFindLoop_stored hfile stored]
      generalize (if e.hasTag tag then n - 1 else n) = n' at hfind ⊢
      split_ifs at hfind ⊢ with hmatch
      · obtain ⟨rfl, rfl, rfl⟩ : [] = before ∧ (first, e) = r ∧ rs = after := by simpa using hfind
        rw [foundEntry, ← tail.first_eq, ← hm]
        rfl
      · obtain ⟨⟨before', r', after'⟩, hfind', heq⟩ := Option.map_eq_some_iff.mp hfind
        obtain ⟨rfl, rfl, rfl⟩ : (first, e) :: before' = before ∧ r' = r ∧ after' = after := by
          simpa using heq
        rw [ih tail hfind' (Nat.lt_of_succ_lt_succ hfuel) rfl, foundEntry, foundEntry,
          lastOffset_cons, ← hm, length_cons, Nat.add_comm before'.length, ← Nat.add_assoc]
        rfl

/-- The search for an entry that is not there ends at the last record. -/
theorem metadataFindLoop_notFound (hfile : c.file.Faithful) (h : Segment c.file.data first rs 0)
    {tag : Tag} {n : ℤ} (hfind : findSplit (recordHasTag tag) n rs = none) {fuel : ℕ}
    (hfuel : rs.length < fuel) (hm : m.offset = first) :
    ∃ m', c.metadataFindLoop tag fuel n m = .notFound m' ∧ m'.prev = lastOffset m.prev rs := by
  induction rs generalizing first n fuel m with
  | nil =>
    obtain ⟨fuel, rfl⟩ := Nat.exists_eq_succ_of_ne_zero (Nat.ne_zero_of_lt hfuel)
    cases h
    exact ⟨m, if_pos hm, rfl⟩
  | cons x rs ih =>
    obtain ⟨fuel, rfl⟩ := Nat.exists_eq_succ_of_ne_zero (Nat.ne_zero_of_lt hfuel)
    cases h with
    | @cons _ next _ e _ stored tail =>
      rw [← hm] at stored
      rw [findSplit, show recordHasTag tag (first, e) = e.hasTag tag from rfl] at hfind
      rw [Nat.succ_eq_add_one, metadataFindLoop_stored hfile stored]
      generalize (if e.hasTag tag then n - 1 else n) = n' at hfind ⊢
      split_ifs at hfind ⊢
      obtain ⟨m', hm', hprev⟩ := ih tail (Option.map_eq_none_iff.mp hfind)
        (Nat.lt_of_succ_lt_succ hfuel) (m := (readEntry m e next).advance) rfl
      refine ⟨m', hm', ?_⟩
      rw [hprev, lastOffset_cons, ← hm]
      rfl

end ChdFile

end RoscoEmulator.Chd
