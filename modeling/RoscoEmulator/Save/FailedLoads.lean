import RoscoEmulator.Save.RoundTrip

/-!
# Loads that fail

A load that fails before the data leaves the machine alone. In the data, every block that is there
has gone into memory when the next one is missed, and a stream or a file also leaves what there is
of that. -/

namespace RoscoEmulator.Save

open List Cells

/-- What a machine can load from. -/
inductive Input where
  | stream (str : List Byte)
  | buffer (buf : List Byte)
  | file (file : List Byte)

/-- The three front ends. -/
def load (inflate : List Byte → List Byte) (s : SaveManager) (m : Memory) : Input → Loaded
  | .stream str => readStream s m str
  | .buffer buf => readBuffer s m buf
  | .file file => readFile inflate s m file

/-- A load that fails changes nothing, whatever is in memory. -/
def FailsCleanly (inflate : List Byte → List Byte) (s : SaveManager) (input : Input) : Prop :=
  ∀ m, (load inflate s m input).error ≠ .none →
    (load inflate s m input).memory = m ∧ (load inflate s m input).dispatched = 0

/-! ## When it is so -/

namespace StateEntry

variable (e : StateEntry)

/-- The bytes that are read for an entry. -/
def bytes : ℕ := e.blockcount * e.blocksize

def isIdle : Bool := decide (e.bytes = 0)

end StateEntry

/-- The bytes that are read for the entries. -/
def needed (entries : List StateEntry) : ℕ := (entries.map StateEntry.bytes).sum

/-- The entries in front of the first that has any bytes. -/
def idle (entries : List StateEntry) : List StateEntry := entries.takeWhile StateEntry.isIdle

/-- The size of the first block that has any bytes. -/
def firstBlock (entries : List StateEntry) : ℕ :=
  ((entries.dropWhile StateEntry.isIdle).head?.map StateEntry.blocksize).getD 0

/-- What `flip_data` does for these entries. -/
def flipAll (flip : Bool) (entries : List StateEntry) (m : Memory) : Memory :=
  if flip then entries.foldl (fun m e ↦ e.flipData m) m else m

/-- The header is there, and is accepted. -/
def Accepted (s : SaveManager) (bytes : List Byte) : Prop :=
  headerSize ≤ bytes.length ∧
    SaveManager.validateHeader (bytes.take headerSize) s.systemName s.signature = .none

/-- Either the data are all there, or nothing of them gets into memory, and the entries in front of
what is missed are as they were. -/
def AllOrNothing (s : SaveManager) (header data : List Byte) (nothing : Prop) : Prop :=
  needed s.entryList ≤ data.length ∨ nothing ∧ ∀ m, flipAll (s.flip header) (idle s.entryList) m = m

/-- The load is refused in front of the data, or the data are all there, or nothing of them. A
buffer has to have room for the first block before anything is stored. -/
def Clean (inflate : List Byte → List Byte) (s : SaveManager) : Input → Prop
  | .stream str =>
      ¬ Accepted s str ∨
        AllOrNothing s (str.take headerSize) (str.drop headerSize) (str.drop headerSize = [])
  | .buffer buf =>
      buf.length ≠ s.totalSize ∨ ¬ Accepted s buf ∨ AllOrNothing s (buf.take headerSize)
        (buf.drop headerSize) (buf.length - headerSize < firstBlock s.entryList)
  | .file file =>
      ¬ Accepted s file ∨ AllOrNothing s (file.take headerSize) (inflate (file.drop headerSize))
        (inflate (file.drop headerSize) = [])

/-! ## The data -/

/-- A transport of bytes, and what it stores of a block that is not all there. -/
structure Blockwise (r : Reader (List Byte)) (rest : List Byte → List Byte) : Prop where
  whole : ∀ size t, size ≤ t.length → r.readBlock size t = (t.take size, some (t.drop size))
  short : ∀ size t, t.length < size → r.readBlock size t = (rest t, none)

theorem blockwise_readSome {r : Reader (List Byte)} (h : r.readBlock = readSome) :
    Blockwise r id where
  whole size t hle := by rw [h, readSome, if_pos hle]
  short size t hlt := by
    rw [h, readSome, if_neg (by omega), take_of_length_le (by omega)]
    rfl

theorem blockwise_readWhole {r : Reader (List Byte)} (h : r.readBlock = readWhole) :
    Blockwise r fun _ ↦ [] where
  whole size t hle := by rw [h, readWhole, if_pos hle]
  short size t hlt := by rw [h, readWhole, if_neg (by omega)]

variable {r : Reader (List Byte)} {rest : List Byte → List Byte}

theorem Blockwise.readBlocks_snd (h : Blockwise r rest) (e : StateEntry) (n data : ℕ) (m : Memory)
    (t : List Byte) : (readBlocks r e n data m t).2 =
    if n * e.blocksize ≤ t.length then some (t.drop (n * e.blocksize)) else none := by
  induction n generalizing data m t with
  | zero => rw [readBlocks, Nat.zero_mul, if_pos (Nat.zero_le _), drop_zero]
  | succ n ih =>
    rw [readBlocks]
    by_cases hle : e.blocksize ≤ t.length
    · rw [h.whole _ t hle]
      rw [ih, length_drop, drop_drop, Nat.succ_mul, Nat.add_comm e.blocksize]
      exact if_congr (by omega) rfl rfl
    · rw [h.short _ t (by omega)]
      dsimp only
      rw [if_neg]
      rw [Nat.succ_mul]
      omega

theorem Blockwise.readEntries_snd (h : Blockwise r rest) (flip : Bool) (entries : List StateEntry)
    (m : Memory) (t : List Byte) : (readEntries r flip entries m t).2 =
      if needed entries ≤ t.length then some (t.drop (needed entries)) else none := by
  induction entries generalizing m t with
  | nil => exact (if_pos (Nat.zero_le _)).symm
  | cons e entries ih =>
    have hneeded : needed (e :: entries) = e.blockcount * e.blocksize + needed entries := by
      rw [needed, map_cons, sum_cons]
      rfl
    have hblocks := h.readBlocks_snd e e.blockcount e.data m t
    rw [readEntries, hneeded]
    split
    · next y hread =>
      rw [hread] at hblocks
      split at hblocks
      · cases hblocks
      · exact (if_neg (by omega)).symm
    · next y t' hread =>
      rw [hread] at hblocks
      split at hblocks
      · obtain rfl := Option.some.inj hblocks
        rw [ih, length_drop, drop_drop]
        exact if_congr (by omega) rfl rfl
      · cases hblocks

theorem Blockwise.readBlocks_of_bytes_eq_zero (h : Blockwise r rest) {e : StateEntry} (n data : ℕ)
    (hzero : n * e.blocksize = 0) (m : Memory) (t : List Byte) :
    readBlocks r e n data m t = (m, some t) := by
  induction n generalizing data with
  | zero => rfl
  | succ n ih =>
    have hsize : e.blocksize = 0 := by
      rcases Nat.mul_eq_zero.mp hzero with hn | hsize
      · exact absurd hn (Nat.succ_ne_zero n)
      · exact hsize
    rw [readBlocks, h.whole _ t (by omega), hsize, take_zero]
    dsimp only
    rw [store_nil, drop_zero]
    exact ih _ (by rw [hsize, Nat.mul_zero])

/-- Entries of no bytes are turned round, and nothing else. -/
theorem Blockwise.readEntries_idle (h : Blockwise r rest) (flip : Bool)
    (entries : List StateEntry) (m : Memory) (t : List Byte) :
    readEntries r flip entries m t = readEntries r flip (entries.dropWhile StateEntry.isIdle)
      (flipAll flip (idle entries) m) t := by
  induction entries generalizing m with
  | nil =>
    rw [idle, flipAll]
    cases flip <;> rfl
  | cons e entries ih =>
    by_cases hzero : e.isIdle = true
    · have hflip : flipAll flip (idle (e :: entries)) m =
          flipAll flip (idle entries) (if flip then e.flipData m else m) := by
        rw [idle, takeWhile_cons_of_pos hzero, ← idle, flipAll, flipAll]
        cases flip <;> rfl
      rw [dropWhile_cons_of_pos hzero, hflip, ← ih, readEntries,
        h.readBlocks_of_bytes_eq_zero e.blockcount e.data (of_decide_eq_true hzero)]
    · have hflip : flipAll flip (idle (e :: entries)) m = m := by
        rw [idle, takeWhile_cons_of_neg hzero, flipAll]
        cases flip <;> rfl
      rw [dropWhile_cons_of_neg hzero, hflip]

/-- What the data of an incomplete load leave of memory: the entries that have bytes begin with one
whose first block is missed, or the first of that block overwrites what was there. -/
theorem Blockwise.readEntries_first (h : Blockwise r rest) (flip : Bool) {entries : List StateEntry}
    {t : List Byte} (hmissed : t.length < needed entries) :
    (t.length < firstBlock entries ∧ ∃ data, ∀ m,
      (readEntries r flip (entries.dropWhile StateEntry.isIdle) m t).1 = store m data (rest t)) ∨
    (firstBlock entries ≤ t.length ∧ ∃ data bytes, bytes ≠ [] ∧ ∃ after : Memory → Memory, ∀ m,
      (readEntries r flip (entries.dropWhile StateEntry.isIdle) m t).1 =
      after (store m data bytes)) := by
  induction entries with
  | nil => exact absurd hmissed (Nat.not_lt_zero _)
  | cons e entries ih =>
    by_cases hidle : e.isIdle = true
    · have hneeded : needed (e :: entries) = needed entries := by
        rw [needed, map_cons, sum_cons, of_decide_eq_true hidle, Nat.zero_add]
        rfl
      rw [firstBlock, dropWhile_cons_of_pos hidle]
      exact ih (hneeded ▸ hmissed)
    · have hfirst : firstBlock (e :: entries) = e.blocksize := by
        rw [firstBlock, dropWhile_cons_of_neg hidle]
        rfl
      obtain ⟨hcount, hsize⟩ : e.blockcount ≠ 0 ∧ e.blocksize ≠ 0 :=
        Nat.mul_ne_zero_iff.mp fun hzero ↦ hidle (decide_eq_true hzero)
      obtain ⟨n, hn⟩ := Nat.exists_eq_succ_of_ne_zero hcount
      rw [hfirst, dropWhile_cons_of_neg hidle]
      by_cases hlt : t.length < e.blocksize
      · refine Or.inl ⟨hlt, e.data, fun m ↦ ?_⟩
        rw [readEntries, hn, readBlocks, h.short _ t hlt]
      · refine Or.inr ⟨Nat.le_of_not_lt hlt, e.data, t.take e.blocksize, fun hnil ↦ ?_, fun x ↦
          let read := readBlocks r e n (e.data + e.stride) x (t.drop e.blocksize)
          read.2.elim read.1 fun t ↦
            (readEntries r flip entries (if flip then e.flipData read.1 else read.1) t).1,
          fun m ↦ ?_⟩
        · have hlen := congrArg List.length hnil
          rw [length_take, length_nil] at hlen
          omega
        · rw [readEntries, hn, readBlocks, h.whole _ t (Nat.le_of_not_lt hlt)]
          dsimp only
          rcases readBlocks r e n (e.data + e.stride) (store m e.data (t.take e.blocksize))
            (t.drop e.blocksize) with ⟨y, _ | t'⟩
          · rfl
          · rfl

/-- A function that overwrites a byte first is not the identity behind one that reaches every
memory. -/
theorem exists_ne_of_store (before after : Memory → Memory) (data : ℕ) {bytes : List Byte}
    (hbytes : bytes ≠ [])
    (hbefore : ∀ n, ∃ m, before m = n) : ∃ m, after (store (before m) data bytes) ≠ m := by
  refine Classical.byContradiction fun hall ↦ ?_
  have hid : ∀ m, after (store (before m) data bytes) = m := fun m ↦
    Classical.byContradiction fun hne ↦ hall ⟨m, hne⟩
  obtain ⟨m, hm⟩ := hbefore fun _ ↦ 0
  obtain ⟨n, hn⟩ := hbefore (store (fun _ ↦ 0) data [1])
  have hpos := List.length_pos_iff.mpr hbytes
  have hsame : store (before m) data bytes = store (before n) data bytes := by
    refine store_congr _ fun a ha ↦ ?_
    rw [hm, hn, store_outside _ (by rw [length_singleton]; omega)]
  have heq : m = n := by rw [← hid m, ← hid n, hsame]
  have hbit : (0 : Byte) = store (fun _ ↦ 0) data [1] data :=
    congrFun (hm.symm.trans ((congrArg before heq).trans hn)) data
  have hone : store (fun _ ↦ 0 : Memory) data [1] (data + 0) = 1 := store_inside _ Nat.zero_lt_one
  rw [Nat.add_zero] at hone
  exact absurd (hbit.trans hone) (by decide)

theorem exists_flipAll (flip : Bool) (entries : List StateEntry) (n : Memory) :
    ∃ m, flipAll flip entries m = n := by
  cases flip with
  | false => exact ⟨n, rfl⟩
  | true =>
    induction entries with
    | nil => exact ⟨n, rfl⟩
    | cons e entries ih =>
      obtain ⟨m, hm⟩ := ih
      obtain ⟨m', hm'⟩ := exists_reverseAll e.flipped e.typesize m
      refine ⟨m', ?_⟩
      rw [flipAll, if_pos rfl, foldl_cons, StateEntry.flipData, hm']
      exact hm

/-- What is stored of a first block that is missed is nothing. -/
def Nothing (rest : List Byte → List Byte) (entries : List StateEntry) (t : List Byte) : Prop :=
  t.length < firstBlock entries ∧ rest t = []

/-- An incomplete load leaves every memory as it was exactly if nothing has been stored and the
entries in front are as they were. -/
theorem Blockwise.readEntries_eq_iff (h : Blockwise r rest) (flip : Bool)
    {entries : List StateEntry} {t : List Byte} (hmissed : t.length < needed entries) :
    (∀ m, (readEntries r flip entries m t).1 = m) ↔
      Nothing rest entries t ∧ ∀ m, flipAll flip (idle entries) m = m := by
  have hidle := fun m ↦ h.readEntries_idle flip entries m t
  rcases h.readEntries_first flip hmissed
      with ⟨hlt, data, hstore⟩ | ⟨hle, data, bytes, hne, after, hstore⟩
  · constructor
    · intro hall
      have hrest : rest t = [] := by
        refine Classical.byContradiction fun hrest ↦ ?_
        obtain ⟨m, hm⟩ := exists_ne_of_store (flipAll flip (idle entries)) id data hrest
          (exists_flipAll flip (idle entries))
        refine hm ?_
        rw [id, ← hstore, ← hidle, hall]
      refine ⟨⟨hlt, hrest⟩, fun m ↦ ?_⟩
      have hm := hall m
      rwa [hidle, hstore, hrest, store_nil] at hm
    · rintro ⟨⟨-, hrest⟩, hflip⟩ m
      rw [hidle, hstore, hrest, store_nil, hflip]
  · constructor
    · intro hall
      obtain ⟨m, hm⟩ := exists_ne_of_store (flipAll flip (idle entries)) after data hne
        (exists_flipAll flip (idle entries))
      refine absurd ?_ hm
      rw [← hstore, ← hidle, hall]
    · rintro ⟨⟨hlt, -⟩, -⟩
      omega

theorem firstBlock_pos {entries : List StateEntry} (h : 0 < needed entries) :
    0 < firstBlock entries := by
  induction entries with
  | nil => exact absurd h (Nat.lt_irrefl 0)
  | cons e entries ih =>
    by_cases hidle : e.isIdle = true
    · have hneeded : needed (e :: entries) = needed entries := by
        rw [needed, map_cons, sum_cons, of_decide_eq_true hidle, Nat.zero_add]
        rfl
      rw [firstBlock, dropWhile_cons_of_pos hidle]
      exact ih (hneeded ▸ h)
    · rw [firstBlock, dropWhile_cons_of_neg hidle]
      exact Nat.pos_of_ne_zero (Nat.mul_ne_zero_iff.mp fun hzero ↦ hidle (decide_eq_true hzero)).2

/-! ## The loads -/

/-- The data of a load whose header has been accepted. -/
theorem allOrNothing_iff (h : Blockwise r rest) (s : SaveManager) (header t : List Byte)
    {nothing : Prop}
    (hnothing : t.length < needed s.entryList → (Nothing rest s.entryList t ↔ nothing)) :
    (∀ m, (s.finish (readEntries r (s.flip header) s.entryList m t)).error ≠ .none →
      (s.finish (readEntries r (s.flip header) s.entryList m t)).memory = m ∧
      (s.finish (readEntries r (s.flip header) s.entryList m t)).dispatched = 0) ↔
    AllOrNothing s header t nothing := by
  have hsnd := fun m ↦ h.readEntries_snd (s.flip header) s.entryList m t
  by_cases hneeded : needed s.entryList ≤ t.length
  · refine ⟨fun _ ↦ Or.inl hneeded, fun _ m herror ↦ absurd ?_ herror⟩
    have hm := hsnd m
    rw [if_pos hneeded] at hm
    rcases hread : readEntries r (s.flip header) s.entryList m t with ⟨y, _ | t'⟩
    · rw [hread] at hm
      cases hm
    · rfl
  · have hfinish : ∀ m, s.finish (readEntries r (s.flip header) s.entryList m t) =
        ⟨.readError, (readEntries r (s.flip header) s.entryList m t).1, 0⟩ := by
      intro m
      have hm := hsnd m
      rw [if_neg hneeded] at hm
      rcases hread : readEntries r (s.flip header) s.entryList m t with ⟨y, _ | t'⟩
      · rfl
      · rw [hread] at hm
        cases hm
    rw [AllOrNothing, ← hnothing (Nat.lt_of_not_le hneeded),
      ← h.readEntries_eq_iff (s.flip header) (Nat.lt_of_not_le hneeded)]
    constructor
    · intro hall
      refine Or.inr fun m ↦ ?_
      have hm := hall m
      rw [hfinish] at hm
      exact (hm SaveError.noConfusion).1
    · rintro (hle | hall) m -
      · exact absurd hle hneeded
      · rw [hfinish]
        exact ⟨hall m, rfl⟩

/-- The three front ends, behind the check of the length. -/
theorem doRead_iff (h : Blockwise r rest)
    (s : SaveManager) (bytes data : List Byte) {nothing : Prop}
    (hcheck : r.checkLength s.totalSize = true) (hheader : r.startHeader bytes = some bytes)
    (hdata : r.startData (bytes.drop headerSize) = some data)
    (hnothing : data.length < needed s.entryList → (Nothing rest s.entryList data ↔ nothing)) :
    (∀ m, (doRead r s m bytes).error ≠ .none →
      (doRead r s m bytes).memory = m ∧ (doRead r s m bytes).dispatched = 0) ↔
    ¬ Accepted s bytes ∨ AllOrNothing s (bytes.take headerSize) data nothing := by
  by_cases hshort : bytes.length < headerSize
  · have hread : ∀ m, doRead r s m bytes = ⟨.readError, m, 0⟩ := by
      intro m
      rw [doRead, if_neg (not_not.mpr hcheck), hheader, Option.map_some, h.short _ bytes hshort]
    refine ⟨fun _ ↦ Or.inl fun haccepted ↦ absurd haccepted.1 (by omega), fun _ m _ ↦ ?_⟩
    rw [hread]
    exact ⟨rfl, rfl⟩
  · have hle := Nat.le_of_not_lt hshort
    have hread : ∀ m, doRead r s m bytes =
        if SaveManager.validateHeader (bytes.take headerSize) s.systemName s.signature ≠ .none then
          ⟨.invalidHeader, m, 0⟩
        else s.finish (readEntries r (s.flip (bytes.take headerSize)) s.entryList m data) := by
      intro m
      rw [doRead, if_neg (not_not.mpr hcheck), hheader, Option.map_some, h.whole _ bytes hle]
      dsimp only
      rw [hdata]
    by_cases hvalid : SaveManager.validateHeader
      (bytes.take headerSize) s.systemName s.signature = .none
    · have hread' : ∀ m, doRead r s m bytes =
          s.finish (readEntries r (s.flip (bytes.take headerSize)) s.entryList m data) := fun m ↦
        (hread m).trans (if_neg (not_not.mpr hvalid))
      have hnot : ¬ Accepted s bytes ∨ AllOrNothing s (bytes.take headerSize) data nothing ↔
          AllOrNothing s (bytes.take headerSize) data nothing :=
        or_iff_right (not_not.mpr ⟨hle, hvalid⟩)
      simp only [hread']
      rw [hnot]
      exact allOrNothing_iff h s _ data hnothing
    · refine ⟨fun _ ↦ Or.inl fun haccepted ↦ hvalid haccepted.2, fun _ m _ ↦ ?_⟩
      rw [hread, if_pos hvalid]
      exact ⟨rfl, rfl⟩

/-- A load that fails changes nothing exactly if it is refused in front of the data, or nothing of
these gets into memory. -/
theorem failsCleanly_iff_clean (inflate : List Byte → List Byte) (s : SaveManager) (input : Input) :
    FailsCleanly inflate s input ↔ Clean inflate s input := by
  have hstream : ∀ t : List Byte, t.length < needed s.entryList →
      (Nothing id s.entryList t ↔ t = []) := by
    intro t hmissed
    refine ⟨fun hnothing ↦ hnothing.2, fun hnil ↦ ⟨?_, hnil⟩⟩
    rw [hnil] at hmissed ⊢
    exact firstBlock_pos hmissed
  cases input with
  | stream str =>
    exact doRead_iff (blockwise_readSome rfl) s str (str.drop headerSize) rfl rfl rfl (hstream _)
  | buffer buf =>
    by_cases hlength : buf.length = s.totalSize
    · refine (doRead_iff (r := bufferReader buf.length) (blockwise_readWhole rfl) s buf
        (buf.drop headerSize)
        (decide_eq_true hlength) rfl rfl fun _ ↦ ?_).trans (or_iff_right (not_not.mpr hlength)).symm
      rw [← length_drop]
      exact and_iff_left rfl
    · refine ⟨fun _ ↦ Or.inl hlength, fun _ m _ ↦ ?_⟩
      have hread : load inflate s m (.buffer buf) = ⟨.readError, m, 0⟩ :=
        if_pos fun hcheck ↦ hlength (of_decide_eq_true hcheck)
      rw [hread]
      exact ⟨rfl, rfl⟩
  | file file =>
    exact doRead_iff (blockwise_readSome rfl) s file
      (inflate (file.drop headerSize)) rfl rfl rfl (hstream _)

/-- Of a stream that ends behind the first of two bytes that byte is loaded, and then the load
fails. -/
theorem not_failsCleanly_twoBytes :
    ¬ FailsCleanly id twoBytes (.stream (twoBytes.header ++ [1])) := by
  intro h
  have hload : ∀ m, load id twoBytes m (.stream (twoBytes.header ++ [1])) =
      twoBytes.finish (readEntries streamReader false twoBytes.entryList m [1]) := by
    intro m
    exact readStream_header twoBytes false m [1]
  have hmemory := (h (fun _ ↦ 0) (by rw [hload]; exact SaveError.noConfusion)).1
  rw [hload] at hmemory
  exact absurd (congrFun hmemory 0) (by decide)

end RoscoEmulator.Save
