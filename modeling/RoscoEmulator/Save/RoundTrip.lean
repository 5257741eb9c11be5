import RoscoEmulator.Save.Manager

/-!
# Loads of what has been saved

What `do_write` puts out are the blocks of the entries, and `do_read` puts them back, as long as the
size of a block is what the 32-bit product says. The values of a machine with the other byte order
are turned round in their places, which do not overlap. -/

namespace RoscoEmulator.Save

open BitVec List Cells

/-! ## The header -/

theorem length_strncpy (text : List Byte) (n : ℕ) : (strncpy text n).length = n := by
  rw [strncpy, length_append, length_replicate, length_take]
  omega

/-- A text is the same as what has been copied of it. -/
theorem strncmpEq_strncpy (n : ℕ) (text rest : List Byte) :
    strncmpEq n text (strncpy text n ++ rest) = true := by
  induction n generalizing text with
  | zero => rfl
  | succ n ih =>
    cases text with
    | nil => rfl
    | cons c text =>
      by_cases hzero : c = 0
      · subst hzero
        rfl
      · have hcopy : strncpy (c :: text) (n + 1) = c :: strncpy text n := by
          rw [strncpy, strncpy, takeWhile_cons_of_pos (by simpa using hzero), take_succ_cons,
            length_cons, Nat.add_sub_add_right, List.cons_append]
        rw [hcopy]
        show (if c ≠ c then false else if c = 0 then true else strncmpEq n text
            (strncpy text n ++ rest)) = true
        rw [if_neg (not_not.mpr rfl), if_neg hzero, ih]

theorem getU32le_putU32le (x : BitVec 32) (rest : List Byte) :
    getU32le (putU32le x ++ rest) = x := by
  have hbyte : ∀ k < 4, ∀ i < 32, (((x >>> (8 * k)).setWidth 8).setWidth 32 <<< (8 * k)).getLsbD i =
      (decide (8 * k ≤ i ∧ i < 8 * k + 8) && x.getLsbD i) := by
    intro k hk i hi
    rw [getLsbD_shiftLeft, getLsbD_setWidth, getLsbD_setWidth, getLsbD_ushiftRight]
    by_cases hin : 8 * k ≤ i ∧ i < 8 * k + 8
    · rw [show 8 * k + (i - 8 * k) = i by omega, decide_eq_true hin]
      simp [hi,
        show ¬ i < 8 * k by omega, show i - 8 * k < 32 by omega, show i - 8 * k < 8 by omega]
    · rw [decide_eq_false hin]
      by_cases hlow : i < 8 * k
      · simp [hlow]
      · simp [show ¬ i - 8 * k < 8 by omega]
  refine eq_of_getLsbD_eq fun i hi ↦ ?_
  have hbytes : getU32le (putU32le x ++ rest) = ((x >>> (8 * 0)).setWidth 8).setWidth 32 <<<
      (8 * 0) ||| (((x >>> (8 * 1)).setWidth 8).setWidth 32 <<< (8 * 1) |||
        (((x >>> (8 * 2)).setWidth 8).setWidth 32 <<< (8 * 2) |||
          (((x >>> (8 * 3)).setWidth 8).setWidth 32 <<< (8 * 3) ||| 0))) := rfl
  rw [hbytes, getLsbD_or, getLsbD_or, getLsbD_or, getLsbD_or, hbyte 0 (by decide) i hi,
    hbyte 1 (by decide) i hi, hbyte 2 (by decide) i hi, hbyte 3 (by decide) i hi,
    show getLsbD (0 : BitVec 32) i = false from getLsbD_zero, Bool.or_false,
    ← Bool.and_or_distrib_right, ← Bool.and_or_distrib_right, ← Bool.and_or_distrib_right]
  have hcover : (decide (8 * 0 ≤ i ∧ i < 8 * 0 + 8) || (decide (8 * 1 ≤ i ∧ i < 8 * 1 + 8) ||
      (decide (8 * 2 ≤ i ∧ i < 8 * 2 + 8) || decide (8 * 3 ≤ i ∧ i < 8 * 3 + 8)))) = true := by
    simp only [Bool.or_eq_true, decide_eq_true_eq]
    omega
  rw [hcover, Bool.true_and]

namespace SaveManager

variable (s : SaveManager)

theorem length_header : s.header.length = headerSize := by
  rw [header, length_append, length_append, length_strncpy]
  rfl

/-- A header is accepted by the machine that it is for, of whichever byte order it is. -/
theorem validateHeader_header (msbFirst : Bool) :
    validateHeader ({ s with msbFirst } : SaveManager).header s.systemName s.signature = .none := by
  have hname : strncmpEq (0x1c - 0x0a) s.systemName
      (({ s with msbFirst } : SaveManager).header.drop 0x0a) = true :=
    strncmpEq_strncpy _ s.systemName (putU32le s.signature)
  have hsignature :
      getU32le (({ s with msbFirst } : SaveManager).header.drop 0x1c) = s.signature := by
    have hfront : (stateMagicNum ++ [saveVersion, if msbFirst then ssMsbFirst else 0] ++
        strncpy s.systemName (0x1c - 0x0a)).length = 0x1c := by
      rw [length_append, length_strncpy]
      rfl
    have hdrop :
        ({ s with msbFirst } : SaveManager).header.drop 0x1c = putU32le s.signature ++ [] :=
      (drop_left' hfront).trans (append_nil _).symm
    rw [hdrop, getU32le_putU32le]
  rw [validateHeader, if_neg (by exact not_not.mpr rfl), if_neg (by exact not_not.mpr rfl),
    hname, hsignature]
  simp

/-- The values are turned round if the header is of the other byte order. -/
theorem flip_header (msbFirst : Bool) :
    s.flip ({ s with msbFirst } : SaveManager).header = (s.msbFirst != msbFirst) := by
  have hflag : ({ s with msbFirst } : SaveManager).header.getD 9 0 =
      if msbFirst then ssMsbFirst else 0 := rfl
  rw [flip, hflag]
  cases s.msbFirst <;> cases msbFirst <;> rfl

end SaveManager

/-! ## The areas of the entries -/

namespace StateEntry

variable (e : StateEntry)

/-- The bytes of the values of an entry. -/
def Area (a : ℕ) : Prop :=
  ∃ b < e.blockcount, e.data + b * e.stride ≤ a ∧
    a < e.data + b * e.stride + e.typesize * e.typecount

/-- The bytes that are saved, of as many blocks from an address on. -/
def Saved (n data a : ℕ) : Prop :=
  ∃ b < n, data + b * e.stride ≤ a ∧ a < data + b * e.stride + e.blocksize

/-- The blocks of an entry do not overlap. -/
def Spaced : Prop := e.blockcount ≤ 1 ∨ e.typesize * e.typecount ≤ e.stride

/-- The size of a block has not been cut off. -/
def Fits : Prop := e.blockcount = 0 ∨ e.typesize * e.typecount < 2 ^ 32

variable {e} {a : ℕ}

theorem typesize_pos : 0 < e.typesize := by
  have hmem := e.typesize_mem
  simp only [mem_cons, not_mem_nil, or_false] at hmem
  omega

theorem saved_iff_area (hfits : e.Fits) : e.Saved e.blockcount e.data a ↔ e.Area a := by
  rcases hfits with hzero | hlt
  · constructor
    · rintro ⟨b, hb, -⟩
      omega
    · rintro ⟨b, hb, -⟩
      omega
  · rw [Saved, Area, blocksize, Nat.mod_eq_of_lt hlt]

/-- A byte of an entry is one of a value. -/
theorem area_iff : e.Area a ↔
    ∃ b < e.blockcount, ∃ count < e.typecount, ∃ k < e.typesize, a = e.valueAt b count + k := by
  have hpos := e.typesize_pos
  constructor
  · rintro ⟨b, hb, hle, hlt⟩
    obtain ⟨i, rfl⟩ := Nat.exists_eq_add_of_le hle
    have hi : i < e.typesize * e.typecount := by omega
    refine ⟨b, hb, i / e.typesize, Nat.div_lt_of_lt_mul hi, i % e.typesize, Nat.mod_lt _ hpos, ?_⟩
    have hdiv := Nat.div_add_mod' i e.typesize
    rw [valueAt]
    omega
  · rintro ⟨b, hb, count, hcount, k, hk, rfl⟩
    have hle : count * e.typesize + e.typesize ≤ e.typesize * e.typecount := by
      calc count * e.typesize + e.typesize = e.typesize * (count + 1) := by ring
        _ ≤ e.typesize * e.typecount := Nat.mul_le_mul_left _ hcount
    refine ⟨b, hb, ?_, ?_⟩
    · rw [valueAt]
      omega
    · rw [valueAt]
      omega

theorem mem_flipped (hsize : e.typesize ≠ 1) {addr : ℕ} :
    addr ∈ e.flipped ↔ ∃ b < e.blockcount, ∃ count < e.typecount, addr = e.valueAt b count := by
  rw [flipped, if_neg hsize]
  simp only [mem_flatMap, mem_range, mem_map, eq_comm]

/-- Values are behind one another. -/
theorem valueAt_apart (hspaced : e.Spaced) {b b' count count' : ℕ} (hb : b' < e.blockcount)
    (hcount : count < e.typecount) (h : b < b' ∨ b = b' ∧ count < count') :
    e.valueAt b count + e.typesize ≤ e.valueAt b' count' := by
  rw [valueAt, valueAt]
  rcases h with hlt | ⟨rfl, hlt⟩
  · have hstride : e.typesize * e.typecount ≤ e.stride := by
      rcases hspaced with hone | hle
      · omega
      · exact hle
    have hvalue : count * e.typesize + e.typesize ≤ e.typesize * e.typecount := by
      calc count * e.typesize + e.typesize = e.typesize * (count + 1) := by ring
        _ ≤ e.typesize * e.typecount := Nat.mul_le_mul_left _ hcount
    have hblock : b * e.stride + e.stride ≤ b' * e.stride := by
      calc b * e.stride + e.stride = (b + 1) * e.stride := by ring
        _ ≤ b' * e.stride := Nat.mul_le_mul_right _ hlt
    omega
  · have hvalue : count * e.typesize + e.typesize ≤ count' * e.typesize := by
      calc count * e.typesize + e.typesize = (count + 1) * e.typesize := by ring
        _ ≤ count' * e.typesize := Nat.mul_le_mul_right _ hlt
    omega

theorem pairwise_flipped (hspaced : e.Spaced) :
    e.flipped.Pairwise fun x y ↦ x + e.typesize ≤ y ∨ y + e.typesize ≤ x := by
  rw [flipped]
  split
  · exact List.Pairwise.nil
  · refine List.pairwise_flatMap.mpr ⟨fun b hb ↦ ?_, ?_⟩
    · refine List.pairwise_map.mpr
        (List.pairwise_lt_range.imp_of_mem fun {count count'} hcount hcount' hlt ↦ ?_)
      exact Or.inl (valueAt_apart hspaced (List.mem_range.mp hb) (List.mem_range.mp hcount)
        (Or.inr ⟨rfl, hlt⟩))
    · refine List.pairwise_lt_range.imp_of_mem fun {b b'} hb hb' hlt x hx y hy ↦ ?_
      obtain ⟨count, hcount, rfl⟩ := List.mem_map.mp hx
      obtain ⟨count', hcount', rfl⟩ := List.mem_map.mp hy
      exact Or.inl
        (valueAt_apart hspaced (List.mem_range.mp hb') (List.mem_range.mp hcount) (Or.inl hlt))

/-- Where the values do not overlap, `flip_data` turns the bytes of each round, and nothing else. -/
theorem flipData_valueAt (hspaced : e.Spaced) (m : Memory) {b count k : ℕ} (hb : b < e.blockcount)
    (hcount : count < e.typecount) (hk : k < e.typesize) :
    e.flipData m (e.valueAt b count + k) = m (e.valueAt b count + (e.typesize - 1 - k)) := by
  by_cases hsize : e.typesize = 1
  · rw [flipData, flipped, if_pos hsize, show e.typesize - 1 - k = k by omega]
    rfl
  · exact reverseAll_inside m (pairwise_flipped hspaced)
      ((mem_flipped hsize).mpr ⟨b, hb, count, hcount, rfl⟩) hk

theorem flipData_outside (m : Memory) (h : ¬ e.Area a) : e.flipData m a = m a := by
  refine reverseAll_outside m fun addr haddr hin ↦ h ?_
  by_cases hsize : e.typesize = 1
  · rw [flipped, if_pos hsize] at haddr
    exact absurd haddr not_mem_nil
  · obtain ⟨b, hb, count, hcount, rfl⟩ := (mem_flipped hsize).mp haddr
    exact area_iff.mpr ⟨b, hb, count, hcount, a - e.valueAt b count, by omega, by omega⟩

end StateEntry

/-! ## The blocks -/

/-- The bytes of the blocks of an entry, as many as are left. -/
def blockBytes (m : Memory) (e : StateEntry) : ℕ → ℕ → List Byte
  | 0, _ => []
  | n + 1, data => fetch m data e.blocksize ++ blockBytes m e n (data + e.stride)

/-- The bytes of the entries. -/
def entryBytes (m : Memory) (entries : List StateEntry) : List Byte :=
  entries.flatMap fun e ↦ blockBytes m e e.blockcount e.data

variable {s : SaveManager} {entries : List StateEntry} (m : Memory) {source : Memory}

theorem entryBytes_cons (e : StateEntry) (entries : List StateEntry) :
    entryBytes m (e :: entries) = blockBytes m e e.blockcount e.data ++ entryBytes m entries :=
  flatMap_cons

theorem writeBlocks_stream (e : StateEntry) (n data : ℕ) (str : List Byte) :
    writeBlocks streamWriter m e n data str = some (str ++ blockBytes m e n data) := by
  induction n generalizing data str with
  | zero => exact congrArg some (append_nil str).symm
  | succ n ih =>
    rw [writeBlocks, blockBytes, ← List.append_assoc]
    exact ih (data + e.stride) (str ++ fetch m data e.blocksize)

theorem writeEntries_stream (entries : List StateEntry) (str : List Byte) :
    writeEntries streamWriter m entries str = some (str ++ entryBytes m entries) := by
  induction entries generalizing str with
  | nil => exact congrArg some (append_nil str).symm
  | cons e entries ih =>
    rw [writeEntries, writeBlocks_stream, Option.bind_some, ih, entryBytes_cons, List.append_assoc]

theorem readSome_append (bytes rest : List Byte) :
    readSome bytes.length (bytes ++ rest) = (bytes, some rest) := by
  rw [readSome, take_left, drop_left, if_pos (by rw [length_append]; omega)]

/-- Blocks that have been put out are copied. -/
theorem readBlocks_blockBytes (e : StateEntry) (n data : ℕ) (x : Memory) (rest : List Byte) :
    ∃ y, readBlocks streamReader e n data x (blockBytes m e n data ++ rest) = (y, some rest) ∧
      ∀ a, (e.Saved n data a → y a = m a) ∧ (¬ e.Saved n data a → y a = x a) := by
  induction n generalizing data x with
  | zero => exact ⟨x, rfl, fun a ↦ ⟨fun ⟨b, hb, _⟩ ↦ absurd hb (Nat.not_lt_zero b), fun _ ↦ rfl⟩⟩
  | succ n ih =>
    obtain ⟨y, hread, hy⟩ := ih (data + e.stride) (store x data (fetch m data e.blocksize))
    have hblock : streamReader.readBlock e.blocksize (blockBytes m e (n + 1) data ++ rest) =
        (fetch m data e.blocksize, some (blockBytes m e n (data + e.stride) ++ rest)) := by
      have hsome :=
        readSome_append (fetch m data e.blocksize) (blockBytes m e n (data + e.stride) ++ rest)
      rw [length_fetch] at hsome
      rw [blockBytes, List.append_assoc]
      exact hsome
    have hsaved : ∀ a, e.Saved (n + 1) data a ↔
        (data ≤ a ∧ a < data + e.blocksize) ∨ e.Saved n (data + e.stride) a := by
      intro a
      constructor
      · rintro ⟨b, hb, hin⟩
        cases b with
        | zero =>
          rw [Nat.zero_mul, Nat.add_zero] at hin
          exact Or.inl hin
        | succ b =>
          rw [Nat.succ_mul, Nat.add_comm (b * e.stride), ← Nat.add_assoc] at hin
          exact Or.inr ⟨b, Nat.lt_of_succ_lt_succ hb, hin⟩
      · rintro (hin | ⟨b, hb, hin⟩)
        · exact ⟨0, Nat.succ_pos n, by rwa [Nat.zero_mul, Nat.add_zero]⟩
        · refine ⟨b + 1, Nat.succ_lt_succ hb, ?_⟩
          rwa [Nat.succ_mul, Nat.add_comm (b * e.stride), ← Nat.add_assoc]
    refine ⟨y, ?_, fun a ↦ ⟨fun hin ↦ ?_, fun hout ↦ ?_⟩⟩
    · rw [readBlocks, hblock]
      exact hread
    · by_cases hrest : e.Saved n (data + e.stride) a
      · exact (hy a).1 hrest
      · rw [(hy a).2 hrest, store_fetch, if_pos (((hsaved a).mp hin).resolve_right hrest)]
    · have hout' := fun h ↦ hout ((hsaved a).mpr h)
      rw [(hy a).2 fun h ↦ hout' (Or.inr h), store_fetch, if_neg fun h ↦ hout' (Or.inl h)]

/-! ## The entries -/

/-- The areas of the entries do not overlap. -/
structure Separate (entries : List StateEntry) : Prop where
  disjoint : entries.Pairwise fun e e' ↦ ∀ a, ¬ (e.Area a ∧ e'.Area a)
  spaced : ∀ e ∈ entries, e.Spaced

/-- The source has the values that the memory has in the entry, turned round or not. -/
def Carries (flip : Bool) (source m : Memory) (e : StateEntry) : Prop :=
  ∀ b < e.blockcount, ∀ count < e.typecount, ∀ k < e.typesize,
    source (e.valueAt b count + k) = m (e.valueAt b count + if flip then e.typesize - 1 - k else k)

theorem carries_self (e : StateEntry) : Carries false m m e := fun _ _ _ _ _ _ ↦ rfl

theorem Carries.readEntry {flip : Bool} {m : Memory} {e : StateEntry} (h : Carries flip source m e)
    (hfits : e.Fits) (hspaced : e.Spaced) (x : Memory) (rest : List Byte) : ∃ y, readBlocks
    streamReader e e.blockcount e.data x (blockBytes source e e.blockcount e.data ++ rest) =
        (y, some rest) ∧
      ∀ a, (e.Area a → (if flip then e.flipData y else y) a = m a) ∧
        (¬ e.Area a → (if flip then e.flipData y else y) a = x a) := by
  obtain ⟨y, hread, hy⟩ := readBlocks_blockBytes source e e.blockcount e.data x rest
  have hcopied : ∀ a, e.Area a → y a = source a :=
    fun a ha ↦ (hy a).1 ((StateEntry.saved_iff_area hfits).mpr ha)
  have hkept : ∀ a, ¬ e.Area a → y a = x a := fun a ha ↦ (hy a).2 fun hsaved ↦
    ha ((StateEntry.saved_iff_area hfits).mp hsaved)
  refine ⟨y, hread, fun a ↦ ⟨fun ha ↦ ?_, fun ha ↦ ?_⟩⟩
  · obtain ⟨b, hb, count, hcount, k, hk, rfl⟩ := StateEntry.area_iff.mp ha
    cases flip with
    | false => exact (hcopied _ ha).trans (h b hb count hcount k hk)
    | true =>
      have hmirror : e.Area (e.valueAt b count + (e.typesize - 1 - k)) :=
        StateEntry.area_iff.mpr ⟨b, hb, count, hcount, _, by omega, rfl⟩
      rw [if_pos rfl, StateEntry.flipData_valueAt hspaced y hb hcount hk, hcopied _ hmirror,
        h b hb count hcount _ (by omega), if_pos rfl,
        show e.typesize - 1 - (e.typesize - 1 - k) = k by omega]
  · cases flip with
    | false => exact hkept a ha
    | true => exact (StateEntry.flipData_outside y ha).trans (hkept a ha)

theorem readEntries_entryBytes {flip : Bool} {m : Memory} (hsep : Separate entries)
    (hfits : ∀ e ∈ entries, e.Fits)
    (hsource : ∀ e ∈ entries, Carries flip source m e) (x : Memory) :
    ∃ y, readEntries streamReader flip entries x (entryBytes source entries) = (y, some []) ∧
      ∀ a, ((∃ e ∈ entries, e.Area a) → y a = m a) ∧ ((∀ e ∈ entries, ¬ e.Area a) → y a = x a) := by
  induction entries generalizing x with
  | nil => exact ⟨x, rfl, fun a ↦ ⟨fun ⟨e, he, _⟩ ↦ absurd he not_mem_nil, fun _ ↦ rfl⟩⟩
  | cons e entries ih =>
    have hmem : e ∈ e :: entries := mem_cons_self
    obtain ⟨hdisjoint, hrest⟩ := List.pairwise_cons.mp hsep.disjoint
    obtain ⟨y, hread, hy⟩ := (hsource e hmem).readEntry (hfits e hmem) (hsep.spaced e hmem) x
      (entryBytes source entries)
    obtain ⟨z, hread', hz⟩ := ih ⟨hrest, fun e' he' ↦ hsep.spaced e' (mem_cons_of_mem e he')⟩
      (fun e' he' ↦ hfits e' (mem_cons_of_mem e he'))
      (fun e' he' ↦ hsource e' (mem_cons_of_mem e he')) (if flip then e.flipData y else y)
    refine ⟨z, ?_, fun a ↦ ⟨?_, fun hout ↦ ?_⟩⟩
    · rw [entryBytes_cons, readEntries, hread]
      exact hread'
    · rintro ⟨e', he', ha⟩
      rcases List.mem_cons.mp he' with rfl | he'
      · -- the entries behind this one leave its area alone
        rw [(hz a).2 fun e'' he'' ha' ↦ hdisjoint e'' he'' a ⟨ha, ha'⟩, (hy a).1 ha]
      · exact (hz a).1 ⟨e', he', ha⟩
    · rw [(hz a).2 fun e' he' ↦ hout e' (mem_cons_of_mem e he'), (hy a).2 (hout e hmem)]

/-! ## The round trip -/

/-- The load has succeeded, the entries are as in this memory, and all else is as it was. -/
structure Restored (l : Loaded) (entries : List StateEntry) (m other : Memory) : Prop where
  success : l.error = .none
  entries_eq : ∀ a, (∃ e ∈ entries, e.Area a) → l.memory a = m a
  others_eq : ∀ a, (∀ e ∈ entries, ¬ e.Area a) → l.memory a = other a

/-- Callbacks that do nothing. -/
structure SaveManager.Quiet (s : SaveManager) : Prop where
  presave : ∀ f ∈ s.presaveList, f = id
  postload : ∀ f ∈ s.postloadList, f = id

/-- What a machine has saved is restored, on one of the same byte order and on one of the other,
which has the same values in its own way. -/
def RoundTrips (s : SaveManager) : Prop :=
  ∀ m other : Memory,
    (∃ str, writeStream s m = .ok str ∧ Restored (readStream s other str) s.entryList m other) ∧
    ∀ foreign, (∀ e ∈ s.entryList, Carries true foreign m e) →
      ∃ str, writeStream { s with msbFirst := !s.msbFirst } foreign = .ok str ∧
        Restored (readStream s other str) s.entryList m other

theorem foldl_quiet {fs : List (Memory → Memory)} (h : ∀ f ∈ fs, f = id) (m : Memory) :
    fs.foldl (fun m f ↦ f m) m = m := by
  induction fs with
  | nil => rfl
  | cons f fs ih =>
    rw [foldl_cons, h f mem_cons_self]
    exact ih fun g hg ↦ h g (mem_cons_of_mem f hg)

theorem writeStream_eq (hquiet : s.Quiet) (msbFirst : Bool) (m : Memory) :
    writeStream { s with msbFirst } m =
      .ok (({ s with msbFirst } : SaveManager).header ++ entryBytes m s.entryList) := by
  have hwrite := writeEntries_stream m s.entryList ({ s with msbFirst } : SaveManager).header
  have hstart : ((streamWriter.startHeader []).bind
      (streamWriter.writeBlock ({ s with msbFirst } : SaveManager).header)).bind
      streamWriter.startData = some ({ s with msbFirst } : SaveManager).header := rfl
  rw [writeStream, doWrite, if_neg (by exact not_not.mpr rfl), foldl_quiet hquiet.presave, hstart]
  dsimp only
  rw [hwrite]

theorem readStream_header (s : SaveManager) (msbFirst : Bool) (x : Memory) (str : List Byte) :
    readStream s x (({ s with msbFirst } : SaveManager).header ++ str) =
      s.finish (readEntries streamReader (s.msbFirst != msbFirst) s.entryList x str) := by
  have hheader := readSome_append ({ s with msbFirst } : SaveManager).header str
  rw [SaveManager.length_header] at hheader
  have hstart : (streamReader.startHeader (({ s with msbFirst } : SaveManager).header ++ str)).map
      (streamReader.readBlock headerSize) =
      some (({ s with msbFirst } : SaveManager).header, some str) :=
    congrArg some hheader
  have hdata : streamReader.startData str = some str := rfl
  rw [readStream, doRead, if_neg (by exact not_not.mpr rfl), hstart]
  dsimp only
  rw [hdata]
  dsimp only
  rw [if_neg (not_not.mpr (s.validateHeader_header msbFirst)), s.flip_header msbFirst]

theorem restored_of_carries (hquiet : s.Quiet) (hsep : Separate s.entryList)
    (hfits : ∀ e ∈ s.entryList, e.Fits) (msbFirst : Bool) {m : Memory}
    (hsource : ∀ e ∈ s.entryList, Carries (s.msbFirst != msbFirst) source m e) (other : Memory) :
    ∃ str, writeStream { s with msbFirst } source = .ok str ∧
      Restored (readStream s other str) s.entryList m other := by
  obtain ⟨y, hread, hy⟩ := readEntries_entryBytes hsep hfits hsource other
  refine ⟨_, writeStream_eq hquiet msbFirst source, ?_⟩
  rw [readStream_header, hread, SaveManager.finish, foldl_quiet hquiet.postload]
  exact ⟨rfl, fun a ↦ (hy a).1, fun a ↦ (hy a).2⟩

theorem readBlocks_outside {e : StateEntry} {n data a : ℕ} (h : ¬ e.Saved n data a) (m : Memory)
    (str : List Byte) : (readBlocks streamReader e n data m str).1 a = m a := by
  induction n generalizing data m str with
  | zero => rfl
  | succ n ih =>
    have hfirst : ¬ (data ≤ a ∧ a < data + e.blocksize) := fun hin ↦
      h ⟨0, Nat.succ_pos n, by rwa [Nat.zero_mul, Nat.add_zero]⟩
    have hrest : ¬ e.Saved n (data + e.stride) a := by
      rintro ⟨b, hb, hin⟩
      refine h ⟨b + 1, Nat.succ_lt_succ hb, ?_⟩
      rwa [Nat.succ_mul, Nat.add_comm (b * e.stride), ← Nat.add_assoc]
    have hstore : store m data (str.take e.blocksize) a = m a :=
      store_outside m (by rw [length_take]; omega)
    rw [readBlocks]
    split
    · next bytes hread =>
      obtain rfl := (Prod.mk.inj hread).1
      exact hstore
    · next bytes str' hread =>
      obtain rfl := (Prod.mk.inj hread).1
      rw [ih hrest, hstore]

theorem readEntries_outside {a : ℕ} (h : ∀ e ∈ entries, ¬ e.Saved e.blockcount e.data a)
    (m : Memory) (str : List Byte) : (readEntries streamReader false entries m str).1 a = m a := by
  induction entries generalizing m str with
  | nil => rfl
  | cons e entries ih =>
    have houtside := readBlocks_outside (h e mem_cons_self) m str
    rw [readEntries]
    split
    · next y hread => rwa [hread] at houtside
    · next y str' hread =>
      rw [hread] at houtside
      exact (ih (fun e' he' ↦ h e' (mem_cons_of_mem e he')) y str').trans houtside

/-- The first byte of an entry that the cut off size leaves out is in no block. -/
theorem not_saved_of_not_fits (hsep : Separate entries) {e : StateEntry} (he : e ∈ entries)
    (hfits : ¬ e.Fits) : e.Area (e.data + e.blocksize) ∧
      ∀ e' ∈ entries, ¬ e'.Saved e'.blockcount e'.data (e.data + e.blocksize) := by
  obtain ⟨hblocks, hlarge⟩ := not_or.mp hfits
  have hcut : e.blocksize < 2 ^ 32 := Nat.mod_lt _ (by decide)
  have harea : e.Area (e.data + e.blocksize) := ⟨0, by omega, by omega, by omega⟩
  refine ⟨harea, fun e' he' ⟨b, hb, hle, hlt⟩ ↦ ?_⟩
  by_cases heq : e' = e
  · subst heq
    rcases hsep.spaced e' he with hone | hstride
    · obtain rfl : b = 0 := by omega
      omega
    · have hstride_lt := e'.stride_lt
      omega
  · have hle' : e'.blocksize ≤ e'.typesize * e'.typecount := Nat.mod_le _ _
    have : Std.Symm fun e e' : StateEntry ↦ ∀ a, ¬ (e.Area a ∧ e'.Area a) :=
      ⟨fun _ _ h a ha ↦ h a ⟨ha.2, ha.1⟩⟩
    exact hsep.disjoint.forall he' he heq _ ⟨⟨b, hb, hle, by omega⟩, harea⟩

/-- What a cut off size leaves out is not restored. -/
theorem not_roundTrips (hquiet : s.Quiet) (hsep : Separate s.entryList) {e : StateEntry}
    (he : e ∈ s.entryList) (hfits : ¬ e.Fits) : ¬ RoundTrips s := by
  intro h
  obtain ⟨harea, hsaved⟩ := not_saved_of_not_fits hsep he hfits
  obtain ⟨⟨str, hwrite, hrestored⟩, -⟩ := h (fun _ ↦ 0) fun _ ↦ 1
  have hstr := (writeStream_eq hquiet s.msbFirst fun _ ↦ 0).symm.trans hwrite
  obtain rfl := Except.ok.inj hstr
  have hzero := hrestored.entries_eq _ ⟨e, he, harea⟩
  have hone := readEntries_outside hsaved (fun _ ↦ 1) (entryBytes (fun _ ↦ 0) s.entryList)
  rw [readStream_header, bne_self_eq_false] at hzero
  rcases hread : readEntries streamReader false s.entryList (fun _ ↦ 1)
      (entryBytes (fun _ ↦ 0) s.entryList) with
    ⟨y, _ | _⟩
  · rw [hread] at hzero hone
    exact absurd (hzero.symm.trans hone) (by decide)
  · rw [hread] at hzero hone
    rw [SaveManager.finish, foldl_quiet hquiet.postload] at hzero
    exact absurd (hzero.symm.trans hone) (by decide)

/-- Every state that is saved is restored exactly if no entry has a block of 4 GiB or more. -/
theorem roundTrips_iff_fits (s : SaveManager) (hquiet : s.Quiet) (hsep : Separate s.entryList) :
    RoundTrips s ↔ ∀ e ∈ s.entryList, e.Fits := by
  constructor
  · exact fun h e he ↦ Classical.byContradiction fun hfits ↦ not_roundTrips hquiet hsep he hfits h
  · intro hfits m other
    refine ⟨restored_of_carries hquiet hsep hfits s.msbFirst (fun e _ ↦ ?_) other,
      fun foreign hforeign ↦ ?_⟩
    · rw [bne_self_eq_false]
      exact carries_self m e
    · refine restored_of_carries hquiet hsep hfits (!s.msbFirst) (fun e he ↦ ?_) other
      have hflip : (s.msbFirst != !s.msbFirst) = true := by
        cases s.msbFirst <;> rfl
      rw [hflip]
      exact hforeign e he

/-- Two members of an array of three structures of eight bytes: a double word, and two words behind
it. -/
def structMembers : SaveManager where
  entryList := [⟨0, [0x61], 4, 1, 3, 8, by decide, by decide, by decide, by decide⟩,
    ⟨4, [0x62], 2, 2, 3, 8, by decide, by decide, by decide, by decide⟩]
  presaveList := []
  postloadList := [id]
  systemName := [0x72, 0x32]
  msbFirst := false

theorem roundTrips_structMembers : RoundTrips structMembers := by
  refine (roundTrips_iff_fits structMembers ⟨?_, ?_⟩ ⟨?_, ?_⟩).mpr ?_
  · exact fun f hf ↦ absurd hf not_mem_nil
  · exact fun f hf ↦ List.mem_singleton.mp hf
  · refine List.pairwise_pair.mpr fun a ⟨⟨b, hb, hle, hlt⟩, ⟨b', hb', hle', hlt'⟩⟩ ↦ ?_
    dsimp only at hb hle hlt hb' hle' hlt'
    omega
  · intro e he
    refine Or.inr ?_
    simp only [structMembers, mem_cons, not_mem_nil, or_false] at he
    rcases he with rfl | rfl
    · decide
    · decide
  · intro e he
    simp only [structMembers, mem_cons, not_mem_nil, or_false] at he
    rcases he with rfl | rfl
    · exact Or.inr (by decide)
    · exact Or.inr (by decide)

/-- An array of 2 ^ 29 values of eight bytes. -/
def largeArray : SaveManager where
  entryList := [⟨0, [0x61], 8, 2 ^ 29, 1, 0, by decide, by decide, by decide, by decide⟩]
  presaveList := []
  postloadList := []
  systemName := [0x72, 0x32]
  msbFirst := false

/-- Two bytes. -/
def twoBytes : SaveManager where
  entryList := [⟨0, [0x61], 1, 2, 1, 0, by decide, by decide, by decide, by decide⟩]
  presaveList := []
  postloadList := []
  systemName := [0x72, 0x32]
  msbFirst := false

/-- The size of its block is 0 in 32 bits, so nothing of it is saved. -/
theorem not_roundTrips_largeArray : ¬ RoundTrips largeArray := by
  refine not_roundTrips
    (e := ⟨0, [0x61], 8, 2 ^ 29, 1, 0, by decide, by decide, by decide, by decide⟩)
    ⟨fun f hf ↦ absurd hf not_mem_nil, fun f hf ↦ absurd hf not_mem_nil⟩
    ⟨pairwise_singleton _ _, fun e he ↦ Or.inl ?_⟩ mem_cons_self ?_
  · rw [List.mem_singleton.mp he]
  · rintro (hzero | hlt)
    · exact absurd hzero (by decide)
    · exact absurd hlt (by decide)

end RoscoEmulator.Save
