import RoscoEmulator.Util.CanonicalCodes

/-!
# Trees from a bit string

`import_tree_rle` and `import_tree_huffman` with what they write: the numbers of bits go into the
nodes from the first one on, and the entries of the lookup table are recorded as the ranges that
`build_lookup_table` runs over. Nothing keeps a repeat count of `import_tree_rle` from running over
the last node, so the numbers may be too many.

`Token` and `Spells` say what the reader has in front of it, token by token, and `HuffToken` and
`HuffSpells` do for the tokens in the codes of the small tree. -/

namespace RoscoEmulator.Util

open List PrefixCode BitString

/-! ## What is written -/

/-- The entries that `build_lookup_table` writes for a code: the first and the last index, as words
of 32 bits. -/
def lookupRange (maxbits : ℕ) (code : ℕ × ℕ) : ℕ × ℕ :=
  (code.1 * 2 ^ (maxbits - code.2) % 2 ^ 32,
    ((code.1 + 1) * 2 ^ (maxbits - code.2) % 2 ^ 32 + 2 ^ 32 - 1) % 2 ^ 32)

/-- The ranges of `build_lookup_table`. -/
def lookupRanges (maxbits : ℕ) (bits numbits : List ℕ) : List (ℕ × ℕ) :=
  ((bits.zip numbits).filter fun code ↦ 0 < code.2).map (lookupRange maxbits)

/-- What an import has written when it returns. -/
structure Imported where
  /-- No error is `HUFFERR_NONE`. -/
  error : Option HuffmanError
  /-- The numbers of bits of the nodes, from the first one on. -/
  numbits : List ℕ
  /-- The codes, if they have been assigned. -/
  bits : List ℕ
  entries : List (ℕ × ℕ)
  bitbuf : BitstreamIn

/-- The end of both imports: the codes, the lookup table, and the errors. -/
def finishImport (numcodes maxbits : ℕ) (numbits : List ℕ) (b : BitstreamIn) : Imported :=
  if numbits.length ≠ numcodes then ⟨some .invalidData, numbits, [], [], b⟩
  else
    match assignCanonicalCodes maxbits numbits with
    | .error e => ⟨some e, numbits, [], [], b⟩
    | .ok bits =>
        ⟨if b.overflow then some .inputBufferTooSmall else none, numbits, bits,
          lookupRanges maxbits bits numbits, b⟩

namespace Imported

/-- `import_tree_rle`. -/
def rle (numcodes maxbits : ℕ) (b : BitstreamIn) : Imported :=
  match importLengths (lengthBits maxbits) numcodes (numcodes + 1) [] b with
  | .error e => ⟨some e, [], [], [], b⟩
  | .ok (numbits, b) => finishImport numcodes maxbits numbits b

end Imported

/-- The loop over the lengths of the small tree, for the `fuel` nodes from `index` on. The last
length that has been read is `count`, and a 7 is the end of the lengths. -/
def smallLengths (shift : BitVec 32 → BitVec 32) (start : ℕ) :
    ℕ → ℕ → ℕ → BitstreamIn → List ℕ × BitstreamIn
  | 0, _, _, b => ([], b)
  | fuel + 1, index, count, b =>
      if index < start ∨ count = 7 then
        let (numbits, b) := smallLengths shift start fuel (index + 1) count b
        (0 :: numbits, b)
      else
        let (count, b) := b.readOn shift 3
        let (numbits, b) := smallLengths shift start fuel (index + 1) count b
        ((if count = 7 then 0 else count) :: numbits, b)

/-- The small tree: its 24 codes have at most 6 bits. -/
def importSmall (shift : BitVec 32 → BitVec 32) (b : BitstreamIn) : Imported :=
  let (first, b) := b.readOn shift 3
  let (start, b) := b.readOn shift 3
  let (numbits, b) := smallLengths shift (start + 1) 23 1 0 b
  match assignCanonicalCodes 6 (first :: numbits) with
  | .error e => ⟨some e, first :: numbits, [], [], b⟩
  | .ok bits => ⟨none, first :: numbits, bits, lookupRanges 6 bits (first :: numbits), b⟩

/-- `rlefullbits`. -/
def rleFullBits (numcodes : ℕ) : ℕ := ((numcodes + 2 ^ 32 - 9) % 2 ^ 32).size

/-- The number of repeats behind a 0. -/
def readCount (shift : BitVec 32 → BitVec 32) (rlefullbits : ℕ) (b : BitstreamIn) :
    ℕ × BitstreamIn :=
  let (count, b) := b.readOn shift 3
  if count + 2 = 7 + 2 then
    let (more, b) := b.readOn shift rlefullbits
    ((count + 2 + more) % 2 ^ 32, b)
  else (count + 2, b)

/-- The loop over the nodes, for at most `fuel` rounds. The entries of the lookup table that have
not been written are those of a local variable without a value: `unset` is what `decode_one` makes
of them. -/
def huffLengths (shift : BitVec 32 → BitVec 32) (unset : BitstreamIn → ℕ × BitstreamIn)
    (lookup : Lookup) (numcodes : ℕ) : ℕ → List ℕ → ℕ → BitstreamIn → List ℕ × BitstreamIn
  | 0, numbits, _, b => (numbits, b)
  | fuel + 1, numbits, last, b =>
      if numcodes ≤ numbits.length then (numbits, b)
      else
        let (value, b) := (decodeOne 6 lookup b).getD (unset b)
        if value ≠ 0 then
          huffLengths shift unset lookup numcodes fuel
            (numbits ++ [(value - 1) % 256]) (value - 1) b
        else
          let (count, b) := readCount shift (rleFullBits numcodes) b
          -- the repeats stop at the last node
          huffLengths shift unset lookup numcodes fuel
            (numbits ++ replicate (min count (numcodes - numbits.length)) (last % 256)) last b

/-- `import_tree_huffman` after at most `fuel` rounds of its loop: what it has written to the small
tree, and to its own. There is no result as long as the loop has not come to the last node, or if
the small tree has been written behind the end of its table. -/
def importTreeHuffman (shift : BitVec 32 → BitVec 32) (unset : BitstreamIn → ℕ × BitstreamIn)
    (numcodes maxbits fuel : ℕ) (b : BitstreamIn) : Imported × Imported :=
  let small := importSmall shift b
  match small.error, buildLookupTable 6 0 (small.bits.zip small.numbits) fun _ ↦ none with
  | some e, _ => (small, ⟨some e, [], [], [], small.bitbuf⟩)
  | none, none => (small, ⟨some .undefined, [], [], [], small.bitbuf⟩)
  | none, some lookup =>
      let (numbits, b) := huffLengths shift unset lookup numcodes fuel [] 0 small.bitbuf
      if numbits.length < numcodes then (small, ⟨some .undefined, numbits, [], [], b⟩)
      else (small, finishImport numcodes maxbits numbits b)

/-! ## The tokens of `import_tree_rle` -/

section Rle

variable {width numcodes : ℕ} {b b₁ b₂ : BitstreamIn} {numbits l : List ℕ}

/-- One round of the loop: the reader has a number, an escaped 1 or a run in front of it. -/
inductive Token (width : ℕ) (b : BitstreamIn) : List ℕ → BitstreamIn → Prop
  | raw {n : ℕ} {b₁ : BitstreamIn} : b.read width = some (n, b₁) → n ≠ 1 → Token width b [n] b₁
  | one {b₁ b₂ : BitstreamIn} :
    b.read width = some (1, b₁) → b₁.read width = some (1, b₂) → Token width b [1] b₂
  | run {n reps : ℕ} {b₁ b₂ b₃ : BitstreamIn} :
    b.read width = some (1, b₁) → b₁.read width = some (n, b₂) → n ≠ 1 →
      b₂.read width = some (reps, b₃) → Token width b (replicate (reps + 3) n) b₃

/-- The numbers of the tokens, as long as they are fewer than the codes. -/
inductive Spells (width numcodes : ℕ) (b : BitstreamIn) : List ℕ → BitstreamIn → Prop
  | nil : Spells width numcodes b [] b
  | snoc {numbits l : List ℕ} {b₁ b₂ : BitstreamIn} : Spells width numcodes b numbits b₁ →
      numbits.length < numcodes → Token width b₁ l b₂ → Spells width numcodes b (numbits ++ l) b₂

theorem Token.length_pos (h : Token width b l b₁) : 0 < l.length := by
  cases h with
  | raw _ _ => exact Nat.one_pos
  | one _ _ => exact Nat.one_pos
  | run _ _ _ _ =>
    rw [length_replicate]
    exact Nat.succ_pos _

theorem exists_read (hwidth : width < 32) (b : BitstreamIn) : ∃ n b', b.read width = some (n, b') :=
  ⟨_, _, if_neg (Nat.not_le.mpr hwidth)⟩

theorem exists_token (hwidth : width < 32) (b : BitstreamIn) : ∃ l b', Token width b l b' := by
  obtain ⟨n, b₁, h₁⟩ := exists_read hwidth b
  by_cases hn : n = 1
  · subst hn
    obtain ⟨n, b₂, h₂⟩ := exists_read hwidth b₁
    by_cases hn : n = 1
    · subst hn
      exact ⟨_, _, .one h₁ h₂⟩
    · obtain ⟨reps, b₃, h₃⟩ := exists_read hwidth b₂
      exact ⟨_, _, .run h₁ h₂ hn h₃⟩
  · exact ⟨_, _, .raw h₁ hn⟩

/-- A round of the loop reads a token. -/
theorem importLengths_token (h : Token width b l b₁) (hlt : numbits.length < numcodes) (fuel : ℕ) :
    importLengths width numcodes (fuel + 1) numbits b =
      importLengths width numcodes fuel (numbits ++ l) b₁ := by
  rw [importLengths, if_neg (Nat.not_le.mpr hlt)]
  cases h with
  | raw h₁ hn =>
    rw [h₁]
    exact if_pos hn
  | one h₁ h₂ =>
    rw [h₁]
    dsimp only
    rw [if_neg (not_not.mpr rfl), h₂]
    exact if_pos rfl
  | run h₁ h₂ hn h₃ =>
    rw [h₁]
    dsimp only
    rw [if_neg (not_not.mpr rfl), h₂]
    dsimp only
    rw [if_neg hn, h₃]

/-- The loop has come to what it has read. -/
theorem importLengths_spells (h : Spells width numcodes b numbits b₁) :
    ∃ fuel, numcodes < fuel + numbits.length ∧ 0 < fuel ∧
      importLengths width numcodes (numcodes + 1)
      [] b = importLengths width numcodes fuel numbits b₁ := by
  induction h with
  | nil => exact ⟨numcodes + 1, Nat.lt_succ_self _, Nat.succ_pos _, rfl⟩
  | snoc _ hlt htoken ih =>
    obtain ⟨fuel, hfuel, hpos, hloop⟩ := ih
    obtain ⟨fuel, rfl⟩ := Nat.exists_eq_succ_of_ne_zero hpos.ne'
    have hlength := htoken.length_pos
    refine ⟨fuel, ?_, by omega, hloop.trans (importLengths_token htoken hlt fuel)⟩
    rw [length_append]
    omega

/-- Enough is spelled by any bit string. -/
theorem exists_spells (hwidth : width < 32) (numcodes : ℕ) (b : BitstreamIn) :
    ∃ numbits b₁, Spells width numcodes b numbits b₁ ∧ numcodes ≤ numbits.length := by
  have hreaches {d : ℕ} {ls : List ℕ} {b' : BitstreamIn} (h : Spells width numcodes b ls b')
      (hd : numcodes - ls.length = d) :
      ∃ ls' b'', Spells width numcodes b ls' b'' ∧ numcodes ≤ ls'.length := by
    induction d using Nat.strong_induction_on generalizing ls b' with
    | _ d ih =>
      by_cases hle : numcodes ≤ ls.length
      · exact ⟨ls, b', h, hle⟩
      · obtain ⟨l, b'', htoken⟩ := exists_token hwidth b'
        have hpos := htoken.length_pos
        refine ih _ ?_ (.snoc h (Nat.lt_of_not_le hle) htoken) rfl
        rw [length_append]
        omega
  exact hreaches .nil rfl

/-- **The loop of `import_tree_rle` reads what the bit string spells.** -/
theorem importLengths_of_spells (h : Spells width numcodes b numbits b₁)
    (hle : numcodes ≤ numbits.length) :
    importLengths width numcodes (numcodes + 1) [] b = .ok (numbits, b₁) := by
  obtain ⟨fuel, -, hpos, hloop⟩ := importLengths_spells h
  obtain ⟨fuel, rfl⟩ := Nat.exists_eq_succ_of_ne_zero hpos.ne'
  rw [hloop, importLengths, if_pos hle]

end Rle

/-! ## The tokens of `import_tree_huffman` -/

section Huffman

variable {shift : BitVec 32 → BitVec 32} {unset : BitstreamIn → ℕ × BitstreamIn}

/-- The lengths of the nodes of the small tree that are left, up to a 7. -/
inductive SmallSpells (shift : BitVec 32 → BitVec 32) :
    ℕ → BitstreamIn → List ℕ → BitstreamIn → Prop
  | all {b : BitstreamIn} : SmallSpells shift 0 b [] b
  | stop {left : ℕ} {b : BitstreamIn} : (b.readOn shift 3).1 = 7 →
      SmallSpells shift (left + 1) b (replicate (left + 1) 0) (b.readOn shift 3).2
  | length {left : ℕ} {b b₁ : BitstreamIn} {numbits : List ℕ} : (b.readOn shift 3).1 ≠ 7 →
      SmallSpells shift left (b.readOn shift 3).2 numbits b₁ →
      SmallSpells shift (left + 1) b ((b.readOn shift 3).1 :: numbits) b₁

/-- The lengths of the small tree: the first, the number of those behind it that are zero, and the
others. -/
def SmallTree (shift : BitVec 32 → BitVec 32) (b : BitstreamIn) (numbits : List ℕ)
    (b' : BitstreamIn) : Prop :=
  ∃ rest, numbits = (b.readOn shift 3).1 ::
      (replicate ((b.readOn shift 3).2.readOn shift 3).1 0 ++ rest) ∧
    SmallSpells shift (23 - ((b.readOn shift 3).2.readOn shift 3).1)
      ((b.readOn shift 3).2.readOn shift 3).2 rest b'

/-- The value of the code that the next bits begin with, or what there is for bits that no code
begins. -/
inductive Symbol (unset : BitstreamIn → ℕ × BitstreamIn) (codes : List (ℕ × ℕ)) (b : BitstreamIn) :
    ℕ → BitstreamIn → Prop
  | code {value : ℕ} {code : ℕ × ℕ} : codes[value]? = some code → 0 < code.2 →
      (b.prepare 6).front 6 / 2 ^ (6 - code.2) = code.1 →
      Symbol unset codes b value ((b.prepare 6).remove code.2)
  | unset : (∀ code ∈ codes, 0 < code.2 → (b.prepare 6).front 6 / 2 ^ (6 - code.2) ≠ code.1) →
      Symbol unset codes b (unset b).1 (unset b).2

/-- One round of the loop: a length, or repeats of the last one up to the last node. -/
inductive HuffToken (shift : BitVec 32 → BitVec 32) (unset : BitstreamIn → ℕ × BitstreamIn)
    (codes : List (ℕ × ℕ))
    (numcodes left last : ℕ) (b : BitstreamIn) : List ℕ → ℕ → BitstreamIn → Prop
  | length {value : ℕ} {b₁ : BitstreamIn} : Symbol unset codes b (value + 1) b₁ →
      HuffToken shift unset codes numcodes left last b [value % 256] value b₁
  | repeats {b₁ : BitstreamIn} : Symbol unset codes b 0 b₁ →
      HuffToken shift unset codes numcodes left last b
        (replicate (min (readCount shift (rleFullBits numcodes) b₁).1 left) (last % 256)) last
        (readCount shift (rleFullBits numcodes) b₁).2

/-- The lengths of the tokens, as long as they are fewer than the codes, and the last one. -/
inductive HuffSpells (shift : BitVec 32 → BitVec 32) (unset : BitstreamIn → ℕ × BitstreamIn)
    (codes : List (ℕ × ℕ)) (numcodes : ℕ) (b : BitstreamIn) : List ℕ → ℕ → BitstreamIn → Prop
  | nil : HuffSpells shift unset codes numcodes b [] 0 b
  | snoc {numbits l : List ℕ} {last last' : ℕ} {b₁ b₂ : BitstreamIn} :
      HuffSpells shift unset codes numcodes b numbits last b₁ → numbits.length < numcodes →
      HuffToken shift unset codes numcodes (numcodes - numbits.length) last b₁ l last' b₂ →
      HuffSpells shift unset codes numcodes b (numbits ++ l) last' b₂

/-! ### The small tree -/

theorem smallLengths_seven (start left index : ℕ) (b : BitstreamIn) :
    smallLengths shift start left index 7 b = (replicate left 0, b) := by
  induction left generalizing index with
  | zero => rfl
  | succ left ih =>
    rw [smallLengths, if_pos (.inr rfl), ih]
    rfl

/-- In front of the first length that is read all are zero. -/
theorem smallLengths_start {start index zeros : ℕ} (h : index + zeros = start) (left : ℕ)
    (b : BitstreamIn) : smallLengths shift start (left + zeros) index 0 b =
      (replicate zeros 0 ++ (smallLengths shift start left start 0 b).1,
        (smallLengths shift start left start 0 b).2) := by
  induction zeros generalizing index with
  | zero =>
    rw [Nat.add_zero] at h
    rw [h]
    rfl
  | succ zeros ih =>
    rw [← Nat.add_assoc, smallLengths, if_pos (.inl (by omega)), ih (by omega)]
    rfl

variable {b b' : BitstreamIn} {numbits : List ℕ}

/-- **The lengths of the small tree** are those that are spelled. -/
theorem smallSpells_iff {start left index count : ℕ} (hindex : start ≤ index) (hcount : count ≠ 7) :
    SmallSpells shift left b numbits b' ↔
      smallLengths shift start left index count b = (numbits, b') := by
  induction left generalizing index count b numbits with
  | zero =>
    constructor
    · rintro ⟨⟩
      rfl
    · rintro ⟨⟩
      exact .all
  | succ left ih =>
    rw [smallLengths, if_neg (not_or.mpr ⟨Nat.not_lt.mpr hindex, hcount⟩)]
    dsimp only
    by_cases hend : (b.readOn shift 3).1 = 7
    · rw [hend, smallLengths_seven, if_pos rfl]
      constructor
      · intro h
        cases h with
        | stop _ => rfl
        | length hne _ => exact absurd hend hne
      · rintro ⟨⟩
        exact .stop hend
    · rw [if_neg hend]
      constructor
      · intro h
        cases h with
        | stop heq => exact absurd heq hend
        | length _ hrest => rw [(ih (Nat.le_succ_of_le hindex) hend).mp hrest]
      · intro h
        obtain ⟨rfl, rfl⟩ := Prod.mk.inj h
        exact .length hend ((ih (Nat.le_succ_of_le hindex) hend).mpr rfl)

theorem fst_readOn_three_lt (b : BitstreamIn) : (b.readOn shift 3).1 < 8 := by
  have hfront : (b.readOn shift 3).1 = ((b.prepare 3).buffer >>> 29).toNat := rfl
  rw [hfront, BitVec.toNat_ushiftRight, Nat.shiftRight_eq_div_pow]
  omega

/-- **The small tree of an import** is the one in front of the reader. -/
theorem smallTree_iff : SmallTree shift b numbits b' ↔ (importSmall shift b).numbits = numbits ∧
    (importSmall shift b).bitbuf = b' := by
  obtain ⟨zeros, hzeros⟩ : ∃ zeros, ((b.readOn shift 3).2.readOn shift 3).1 = zeros := ⟨_, rfl⟩
  obtain ⟨b₂, hb₂⟩ : ∃ b₂, ((b.readOn shift 3).2.readOn shift 3).2 = b₂ := ⟨_, rfl⟩
  have hlt : zeros < 8 := hzeros ▸ fst_readOn_three_lt _
  have hstart : smallLengths shift (zeros + 1) (23 - zeros + zeros) 1 0 b₂ = _ :=
    smallLengths_start (Nat.add_comm 1 zeros) (23 - zeros) b₂
  rw [show 23 - zeros + zeros = 23 by omega] at hstart
  have himport : (importSmall shift b).numbits = (b.readOn shift 3).1 :: (replicate zeros 0 ++
        (smallLengths shift (zeros + 1) (23 - zeros) (zeros + 1) 0 b₂).1) ∧
      (importSmall shift b).bitbuf =
        (smallLengths shift (zeros + 1) (23 - zeros) (zeros + 1) 0 b₂).2 := by
    rw [importSmall]
    dsimp only
    rw [hzeros, hb₂, hstart]
    cases assignCanonicalCodes 6 _ with
    | error e => exact ⟨rfl, rfl⟩
    | ok bits => exact ⟨rfl, rfl⟩
  rw [himport.1, himport.2, SmallTree, hzeros, hb₂]
  constructor
  · rintro ⟨rest, rfl, hrest⟩
    rw [(smallSpells_iff (Nat.le_refl _) (Nat.zero_ne_add_one 6)).mp hrest]
    exact ⟨rfl, rfl⟩
  · rintro ⟨rfl, rfl⟩
    exact ⟨_, rfl, (smallSpells_iff (Nat.le_refl _) (Nat.zero_ne_add_one 6)).mpr rfl⟩

/-! ### The tokens -/

/-- The table has the codes for the strings that begin with them, and the entries of before for the
others. -/
theorem buildLookupTable_spec {maxbits : ℕ} {codes : List (ℕ × ℕ)}
    (hfits : ∀ code ∈ codes, 0 < code.2 → (code.1 + 1) * 2 ^ (maxbits - code.2) ≤ 2 ^ maxbits)
    (curcode : ℕ)
    (before : Lookup) : ∃ lookup, buildLookupTable maxbits curcode codes before = some lookup ∧ ∀ i,
      (∃ value code, codes[value]? = some code ∧ 0 < code.2 ∧ i / 2 ^ (maxbits - code.2) = code.1 ∧
        lookup i = some (curcode + value, code.2)) ∨
      (∀ code ∈ codes, 0 < code.2 → i / 2 ^ (maxbits - code.2) ≠ code.1) ∧ lookup i = before i := by
  induction codes generalizing curcode before with
  | nil => exact ⟨before, rfl, fun i ↦ .inr ⟨fun code hcode ↦ absurd hcode not_mem_nil, rfl⟩⟩
  | cons code codes ih =>
    obtain ⟨bits, numbits⟩ := code
    have hrest : ∀ code ∈ codes, 0 < code.2 → (code.1 + 1) * 2 ^ (maxbits - code.2) ≤ 2 ^ maxbits :=
      fun code hcode ↦ hfits code (mem_cons_of_mem _ hcode)
    rw [buildLookupTable]
    by_cases hzero : numbits = 0
    · obtain ⟨lookup, hbuild, hspec⟩ := ih hrest (curcode + 1) before
      rw [if_pos hzero]
      refine ⟨lookup, hbuild, fun i ↦ ?_⟩
      rcases hspec i with ⟨value, code, hget, hpos, hdiv, hlookup⟩ | ⟨hnone, hlookup⟩
      · exact .inl ⟨value + 1, code, hget, hpos,
          hdiv, by rw [hlookup, Nat.add_assoc, Nat.add_comm 1 value]⟩
      · refine .inr ⟨fun code hcode hpos ↦ ?_, hlookup⟩
        rcases List.mem_cons.mp hcode with rfl | hcode
        · exact absurd hzero hpos.ne'
        · exact hnone code hcode hpos
    · obtain ⟨lookup, hbuild, hspec⟩ := ih hrest (curcode + 1) fun i ↦
        if bits * 2 ^ (maxbits - numbits) ≤ i ∧ i < (bits + 1) * 2 ^ (maxbits - numbits)
          then some (curcode, numbits)
        else before i
      rw [if_neg hzero]
      rw [if_neg (Nat.not_lt.mpr (hfits _ mem_cons_self (Nat.pos_of_ne_zero hzero)))]
      refine ⟨lookup, hbuild, fun i ↦ ?_⟩
      have hdiv : bits * 2 ^ (maxbits - numbits) ≤ i ∧ i < (bits + 1) * 2 ^ (maxbits - numbits) ↔
          i / 2 ^ (maxbits - numbits) = bits := by
        rw [Nat.div_eq_iff (Nat.two_pow_pos _), Nat.add_mul, Nat.one_mul]
        have hpos : 0 < 2 ^ (maxbits - numbits) := Nat.two_pow_pos _
        omega
      rcases hspec i with ⟨value, code, hget, hpos, hcode, hlookup⟩ | ⟨hnone, hlookup⟩
      · exact .inl ⟨value + 1, code, hget, hpos,
          hcode, by rw [hlookup, Nat.add_assoc, Nat.add_comm 1 value]⟩
      · by_cases hin : i / 2 ^ (maxbits - numbits) = bits
        · rw [if_pos (hdiv.mpr hin)] at hlookup
          exact .inl ⟨0, (bits, numbits), rfl, Nat.pos_of_ne_zero hzero, hin, hlookup⟩
        · rw [if_neg (mt hdiv.mp hin)] at hlookup
          refine .inr ⟨fun code hcode hpos ↦ ?_, hlookup⟩
          rcases List.mem_cons.mp hcode with rfl | hcode
          · exact hin
          · exact hnone code hcode hpos

/-- A table for codes: the entries of the strings that begin with a code, and no others. -/
def Tabulates (lookup : Lookup) (codes : List (ℕ × ℕ)) : Prop :=
  ∀ i, (∃ value code, codes[value]? = some code ∧ 0 < code.2 ∧ i / 2 ^ (6 - code.2) = code.1 ∧
      lookup i = some (value, code.2)) ∨
    (∀ code ∈ codes, 0 < code.2 → i / 2 ^ (6 - code.2) ≠ code.1) ∧ lookup i = none

variable {lookup : Lookup} {codes : List (ℕ × ℕ)} {numcodes : ℕ}

/-- **A symbol is decoded as the code that the next bits begin with.** -/
theorem symbol_iff (htable : Tabulates lookup codes)
    (hfree : PrefixFree codes) (hle : ∀ code ∈ codes, code.2 ≤ 6) {value : ℕ} :
    Symbol unset codes b value b' ↔ (decodeOne 6 lookup b).getD (unset b) = (value, b') := by
  rcases htable ((b.prepare 6).front 6)
      with ⟨value', code', hget', hpos', hdiv', hlookup⟩ | ⟨hnone, hlookup⟩
  · rw [decodeOne]
    rw [hlookup]
    constructor
    · intro h
      cases h with
      | @code _ code hget hpos hdiv =>
        have hmem : code.2 ≤ 6 := hle code (mem_of_getElem? hget)
        obtain rfl := hfree.eq_of_div hget hget' ⟨hpos, hpos'⟩ ⟨hmem,
          hle code' (mem_of_getElem? hget')⟩ hdiv hdiv'
        cases hget.symm.trans hget'
        rfl
      | unset hno => exact absurd hdiv' (hno code' (mem_of_getElem? hget') hpos')
    · intro h
      have hcode :
          Symbol unset codes b value' ((b.prepare 6).remove code'.2) := .code hget' hpos' hdiv'
      obtain ⟨rfl, rfl⟩ := Prod.mk.inj h
      exact hcode
  · rw [decodeOne]
    dsimp only
    rw [hlookup]
    constructor
    · intro h
      cases h with
      | code hget hpos hdiv => exact absurd hdiv (hnone _ (mem_of_getElem? hget) hpos)
      | unset _ => rfl
    · intro h
      obtain ⟨rfl, rfl⟩ : (unset b).1 = value ∧ (unset b).2 = b' := Prod.mk.inj h
      exact .unset hnone

theorem HuffSpells.length_le {last : ℕ}
    (h : HuffSpells shift unset codes numcodes b numbits last b') : numbits.length ≤ numcodes := by
  cases h with
  | nil => exact Nat.zero_le _
  | snoc _ hlt htoken =>
    rw [length_append]
    cases htoken with
    | length _ => exact hlt
    | repeats _ =>
      rw [length_replicate]
      omega

section Loop

variable (htable : Tabulates lookup codes) (hfree : PrefixFree codes)
    (hle : ∀ code ∈ codes, code.2 ≤ 6)
include htable hfree hle

/-- A round of the loop reads a token. -/
theorem huffLengths_token {b b' : BitstreamIn} {numbits l : List ℕ}
    {last last' : ℕ} (hlt : numbits.length < numcodes)
    (h : HuffToken shift unset codes numcodes (numcodes - numbits.length) last b l last' b')
    (fuel : ℕ) : huffLengths shift unset lookup numcodes (fuel + 1) numbits last b =
      huffLengths shift unset lookup numcodes fuel (numbits ++ l) last' b' := by
  rw [huffLengths, if_neg (Nat.not_le.mpr hlt)]
  cases h with
  | length hsymbol =>
    rw [(symbol_iff htable hfree hle).mp hsymbol]
    exact if_pos (Nat.succ_ne_zero _)
  | repeats hsymbol =>
    rw [(symbol_iff htable hfree hle).mp hsymbol]
    exact if_neg (not_not.mpr rfl)

theorem exists_huffToken (left last : ℕ) (b : BitstreamIn) :
    ∃ l last' b', HuffToken shift unset codes numcodes left last b l last' b' := by
  obtain ⟨value, b₁, hdecode⟩ : ∃ value b₁,
      (decodeOne 6 lookup b).getD (unset b) = (value, b₁) := ⟨_, _, rfl⟩
  have hsymbol := (symbol_iff htable hfree hle).mpr hdecode
  cases value with
  | zero => exact ⟨_, _, _, .repeats hsymbol⟩
  | succ value => exact ⟨_, _, _, .length hsymbol⟩

/-- What is spelled is read in as many rounds as it has tokens. -/
theorem HuffSpells.exists_huffLengths {b b' : BitstreamIn} {numbits : List ℕ} {last : ℕ}
    (h : HuffSpells shift unset codes numcodes b numbits last b') : ∃ rounds, ∀ fuel,
      huffLengths shift unset lookup numcodes (fuel + rounds) [] 0 b =
        huffLengths shift unset lookup numcodes fuel numbits last b' := by
  induction h with
  | nil => exact ⟨0, fun _ ↦ rfl⟩
  | snoc _ hlt htoken ih =>
    obtain ⟨rounds, hrounds⟩ := ih
    refine ⟨rounds + 1, fun fuel ↦ ?_⟩
    rw [← Nat.add_assoc, Nat.add_right_comm, hrounds, huffLengths_token htable hfree hle hlt htoken]

/-- **The loop of `import_tree_huffman` reads what the bit string spells.** -/
theorem huffSpells_huffLengths (b : BitstreamIn) (fuel : ℕ) : ∃ last, HuffSpells shift unset codes
    numcodes b (huffLengths shift unset lookup numcodes fuel [] 0 b).1 last
      (huffLengths shift unset lookup numcodes fuel [] 0 b).2 := by
  have hgo {fuel : ℕ} {numbits : List ℕ} {last : ℕ} {b₁ : BitstreamIn}
      (h : HuffSpells shift unset codes numcodes b numbits last b₁) :
      ∃ last', HuffSpells shift unset codes numcodes b
      (huffLengths shift unset lookup numcodes fuel numbits last b₁).1
        last' (huffLengths shift unset lookup numcodes fuel numbits last b₁).2 := by
    induction fuel generalizing numbits last b₁ with
    | zero => exact ⟨last, h⟩
    | succ fuel ih =>
      by_cases hend : numcodes ≤ numbits.length
      · rw [huffLengths, if_pos hend]
        exact ⟨last, h⟩
      · have hlt := Nat.lt_of_not_le hend
        obtain ⟨l, last', b', htoken⟩ : ∃ l last' b',
            HuffToken shift unset codes numcodes (numcodes - numbits.length) last b₁ l last' b' :=
          exists_huffToken htable hfree hle _ last b₁
        rw [huffLengths_token htable hfree hle hlt htoken]
        exact ih (h.snoc hlt htoken)
  exact hgo .nil

end Loop

end Huffman

end RoscoEmulator.Util
