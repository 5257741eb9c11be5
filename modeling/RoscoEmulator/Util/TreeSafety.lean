import RoscoEmulator.Util.TreeImport

/-!
# What an import writes

The code checks the number of nodes when they have been written, and the lengths of the codes only
for a sum that is not whole: of one bit there may be any number of codes, and sums above all strings
pass. So a run of `import_tree_rle` can go over the last node, and codes that are too many over the
last entry of the lookup table. The repeats of `import_tree_huffman` stop in time, but both of its
trees can have too many codes. -/

namespace RoscoEmulator.Util

open List PrefixCode BitString

/-- An import without an error leaves a prefix code, and none writes behind its nodes or behind its
table. -/
structure Imported.Safe (numcodes maxbits : ℕ) (i : Imported) : Prop where
  canonical : i.error = none → Canonical i.numbits i.bits
  nodes : i.numbits.length ≤ numcodes
  entries : ∀ r ∈ i.entries, ∀ k, r.1 ≤ k → k ≤ r.2 → k < 2 ^ maxbits

/-- If lengths are small enough and their sums are whole, then they are not too many. -/
def Fits (maxbits : ℕ) (numbits : List ℕ) : Prop :=
  (∀ n ∈ numbits, n ≤ maxbits) → Whole numbits 32 → kraftSum 32 numbits ≤ 2 ^ 32

variable {numcodes maxbits : ℕ} {numbits bits : List ℕ} {b : BitstreamIn}

/-! ## The lookup table -/

theorem mem_lookupRanges {r : ℕ × ℕ} : r ∈ lookupRanges maxbits bits numbits ↔
    ∃ code ∈ bits.zip numbits, 0 < code.2 ∧ lookupRange maxbits code = r := by
  simp only [lookupRanges, mem_map, mem_filter, decide_eq_true_eq, and_assoc]

/-- **The entries are in the table exactly if the codes are not too many.** -/
theorem lookupRanges_lt_iff
    (hmax : maxbits ≤ 24) (hbits : assignCanonicalCodes maxbits numbits = .ok bits) :
    (∀ r ∈ lookupRanges maxbits bits numbits, ∀ k, r.1 ≤ k → k ≤ r.2 → k < 2 ^ maxbits) ↔
      kraftSum 32 numbits ≤ 2 ^ 32 := by
  have hmax32 : maxbits ≤ 32 := hmax.trans (by decide)
  have hword : 2 ^ maxbits ≤ 2 ^ 24 := Nat.pow_le_pow_right Nat.two_pos hmax
  obtain ⟨hle, -⟩ := whole_of_assignCanonicalCodes hmax32 hbits
  constructor
  · intro hin
    by_contra hsum
    obtain ⟨n, hn, hmem⟩ := exists_code_of_kraftSum hmax32 hbits (Nat.lt_of_not_le hsum)
    have hall : 2 ^ n * 2 ^ (maxbits - n) = 2 ^ maxbits := by
      rw [← pow_add, Nat.add_sub_cancel' (hle n (of_mem_zip hmem).2)]
    have hshift : 2 ^ (maxbits - n) ≤ 2 ^ maxbits :=
      Nat.pow_le_pow_right Nat.two_pos (Nat.sub_le _ _)
    have hpos : 0 < 2 ^ (maxbits - n) := Nat.two_pow_pos _
    have hfirst : 2 ^ n * 2 ^ (maxbits - n) % 2 ^ 32 = 2 ^ maxbits := by
      rw [hall]
      omega
    have hlast : ((2 ^ n + 1) * 2 ^ (maxbits - n) % 2 ^ 32 + 2 ^ 32 - 1) % 2 ^ 32 =
        2 ^ maxbits + 2 ^ (maxbits - n) - 1 := by
      rw [Nat.add_mul, hall, Nat.one_mul]
      omega
    have hrange :
        lookupRange maxbits (2 ^ n, n) = (2 ^ maxbits, 2 ^ maxbits + 2 ^ (maxbits - n) - 1) :=
      Prod.ext hfirst hlast
    -- the first entry behind the table
    have hlt := hin _ (mem_lookupRanges.mpr ⟨_, hmem, hn, hrange⟩) (2 ^ maxbits) (Nat.le_refl _)
      (show 2 ^ maxbits ≤ 2 ^ maxbits + 2 ^ (maxbits - n) - 1 by omega)
    exact absurd hlt (Nat.lt_irrefl _)
  · rintro hsum r hr k - hk
    obtain ⟨⟨v, n⟩, hmem, hn, rfl⟩ := mem_lookupRanges.mp hr
    have hfits := (canonical_of_kraftSum hmax32 hbits hsum).fits _ hmem hn
    have hall : 2 ^ n * 2 ^ (maxbits - n) = 2 ^ maxbits := by
      rw [← pow_add, Nat.add_sub_cancel' (hle n (of_mem_zip hmem).2)]
    have hend : (v + 1) * 2 ^ (maxbits - n) ≤ 2 ^ maxbits := hall ▸ Nat.mul_le_mul_right _ hfits
    have hpos : 0 < (v + 1) * 2 ^ (maxbits - n) := Nat.mul_pos (Nat.succ_pos v) (Nat.two_pow_pos _)
    rw [lookupRange] at hk
    dsimp only at hk
    omega

theorem safe_of_assigned (hmax : maxbits ≤ 24) (hlength : numbits.length ≤ numcodes)
    {e : Option HuffmanError} (hbits : assignCanonicalCodes maxbits numbits = .ok bits) :
    (Imported.mk e numbits bits (lookupRanges maxbits bits numbits) b).Safe numcodes maxbits ↔
      Fits maxbits numbits := by
  have hmax32 : maxbits ≤ 32 := hmax.trans (by decide)
  constructor
  · exact fun h _ _ ↦ (lookupRanges_lt_iff hmax hbits).mp h.entries
  · intro hfits
    obtain ⟨hle, hwhole⟩ := whole_of_assignCanonicalCodes hmax32 hbits
    have hsum := hfits hle hwhole
    exact ⟨fun _ ↦ canonical_of_kraftSum hmax32 hbits hsum, hlength,
      (lookupRanges_lt_iff hmax hbits).mpr hsum⟩

theorem safe_of_error (hlength : numbits.length ≤ numcodes) (e : HuffmanError) :
    (Imported.mk (some e) numbits [] [] b).Safe numcodes maxbits :=
  ⟨fun h ↦ absurd h (Option.some_ne_none e), hlength, fun _ hr ↦ absurd hr not_mem_nil⟩

/-- Lengths that `assign_canonical_codes` does not take are not too many. -/
theorem fits_of_error (hmax : maxbits ≤ 24) {e : HuffmanError}
    (herror : assignCanonicalCodes maxbits numbits = .error e) : Fits maxbits numbits := by
  intro hle hwhole
  obtain ⟨starts, hbits, -⟩ := exists_giveCodes (hmax.trans (by decide)) hle hwhole
  cases herror.symm.trans hbits

/-- **The end of both imports** is safe exactly if the lengths are not more than the nodes, and not
too many. -/
theorem safe_finishImport_iff (hmax : maxbits ≤ 24) :
    (finishImport numcodes maxbits numbits b).Safe numcodes maxbits ↔
      numbits.length ≤ numcodes ∧ (numbits.length = numcodes → Fits maxbits numbits) := by
  rw [finishImport]
  by_cases hlength : numbits.length = numcodes
  · rw [if_neg (not_not.mpr hlength)]
    cases hassign : assignCanonicalCodes maxbits numbits with
    | error e =>
      exact iff_of_true (safe_of_error hlength.le e) ⟨hlength.le,
        fun _ ↦ fits_of_error hmax hassign⟩
    | ok bits =>
      refine (safe_of_assigned hmax hlength.le hassign).trans ⟨fun h ↦ ⟨hlength.le, fun _ ↦ h⟩,
        fun h ↦ h.2 hlength⟩
  · rw [if_pos hlength]
    constructor
    · exact fun h ↦ ⟨h.nodes, fun heq ↦ absurd heq hlength⟩
    · exact fun h ↦ safe_of_error h.1 _

theorem lengthBits_lt (maxbits : ℕ) : lengthBits maxbits < 32 := by
  rw [lengthBits]
  split_ifs <;> decide

/-- **`import_tree_rle` is safe** exactly if no run goes over the last node and the codes are not
too many. -/
theorem safe_rle_iff (hmax : maxbits ≤ 24) (numcodes : ℕ) (b : BitstreamIn) :
    (Imported.rle numcodes maxbits b).Safe numcodes maxbits ↔
      ∀ numbits b', Spells (lengthBits maxbits) numcodes b numbits b' →
        numbits.length ≤ numcodes ∧ (numbits.length = numcodes → Fits maxbits numbits) := by
  obtain ⟨numbits, b₁, hspells, hle⟩ := exists_spells (lengthBits_lt maxbits) numcodes b
  have hloop := importLengths_of_spells hspells hle
  have himport : Imported.rle numcodes maxbits b = finishImport numcodes maxbits numbits b₁ := by
    rw [Imported.rle, hloop]
  rw [himport, safe_finishImport_iff hmax]
  constructor
  · intro h numbits' b' hspells'
    by_cases hle' : numcodes ≤ numbits'.length
    · -- all that is spelled up to the last node is the same
      cases (importLengths_of_spells hspells' hle').symm.trans hloop
      exact h
    · exact ⟨by omega, fun heq ↦ absurd heq.ge hle'⟩
  · exact fun h ↦ h numbits b₁ hspells

/-- Codes that have the bits for their numbers have a place in the table. -/
theorem room_of_fits {codes : List (ℕ × ℕ)} (hle : ∀ code ∈ codes, code.2 ≤ maxbits)
    (hfits : ∀ code ∈ codes, 0 < code.2 → code.1 < 2 ^ code.2) :
    ∀ code ∈ codes, 0 < code.2 → (code.1 + 1) * 2 ^ (maxbits - code.2) ≤ 2 ^ maxbits := by
  intro code hcode hpos
  calc (code.1 + 1) * 2 ^ (maxbits - code.2) ≤ 2 ^ code.2 * 2 ^ (maxbits - code.2) :=
        Nat.mul_le_mul_right _ (hfits code hcode hpos)
    _ = 2 ^ maxbits := by rw [← pow_add, Nat.add_sub_cancel' (hle code hcode)]

/-! ## The small tree -/

section Huffman

variable {shift : BitVec 32 → BitVec 32} {unset : BitstreamIn → ℕ × BitstreamIn}

theorem length_smallLengths (start left index count : ℕ) (b : BitstreamIn) :
    (smallLengths shift start left index count b).1.length = left := by
  induction left generalizing index count b with
  | zero => rfl
  | succ left ih =>
    rw [smallLengths]
    split_ifs
    · exact congrArg (· + 1) (ih _ _ _)
    · exact congrArg (· + 1) (ih _ _ _)

theorem importSmall_cases (shift : BitVec 32 → BitVec 32) (b : BitstreamIn) :
    ∃ numbits b', numbits.length = 24 ∧
      ((∃ e, assignCanonicalCodes 6 numbits = .error e ∧
      importSmall shift b = ⟨some e, numbits, [], [], b'⟩) ∨
        ∃ bits, assignCanonicalCodes 6 numbits = .ok bits ∧
          importSmall shift b = ⟨none, numbits, bits, lookupRanges 6 bits numbits, b'⟩) := by
  obtain ⟨rest, hrest⟩ : ∃ rest, smallLengths shift (((b.readOn shift 3).2.readOn shift 3).1 + 1) 23
      1 0 ((b.readOn shift 3).2.readOn shift 3).2 = rest := ⟨_, rfl⟩
  have hlength : rest.1.length = 23 := hrest ▸ length_smallLengths _ _ _ _ _
  refine ⟨(b.readOn shift 3).1 :: rest.1, rest.2, congrArg (· + 1) hlength, ?_⟩
  rw [importSmall]
  dsimp only
  rw [hrest]
  cases hassign : assignCanonicalCodes 6 ((b.readOn shift 3).1 :: rest.1) with
  | error e => exact .inl ⟨e, rfl, rfl⟩
  | ok bits => exact .inr ⟨bits, rfl, rfl⟩

/-- The small tree is safe exactly if its codes are not too many. -/
theorem safe_importSmall_iff (shift : BitVec 32 → BitVec 32) (b : BitstreamIn) :
    (importSmall shift b).Safe 24 6 ↔ Fits 6 (importSmall shift b).numbits := by
  obtain ⟨numbits, b', hlength, ⟨e, hassign, himport⟩ | ⟨bits, hassign, himport⟩⟩ :=
    importSmall_cases shift b
  · rw [himport]
    exact iff_of_true (safe_of_error hlength.le e) (fits_of_error (by decide) hassign)
  · rw [himport]
    exact safe_of_assigned (by decide) hlength.le hassign

/-- A small tree whose codes are not too many has a table. -/
theorem exists_table {bits : List ℕ} (hassign : assignCanonicalCodes 6 numbits = .ok bits)
    (hfits : Fits 6 numbits) :
    PrefixFree (bits.zip numbits) ∧ (∀ code ∈ bits.zip numbits, code.2 ≤ 6) ∧
      ∃ lookup, buildLookupTable 6 0 (bits.zip numbits) (fun _ ↦ none) = some lookup ∧
        Tabulates lookup (bits.zip numbits) := by
  obtain ⟨hle, hwhole⟩ := whole_of_assignCanonicalCodes (by decide) hassign
  have hcanonical := canonical_of_kraftSum (by decide) hassign (hfits hle hwhole)
  have hsix : ∀ code ∈ bits.zip numbits, code.2 ≤ 6 := fun code hcode ↦ hle _ (of_mem_zip hcode).2
  obtain ⟨lookup, hbuild, hspec⟩ :=
    buildLookupTable_spec (room_of_fits hsix hcanonical.fits) 0 fun _ ↦ none
  refine ⟨hcanonical.prefixFree, hsix, lookup, hbuild, fun i ↦ ?_⟩
  have hentry := hspec i
  simp only [Nat.zero_add] at hentry
  exact hentry

/-! ## Both imports -/

/-- A bit string whose runs end at the last node at most, and whose codes are not too many. -/
def RleFits (numcodes maxbits : ℕ) (b : BitstreamIn) : Prop :=
  ∀ numbits b', Spells (lengthBits maxbits) numcodes b numbits b' →
    numbits.length ≤ numcodes ∧ (numbits.length = numcodes → Fits maxbits numbits)

/-- A bit string neither of whose trees has too many codes. -/
def HuffmanFits (shift : BitVec 32 → BitVec 32) (unset : BitstreamIn → ℕ × BitstreamIn)
    (numcodes maxbits : ℕ) (b : BitstreamIn) : Prop :=
  ∀ small b₁, SmallTree shift b small b₁ →
    Fits 6 small ∧ ∀ bits, assignCanonicalCodes 6 small = .ok bits →
    ∀ numbits last b₂, HuffSpells shift unset (bits.zip small) numcodes b₁ numbits last b₂ →
      numbits.length = numcodes → Fits maxbits numbits

/-- **`import_tree_huffman` is safe** exactly if neither tree has too many codes. -/
theorem safe_importTreeHuffman_iff (hmax : maxbits ≤ 24) (numcodes : ℕ) (b : BitstreamIn) :
    (∀ fuel, (importTreeHuffman shift unset numcodes maxbits fuel b).1.Safe 24 6 ∧
      (importTreeHuffman shift unset numcodes maxbits fuel b).2.Safe numcodes maxbits) ↔
        HuffmanFits shift unset numcodes maxbits b := by
  have hsmall := safe_importSmall_iff shift b
  have htree {small : List ℕ} {b₁ : BitstreamIn} : SmallTree shift b small b₁ ↔ _ := smallTree_iff
  obtain ⟨small, b₁, -, ⟨e, hassign, himport⟩ | ⟨bits, hassign, himport⟩⟩ :=
    importSmall_cases shift b
  · -- no codes for the small tree
    have hrun (fuel : ℕ) : importTreeHuffman shift unset numcodes maxbits fuel b =
        (importSmall shift b, ⟨some e, [], [], [], b₁⟩) := by
      rw [importTreeHuffman, himport]
    rw [himport] at hsmall htree
    refine iff_of_true (fun fuel ↦ ?_) fun small' b' hsmall' ↦ ?_
    · rw [hrun fuel, himport]
      exact ⟨hsmall.mpr (fits_of_error (by decide) hassign), safe_of_error (Nat.zero_le _) e⟩
    · obtain ⟨rfl, rfl⟩ := htree.mp hsmall'
      exact ⟨fits_of_error (by decide) hassign, fun bits hbits ↦ by cases hassign.symm.trans hbits⟩
  · rw [himport] at hsmall htree
    have hthis : SmallTree shift b small b₁ := htree.mpr ⟨rfl, rfl⟩
    by_cases hfits : Fits 6 small
    · obtain ⟨hfree, hle, lookup, hbuild, htable⟩ := exists_table hassign hfits
      have hrun (fuel : ℕ) :
          importTreeHuffman shift unset numcodes maxbits fuel b = (importSmall shift b,
          if (huffLengths shift unset lookup numcodes fuel [] 0 b₁).1.length < numcodes then
            ⟨some .undefined, (huffLengths shift unset lookup numcodes fuel [] 0 b₁).1, [], [],
              (huffLengths shift unset lookup numcodes fuel [] 0 b₁).2⟩
          else finishImport numcodes maxbits (huffLengths shift unset lookup numcodes fuel
            [] 0 b₁).1 (huffLengths shift unset lookup numcodes fuel [] 0 b₁).2) := by
        rw [importTreeHuffman, himport]
        rw [hbuild]
        dsimp only
        split_ifs
        · rfl
        · rfl
      constructor
      · intro hsafe small' b' hsmall'
        obtain ⟨rfl, rfl⟩ := htree.mp hsmall'
        refine ⟨hfits, fun bits' hbits numbits last b₂ hspells hlength ↦ ?_⟩
        cases hassign.symm.trans hbits
        obtain ⟨rounds, hrounds⟩ := hspells.exists_huffLengths htable hfree hle
        have hmain := (hsafe (1 + rounds)).2
        have hread :
            huffLengths shift unset lookup numcodes (1 + rounds) [] 0 b₁ = (numbits, b₂) := by
          rw [hrounds, huffLengths, if_pos hlength.ge]
        rw [hrun, hread] at hmain
        rw [if_neg (Nat.not_lt.mpr hlength.ge)] at hmain
        exact ((safe_finishImport_iff hmax).mp hmain).2 hlength
      · intro hall fuel
        obtain ⟨last, hspells⟩ : ∃ last,
            HuffSpells shift unset (bits.zip small) numcodes b₁ _ last _ :=
          huffSpells_huffLengths htable hfree hle b₁ fuel
        rw [hrun fuel]
        refine ⟨himport ▸ hsmall.mpr hfits, ?_⟩
        split_ifs
        · exact safe_of_error hspells.length_le _
        · exact (safe_finishImport_iff hmax).mpr
            ⟨hspells.length_le, (hall small b₁ hthis).2 bits hassign _ last _ hspells⟩
    · -- too many codes in the small tree
      refine iff_of_false (fun hsafe ↦ hfits ?_) fun hall ↦ hfits (hall small b₁ hthis).1
      have hfirst :
          (importTreeHuffman shift unset numcodes maxbits 0 b).1 = importSmall shift b := by
        rw [importTreeHuffman]
        dsimp only
        split
        · rfl
        · rfl
        · split_ifs
          · rfl
          · rfl
      refine hsmall.mp ?_
      rw [← himport, ← hfirst]
      exact (hsafe 0).1

/-- **The imports are safe on exactly the bit strings whose runs end at the last node at most and
whose trees have not too many codes.** -/
theorem safe_imports_iff (numcodes maxbits : ℕ) (hmax : maxbits ≤ 24)
    (shift : BitVec 32 → BitVec 32) (unset : BitstreamIn → ℕ × BitstreamIn) (b : BitstreamIn) :
    ((Imported.rle numcodes maxbits b).Safe numcodes maxbits ↔ RleFits numcodes maxbits b) ∧
      ((∀ fuel, (importTreeHuffman shift unset numcodes maxbits fuel b).1.Safe 24 6 ∧
        (importTreeHuffman shift unset numcodes maxbits fuel b).2.Safe numcodes maxbits) ↔
          HuffmanFits shift unset numcodes maxbits b) :=
  ⟨safe_rle_iff hmax numcodes b, safe_importTreeHuffman_iff hmax numcodes b⟩

/-- The lengths 1, 2, 0 and 2 in two bytes. -/
theorem safe_imports_iff_run : (Imported.rle 4 2 (BitstreamIn.start [0x25, 0x04])).error = none ∧
    RleFits 4 2 (BitstreamIn.start [0x25, 0x04]) := by
  refine ⟨by decide, ?_⟩
  refine (safe_imports_iff 4 2 (by decide) (· <<< 32) (fun b ↦ (0, b)) _).1.mp
    ⟨fun _ ↦ ⟨?_, ?_, ?_⟩, ?_, ?_⟩
  · decide
  · decide
  · decide
  · decide
  · have hentries : (Imported.rle 4 2 (BitstreamIn.start [0x25, 0x04])).entries =
        [(2, 3), (0, 0), (1, 1)] := by decide
    rw [hentries]
    intro r hr k hfirst hlast
    have hlt : ∀ r ∈ [(2, 3), (0, 0), (1, 1)], r.2 < 2 ^ 2 := by decide
    exact Nat.lt_of_le_of_lt hlast (hlt r hr)

/-- A run of ten lengths for four nodes, four codes of one bit in a table of four entries, and four
codes of one bit in the small tree. -/
theorem not_safe_imports :
    ¬ (Imported.rle 4 2 (BitstreamIn.start [0x2b, 0x80])).Safe 4 2 ∧
      ¬ (Imported.rle 4 2 (BitstreamIn.start [0x24, 0x92, 0x49])).Safe 4 2 ∧
        ¬ (importTreeHuffman (· <<< 32) (fun b ↦ (0, b)) 4 2 8
        (BitstreamIn.start [0x20, 0x92, 0x78])).1.Safe 24 6 := by
  refine ⟨fun h ↦ ?_, fun h ↦ ?_, fun h ↦ ?_⟩
  · exact absurd h.nodes (by decide)
  · exact absurd (h.entries (4, 5) (by decide) 4 (by decide) (by decide)) (by decide)
  · exact absurd (h.entries (64, 95) (by decide) 64 (by decide) (by decide)) (by decide)

end Huffman

end RoscoEmulator.Util
