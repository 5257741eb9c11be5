import RoscoEmulator.Util.TreeExport

/-!
# The Huffman codec for bytes

`huffman_8bit_encoder::encode` and `huffman_8bit_decoder::decode`: a tree for 256 codes of 16 bits
at most, and the code of each byte behind it. The decoder looks at 16 bits for every code, and for
the last ones these are not there. -/

namespace RoscoEmulator.Util

open List PrefixCode BitString

namespace Huffman8bit

/-- `huffman_8bit_encoder::encode`, if its searches end within `fuel` rounds: the buffer and
`complength`. -/
def encode (source dest : List (BitVec 8)) (fuel : ℕ) :
    Option (Except HuffmanError (List (BitVec 8) × ℕ)) :=
  match computeTreeFromHisto 16 (histogram 256 (source.map BitVec.toNat)) fuel with
  | none => none
  | some (.error e) => some (.error e)
  | some (.ok e) =>
      (e.exportTreeHuffman fuel (.into dest)).map fun exported ↦
        match exported with
        | .error e => .error e
        | .ok o =>
            match o.writeAll (source.map fun data ↦ e.codeBits data.toNat) with
            | none => .error .undefined
            | some o =>
                if o.flush.overflow then .error .outputBufferTooSmall
                  else .ok (o.flush.dest, o.flush.doffset)

/-- The loop of `decode`. -/
def decodeAll (unset : BitstreamIn → ℕ × BitstreamIn) (lookup : Lookup) :
    ℕ → BitstreamIn → List (BitVec 8) × BitstreamIn
  | 0, b => ([], b)
  | dlength + 1, b =>
      let (data, b) := (decodeOne 16 lookup b).getD (unset b)
      let (dest, b) := decodeAll unset lookup dlength b
      (BitVec.ofNat 8 data :: dest, b)

/-- `huffman_8bit_decoder::decode`, after at most `fuel` rounds of the import of the tree. What
`decode_one` makes of entries that have not been written is `unsetSmall` for the small tree and
`unset` for the tree. -/
def decode (shift : BitVec 32 → BitVec 32) (unsetSmall unset : BitstreamIn → ℕ × BitstreamIn)
    (fuel : ℕ) (source : List (BitVec 8)) (dlength : ℕ) : Except HuffmanError (List (BitVec 8)) :=
  let tree := (importTreeHuffman shift unsetSmall 256 16 fuel (.start source)).2
  match tree.error, buildLookupTable 16 0 (tree.bits.zip tree.numbits) fun _ ↦ none with
  | some e, _ => .error e
  | none, none => .error .undefined
  | none, some lookup =>
      let (dest, b) := decodeAll unset lookup dlength tree.bitbuf
      if b.flush.2.overflow then .error .inputBufferTooSmall else .ok dest

/-! ## What is encoded -/

section Encode

variable {source dest : List (BitVec 8)} {fuel : ℕ}

theorem writeAll_append {fields rest : List (ℕ × ℕ)} {o o' : BitstreamOut}
    (h : BitstreamOut.writeAll fields o = some o') :
    BitstreamOut.writeAll (fields ++ rest) o = BitstreamOut.writeAll rest o' := by
  induction fields generalizing o with
  | nil =>
    cases Option.some.inj h
    rfl
  | cons f fields ih =>
    obtain ⟨o₁, hwrite, hrest⟩ := Option.bind_eq_some_iff.mp h
    rw [cons_append, BitstreamOut.writeAll, hwrite]
    exact ih hrest

/-- **What `encode` returns** are the bytes of the fields of the tree and the codes of the data. -/
theorem exists_fields {out : List (BitVec 8)} {complength : ℕ}
    (h : encode source dest fuel = some (.ok (out, complength))) : ∃ e fields o,
    computeTreeFromHisto 16 (histogram 256 (source.map BitVec.toNat)) fuel = some (.ok e) ∧
      huffmanFields e.numbits fuel = some fields ∧
        BitstreamOut.writeAll (fields ++ source.map fun data ↦ e.codeBits data.toNat)
        (.into dest) = some o ∧
          o.flush.overflow = false ∧ out = o.flush.dest ∧ complength = o.flush.doffset := by
  rw [encode] at h
  split at h
  · cases h
  · cases h
  · next e htree =>
    obtain ⟨exported, hexport, hdata⟩ := Option.map_eq_some_iff.mp h
    obtain ⟨fields, hfields, rfl⟩ := Option.map_eq_some_iff.mp hexport
    split at hdata
    · cases hdata
    · next o₁ hexported =>
      split at hexported
      · cases hexported
      · next o₁' hwrite =>
        split_ifs at hexported
        cases hexported
        split at hdata
        · cases hdata
        · next o hall =>
          split_ifs at hdata with hover
          cases hdata
          refine ⟨e, fields, o, htree, hfields, ?_, eq_false_of_ne_true hover, rfl, rfl⟩
          rw [writeAll_append hwrite, hall]

end Encode

/-! ## What is decoded -/

section Decode

open BitstreamIn

variable {maxbits : ℕ} {histo : List ℕ} {e : HuffmanEncoder} {src : List (BitVec 8)} {limit pos : ℕ}
    {b : BitstreamIn}

theorem exists_lookup (h : e.Encodes maxbits histo) :
    ∃ lookup, buildLookupTable maxbits 0 e.codes (fun _ ↦ none) = some lookup ∧
      ∀ data code i, e.codes[data]? = some code → 0 < code.2 → i / 2 ^ (maxbits - code.2) = code.1 →
        lookup i = some (data, code.2) := by
  obtain ⟨lookup, hbuild, hspec⟩ :=
    buildLookupTable_spec (room_of_fits h.le_maxbits h.canonical.fits) 0 fun _ ↦ none
  refine ⟨lookup, hbuild, fun data code i hget hpos hdiv ↦ ?_⟩
  have hmem := mem_of_getElem? hget
  rcases hspec i with ⟨data', code', hget', hpos', hdiv', hlookup⟩ | ⟨hnone, -⟩
  · obtain rfl := h.canonical.prefixFree.eq_of_div hget hget' ⟨hpos, hpos'⟩
      ⟨h.le_maxbits code hmem, h.le_maxbits code' (mem_of_getElem? hget')⟩ hdiv hdiv'
    cases hget.symm.trans hget'
    rw [hlookup, Nat.zero_add]
  · exact absurd hdiv (hnone code hmem hpos)

/-- **The data is decoded from its codes.** -/
theorem decodeAll_of_sees (hlimit : limit ≤ 8 * 2 ^ 32) {lookup : Lookup} (hlookup : ∀ data code i,
    e.codes[data]? = some code → 0 < code.2 → i / 2 ^ (16 - code.2) = code.1 →
      lookup i = some (data, code.2)) (unset : BitstreamIn → ℕ × BitstreamIn) {source :
      List (BitVec 8)}
    (hcodes : ∀ data ∈ source, e.HasCode 16 data.toNat)
    (hsees : Sees src limit b pos (source.map fun data ↦ e.codeBits data.toNat)) : ∃ b' pos',
    decodeAll unset lookup source.length b = (source, b') ∧ Sees src limit b' pos' [] := by
  induction source generalizing b pos with
  | nil => exact ⟨b, pos, rfl, hsees⟩
  | cons data source ih =>
    obtain ⟨hget, hpos, hle, hfits⟩ := hcodes data mem_cons_self
    obtain ⟨hfront, hsees₁⟩ := hsees.front hlimit hle (by decide) hfits
    rw [← front_div _ hpos hle (by decide)] at hfront
    have hone : decodeOne 16 lookup b =
        some (data.toNat, (b.prepare 16).remove (e.codeBits data.toNat).2) := by
      rw [decodeOne]
      rw [hlookup _ _ _ hget hpos hfront]
      rfl
    obtain ⟨b', pos', hall, hsees'⟩ := ih (fun d hd ↦ hcodes d (mem_cons_of_mem _ hd)) hsees₁
    refine ⟨b', pos', ?_, hsees'⟩
    rw [length_cons, decodeAll, hone]
    dsimp only [Option.getD_some]
    rw [hall, BitVec.ofNat_toNat, BitVec.setWidth_eq]

/-- After `flush` a reader in front of the end of its data has not gone over it. -/
theorem not_overflow_flush (h : b.At pos) (hpos : pos ≤ 8 * b.data.length)
    (hlength : b.data.length < 2 ^ 32) : b.flush.2.overflow = false := by
  have hoffset : b.flush.2.doffset = (pos + 7) / 8 := h.readOffset (by omega)
  have hbits : b.flush.2.bits = 0 := rfl
  have hdata : b.flush.2.data = b.data := rfl
  rw [BitstreamIn.overflow, decide_eq_false_iff_not, hdata, hbits, hoffset]
  omega

end Decode

/-! ## The round trip -/

section RoundTrip

open BitstreamIn

/-- **Bytes that have been encoded are decoded**, whatever the buffer held. -/
theorem decode_encode (shift : BitVec 32 → BitVec 32)
    (unsetSmall unset : BitstreamIn → ℕ × BitstreamIn)
    (source dest : List (BitVec 8)) (hsource : source.length < 2 ^ 30)
    (hdest : dest.length < 2 ^ 32) (fuel : ℕ) (out : List (BitVec 8)) (complength : ℕ)
    (h : encode source dest fuel = some (.ok (out, complength))) :
    ∃ rounds, ∀ fuel', rounds ≤ fuel' →
      decode shift unsetSmall unset fuel' (out.take complength) source.length = .ok source := by
  obtain ⟨e, fields, o, htree, hfields, hwrite, hover, rfl, rfl⟩ := exists_fields h
  -- the tree of the encoder
  have hlength : (histogram 256 (source.map BitVec.toNat)).length = 256 := by
    rw [histogram, length_map, length_range]
  have hsum : (histogram 256 (source.map BitVec.toNat)).sum < 2 ^ 30 := by
    refine (sum_histogram_le 256 _).trans_lt ?_
    rwa [length_map]
  have hencodes := encodes_of_computeTree hsum (by decide) htree
  have hnumbits : e.numbits.length = 256 := hencodes.lengths.length.trans hlength
  have hsmall : ∀ n ∈ e.numbits, n < 22 :=
    fun n hn ↦ (hencodes.lengths.le_maxbits n hn).trans_lt (by decide)
  have hcodes : ∀ data ∈ source, e.HasCode 16 data.toNat := by
    intro data hdata
    have hlt : data.toNat < 256 := data.isLt
    refine hencodes.hasCode (hlength.symm ▸ hlt) ?_
    rw [getD_histogram hlt]
    exact (List.count_pos_iff.mpr (mem_map_of_mem hdata)).ne'
  -- the bits that have been written
  have hwidths : ∀ f ∈ source.map fun data ↦ e.codeBits data.toNat, f.2 ≤ 16 := by
    intro f hf
    obtain ⟨data, hdata, rfl⟩ := List.mem_map.mp hf
    exact (hcodes data hdata).2.2.1
  obtain ⟨htreewidths, htreelength⟩ := huffmanFields_le (by omega) hsmall hfields
  have hle : ∀ f ∈ fields ++ source.map fun data ↦ e.codeBits data.toNat, f.2 ≤ 32 := by
    intro f hf
    rcases List.mem_append.mp hf with hf | hf
    · exact (htreewidths f hf).trans (by decide)
    · exact (hwidths f hf).trans (by decide)
  have hcount : (bitsOf (fields ++ source.map fun data ↦ e.codeBits data.toNat)).length ≤
      8 * (2 ^ 32 - 1) := by
    have htreebits := length_bitsOf_le htreewidths
    have hdatabits := length_bitsOf_le hwidths
    rw [length_map] at hdatabits
    rw [bitsOf_append, length_append]
    omega
  have hroom := BitstreamOut.room_of_flush hle hcount hwrite hover
  obtain ⟨o', hwrite', hwrote, hdest'⟩ := (BitstreamOut.wrote_into dest).writeAll hle
    (by rwa [length_nil, Nat.zero_add]) hdest
  cases Option.some.inj (hwrite'.symm.trans hwrite)
  have hdestlength : o.dest.length = dest.length := hdest'
  rw [nil_append] at hwrote
  obtain ⟨hdoffset, hflushed, hbits⟩ :=
    hwrote.flush (by rwa [hdestlength]) (hdestlength.trans_lt hdest)
  -- the reader in front of them
  obtain ⟨src, hsrc⟩ : ∃ src, src = o.flush.dest.take o.flush.doffset := ⟨_, rfl⟩
  have hin : o.flush.doffset ≤ o.flush.dest.length := by
    rw [hdoffset, hflushed, hdestlength]
    omega
  have hsrclength : src.length = o.flush.doffset := by rw [hsrc, length_take, Nat.min_eq_left hin]
  have hsrclt : src.length < 2 ^ 32 := by
    rw [hsrclength]
    rw [hflushed, hdestlength] at hin
    omega
  have hbytes : o.flush.dest.take o.flush.doffset <+: src := hsrc ▸ prefix_refl _
  have hsees : Sees src (8 * o.flush.doffset) (.start src) 0
      (fields ++ source.map fun data ↦ e.codeBits data.toNat) := by
    refine ⟨ready_start src _, fun i hi ↦ ?_, by rw [hdoffset]; omega⟩
    rw [Nat.zero_add, bitAt_of_take hbytes hin (by rw [hdoffset]; omega),
      hbits i (by rw [hdoffset]; omega)]
  have hlimit : 8 * o.flush.doffset ≤ 8 * 2 ^ 32 := by omega
  obtain ⟨b₁, pos₁, hsees₁, rounds, himport⟩ := importTreeHuffman_of_sees shift unsetSmall hlimit
    (by omega) (by omega) hsmall hencodes.assigned hfields hsees
  obtain ⟨lookup, hbuild, hlookup⟩ := exists_lookup hencodes
  obtain ⟨b₂, pos₂, hall, hsees₂⟩ := decodeAll_of_sees hlimit hlookup unset hcodes hsees₁
  refine ⟨rounds, fun fuel' hfuel ↦ ?_⟩
  have hinside : b₂.flush.2.overflow = false := by
    have hend := hsees₂.room
    refine not_overflow_flush hsees₂.ready.toAt ?_ ?_
    · rw [hsees₂.ready.data_eq]
      omega
    · rwa [hsees₂.ready.data_eq]
  have himported := himport fuel' hfuel
  rw [hnumbits] at himported
  rw [← hsrc, decode, himported]
  rw [show e.bits.zip e.numbits = e.codes from rfl, hbuild]
  dsimp only
  rw [hall]
  rw [hinside]
  rfl

/-- Eight bytes of four kinds in ten. -/
theorem decode_encode_byte : ∃ rounds, ∀ fuel', rounds ≤ fuel' →
    decode (· <<< 32) (fun b ↦ (0, b)) (fun b ↦ (0, b)) fuel'
      (take 10 [0x41, 0x36, 0xbc, 0xf5, 0x70, 0x7e, 0x7c, 0x8d, 0x8c, 0xa0, 0x00, 0x00])
      (List.length [0x61, 0x62, 0x61, 0x63, 0x61, 0x61, 0x64, 0x62]) =
        .ok [0x61, 0x62, 0x61, 0x63, 0x61, 0x61, 0x64, 0x62] :=
  decode_encode (· <<< 32) (fun b ↦ (0, b)) (fun b ↦ (0, b)) [0x61, 0x62, 0x61, 0x63, 0x61, 0x61,
    0x64, 0x62] (replicate 12 0) (by decide) (by decide) 8
    [0x41, 0x36, 0xbc, 0xf5, 0x70, 0x7e, 0x7c, 0x8d, 0x8c, 0xa0, 0x00, 0x00] 10 (by decide +kernel)

end RoundTrip

end Huffman8bit

end RoscoEmulator.Util
