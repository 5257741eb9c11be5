import RoscoEmulator.Util.TreeRoundTrip
import RoscoEmulator.Util.TreeSafety

/-!
# A tree in the codes of a small tree

`export_tree_huffman` writes the lengths of the codes as data for a second tree: a 0 is a repeat,
with its length behind it, and any other number is a length and one more. The lengths of the second
tree go out in three bits each, from the first one that is used to the last, with a 7 behind them.

`import_tree_huffman` reads all that back, whatever is behind it.
-/

namespace RoscoEmulator.Util

open List PrefixCode BitString

/-- The counts of `histo_one`. -/
def histogram (numcodes : ℕ) (data : List ℕ) : List ℕ := (range numcodes).map fun c ↦ data.count c

/-! ## What is written -/

/-- The data of a repeat that ends, each with its length if it is a 0. -/
def flushRepeat (next repcount : ℕ) : List (ℕ × ℕ) :=
  if repcount = 0 then []
  else if repcount = 1 then [(next % 256, 0)]
  else [(0, (repcount - 2) % 2 ^ 16)]

/-- The data for the lengths of the codes. The length before is one less than `next`: it begins with
−1. -/
def rleData : List ℕ → ℕ → ℕ → List (ℕ × ℕ)
  | [], next, repcount => flushRepeat next repcount
  | newval :: numbits, next, repcount =>
      if newval + 1 = next then rleData numbits next (repcount + 1)
      else flushRepeat next repcount ++ ((newval + 1) % 256, 0) :: rleData numbits (newval + 1) 0

/-- The small tree. Nobody looks at the result of its `compute_tree_from_histo`. -/
def smallEncoder (data : List (ℕ × ℕ)) (fuel : ℕ) : Option HuffmanEncoder :=
  let histo := histogram 24 (data.map Prod.fst)
  (searchLoop 6 histo (dataCount histo) fuel 0 (dataCount histo * 2 % 2 ^ 32)).map fun numbits ↦
    ⟨numbits, (assignCanonicalCodes 6 numbits).toOption.getD (numbits.map fun _ ↦ 0)⟩

/-- `first_non_zero`, for the nodes from `index` on. -/
def firstNonZero : ℕ → List ℕ → ℕ → ℕ
  | _, [], first => first
  | index, n :: numbits, first =>
      firstNonZero (index + 1) numbits (if n ≠ 0 ∧ first = 31 then index else first)

/-- `last_non_zero`, for the nodes from `index` on. -/
def lastNonZero : ℕ → List ℕ → ℕ → ℕ
  | _, [], last => last
  | index, n :: numbits, last => lastNonZero (index + 1) numbits (if n ≠ 0 then index else last)

/-- The fields of the small tree. -/
def smallFields (numbits : List ℕ) : List (ℕ × ℕ) :=
  let first := min (firstNonZero 1 numbits.tail 31) 8
  let last := lastNonZero 1 numbits.tail 0
  (numbits.getD 0 0, 3) :: (first - 1, 3) ::
    ((range' first (last + 1 - first)).map (fun index ↦ (numbits.getD index 0, 3)) ++ [(7, 3)])

/-- The fields of a repeat. -/
def repeatFields (rlefullbits count : ℕ) : List (ℕ × ℕ) :=
  if count < 7 then [(count, 3)] else [(7, 3), (count - 7, rlefullbits)]

/-- The fields of the data. -/
def dataFields (small : HuffmanEncoder) (rlefullbits : ℕ) : List (ℕ × ℕ) → List (ℕ × ℕ)
  | [] => []
  | (data, count) :: rest =>
      small.codeBits data :: ((if data = 0 then repeatFields rlefullbits count else []) ++
        dataFields small rlefullbits rest)

/-- What `export_tree_huffman` writes, if the search for the small tree ends within `fuel`
rounds. -/
def huffmanFields (numbits : List ℕ) (fuel : ℕ) : Option (List (ℕ × ℕ)) :=
  (smallEncoder (rleData numbits 0 0) fuel).map fun small ↦
    smallFields small.numbits ++ dataFields small (rleFullBits numbits.length) (rleData numbits 0 0)

/-- `export_tree_huffman`. -/
def HuffmanEncoder.exportTreeHuffman (e : HuffmanEncoder) (fuel : ℕ) (o : BitstreamOut) :
    Option (Except HuffmanError BitstreamOut) :=
  (huffmanFields e.numbits fuel).map fun fields ↦
    match o.writeAll fields with
    | none => .error .undefined
    | some o => if o.overflow then .error .outputBufferTooSmall else .ok o

/-! ## The codes of an encoder -/

/-- What `compute_tree_from_histo` leaves for a histogram. -/
structure HuffmanEncoder.Encodes (maxbits : ℕ) (histo : List ℕ) (e : HuffmanEncoder) : Prop where
  lengths : Lengths maxbits histo e.numbits
  canonical : Canonical e.numbits e.bits
  assigned : assignCanonicalCodes maxbits e.numbits = .ok e.bits

section Encodes

variable {maxbits : ℕ} {histo numbits : List ℕ} {e : HuffmanEncoder}

variable {fuel : ℕ}

theorem lengths_of_searchLoop (hsum : histo.sum < 2 ^ 30) {lowerweight upperweight : ℕ}
    (hlower : lowerweight ≤ 2 * histo.sum) (hupper : upperweight ≤ 2 * histo.sum)
    (h : searchLoop maxbits histo histo.sum fuel lowerweight upperweight = some numbits) :
    Lengths maxbits histo numbits := by
  induction fuel generalizing lowerweight upperweight with
  | zero => exact absurd h.symm (Option.some_ne_none numbits)
  | succ fuel ih =>
    have hcur : (upperweight + lowerweight) % 2 ^ 32 / 2 ≤ 2 * histo.sum := by omega
    obtain ⟨lengths, hnodes, -, hlengths, -⟩ := exists_numbits maxbits hsum hcur
    rw [searchLoop, hnodes] at h
    dsimp only at h
    split_ifs at h with hmax
    · cases Option.some.inj h
      exact hlengths hmax
    · exact ih hcur hupper h
    · exact ih hlower hcur h

/-- The search of `compute_tree_from_histo`, when it ends. -/
theorem lengths_of_search (hsum : histo.sum < 2 ^ 30) (h : searchLoop maxbits histo
    (dataCount histo) fuel 0 (dataCount histo * 2 % 2 ^ 32) = some numbits) :
    Lengths maxbits histo numbits := by
  rw [dataCount_eq (by omega)] at h
  exact lengths_of_searchLoop hsum (Nat.zero_le _) (by omega) h

theorem Lengths.encodes (h : Lengths maxbits histo numbits) (hmax : maxbits ≤ 32) {bits : List ℕ}
    (hbits : assignCanonicalCodes maxbits numbits = .ok bits) :
    HuffmanEncoder.Encodes maxbits histo ⟨numbits, bits⟩ :=
  ⟨h, canonical_of_kraftSum hmax hbits (h.whole hmax).2, hbits⟩

/-- **The encoder that `compute_tree_from_histo` computes.** -/
theorem encodes_of_computeTree (hsum : histo.sum < 2 ^ 30) (hmax : maxbits ≤ 32)
    (h : computeTreeFromHisto maxbits histo fuel = some (.ok e)) : e.Encodes maxbits histo := by
  obtain ⟨numbits, hsearch, hcodes⟩ := Option.map_eq_some_iff.mp h
  cases hassign : assignCanonicalCodes maxbits numbits with
  | error _ =>
    rw [hassign] at hcodes
    cases hcodes
  | ok bits =>
    rw [hassign] at hcodes
    cases hcodes
    exact (lengths_of_search hsum hsearch).encodes hmax hassign

namespace HuffmanEncoder

/-- The codes of an encoder, each with its number of bits. -/
def codes (e : HuffmanEncoder) : List (ℕ × ℕ) := e.bits.zip e.numbits

theorem Encodes.le_maxbits (h : e.Encodes maxbits histo) : ∀ code ∈ e.codes, code.2 ≤ maxbits :=
  fun _ hcode ↦ h.lengths.le_maxbits _ (of_mem_zip hcode).2

/-- The data has a code, and that is written for it. -/
def HasCode (e : HuffmanEncoder) (maxbits data : ℕ) : Prop :=
  e.codes[data]? = some (e.codeBits data) ∧ 0 < (e.codeBits data).2 ∧
    (e.codeBits data).2 ≤ maxbits ∧ (e.codeBits data).1 < 2 ^ (e.codeBits data).2

theorem Encodes.hasCode (h : e.Encodes maxbits histo) {data : ℕ} (hdata : data < histo.length)
    (hoccurs : histo.getD data 0 ≠ 0) : e.HasCode maxbits data := by
  have hnumbits : data < e.numbits.length := h.lengths.length.symm ▸ hdata
  have hbits : data < e.bits.length := h.canonical.length.symm ▸ hnumbits
  have hget : e.codes[data]? = some (e.codeBits data) := by
    rw [codes, List.getElem?_zip_eq_some, codeBits, List.getElem?_eq_getElem hbits,
      List.getElem?_eq_getElem hnumbits, getD_eq_getElem _ _ hbits, getD_eq_getElem _ _ hnumbits]
    exact ⟨rfl, rfl⟩
  have hmem := mem_of_getElem? hget
  have hpos := (h.lengths.pos_iff data hdata).mpr hoccurs
  exact ⟨hget, hpos, h.le_maxbits _ hmem, h.canonical.fits _ hmem hpos⟩

/-- Codes of an encoder are not too many. -/
theorem Encodes.fits (h : e.Encodes maxbits histo) (hmax : maxbits ≤ 32) : Fits maxbits e.numbits :=
  fun _ _ ↦ (h.lengths.whole hmax).2

end HuffmanEncoder

/-- There are as many counts as data at most. -/
theorem sum_histogram_le (numcodes : ℕ) (data : List ℕ) :
    (histogram numcodes data).sum ≤ data.length := by
  induction data with
  | nil => simp [histogram]
  | cons d data ih =>
    have hsplit : (histogram numcodes (d :: data)).sum =
        (histogram numcodes data).sum +
        ((range numcodes).map fun c ↦ if d = c then 1 else 0).sum := by
      rw [histogram, histogram, ← sum_map_add]
      simp only [count_cons, beq_iff_eq]
    have hone (n : ℕ) :
        ((range n).map fun c ↦ if d = c then 1 else 0).sum = if d < n then 1 else 0 := by
      induction n with
      | zero => rfl
      | succ n ih =>
        rw [range_succ, map_append, sum_append, ih, map_singleton, sum_singleton]
        split_ifs <;> omega
    have hle := (hone numcodes).trans_le (by split_ifs <;> omega : _ ≤ 1)
    rw [hsplit, length_cons]
    omega

theorem getD_histogram {numcodes c : ℕ} (hc : c < numcodes) (data : List ℕ) :
    (histogram numcodes data).getD c 0 = data.count c := by
  rw [getD_eq_getElem _ _ (by rwa [histogram, length_map, length_range])]
  simp only [histogram, getElem_map, getElem_range]

end Encodes

/-! ## The small tree -/

section SmallTree

open BitstreamIn

variable {shift : BitVec 32 → BitVec 32} {src : List (BitVec 8)} {limit pos : ℕ} {b : BitstreamIn}
    {numbits : List ℕ}

theorem firstNonZero_of_ne {first : ℕ} (h : first ≠ 31) (index : ℕ) (numbits : List ℕ) :
    firstNonZero index numbits first = first := by
  induction numbits generalizing index with
  | nil => rfl
  | cons n numbits ih => rw [firstNonZero, if_neg fun hn ↦ h hn.2, ih]

theorem firstNonZero_le (numbits : List ℕ) {index : ℕ} (hindex : index + numbits.length ≤ 31) :
    index ≤ firstNonZero index numbits 31 ∧
      ∀ k, numbits.getD k 0 ≠ 0 → firstNonZero index numbits 31 ≤ index + k := by
  induction numbits generalizing index with
  | nil => exact ⟨hindex, fun k hk ↦ absurd getD_nil hk⟩
  | cons n numbits ih =>
    rw [length_cons] at hindex
    rw [firstNonZero]
    by_cases hn : n = 0
    · rw [if_neg fun h ↦ h.1 hn]
      obtain ⟨hle, hall⟩ := ih (show index + 1 + numbits.length ≤ 31 by omega)
      refine ⟨by omega, fun k hk ↦ ?_⟩
      cases k with
      | zero => exact absurd hn hk
      | succ k =>
        have hnode := hall k hk
        omega
    · rw [if_pos ⟨hn, rfl⟩, firstNonZero_of_ne (by omega)]
      exact ⟨Nat.le_refl _, fun k _ ↦ Nat.le_add_right _ _⟩

theorem le_lastNonZero (numbits : List ℕ) {index last : ℕ} (hlast : last ≤ index) :
    last ≤ lastNonZero index numbits last ∧ ∀ k, numbits.getD k 0 ≠ 0 →
      index + k ≤ lastNonZero index numbits last := by
  induction numbits generalizing index last with
  | nil => exact ⟨Nat.le_refl _, fun k hk ↦ absurd getD_nil hk⟩
  | cons n numbits ih =>
    rw [lastNonZero]
    obtain ⟨hle, hall⟩ :=
      ih (show (if n ≠ 0 then index else last) ≤ index + 1 by split_ifs <;> omega)
    refine ⟨(by split_ifs <;> omega : last ≤ _).trans hle, fun k hk ↦ ?_⟩
    cases k with
    | zero =>
      have hn : n ≠ 0 := hk
      rw [if_pos hn] at hle ⊢
      exact hle
    | succ k =>
      have hnode := hall k hk
      omega

theorem lastNonZero_le {index last bound : ℕ} (hlast : last ≤ bound)
    (hbound : ∀ k, numbits.getD k 0 ≠ 0 → index + k ≤ bound) :
    lastNonZero index numbits last ≤ bound := by
  induction numbits generalizing index last with
  | nil => exact hlast
  | cons n numbits ih =>
    rw [lastNonZero]
    refine ih ?_ fun k hk ↦ ?_
    · split_ifs with hn
      · exact hbound 0 hn
      · exact hlast
    · have hnode := hbound (k + 1) hk
      omega

theorem exists_smallFields (hlength : numbits.length = 24) (hend : numbits.getD 23 0 = 0) :
    ∃ zeros l left, zeros < 8 ∧ l.length + (left + 1) = 23 - zeros ∧
      numbits = numbits.getD 0 0 :: (replicate zeros 0 ++ (l ++ replicate (left + 1) 0)) ∧
        smallFields numbits =
        (numbits.getD 0 0, 3) :: (zeros, 3) :: (l.map (fun n ↦ (n, 3)) ++ [(7, 3)]) := by
  have htail : ∀ k, numbits.tail.getD k 0 = numbits.getD (k + 1) 0 := fun k ↦ by
    rw [getD_eq_getElem?_getD, getD_eq_getElem?_getD, List.getElem?_tail]
  have hlen : numbits.tail.length = 23 := by rw [length_tail, hlength]
  obtain ⟨hone, hfirst⟩ := firstNonZero_le numbits.tail (show 1 + numbits.tail.length ≤ 31 by omega)
  obtain ⟨-, hlast⟩ := le_lastNonZero numbits.tail (Nat.zero_le 1)
  have hlast22 : lastNonZero 1 numbits.tail 0 ≤ 22 := by
    refine lastNonZero_le (Nat.zero_le _) fun k hk ↦ ?_
    rw [htail] at hk
    by_contra hover
    refine hk ?_
    by_cases hk22 : k = 22
    · rw [hk22, hend]
    · exact getD_eq_default _ _ (by omega)
  obtain ⟨first, hfirst'⟩ : ∃ first, first = min (firstNonZero 1 numbits.tail 31) 8 := ⟨_, rfl⟩
  obtain ⟨last, hlast'⟩ : ∃ last, last = lastNonZero 1 numbits.tail 0 := ⟨_, rfl⟩
  have hbefore : ∀ i, 1 ≤ i → i < first → numbits.getD i 0 = 0 := by
    intro i hi hlt
    by_contra hne
    have hle := hfirst (i - 1) (by rwa [htail, Nat.sub_add_cancel hi])
    omega
  have hbehind : ∀ i, 1 ≤ i → last < i → numbits.getD i 0 = 0 := by
    intro i hi hlt
    by_contra hne
    have hle := hlast (i - 1) (by rwa [htail, Nat.sub_add_cancel hi])
    omega
  refine ⟨first - 1, (range' first (last + 1 - first)).map fun index ↦ numbits.getD index 0,
    23 - (first - 1) - (last + 1 - first) - 1, by omega, ?_, ?_, ?_⟩
  · rw [length_map, length_range']
    omega
  · refine ext_getElem ?_ fun i hi hi' ↦ ?_
    · simp only [length_cons, length_append, length_replicate, length_map, length_range']
      omega
    · rw [← getD_eq_getElem _ 0 hi, getElem_cons]
      split_ifs with hzero
      · rw [hzero]
      · rw [getElem_append]
        split_ifs with hfront
        · rw [length_replicate] at hfront
          rw [getElem_replicate, hbefore i (by omega) (by omega)]
        · rw [getElem_append]
          split_ifs with hmiddle
          · rw [length_replicate] at hfront
            rw [getElem_map, getElem_range', length_replicate,
              show first + 1 * (i - 1 - (first - 1)) = i by omega]
          · rw [length_replicate] at hfront
            rw [length_replicate, length_map, length_range'] at hmiddle
            rw [getElem_replicate, hbehind i (by omega) (by omega)]
  · rw [smallFields, ← hfirst', ← hlast', map_map]
    rfl

theorem exists_smallSpells (shift : BitVec 32 → BitVec 32) (hlimit : limit ≤ 8 * 2 ^ 32)
    {l : List ℕ} (hl : ∀ n ∈ l, n < 7) (left : ℕ) {rest : List (ℕ × ℕ)}
    (hsees : Sees src limit b pos (l.map (fun n ↦ (n, 3)) ++ (7, 3) :: rest)) :
    ∃ b' pos', SmallSpells shift (l.length + (left + 1)) b (l ++ replicate (left + 1) 0) b' ∧
      Sees src limit b' pos' rest := by
  induction l generalizing b pos with
  | nil =>
    obtain ⟨hseven, hsees'⟩ := Sees.readOn hsees hlimit (by decide : 3 ≤ 24) (by decide) shift
    rw [length_nil, Nat.zero_add, nil_append]
    exact ⟨_, _, .stop hseven, hsees'⟩
  | cons n l ih =>
    have hn := hl n mem_cons_self
    obtain ⟨hfront, hsees'⟩ :=
      Sees.readOn hsees hlimit (by decide : 3 ≤ 24) (by dsimp only; omega) shift
    obtain ⟨b', pos', hspells, hsees''⟩ := ih (fun m hm ↦ hl m (mem_cons_of_mem _ hm)) hsees'
    refine ⟨b', pos', ?_, hsees''⟩
    have hlength : SmallSpells shift (l.length + (left + 1) + 1) b _ b' := .length
      (by rw [hfront]; exact hn.ne) hspells
    rw [hfront] at hlength
    rwa [length_cons, Nat.add_right_comm]

/-- **The small tree is read as it was written.** -/
theorem exists_smallTree (shift : BitVec 32 → BitVec 32) (hlimit : limit ≤ 8 * 2 ^ 32)
    (hlength : numbits.length = 24) (hend : numbits.getD 23 0 = 0) (hle : ∀ n ∈ numbits, n ≤ 6)
    {rest : List (ℕ × ℕ)} (hsees : Sees src limit b pos (smallFields numbits ++ rest)) :
    ∃ b' pos', SmallTree shift b numbits b' ∧ Sees src limit b' pos' rest := by
  obtain ⟨zeros, l, left, hzeros, hleft, hnumbits, hfields⟩ := exists_smallFields hlength hend
  rw [hfields, cons_append, cons_append, append_assoc, singleton_append] at hsees
  have hfirst : numbits.getD 0 0 ≤ 6 := by
    rw [getD_eq_getElem _ _ (by omega)]
    exact hle _ (getElem_mem _)
  have hl : ∀ n ∈ l, n < 7 := fun n hn ↦ by
    have hmem := hle n (hnumbits ▸ mem_cons_of_mem _ (mem_append_right _ (mem_append_left _ hn)))
    omega
  obtain ⟨hread, hsees₁⟩ :=
    Sees.readOn hsees hlimit (by decide : 3 ≤ 24) (by dsimp only; omega) shift
  obtain ⟨hread', hsees₂⟩ :=
    Sees.readOn hsees₁ hlimit (by decide : 3 ≤ 24) (by dsimp only; omega) shift
  obtain ⟨b', pos', hspells, hsees₃⟩ := exists_smallSpells shift hlimit hl left hsees₂
  refine ⟨b', pos', ⟨l ++ replicate (left + 1) 0, ?_, ?_⟩, hsees₃⟩
  · rw [hread, hread']
    exact hnumbits
  · rw [hread', ← hleft]
    exact hspells

end SmallTree

/-! ## The data -/

section Data

open BitstreamIn

variable {shift : BitVec 32 → BitVec 32} {unset : BitstreamIn → ℕ × BitstreamIn}
    {src : List (BitVec 8)}
  {limit pos numcodes : ℕ} {b₀ b : BitstreamIn} {e : HuffmanEncoder} {numbits done : List ℕ}
  {next repcount last : ℕ}

theorem dataFields_append (e : HuffmanEncoder) (rlefullbits : ℕ) (data rest : List (ℕ × ℕ)) :
    dataFields e rlefullbits (data ++ rest) =
      dataFields e rlefullbits data ++ dataFields e rlefullbits rest := by
  induction data with
  | nil => rfl
  | cons d data ih =>
    rw [cons_append, dataFields, dataFields, ih, cons_append, append_assoc]

variable {fields : List (ℕ × ℕ)}

theorem exists_symbol (unset : BitstreamIn → ℕ × BitstreamIn)
    (hlimit : limit ≤ 8 * 2 ^ 32) {data : ℕ}
    (hcode : e.HasCode 6 data) (hsees : Sees src limit b pos (e.codeBits data :: fields)) :
    ∃ b' pos', Symbol unset e.codes b data b' ∧ Sees src limit b' pos' fields := by
  obtain ⟨hget, hpos, hle, hfits⟩ := hcode
  obtain ⟨hfront, hsees'⟩ := hsees.front hlimit hle (by decide) hfits
  refine ⟨_, _, .code hget hpos ?_, hsees'⟩
  rw [front_div _ hpos hle (by decide), hfront]

theorem readCount_of_sees (shift : BitVec 32 → BitVec 32) (hlimit : limit ≤ 8 * 2 ^ 32)
    {rlefullbits count : ℕ} (hwidth : rlefullbits ≤ 24) (hcount : count < 7 + 2 ^ rlefullbits)
    (hsees : Sees src limit b pos (repeatFields rlefullbits count ++ fields)) :
    (readCount shift rlefullbits b).1 = count + 2 ∧
      ∃ pos', Sees src limit (readCount shift rlefullbits b).2 pos' fields := by
  have hpow : 2 ^ rlefullbits ≤ 2 ^ 24 := Nat.pow_le_pow_right Nat.two_pos hwidth
  rw [repeatFields] at hsees
  rw [readCount]
  dsimp only
  by_cases hfew : count < 7
  · rw [if_pos hfew] at hsees
    obtain ⟨hread, hsees'⟩ :=
      Sees.readOn hsees hlimit (by decide : 3 ≤ 24) (by dsimp only; omega) shift
    rw [hread]
    rw [if_neg (by omega)]
    exact ⟨rfl, _, hsees'⟩
  · rw [if_neg hfew] at hsees
    obtain ⟨hread, hsees₁⟩ := Sees.readOn hsees hlimit (by decide : 3 ≤ 24) (by decide) shift
    obtain ⟨hread', hsees₂⟩ := Sees.readOn hsees₁ hlimit hwidth (by dsimp only; omega) shift
    rw [hread]
    dsimp only
    rw [if_pos rfl, hread']
    refine ⟨?_, _, hsees₂⟩
    rw [Nat.mod_eq_of_lt (by omega)]
    omega

/-- `rlefullbits` are enough for the longest repeat. -/
theorem lt_rleFullBits (hcodes : 9 ≤ numcodes ∧ numcodes ≤ 2 ^ 16) :
    rleFullBits numcodes ≤ 24 ∧ numcodes - 9 < 2 ^ rleFullBits numcodes := by
  have hmod : (numcodes + 2 ^ 32 - 9) % 2 ^ 32 = numcodes - 9 := by omega
  rw [rleFullBits, hmod]
  refine ⟨Nat.size_le.mpr ?_, Nat.lt_size_self _⟩
  omega

/-- **A repeat is read as it was written.** -/
theorem HuffSpells.flushRepeat (hlimit : limit ≤ 8 * 2 ^ 32)
    (hcodes : 9 ≤ numcodes ∧ numcodes ≤ 2 ^ 16)
    (hspells : HuffSpells shift unset e.codes numcodes b₀ done last b)
    (hnext : repcount = 0 ∨ next = last + 1)
    (hroom : done.length + repcount ≤ numcodes) (hlast : last < 255)
    (hdata : ∀ d ∈ Util.flushRepeat next repcount, e.HasCode 6 d.1) (hsees : Sees src limit b pos
      (dataFields e (rleFullBits numcodes) (Util.flushRepeat next repcount) ++ fields)) :
    ∃ b' pos',
      HuffSpells shift unset e.codes numcodes b₀ (done ++ replicate repcount last) last b' ∧
      Sees src limit b' pos' fields := by
  rw [Util.flushRepeat] at hdata hsees
  by_cases hzero : repcount = 0
  · rw [if_pos hzero] at hsees
    rw [hzero, replicate_zero, append_nil]
    exact ⟨b, pos, hspells, hsees⟩
  · rw [if_neg hzero] at hdata hsees
    by_cases hone : repcount = 1
    · -- a single one is written again
      rw [if_pos hone] at hdata hsees
      have hvalue : next % 256 = last + 1 := by omega
      have hcode := hdata _ mem_cons_self
      rw [dataFields, dataFields, hvalue, if_neg (Nat.succ_ne_zero last)] at hsees
      rw [hvalue] at hcode
      obtain ⟨b', pos', hsymbol, hsees'⟩ := exists_symbol unset hlimit hcode hsees
      have hsnoc := hspells.snoc (by omega) (.length hsymbol)
      rw [Nat.mod_eq_of_lt (by omega)] at hsnoc
      rw [hone, replicate_one]
      exact ⟨b', pos', hsnoc, hsees'⟩
    · rw [if_neg hone] at hdata hsees
      have hcount : (repcount - 2) % 2 ^ 16 = repcount - 2 := Nat.mod_eq_of_lt (by omega)
      obtain ⟨hwidth, hfull⟩ := lt_rleFullBits hcodes
      rw [dataFields, dataFields, if_pos rfl, append_nil, hcount] at hsees
      obtain ⟨b₁, pos₁, hsymbol, hsees₁⟩ := exists_symbol unset hlimit (hdata _ mem_cons_self) hsees
      obtain ⟨hread, pos₂, hsees₂⟩ := readCount_of_sees shift hlimit hwidth (by omega) hsees₁
      have hsnoc := hspells.snoc (by omega) (.repeats hsymbol)
      rw [hread, Nat.min_eq_left (by omega), Nat.mod_eq_of_lt (by omega),
        show repcount - 2 + 2 = repcount by omega] at hsnoc
      exact ⟨_, pos₂, hsnoc, hsees₂⟩

/-- **Lengths are read as they were written**, repeat for repeat. -/
theorem HuffSpells.rleData (hlimit : limit ≤ 8 * 2 ^ 32) (hcodes : 9 ≤ numcodes ∧ numcodes ≤ 2 ^ 16)
    (hnumbits : ∀ n ∈ numbits, n < 255)
    (hspells : HuffSpells shift unset e.codes numcodes b₀ done last b)
    (hnext : next = 0 ∧ repcount = 0 ∨ next = last + 1)
    (hroom : done.length + (repcount + numbits.length) ≤ numcodes)
    (hlast : last < 255) (hdata : ∀ d ∈ Util.rleData numbits next repcount, e.HasCode 6 d.1)
    (hsees : Sees src limit b pos
      (dataFields e (rleFullBits numcodes) (Util.rleData numbits next repcount) ++ fields)) :
    ∃ last' b' pos',
      HuffSpells shift unset e.codes numcodes b₀
      (done ++ (replicate repcount last ++ numbits)) last' b' ∧
        Sees src limit b' pos' fields := by
  induction numbits generalizing done b pos last next repcount with
  | nil =>
    rw [append_nil]
    rw [length_nil, Nat.add_zero] at hroom
    obtain ⟨b', pos', hspells', hsees'⟩ :=
      hspells.flushRepeat hlimit hcodes (by omega) hroom hlast hdata hsees
    exact ⟨last, b', pos', hspells', hsees'⟩
  | cons newval numbits ih =>
    have hnumbits' : ∀ n ∈ numbits, n < 255 := fun n hn ↦ hnumbits n (mem_cons_of_mem _ hn)
    have hnewval := hnumbits newval mem_cons_self
    rw [length_cons] at hroom
    rw [Util.rleData] at hdata hsees
    by_cases hsame : newval + 1 = next
    · rw [if_pos hsame] at hdata hsees
      obtain ⟨last', b', pos', hspells', hsees'⟩ :=
        ih hnumbits' hspells (by omega) (by omega) hlast hdata hsees
      refine ⟨last', b', pos', ?_, hsees'⟩
      rw [show newval = last by omega]
      rwa [replicate_succ', append_assoc, singleton_append] at hspells'
    · rw [if_neg hsame] at hdata hsees
      rw [Nat.mod_eq_of_lt (by omega)] at hdata hsees
      rw [dataFields_append, append_assoc, dataFields, if_neg (Nat.succ_ne_zero newval)] at hsees
      obtain ⟨b₁, pos₁, hspells₁, hsees₁⟩ := hspells.flushRepeat hlimit hcodes (by omega)
        (by omega) hlast (fun d hd ↦ hdata d (mem_append_left _ hd)) hsees
      have hcode := hdata (newval + 1, 0) (mem_append_right _ mem_cons_self)
      obtain ⟨b₂, pos₂, hsymbol, hsees₂⟩ := exists_symbol unset hlimit hcode hsees₁
      have hsnoc := hspells₁.snoc (by rw [length_append, length_replicate]; omega) (.length hsymbol)
      rw [Nat.mod_eq_of_lt (by omega)] at hsnoc
      obtain ⟨last', b', pos', hspells', hsees'⟩ := ih hnumbits' hsnoc (.inr rfl)
        (by simp only [length_append, length_replicate, length_singleton]; omega) hnewval
        (fun d hd ↦ hdata d (mem_append_right _ (mem_cons_of_mem _ hd))) hsees₂
      refine ⟨last', b', pos', ?_, hsees'⟩
      rwa [replicate_zero, nil_append, append_assoc, append_assoc,
        singleton_append] at hspells'

end Data

/-! ## The tree -/

section Tree

open BitstreamIn

variable {shift : BitVec 32 → BitVec 32} {unset : BitstreamIn → ℕ × BitstreamIn}
    {src : List (BitVec 8)}
  {limit pos maxbits : ℕ} {b : BitstreamIn} {numbits : List ℕ} {fields rest : List (ℕ × ℕ)}

theorem length_flushRepeat_le (next repcount : ℕ) : (flushRepeat next repcount).length ≤ 1 := by
  rw [flushRepeat]
  split_ifs
  · exact Nat.zero_le 1
  · exact Nat.le_refl 1
  · exact Nat.le_refl 1

/-- For each code there are two data at most. -/
theorem length_rleData_le (numbits : List ℕ) (next repcount : ℕ) :
    (rleData numbits next repcount).length ≤ 2 * numbits.length + 1 := by
  induction numbits generalizing next repcount with
  | nil => exact length_flushRepeat_le next repcount
  | cons newval numbits ih =>
    rw [rleData, length_cons]
    split_ifs
    · have hle := ih next (repcount + 1)
      omega
    · have hle := ih (newval + 1) 0
      have hflush := length_flushRepeat_le next repcount
      rw [length_append, length_cons]
      omega

variable {bound fuel : ℕ}

/-- The data are not more than the lengths and one. -/
theorem fst_flushRepeat_le {next repcount : ℕ} (hnext : next ≤ bound) :
    ∀ d ∈ flushRepeat next repcount, d.1 ≤ bound := by
  intro d hd
  rw [flushRepeat] at hd
  split_ifs at hd
  · exact absurd hd not_mem_nil
  · rw [List.mem_singleton.mp hd]
    exact (Nat.mod_le _ _).trans hnext
  · rw [List.mem_singleton.mp hd]
    exact Nat.zero_le bound

theorem fst_rleData_le {next repcount : ℕ} (hnext : next ≤ bound)
    (hnumbits : ∀ n ∈ numbits, n < bound) : ∀ d ∈ rleData numbits next repcount, d.1 ≤ bound := by
  induction numbits generalizing next repcount with
  | nil => exact fst_flushRepeat_le hnext
  | cons newval numbits ih =>
    have hnewval := hnumbits newval mem_cons_self
    have hrest : ∀ n ∈ numbits, n < bound := fun n hn ↦ hnumbits n (mem_cons_of_mem _ hn)
    intro d hd
    rw [rleData] at hd
    split_ifs at hd
    · exact ih hnext hrest d hd
    · rcases List.mem_append.mp hd with hd | hd
      · exact fst_flushRepeat_le hnext d hd
      · rcases List.mem_cons.mp hd with rfl | hd
        · exact (Nat.mod_le _ _).trans hnewval
        · exact ih hnewval hrest d hd

/-- **The small tree** has a code for all of the data, and none for 23. -/
theorem encodes_smallEncoder
    {data : List (ℕ × ℕ)} (hlength : data.length < 2 ^ 30) (hdata : ∀ d ∈ data, d.1 ≤ 22)
    {small : HuffmanEncoder} (h : smallEncoder data fuel = some small) :
    small.Encodes 6 (histogram 24 (data.map Prod.fst)) ∧ (∀ d ∈ data, small.HasCode 6 d.1) ∧
      small.numbits.length = 24 ∧ small.numbits.getD 23 0 = 0 := by
  obtain ⟨numbits, hsearch, hsmall⟩ := Option.map_eq_some_iff.mp h
  have hsum : (histogram 24 (data.map Prod.fst)).sum < 2 ^ 30 := by
    refine (sum_histogram_le 24 _).trans_lt ?_
    rwa [length_map]
  have hcount : (histogram 24 (data.map Prod.fst)).length = 24 := by
    rw [histogram, length_map, length_range]
  have hlengths := lengths_of_search hsum hsearch
  obtain ⟨bits, hassign, -⟩ := hlengths.exists_canonical (by decide)
  rw [hassign] at hsmall
  have hencodes : small.Encodes 6 (histogram 24 (data.map Prod.fst)) :=
    hsmall ▸ hlengths.encodes (by decide) hassign
  refine ⟨hencodes, fun d hd ↦ hencodes.hasCode ?_ ?_, hencodes.lengths.length.trans hcount, ?_⟩
  · have hle := hdata d hd
    omega
  · have hle := hdata d hd
    rw [getD_histogram (by omega)]
    exact (List.count_pos_iff.mpr (mem_map_of_mem hd)).ne'
  · have hnone : (histogram 24 (data.map Prod.fst)).getD 23 0 = 0 := by
      rw [getD_histogram (by decide), count_eq_zero]
      intro hmem
      obtain ⟨d, hd, hvalue⟩ := List.mem_map.mp hmem
      have hle := hdata d hd
      omega
    by_contra hne
    exact (hencodes.lengths.pos_iff 23 (by omega)).mp (Nat.pos_of_ne_zero hne) hnone

/-- The fields are not wider than the longest one. -/
theorem length_bitsOf_le (h : ∀ f ∈ fields, f.2 ≤ bound) :
    (bitsOf fields).length ≤ bound * fields.length := by
  induction fields with
  | nil => exact Nat.zero_le _
  | cons f fields ih =>
    have hfirst := h f mem_cons_self
    have hrest := ih fun g hg ↦ h g (mem_cons_of_mem _ hg)
    rw [length_bitsOf_cons, length_cons, Nat.mul_succ]
    omega

theorem dataFields_le {small : HuffmanEncoder} (hsix : ∀ n ∈ small.numbits, n ≤ 6) {rlefullbits : ℕ}
    (hwidth : rlefullbits ≤ 24) (data : List (ℕ × ℕ)) :
    (∀ f ∈ dataFields small rlefullbits data, f.2 ≤ 24) ∧
      (dataFields small rlefullbits data).length ≤ 3 * data.length := by
  induction data with
  | nil => exact ⟨fun f hf ↦ absurd hf not_mem_nil, Nat.zero_le _⟩
  | cons d data ih =>
    have hcode : (small.codeBits d.1).2 ≤ 24 := by
      rw [HuffmanEncoder.codeBits]
      by_cases hd : d.1 < small.numbits.length
      · rw [getD_eq_getElem _ _ hd]
        exact (hsix _ (getElem_mem hd)).trans (by decide)
      · rw [getD_eq_default _ _ (Nat.le_of_not_lt hd)]
        exact Nat.zero_le _
    have hrepeat : (∀ f ∈ repeatFields rlefullbits d.2, f.2 ≤ 24) ∧
        (repeatFields rlefullbits d.2).length ≤ 2 := by
      rw [repeatFields]
      split_ifs <;> simp [hwidth]
    obtain ⟨hrest, hlength⟩ := ih
    rw [dataFields]
    constructor
    · intro f hf
      rcases List.mem_cons.mp hf with rfl | hf
      · exact hcode
      · rcases List.mem_append.mp hf with hf | hf
        · split_ifs at hf
          · exact hrepeat.1 f hf
          · exact absurd hf not_mem_nil
        · exact hrest f hf
    · rw [length_cons, length_append, length_cons]
      split_ifs
      · omega
      · rw [length_nil]
        omega

/-- **The fields of a tree** are narrow, and not more than six for each code and some for the small
tree. -/
theorem huffmanFields_le (hcodes : 9 ≤ numbits.length ∧ numbits.length ≤ 2 ^ 16)
    (hnumbits : ∀ n ∈ numbits, n < 22) (hfields : huffmanFields numbits fuel = some fields) :
    (∀ f ∈ fields, f.2 ≤ 24) ∧ fields.length ≤ 6 * numbits.length + 28 := by
  obtain ⟨small, hsmall, rfl⟩ := Option.map_eq_some_iff.mp hfields
  have hlen := length_rleData_le numbits 0 0
  obtain ⟨hencodes, -, hlength, hzero⟩ := encodes_smallEncoder (by omega)
    (fst_rleData_le (Nat.zero_le 22) hnumbits) hsmall
  obtain ⟨zeros, l, left, hzeros, hleft, -, hsmallFields⟩ := exists_smallFields hlength hzero
  obtain ⟨hwidth, hcount⟩ :=
    dataFields_le hencodes.lengths.le_maxbits (lt_rleFullBits hcodes).1 (rleData numbits 0 0)
  rw [hsmallFields]
  constructor
  · intro f hf
    rcases List.mem_append.mp hf with hf | hf
    · have hthree : f.2 = 3 := by
        simp only [mem_cons, mem_append, mem_map, mem_nil_iff, or_false] at hf
        rcases hf with rfl | rfl | ⟨n, -, rfl⟩ | rfl <;> rfl
      omega
    · exact hwidth f hf
  · simp only [length_append, length_cons, length_map, length_nil]
    omega

/-- **A tree is imported as it was exported**, and the reader is in front of what is behind it. -/
theorem importTreeHuffman_of_sees (shift : BitVec 32 → BitVec 32)
    (unset : BitstreamIn → ℕ × BitstreamIn)
    (hlimit : limit ≤ 8 * 2 ^ 32) (hend : limit ≤ 8 * src.length)
    (hcodes : 9 ≤ numbits.length ∧ numbits.length ≤ 2 ^ 16) (hnumbits : ∀ n ∈ numbits, n < 22)
    {bits : List ℕ} (hassign : assignCanonicalCodes maxbits numbits = .ok bits)
    (hfields : huffmanFields numbits fuel = some fields)
    (hsees : Sees src limit b pos (fields ++ rest)) :
    ∃ b' pos', Sees src limit b' pos' rest ∧ ∃ rounds, ∀ fuel', rounds ≤ fuel' →
      (importTreeHuffman shift unset numbits.length maxbits fuel' b).2 =
        ⟨none, numbits, bits, lookupRanges maxbits bits numbits, b'⟩ := by
  obtain ⟨small, hsmall, rfl⟩ := Option.map_eq_some_iff.mp hfields
  have hlen := length_rleData_le numbits 0 0
  obtain ⟨hencodes, hdata, hlength, hzero⟩ := encodes_smallEncoder (by omega)
    (fst_rleData_le (Nat.zero_le 22) hnumbits) hsmall
  -- the small tree
  rw [append_assoc] at hsees
  obtain ⟨b₁, pos₁, htree, hsees₁⟩ := exists_smallTree shift hlimit hlength hzero
    hencodes.lengths.le_maxbits hsees
  obtain ⟨hread, hbitbuf⟩ := smallTree_iff.mp htree
  obtain ⟨hfree, hsix, lookup, hbuild, htable⟩ :=
    exists_table hencodes.assigned (hencodes.fits (by decide))
  have himport : importSmall shift b =
      ⟨none, small.numbits, small.bits, lookupRanges 6 small.bits small.numbits, b₁⟩ := by
    obtain ⟨numbits', b', -, ⟨e, hassign', himport⟩ | ⟨bits', hassign', himport⟩⟩ :=
      importSmall_cases shift b
    · rw [himport] at hread
      dsimp only at hread
      rw [hread, hencodes.assigned] at hassign'
      cases hassign'
    · rw [himport] at hread hbitbuf ⊢
      dsimp only at hread hbitbuf
      rw [hread, hencodes.assigned] at hassign'
      cases hassign'
      rw [hread, hbitbuf]
  -- the lengths
  obtain ⟨last, b₂, pos₂, hspells, hsees₂⟩ := HuffSpells.rleData hlimit hcodes
    (fun n hn ↦ (hnumbits n hn).trans (by decide))
    (.nil : HuffSpells shift unset small.codes numbits.length b₁ [] 0 b₁) (.inl ⟨rfl, rfl⟩)
    (by rw [length_nil]; omega) (by decide)
    hdata hsees₁
  rw [nil_append, replicate_zero, nil_append] at hspells
  obtain ⟨rounds, hrounds⟩ := hspells.exists_huffLengths htable hfree hsix
  refine ⟨b₂, pos₂, hsees₂, rounds, fun fuel' hfuel ↦ ?_⟩
  have hloop : huffLengths shift unset lookup numbits.length fuel' [] 0 b₁ = (numbits, b₂) := by
    rw [← Nat.sub_add_cancel hfuel, hrounds]
    cases fuel' - rounds with
    | zero => rfl
    | succ more => rw [huffLengths, if_pos (Nat.le_refl _)]
  have hinside : b₂.overflow = false := by
    refine not_overflow hsees₂.ready.toAt ?_
    have hroom := hsees₂.room
    rw [hsees₂.ready.data_eq]
    omega
  rw [importTreeHuffman, himport]
  rw [hbuild]
  dsimp only
  rw [hloop]
  rw [if_neg (Nat.lt_irrefl _), finishImport, if_neg (not_not.mpr rfl), hassign, hinside]
  rfl

end Tree

end RoscoEmulator.Util
