import RoscoEmulator.Util.BitstreamRoundTrip
import RoscoEmulator.Util.HuffmanSearch
import RoscoEmulator.Util.TreeImport

/-!
# A tree is imported as it was exported

`export_tree_rle` writes tokens, and `import_tree_rle` reads them: a run of the same length is cut
into a triple for as many as the last field can count, and what is left of it is written out. The
fields of a triple and those of a 1 begin with a 1, and no other does. -/

namespace RoscoEmulator.Util

open List BitString

namespace BitstreamIn

variable {src : List (BitVec 8)} {limit pos : ℕ} {b : BitstreamIn} {f : ℕ × ℕ}
    {fields : List (ℕ × ℕ)}

/-- The reader has fields in front of it, up to the limit. -/
structure Sees (src : List (BitVec 8)) (limit : ℕ) (b : BitstreamIn) (pos : ℕ)
    (fields : List (ℕ × ℕ)) : Prop where
  ready : b.Ready src limit pos
  starts : StartsAt src pos (bitsOf fields)
  room : pos + (bitsOf fields).length ≤ limit

section

variable (h : Sees src limit b pos (f :: fields)) (hlimit : limit ≤ 8 * 2 ^ 32)
include h hlimit

/-- A field is at the front when as many bits as it has, or more, have been looked for. -/
theorem Sees.front {numbits : ℕ} (hle : f.2 ≤ numbits) (hwidth : numbits ≤ 24)
    (hvalue : f.1 < 2 ^ f.2) : (b.prepare numbits).front f.2 = f.1 ∧
    Sees src limit ((b.prepare numbits).remove f.2) (pos + f.2) fields := by
  have hroom := h.room
  have hstarts := h.starts
  rw [bitsOf_cons, length_append, length_field] at hroom
  obtain ⟨hready, hbits⟩ : (b.prepare numbits).Ready src limit pos ∧
      f.2 ≤ (b.prepare numbits).bits := by
    by_cases hthere : numbits ≤ b.bits
    · rw [prepare_of_le hthere]
      exact ⟨h.ready, hle.trans hthere⟩
    · obtain ⟨hready, hbits⟩ := h.ready.prepare hlimit (Nat.lt_of_not_le hthere) (.inl (by omega))
      exact ⟨hready, by omega⟩
  refine ⟨front_eq (by omega) hvalue fun i hi ↦ ?_, hready.remove f.2 hbits, ?_, by omega⟩
  · rw [hready.pending i (by omega) (by omega),
      hstarts i (by rw [bitsOf_cons, length_append, length_field]; omega),
      getD_bitsOf_cons f fields hi]
  · rw [bitsOf_cons] at hstarts
    have hright := hstarts.right
    rwa [length_field] at hright

theorem Sees.read (hwidth : f.2 ≤ 24) (hvalue : f.1 < 2 ^ f.2) :
    ∃ b', b.read f.2 = some (f.1, b') ∧ Sees src limit b' (pos + f.2) fields := by
  obtain ⟨hfront, hsees⟩ := h.front hlimit (Nat.le_refl _) hwidth hvalue
  refine ⟨(b.prepare f.2).remove f.2, ?_, hsees⟩
  rw [BitstreamIn.read, if_neg (by omega), hfront]

/-- A read of less than the accumulator does not depend on the machine. -/
theorem Sees.readOn (hwidth : f.2 ≤ 24) (hvalue : f.1 < 2 ^ f.2) (shift : BitVec 32 → BitVec 32) :
    (b.readOn shift f.2).1 = f.1 ∧ Sees src limit (b.readOn shift f.2).2 (pos + f.2) fields := by
  obtain ⟨hfront, hsees⟩ := h.front hlimit (Nat.le_refl _) hwidth hvalue
  refine ⟨hfront, ?_⟩
  rw [BitstreamIn.readOn, if_pos (by omega)]
  exact hsees

end

/-- The front of some bits begins with the front of fewer. -/
theorem front_div (b : BitstreamIn) {few numbits : ℕ} (hpos : 0 < few) (hle : few ≤ numbits)
    (hmax : numbits ≤ 32) : b.front numbits / 2 ^ (numbits - few) = b.front few := by
  rw [BitstreamIn.front, BitstreamIn.front, if_neg (by omega), if_neg hpos.ne',
    BitVec.toNat_ushiftRight,
    BitVec.toNat_ushiftRight, Nat.shiftRight_eq_div_pow, Nat.shiftRight_eq_div_pow,
    Nat.div_div_eq_div_mul, ← pow_add,
    show 32 - numbits + (numbits - few) = 32 - few by omega]

end BitstreamIn

/-! ## Runs -/

section Runs

open BitstreamIn

variable {src : List (BitVec 8)} {limit pos numcodes width : ℕ} {b₀ b : BitstreamIn}
    {numbits : List ℕ}

theorem bitsOf_append (fields rest : List (ℕ × ℕ)) :
    bitsOf (fields ++ rest) = bitsOf fields ++ bitsOf rest :=
  flatMap_append

theorem length_bitsOf_cons (f : ℕ × ℕ) (fields : List (ℕ × ℕ)) :
    (bitsOf (f :: fields)).length = f.2 + (bitsOf fields).length := by
  rw [bitsOf_cons, length_append, length_field]

/-- **A run is read as it was written.** -/
theorem Spells.rleTreeBits
    (hlimit : limit ≤ 8 * 2 ^ 32) (hwidth : 0 < width ∧ width ≤ 24) {value : ℕ}
    (hvalue : value < 2 ^ width) {rest : List (ℕ × ℕ)} {fuel repcount : ℕ} (hfuel : repcount ≤ fuel)
    (hspells : Spells width numcodes b₀ numbits b) (hroom : numbits.length + repcount ≤ numcodes)
    (hsees : Sees src limit b pos (Util.rleTreeBits value width fuel repcount ++ rest)) :
    ∃ b', Spells width numcodes b₀ (numbits ++ replicate repcount value) b' ∧
      Sees src limit b'
      (pos + (bitsOf (Util.rleTreeBits value width fuel repcount)).length) rest := by
  have hone : 1 < 2 ^ width := Nat.one_lt_two_pow hwidth.1.ne'
  induction fuel generalizing repcount numbits b pos with
  | zero =>
    cases Nat.le_zero.mp hfuel
    exact ⟨b, by rwa [replicate_zero, append_nil], hsees⟩
  | succ fuel ih =>
    rw [Util.rleTreeBits] at hsees ⊢
    by_cases hzero : repcount = 0
    · rw [if_pos hzero] at hsees ⊢
      rw [hzero]
      exact ⟨b, by rwa [replicate_zero, append_nil], hsees⟩
    · rw [if_neg hzero] at hsees ⊢
      -- what is left when a token has been read
      have hgo {l : List ℕ} {count : ℕ} {b₁ : BitstreamIn} {pos₁ : ℕ} (htoken : Token width b l b₁)
          (hl : l = replicate count value) (hle : count ≤ repcount)
          (hrest : Sees src limit b₁ pos₁ (Util.rleTreeBits value width fuel (repcount - count) ++
          rest)) : ∃ b', Spells width numcodes b₀ (numbits ++ replicate repcount value) b' ∧
            Sees src limit b' (pos₁ +
            (bitsOf (Util.rleTreeBits value width fuel (repcount - count))).length) rest := by
        have hpos := htoken.length_pos
        have hlength : l.length = count := hl ▸ length_replicate
        have hmore := ih (by omega) (hspells.snoc (by omega) htoken)
          (by rw [length_append]; omega) hrest
        rwa [append_assoc, hl, replicate_append_replicate, Nat.add_sub_cancel' hle] at hmore
      by_cases hvalue1 : value = 1
      · rw [if_pos hvalue1] at hsees ⊢
        obtain ⟨b₁, h₁, hsees₁⟩ := Sees.read hsees hlimit hwidth.2 hone
        obtain ⟨b₂, h₂, hsees₂⟩ := Sees.read hsees₁ hlimit hwidth.2 hone
        obtain ⟨b', hspells', hsees'⟩ :=
          hgo (.one h₁ h₂) (show [1] = replicate 1 value by rw [hvalue1]; rfl) (by omega) hsees₂
        refine ⟨b', hspells', ?_⟩
        rwa [length_bitsOf_cons, length_bitsOf_cons, ← Nat.add_assoc, ← Nat.add_assoc]
      · rw [if_neg hvalue1] at hsees ⊢
        by_cases hfew : repcount ≤ 2
        · rw [if_pos hfew] at hsees ⊢
          obtain ⟨b₁, h₁, hsees₁⟩ := Sees.read hsees hlimit hwidth.2 hvalue
          obtain ⟨b', hspells', hsees'⟩ :=
            hgo (.raw h₁ hvalue1) (show [value] = replicate 1 value from rfl) (by omega) hsees₁
          refine ⟨b', hspells', ?_⟩
          rwa [length_bitsOf_cons, ← Nat.add_assoc]
        · rw [if_neg hfew] at hsees ⊢
          obtain ⟨curReps, hcur⟩ : ∃ curReps,
              curReps = min (repcount - 3) (2 ^ width - 1) := ⟨_, rfl⟩
          rw [← hcur] at hsees ⊢
          obtain ⟨b₁, h₁, hsees₁⟩ := Sees.read hsees hlimit hwidth.2 hone
          obtain ⟨b₂, h₂, hsees₂⟩ := Sees.read hsees₁ hlimit hwidth.2 hvalue
          obtain ⟨b₃, h₃, hsees₃⟩ :=
            Sees.read hsees₂ hlimit hwidth.2 (show curReps < 2 ^ width by omega)
          obtain ⟨b', hspells', hsees'⟩ := hgo (.run h₁ h₂ hvalue1 h₃) rfl (by omega) hsees₃
          refine ⟨b', hspells', ?_⟩
          rwa [length_bitsOf_cons, length_bitsOf_cons,
            length_bitsOf_cons, ← Nat.add_assoc, ← Nat.add_assoc, ← Nat.add_assoc]

/-- **Lengths are read as they were written**, run for run. -/
theorem Spells.exportRuns (hlimit : limit ≤ 8 * 2 ^ 32) (hwidth : 0 < width ∧ width ≤ 24)
    {lengths : List ℕ} (hlengths : ∀ n ∈ lengths, n < 2 ^ width)
    {lastval repcount : ℕ} (hlast : lastval < 2 ^ width) {rest : List (ℕ × ℕ)}
    (hspells : Spells width numcodes b₀ numbits b)
    (hroom : numbits.length + (repcount + lengths.length) ≤ numcodes)
    (hsees : Sees src limit b pos (Util.exportRuns width lengths lastval repcount ++ rest)) :
    ∃ b', Spells width numcodes b₀ (numbits ++ (replicate repcount lastval ++ lengths)) b' ∧
      Sees src limit b'
      (pos + (bitsOf (Util.exportRuns width lengths lastval repcount)).length) rest := by
  induction lengths generalizing numbits b pos lastval repcount with
  | nil =>
    rw [append_nil]
    exact hspells.rleTreeBits hlimit hwidth hlast (Nat.le_refl _) hroom hsees
  | cons newval lengths ih =>
    have hnew := hlengths newval mem_cons_self
    have hlengths' : ∀ n ∈ lengths, n < 2 ^ width := fun n hn ↦ hlengths n (mem_cons_of_mem _ hn)
    rw [length_cons] at hroom
    rw [Util.exportRuns] at hsees ⊢
    by_cases hsame : repcount ≠ 0 ∧ newval = lastval
    · rw [if_pos hsame] at hsees ⊢
      obtain ⟨b', hspells', hsees'⟩ := ih hlengths' hlast hspells (by omega) hsees
      refine ⟨b', ?_, hsees'⟩
      rw [hsame.2]
      rwa [replicate_succ', append_assoc, singleton_append] at hspells'
    · rw [if_neg hsame] at hsees ⊢
      rw [append_assoc] at hsees
      obtain ⟨b₁, hspells₁, hsees₁⟩ :=
        hspells.rleTreeBits hlimit hwidth hlast (Nat.le_refl _) (by omega) hsees
      obtain ⟨b', hspells', hsees'⟩ := ih hlengths' hnew hspells₁
        (by rw [length_append, length_replicate]; omega) hsees₁
      refine ⟨b', ?_, ?_⟩
      · rwa [append_assoc, replicate_one, singleton_append] at hspells'
      · rwa [bitsOf_append, length_append, ← Nat.add_assoc]

end Runs

/-! ## The round trip -/

section RoundTrip

open BitstreamIn

variable {maxbits : ℕ} {histo numbits : List ℕ}

theorem length_of_mapM {f : ℕ → Option ℕ} {l l' : List ℕ} (h : l.mapM f = some l') :
    l'.length = l.length := by
  induction l generalizing l' with
  | nil =>
    cases Option.some.inj h
    rfl
  | cons c l ih =>
    rw [mapM_cons] at h
    obtain ⟨n, -, hrest⟩ := Option.bind_eq_some_iff.mp h
    obtain ⟨ns, hns, hcons⟩ := Option.bind_eq_some_iff.mp hrest
    cases Option.some.inj hcons
    rw [length_cons, length_cons, ih hns]

theorem length_of_buildTreeNodes {totaldata totalweight : ℕ}
    (h : buildTreeNodes histo totaldata totalweight = some numbits) :
    numbits.length = histo.length :=
  (length_of_mapM h).trans length_range

theorem snd_of_mem_rleTreeBits {value width fuel repcount : ℕ} {f : ℕ × ℕ}
    (hf : f ∈ rleTreeBits value width fuel repcount) : f.2 = width := by
  induction fuel generalizing repcount with
  | zero => exact absurd hf not_mem_nil
  | succ fuel ih =>
    rw [rleTreeBits] at hf
    split_ifs at hf
    · exact absurd hf not_mem_nil
    · rcases List.mem_cons.mp hf with rfl | hf
      · rfl
      · rcases List.mem_cons.mp hf with rfl | hf
        · rfl
        · exact ih hf
    · rcases List.mem_cons.mp hf with rfl | hf
      · rfl
      · exact ih hf
    · rcases List.mem_cons.mp hf with rfl | hf
      · rfl
      · rcases List.mem_cons.mp hf with rfl | hf
        · rfl
        · rcases List.mem_cons.mp hf with rfl | hf
          · rfl
          · exact ih hf

theorem snd_of_mem_exportRuns {width lastval repcount : ℕ} {lengths : List ℕ} {f : ℕ × ℕ}
    (hf : f ∈ exportRuns width lengths lastval repcount) : f.2 = width := by
  induction lengths generalizing lastval repcount with
  | nil => exact snd_of_mem_rleTreeBits hf
  | cons newval lengths ih =>
    rw [exportRuns] at hf
    split_ifs at hf
    · exact ih hf
    · rcases List.mem_append.mp hf with hf | hf
      · exact snd_of_mem_rleTreeBits hf
      · exact ih hf

/-- What the search ends with are the lengths of a tree, and none of them is too long. -/
theorem searchLoop_eq_some {sdatacount fuel lowerweight upperweight : ℕ}
    (h : searchLoop maxbits histo sdatacount fuel lowerweight upperweight = some numbits) :
    numbits.length = histo.length ∧ ∀ n ∈ numbits, n ≤ maxbits := by
  induction fuel generalizing lowerweight upperweight with
  | zero => exact absurd h.symm (Option.some_ne_none numbits)
  | succ fuel ih =>
    rw [searchLoop] at h
    cases hbuild : buildTreeNodes histo sdatacount ((upperweight + lowerweight) % 2 ^ 32 / 2) with
    | none =>
      rw [hbuild] at h
      exact absurd h.symm (Option.some_ne_none numbits)
    | some lengths =>
      rw [hbuild] at h
      dsimp only at h
      split_ifs at h with hmax
      · cases Option.some.inj h
        exact ⟨length_of_buildTreeNodes hbuild, maxNumbits_le_iff.mp hmax⟩
      · exact ih h
      · exact ih h

theorem computeTreeFromHisto_eq_ok {fuel : ℕ} {e : HuffmanEncoder}
    (h : computeTreeFromHisto maxbits histo fuel = some (.ok e)) :
    e.numbits.length = histo.length ∧ (∀ n ∈ e.numbits, n ≤ maxbits) ∧
      assignCanonicalCodes maxbits e.numbits = .ok e.bits := by
  obtain ⟨numbits, hsearch, hcodes⟩ := Option.map_eq_some_iff.mp h
  obtain ⟨hlength, hle⟩ := searchLoop_eq_some hsearch
  cases hassign : assignCanonicalCodes maxbits numbits with
  | error _ =>
    rw [hassign] at hcodes
    cases hcodes
  | ok bits =>
    rw [hassign] at hcodes
    cases hcodes
    exact ⟨hlength, hle, hassign⟩

theorem lengthBits_le (hmax : maxbits ≤ 24) :
    (0 < lengthBits maxbits ∧ lengthBits maxbits ≤ 24) ∧ maxbits < 2 ^ lengthBits maxbits := by
  rw [lengthBits]
  split_ifs
  · exact ⟨by decide, by omega⟩
  · exact ⟨by decide, by omega⟩
  · exact ⟨by decide, by omega⟩

/-- A reader in front of the end of its data has not gone over it. -/
theorem not_overflow {b : BitstreamIn} {pos : ℕ} (h : b.At pos) (hpos : pos ≤ 8 * b.data.length) :
    b.overflow = false := by
  obtain ⟨byte, hdoffset, hplace⟩ := h.place
  have hlt := h.dbitoffs_lt
  have hback : b.doffset + 2 ^ 32 - b.bits / 8 = byte % 2 ^ 32 + 2 ^ 32 - b.bits / 8 := by
    rw [hdoffset]
  rw [BitstreamIn.overflow, decide_eq_false_iff_not, hback]
  omega

/-- **A tree is restored**, and the reader is behind the bits of it, whatever is in front of them
and behind. -/
theorem rle_exportTreeRle (hmax : maxbits ≤ 24) {fuel : ℕ} {e : HuffmanEncoder}
    (he : computeTreeFromHisto maxbits histo fuel = some (.ok e)) (before behind : List (ℕ × ℕ))
    (hfields : ∀ f ∈ before ++ behind, f.2 ≤ 32) (destlength : ℕ) (hlength : destlength < 2 ^ 32)
    (hroom : (bitsOf (before ++ (e.treeBits maxbits ++ behind))).length ≤ 8 * destlength) :
    ∃ o o' o'', BitstreamOut.writeAll before (BitstreamOut.start destlength) = some o ∧
      e.exportTreeRle maxbits o = .ok o' ∧ BitstreamOut.writeAll behind o' = some o'' ∧
        ∀ src b, o''.flush.dest.take o''.flush.doffset <+: src →
          b.Ready src (8 * o''.flush.doffset) (bitsOf before).length →
            (Imported.rle histo.length maxbits b).error = none ∧
              (Imported.rle histo.length maxbits b).numbits = e.numbits ∧
                (Imported.rle histo.length maxbits b).bits = e.bits ∧
                  (Imported.rle histo.length maxbits b).bitbuf.Ready src (8 * o''.flush.doffset)
                    ((bitsOf before).length + (bitsOf (e.treeBits maxbits)).length) := by
  obtain ⟨hwidth, hfits⟩ := lengthBits_le hmax
  have hsame {f : ℕ × ℕ} (hf : f ∈ e.treeBits maxbits) : f.2 = lengthBits maxbits :=
    snd_of_mem_exportRuns hf
  obtain ⟨hcount, hle, hassign⟩ : e.numbits.length = histo.length ∧ (∀ n ∈ e.numbits, n ≤ maxbits) ∧
      assignCanonicalCodes maxbits e.numbits = .ok e.bits := computeTreeFromHisto_eq_ok he
  have hroom' : (bitsOf before).length + (bitsOf (e.treeBits maxbits)).length +
      (bitsOf behind).length ≤ 8 * destlength := by
    rwa [bitsOf_append, bitsOf_append, length_append, length_append, ← Nat.add_assoc] at hroom
  have hdest : (BitstreamOut.start destlength).dest.length = destlength := length_replicate
  -- the three writes
  obtain ⟨o, hwrite, hwrote, hdest₁⟩ := (BitstreamOut.wrote_start destlength).writeAll
    (fun f hf ↦ hfields f (mem_append_left _ hf)) (by rw [hdest, length_nil]; omega)
    (by rwa [hdest])
  rw [nil_append] at hwrote
  rw [hdest] at hdest₁
  obtain ⟨o', hwrite', hwrote', hdest₂⟩ := hwrote.writeAll
    (fun f (hf : f ∈ e.treeBits maxbits) ↦ by rw [hsame hf]; omega) (by rw [hdest₁]; omega)
    (by rwa [hdest₁])
  rw [hdest₁] at hdest₂
  obtain ⟨o'', hwrite'', hwrote'', hdest₃⟩ := hwrote'.writeAll
    (fun f hf ↦ hfields f (mem_append_right _ hf)) (by rw [hdest₂, length_append]; omega)
    (by rwa [hdest₂])
  rw [hdest₂] at hdest₃
  obtain ⟨hdoffset, hflushed, hbits⟩ := hwrote''.flush
    (by rw [hdest₃, length_append, length_append]; omega) (by rwa [hdest₃])
  rw [length_append, length_append] at hdoffset
  refine ⟨o, o', o'', hwrite, ?_, hwrite'', fun src b hsrc hready ↦ ?_⟩
  · have hlen := hwrote'.length
    rw [length_append] at hlen
    have hinside : o'.overflow = false := by
      rw [BitstreamOut.overflow, decide_eq_false_iff_not, hdest₂]
      omega
    rw [HuffmanEncoder.exportTreeRle, hwrite']
    dsimp only
    rw [hinside]
    rfl
  · have hin : o''.flush.doffset ≤ o''.flush.dest.length := by
      rw [hdoffset, hflushed, hdest₃]
      omega
    have hstarts : StartsAt src (bitsOf before).length (bitsOf (e.treeBits maxbits ++ behind)) := by
      intro i hi
      rw [bitsOf_append, length_append] at hi
      rw [bitAt_of_take hsrc hin (by omega), hbits _ (by omega), append_assoc,
        getD_append_right _ _ _ _ (Nat.le_add_right _ _), Nat.add_sub_cancel_left, bitsOf_append]
    have hsees : Sees src (8 * o''.flush.doffset) b (bitsOf before).length
        (e.treeBits maxbits ++ behind) := by
      refine ⟨hready, hstarts, ?_⟩
      rw [bitsOf_append, length_append]
      omega
    obtain ⟨b', hspells, hsees'⟩ :=
      Spells.exportRuns (by omega) hwidth (fun n hn ↦ (hle n hn).trans_lt hfits)
      (Nat.two_pow_pos _) (.nil : Spells (lengthBits maxbits) histo.length b [] b)
      (by rw [length_nil, hcount]; omega) hsees
    have hlengths := importLengths_of_spells hspells hcount.ge
    have hsrclen : o''.flush.doffset ≤ src.length := by
      have hlen := hsrc.length_le
      rwa [length_take, Nat.min_eq_left hin] at hlen
    have hinside : b'.overflow = false := by
      refine not_overflow hsees'.ready.toAt ?_
      rw [hsees'.ready.data_eq]
      have hroom'' := hsees'.room
      omega
    have himport : Imported.rle histo.length maxbits b =
        ⟨none, e.numbits, e.bits, lookupRanges maxbits e.bits e.numbits, b'⟩ := by
      rw [Imported.rle, hlengths]
      dsimp only
      rw [nil_append, replicate_zero, nil_append, finishImport, if_neg (not_not.mpr hcount),
        hassign, hinside]
      rfl
    rw [himport]
    exact ⟨rfl, rfl, rfl, hsees'.ready⟩

/-- Four codes of one length, as a run in two bytes. -/
theorem rle_exportTreeRle_short :
    ∃ o o' o'', BitstreamOut.writeAll [] (BitstreamOut.start 2) = some o ∧
      HuffmanEncoder.exportTreeRle ⟨[2, 2, 2, 2], [0, 1, 2, 3]⟩ 2 o = .ok o' ∧
        BitstreamOut.writeAll [] o' = some o'' ∧
        ∀ src b, o''.flush.dest.take o''.flush.doffset <+: src →
          b.Ready src (8 * o''.flush.doffset) (bitsOf []).length →
            (Imported.rle 4 2 b).error = none ∧ (Imported.rle 4 2 b).numbits = [2, 2, 2, 2] ∧
              (Imported.rle 4 2 b).bits = [0, 1, 2, 3] ∧
                (Imported.rle 4 2 b).bitbuf.Ready src (8 * o''.flush.doffset)
                  ((bitsOf []).length +
                  (bitsOf (HuffmanEncoder.treeBits ⟨[2, 2, 2, 2], [0, 1, 2, 3]⟩ 2)).length) :=
  rle_exportTreeRle (by decide)
    (show computeTreeFromHisto 2 [1, 1, 1, 1] 12 = some (.ok ⟨[2, 2, 2, 2],
    [0, 1, 2, 3]⟩) by decide) [] [] (fun f hf ↦ absurd hf not_mem_nil) 2 (by decide) (by decide)

end RoundTrip

end RoscoEmulator.Util
