import RoscoEmulator.Util.CanonicalCodes
import RoscoEmulator.Util.HuffmanNodes

/-!
# The lengths that the search finds

`compute_tree_from_histo` looks for a weight at which the tree is not too high. The heights need not
grow with the weight, but that does not matter to its end: at the lower weight the tree is never too
high, since at the weight 0 all codes are alike, and the two weights come together. -/

namespace RoscoEmulator.Util

open Nat List PrefixCode BitString

/-- Numbers of bits of codes for a histogram. -/
structure Lengths (maxbits : ℕ) (histo numbits : List ℕ) : Prop where
  length : numbits.length = histo.length
  le_maxbits : ∀ n ∈ numbits, n ≤ maxbits
  pos_iff : ∀ c < histo.length, 0 < numbits.getD c 0 ↔ histo.getD c 0 ≠ 0
  kraft_le : kraftSum maxbits numbits ≤ 2 ^ maxbits
  /-- The Kraft equality. -/
  kraft : 2 ≤ (occurring histo).length → kraftSum maxbits numbits = 2 ^ maxbits
  /-- A code that is the only one has one bit. -/
  le_one : (occurring histo).length ≤ 1 → ∀ n ∈ numbits, n ≤ 1

/-! ## The lengths of a tree -/

namespace HuffTree

/-- A tree is as high as its codes are deep. -/
theorem height_le {t : HuffTree} {H : ℕ} (h : ∀ p ∈ t.leaves, p.2 ≤ H) : t.height ≤ H := by
  induction t generalizing H with
  | code c => exact Nat.zero_le H
  | node l r ihl ihr =>
    have hmem {p : ℕ × ℕ} (hp : p ∈ l.leaves ++ r.leaves) : p.2 + 1 ≤ H :=
      h (p.1, p.2 + 1) (List.mem_map.mpr ⟨p, hp, rfl⟩)
    obtain ⟨p, hp⟩ := exists_mem_of_ne_nil l.codes l.codes_ne_nil
    rw [← map_fst_leaves, mem_map] at hp
    obtain ⟨q, hq, -⟩ := hp
    have hpos := hmem (mem_append_left _ hq)
    obtain ⟨H, rfl⟩ : ∃ H', H = H' + 1 := ⟨H - 1, by omega⟩
    rw [height]
    exact succ_le_succ (Nat.max_le.mpr ⟨ihl fun p hp ↦ le_of_succ_le_succ (hmem
      (mem_append_left _ hp)), ihr fun p hp ↦ le_of_succ_le_succ (hmem (mem_append_right _ hp))⟩)

end HuffTree

variable {histo : List ℕ} {t : HuffTree}

theorem lengthIn_of_mem_leaves (hnodup : t.codes.Nodup) {p : ℕ × ℕ} (hp : p ∈ t.leaves) :
    lengthIn t p.1 = max p.2 1 := by
  rw [lengthIn, HuffTree.depth?_eq_some_iff hnodup |>.mpr hp]
  rcases p with ⟨c, _ | d⟩
  · rfl
  · exact (Nat.max_eq_left (succ_pos d)).symm

theorem lengthIn_eq_zero_iff {c : ℕ} : lengthIn t c = 0 ↔ c ∉ t.codes := by
  rw [← HuffTree.depth?_eq_none_iff, lengthIn]
  cases t.depth? c with
  | none => exact iff_of_true rfl rfl
  | some d =>
    refine iff_of_false ?_ (Option.some_ne_none d)
    cases d with
    | zero => exact Nat.one_ne_zero
    | succ d => exact succ_ne_zero d

theorem kraftSum_lengthIn (hcodes : t.codes.Perm (occurring histo)) (W : ℕ) :
    kraftSum W ((range histo.length).map (lengthIn t)) =
      (t.leaves.map fun p ↦ 2 ^ (W - max p.2 1)).sum := by
  have hnodup : t.codes.Nodup := hcodes.nodup_iff.mpr (nodup_occurring histo)
  let share : ℕ → ℕ := fun c ↦ if lengthIn t c = 0 then 0 else 2 ^ (W - lengthIn t c)
  have hsplit :=
    sum_map_filter_add_sum_map_filter_not (fun c ↦ histo.getD c 0 ≠ 0) share (range histo.length)
  have hrest : (((range histo.length).filter fun c ↦ ¬ histo.getD c 0 ≠ 0).map share).sum = 0 := by
    refine sum_eq_zero fun x hx ↦ ?_
    obtain ⟨c, hc, rfl⟩ := List.mem_map.mp hx
    refine if_pos (lengthIn_eq_zero_iff.mpr fun hmem ↦ ?_)
    exact absurd (mem_occurring.mp (hcodes.mem_iff.mp hmem)).2
      (by simpa using (List.mem_filter.mp hc).2)
  calc kraftSum W ((range histo.length).map (lengthIn t))
      = ((range histo.length).map share).sum := by rw [kraftSum, map_map]; rfl
    _ = ((occurring histo).map share).sum := by rw [← hsplit, hrest, Nat.add_zero]; rfl
    _ = (t.codes.map share).sum := ((hcodes.map share).sum_eq).symm
    _ = (t.leaves.map fun p ↦ 2 ^ (W - max p.2 1)).sum := by
      rw [← HuffTree.map_fst_leaves, map_map]
      refine congrArg sum (map_congr_left fun p hp ↦ ?_)
      have hlength := lengthIn_of_mem_leaves hnodup hp
      exact (if_neg (by omega)).trans (by rw [hlength])

theorem maxNumbits_le_iff {numbits : List ℕ} {maxbits : ℕ} :
    maxNumbits numbits ≤ maxbits ↔ ∀ n ∈ numbits, n ≤ maxbits := by
  have hfold (l : List ℕ) (m : ℕ) : l.foldl max m ≤ maxbits ↔
      m ≤ maxbits ∧ ∀ n ∈ l, n ≤ maxbits := by
    induction l generalizing m with
    | nil => simp
    | cons n l ih =>
      rw [foldl_cons, ih, Nat.max_le, forall_mem_cons, and_assoc]
  rw [maxNumbits, hfold]
  exact and_iff_right (Nat.zero_le _)

/-- **The lengths of a tree** that is not too high. -/
theorem lengths_of_tree (hcodes : t.codes.Perm (occurring histo)) {maxbits : ℕ}
    (hmax : maxNumbits ((range histo.length).map (lengthIn t)) ≤ maxbits) :
    Lengths maxbits histo ((range histo.length).map (lengthIn t)) := by
  have hnodup : t.codes.Nodup := hcodes.nodup_iff.mpr (nodup_occurring histo)
  have hle := maxNumbits_le_iff.mp hmax
  have hequal (l r : HuffTree) (ht : t = .node l r) :
      kraftSum maxbits ((range histo.length).map (lengthIn t)) = 2 ^ maxbits := by
    subst ht
    rw [kraftSum_lengthIn hcodes]
    -- the codes of a node are at least one deep, so their depths are their lengths
    have hdepth {p : ℕ × ℕ} (hp : p ∈ (HuffTree.node l r).leaves) : max p.2 1 = p.2 :=
      Nat.max_eq_left (HuffTree.pos_of_mem_leaves_node hp)
    have hheight : (HuffTree.node l r).height ≤ maxbits := by
      refine HuffTree.height_le fun p hp ↦ ?_
      have hmem : p.1 ∈ (HuffTree.node l r).codes := HuffTree.map_fst_leaves _ ▸ mem_map_of_mem hp
      have hlt := (mem_occurring.mp (hcodes.mem_iff.mp hmem)).1
      rw [← hdepth hp, ← lengthIn_of_mem_leaves hnodup hp]
      exact hle _ (List.mem_map.mpr ⟨p.1, List.mem_range.mpr hlt, rfl⟩)
    rw [← HuffTree.kraft_leaves _ hheight]
    exact congrArg sum (map_congr_left fun p hp ↦ by rw [hdepth hp])
  refine ⟨by rw [length_map, length_range], hle, fun c hc ↦ ?_, ?_, fun htwo ↦ ?_,
    fun hone n hn ↦ ?_⟩
  · have hget : ((range histo.length).map (lengthIn t)).getD c 0 = lengthIn t c := by
      rw [getD_eq_getElem _ _ (by rwa [length_map, length_range]), getElem_map, getElem_range]
    rw [hget, Nat.pos_iff_ne_zero, Ne, lengthIn_eq_zero_iff, not_not, hcodes.mem_iff, mem_occurring]
    exact and_iff_right hc
  · match t, hcodes, hequal with
    | .code c, hcodes, _ =>
      rw [kraftSum_lengthIn hcodes, HuffTree.leaves, map_singleton, sum_singleton]
      exact Nat.pow_le_pow_right Nat.two_pos (sub_le _ _)
    | .node l r, _, hequal => exact (hequal l r rfl).le
  · match t, hcodes, hequal with
    | .code c, hcodes, _ =>
      rw [← hcodes.length_eq] at htwo
      exact absurd htwo (not_succ_le_self 1)
    | .node l r, _, hequal => exact hequal l r rfl
  · obtain ⟨c, -, rfl⟩ := List.mem_map.mp hn
    rw [← hcodes.length_eq] at hone
    have hlow := t.height_lt_length_codes
    by_cases hmem : c ∈ t.codes
    · rw [← HuffTree.map_fst_leaves, mem_map] at hmem
      obtain ⟨p, hp, rfl⟩ := hmem
      have hdepth := HuffTree.depth_le_height hp
      rw [lengthIn_of_mem_leaves hnodup hp]
      omega
    · rw [lengthIn_eq_zero_iff.mpr hmem]
      exact Nat.zero_le 1

/-! ## The search -/

section Search

variable {maxbits : ℕ}

/-- **A tree for every weight**: its lengths are the same in the array and out of it, and those for
the weight 0 are not too many. -/
theorem exists_numbits (maxbits : ℕ) {totalweight : ℕ}
    (hsum : histo.sum < 2 ^ 30) (hle : totalweight ≤ 2 * histo.sum) :
    ∃ numbits, buildTreeNodes histo histo.sum totalweight = some numbits ∧
      buildTree histo histo.sum totalweight = numbits ∧
        (maxNumbits numbits ≤ maxbits → Lengths maxbits histo numbits) ∧
          (totalweight = 0 → histo.length ≤ 2 ^ maxbits → 1 ≤ maxbits ∨ histo.sum = 0 →
            maxNumbits numbits ≤ maxbits) := by
  by_cases hne : occurring histo = []
  · -- no tree, and no bits
    have hzero (c : ℕ) (hc : c < histo.length) : histo.getD c 0 = 0 := by
      by_contra hcount
      exact not_mem_nil (hne ▸ mem_occurring.mpr ⟨hc, hcount⟩)
    have hbits : ∀ n ∈ histo.map fun _ ↦ 0, n = 0 :=
      fun n hn ↦ (List.mem_map.mp hn).elim fun _ h ↦ h.2.symm
    refine ⟨histo.map fun _ ↦ 0, ?_, ?_, fun _ ↦ ⟨length_map _, fun n hn ↦ ?_, fun c hc ↦ ?_, ?_,
      fun htwo ↦ ?_, fun _ n hn ↦ ?_⟩, fun _ _ _ ↦ maxNumbits_le_iff.mpr fun n hn ↦ ?_⟩
    · have hcodes : ∀ c ∈ range histo.length, nodeLength (codeNodes histo histo.sum totalweight)
          (2 * histo.length + 1) c = (pure 0 : Option ℕ) := by
        intro c hc
        rw [nodeLength, codeNodes, if_neg (not_not.mpr (hzero c (List.mem_range.mp hc))),
          if_neg (Nat.lt_irrefl 0)]
        rfl
      have hmap : (range histo.length).map (fun _ ↦ 0) = histo.map fun _ ↦ 0 := by
        rw [map_const', map_const', length_range]
      rw [buildTreeNodes, hne]
      exact ((mapM_congr hcodes).trans mapM_pure).trans (congrArg some hmap)
    · have hused : usedCodes histo histo.sum totalweight = [] := by
        refine List.filterMap_eq_nil_iff.mpr fun c hc ↦ ?_
        rw [if_pos (hzero c (List.mem_range.mp hc))]
      rw [buildTree, hused]
      rfl
    · exact (hbits n hn).trans_le (Nat.zero_le _)
    · rw [getD_eq_getElem _ _ (by rwa [length_map]), getElem_map, hzero c hc]
      exact iff_of_false (Nat.lt_irrefl 0) (not_not.mpr rfl)
    · have hnone : kraftSum maxbits (histo.map fun _ ↦ 0) = 0 := by
        rw [← kraftAbove_zero, kraftAbove_of_le fun n hn ↦ (hbits n hn).le]
      exact hnone.trans_le (Nat.zero_le _)
    · rw [hne] at htwo
      exact absurd htwo (not_succ_le_zero 1)
    · exact (hbits n hn).trans_le (Nat.zero_le 1)
    · exact (hbits n hn).trans_le (Nat.zero_le _)
  · obtain ⟨t, hcodes, hnodes, htree, heven⟩ := exists_buildTree hsum hle hne
    refine ⟨_, hnodes, htree, lengths_of_tree hcodes, fun hzero hlength hone ↦ ?_⟩
    have hheight := heven maxbits hzero hlength
    have hone : 1 ≤ maxbits := by
      refine hone.resolve_right fun hno ↦ hne (List.eq_nil_iff_forall_not_mem.mpr fun c hc ↦ ?_)
      exact (mem_occurring.mp hc).2 (Nat.le_zero.mp (hno ▸ getD_le_sum histo c))
    refine maxNumbits_le_iff.mpr fun n hn ↦ ?_
    obtain ⟨c, -, rfl⟩ := List.mem_map.mp hn
    by_cases hmem : c ∈ t.codes
    · rw [← HuffTree.map_fst_leaves, mem_map] at hmem
      obtain ⟨p, hp, rfl⟩ := hmem
      rw [lengthIn_of_mem_leaves (hcodes.nodup_iff.mpr (nodup_occurring histo)) hp]
      exact Nat.max_le.mpr ⟨(HuffTree.depth_le_height hp).trans hheight, hone⟩
    · rw [lengthIn_eq_zero_iff.mpr hmem]
      exact Nat.zero_le _

/-- **The search ends**: it has no more rounds than the two weights are apart. -/
theorem exists_searchLoop (hsum : histo.sum < 2 ^ 30) {lowerweight upperweight : ℕ}
    (hupper : upperweight ≤ 2 * histo.sum) (hlower : lowerweight ≤ upperweight)
    (hworks : maxNumbits (buildTree histo histo.sum lowerweight) ≤ maxbits) :
    ∃ numbits, Lengths maxbits histo numbits ∧ ∀ fuel, upperweight - lowerweight < fuel →
      searchLoop maxbits histo histo.sum fuel lowerweight upperweight = some numbits ∧
        searchWeight maxbits histo fuel lowerweight upperweight = some numbits := by
  induction hd : upperweight - lowerweight using Nat.strong_induction_on
    generalizing lowerweight upperweight with
  | _ d ih =>
    have hcur : (upperweight + lowerweight) % 2 ^ 32 / 2 = (upperweight + lowerweight) / 2 := by
      rw [mod_eq_of_lt (by omega)]
    have hcurle : (upperweight + lowerweight) / 2 ≤ 2 * histo.sum := by omega
    have hdiff : (upperweight + 2 ^ 32 - (upperweight + lowerweight) / 2) % 2 ^ 32 =
        upperweight - (upperweight + lowerweight) / 2 := by
      rw [show upperweight + 2 ^ 32 - (upperweight + lowerweight) / 2 =
        upperweight - (upperweight + lowerweight) / 2 + 2 ^ 32 by omega, add_mod_right,
        mod_eq_of_lt (by omega)]
    obtain ⟨numbits, hnodes, htree, hlengths, -⟩ := exists_numbits maxbits hsum hcurle
    have hround (fuel : ℕ) : searchLoop maxbits histo histo.sum (fuel + 1) lowerweight upperweight =
          (if maxNumbits numbits ≤ maxbits then
            if (upperweight + lowerweight) / 2 = histo.sum ∨
              upperweight - (upperweight + lowerweight) / 2 ≤ 1 then
              some numbits
            else searchLoop maxbits histo histo.sum fuel
              ((upperweight + lowerweight) / 2) upperweight
          else searchLoop maxbits histo histo.sum fuel lowerweight
            ((upperweight + lowerweight) / 2)) ∧
        searchWeight maxbits histo (fuel + 1) lowerweight upperweight =
          (if maxNumbits numbits ≤ maxbits then
            if (upperweight + lowerweight) / 2 = histo.sum ∨
              upperweight - (upperweight + lowerweight) / 2 ≤ 1 then
              some numbits
            else searchWeight maxbits histo fuel ((upperweight + lowerweight) / 2) upperweight
          else searchWeight maxbits histo fuel lowerweight ((upperweight + lowerweight) / 2)) := by
      constructor
      · rw [searchLoop, hcur, hnodes, hdiff]
      · rw [searchWeight, htree]
    by_cases hmax : maxNumbits numbits ≤ maxbits
    · by_cases hend : (upperweight + lowerweight) / 2 = histo.sum ∨
        upperweight - (upperweight + lowerweight) / 2 ≤ 1
      · refine ⟨numbits, hlengths hmax, fun fuel hfuel ↦ ?_⟩
        obtain ⟨fuel, rfl⟩ := exists_eq_succ_of_ne_zero (Nat.ne_of_gt (zero_lt_of_lt hfuel))
        obtain ⟨hloop, hweight⟩ := hround fuel
        rw [hloop, hweight, if_pos hmax, if_pos hend, if_pos hmax, if_pos hend]
        exact ⟨rfl, rfl⟩
      · obtain ⟨numbits', hlengths', hrec⟩ := ih (upperweight - (upperweight + lowerweight) / 2)
          (by omega) hupper (by omega) (htree ▸ hmax) rfl
        refine ⟨numbits', hlengths', fun fuel hfuel ↦ ?_⟩
        obtain ⟨fuel, rfl⟩ := exists_eq_succ_of_ne_zero (Nat.ne_of_gt (zero_lt_of_lt hfuel))
        obtain ⟨hloop, hweight⟩ := hround fuel
        rw [hloop, hweight, if_pos hmax, if_neg hend, if_pos hmax, if_neg hend]
        exact hrec fuel (by omega)
    · -- the tree of the lower weight is not too high, so this is another one
      have hne : (upperweight + lowerweight) / 2 ≠ lowerweight := by
        intro heq
        rw [heq] at htree
        exact hmax (htree ▸ hworks)
      obtain ⟨numbits', hlengths', hrec⟩ :=
        ih ((upperweight + lowerweight) / 2 - lowerweight) (by omega) hcurle (by omega) hworks rfl
      refine ⟨numbits', hlengths', fun fuel hfuel ↦ ?_⟩
      obtain ⟨fuel, rfl⟩ := exists_eq_succ_of_ne_zero (Nat.ne_of_gt (zero_lt_of_lt hfuel))
      obtain ⟨hloop, hweight⟩ := hround fuel
      rw [hloop, hweight, if_neg hmax, if_neg hmax]
      exact hrec fuel (by omega)

theorem Lengths.whole {numbits : List ℕ} (h : Lengths maxbits histo numbits) (hmax : maxbits ≤ 32) :
    Whole numbits 32 ∧ kraftSum 32 numbits ≤ 2 ^ 32 := by
  have hmore : kraftSum 32 numbits = kraftSum maxbits numbits * 2 ^ (32 - maxbits) := by
    rw [← kraftSum_add h.le_maxbits, Nat.add_sub_cancel' hmax]
  have hall : 2 ^ maxbits * 2 ^ (32 - maxbits) = 2 ^ 32 := by
    rw [← pow_add, Nat.add_sub_cancel' hmax]
  refine ⟨?_, ?_⟩
  · rcases Nat.lt_or_ge (occurring histo).length 2 with hone | htwo
    · intro L hL _
      rw [kraftAbove_of_le fun n hn ↦ (h.le_one (le_of_lt_succ hone) n hn).trans hL]
      exact dvd_zero _
    · exact whole_of_kraftSum (by rw [hmore, h.kraft htwo, hall])
  · rw [hmore, ← hall]
    exact Nat.mul_le_mul_right _ h.kraft_le

theorem Lengths.exists_canonical {numbits : List ℕ}
    (h : Lengths maxbits histo numbits) (hmax : maxbits ≤ 32) :
    ∃ bits, assignCanonicalCodes maxbits numbits = .ok bits ∧ Canonical numbits bits := by
  obtain ⟨hwhole, hsum⟩ := h.whole hmax
  obtain ⟨starts, hbits, -⟩ := exists_giveCodes hmax h.le_maxbits hwhole
  exact ⟨giveCodes numbits starts, hbits, canonical_of_kraftSum hmax hbits hsum⟩

theorem dataCount_eq (hsum : histo.sum < 2 ^ 32) : dataCount histo = histo.sum := by
  have hfold (l : List ℕ) (n : ℕ) (hlt : n + l.sum < 2 ^ 32) :
      l.foldl (fun sum count ↦ (sum + count) % 2 ^ 32) n = n + l.sum := by
    induction l generalizing n with
    | nil => rfl
    | cons count l ih =>
      rw [sum_cons] at hlt ⊢
      rw [foldl_cons, mod_eq_of_lt (by omega), ih _ (by omega), Nat.add_assoc]
  rw [dataCount, hfold _ _ (by omega), Nat.zero_add]

/-- **`compute_tree_from_histo` ends with a prefix code** of the codes that occur, of lengths that
are as many bits as there may be at most, and that have no strings left if there are two codes or
more. With no bits for a code that occurs there is none. -/
theorem computeTreeFromHisto_canonical (maxbits : ℕ) (histo : List ℕ) (hmax : maxbits ≤ 24)
    (hlength : histo.length ≤ 2 ^ maxbits)
    (hsum : histo.sum < 2 ^ 30) (hone : 1 ≤ maxbits ∨ histo.sum = 0) :
    ∃ e, (∀ fuel, 2 * histo.sum < fuel → computeTreeFromHisto maxbits histo fuel = some (.ok e)) ∧
      computeTree maxbits histo = .ok e ∧ Lengths maxbits histo e.numbits ∧
      Canonical e.numbits e.bits := by
  obtain ⟨numbits, -, htree, -, hzero⟩ := exists_numbits maxbits hsum (Nat.zero_le (2 * histo.sum))
  obtain ⟨numbits, hlengths, hsearch⟩ := exists_searchLoop hsum (Nat.le_refl _) (Nat.zero_le _)
    (htree ▸ hzero rfl hlength hone)
  obtain ⟨bits, hbits, hcanonical⟩ := hlengths.exists_canonical (hmax.trans (by decide))
  have hupper : dataCount histo * 2 % 2 ^ 32 = 2 * histo.sum := by
    rw [dataCount_eq (by omega), Nat.mul_comm, mod_eq_of_lt (by omega)]
  refine ⟨⟨numbits, bits⟩, fun fuel hfuel ↦ ?_, ?_, hlengths, hcanonical⟩
  · rw [computeTreeFromHisto, hupper, dataCount_eq (by omega), (hsearch fuel (by omega)).1,
      Option.map_some, hbits]
    rfl
  · rw [computeTree, Nat.mul_comm, (hsearch _ (by omega)).2]
    exact congrArg (Except.map _) hbits

/-- The codes of three letters. -/
theorem computeTreeFromHisto_canonical_letters : ∃ e, (∀ fuel, 2 * [5, 0, 2, 1].sum < fuel →
    computeTreeFromHisto 2 [5, 0, 2, 1] fuel = some (.ok e)) ∧
      computeTree 2 [5, 0, 2, 1] = .ok e ∧ Lengths 2 [5, 0, 2, 1] e.numbits ∧
      Canonical e.numbits e.bits :=
  computeTreeFromHisto_canonical 2 [5, 0, 2, 1] (by decide) (by decide) (by decide) (by decide)

/-- A single code has a bit. If it is to have none, the search goes on for ever. -/
theorem not_computeTreeFromHisto_zero :
    ¬ ∀ (maxbits : ℕ) (histo : List ℕ), maxbits ≤ 24 → histo.length ≤ 2 ^ maxbits →
      histo.sum < 2 ^ 30 → ∃ fuel e, computeTreeFromHisto maxbits histo fuel = some (.ok e) := by
  intro hall
  have hstays (fuel : ℕ) : searchLoop 0 [1] 1 fuel 0 0 = none := by
    induction fuel with
    | zero => rfl
    | succ fuel ih => exact ih
  obtain ⟨fuel, e, he⟩ := hall 0 [1] (by decide) (by decide) (by decide)
  have hnone : searchLoop 0 [1] 1 fuel 0 2 = none := by
    match fuel with
    | 0 => rfl
    | 1 => rfl
    | fuel + 2 => exact hstays fuel
  have hcompute : computeTreeFromHisto 0 [1] fuel = none := congrArg (Option.map _) hnone
  exact Option.some_ne_none _ (he.symm.trans hcompute)

end Search

end RoscoEmulator.Util
