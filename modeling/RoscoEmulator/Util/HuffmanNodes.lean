import RoscoEmulator.Util.HuffmanTree

/-!
# The nodes of an encoder

`compute_tree_from_histo` on the array of nodes: the weights are words of 32 bits, the nodes point
to their parents, and the length of a code is the number of pointers to follow, in a byte. The nodes
are told apart by their index in the array; the codes come first, and the nodes above them behind.
Nodes that a tree before has used are set again when they are given out, and are not read before.

`represents_mergeLoop` says that the array holds the tree of `mergeNodes`, as long as the sum of the
weights has 32 bits. What a merge changes are the pointers of two nodes without parents.
-/

namespace RoscoEmulator.Util

open Nat Function List

/-- `node_t`. Nothing reads the count. -/
structure HuffNode where
  parent : Option ℕ := none
  weight : ℕ := 0
  bits : ℕ := 0
  numbits : ℕ := 0
deriving DecidableEq, Repr

/-- `m_huffnode`. -/
abbrev HuffNodes : Type := ℕ → HuffNode

/-- A `uint32_t` as an `int`. -/
def asInt (n : ℕ) : ℤ := if n < 2 ^ 31 then n else n - 2 ^ 32

/-- `tree_node_compare`. -/
def treeNodeCompare (node1 node2 : HuffNode) : ℤ :=
  if node2.weight ≠ node1.weight then asInt ((node2.weight + 2 ^ 32 - node1.weight) % 2 ^ 32)
  else node1.bits - node2.bits

/-- The weight of a code in `build_tree`: the quotient has 64 bits, and its lower half is stored. -/
def storedWeight (histo totaldata totalweight : ℕ) : ℕ :=
  if histo * totalweight / totaldata % 2 ^ 32 = 0 then 1
    else histo * totalweight / totaldata % 2 ^ 32

/-- The nodes of the codes that occur, with their weights; the others are zero. -/
def codeNodes (histo : List ℕ) (totaldata totalweight : ℕ) : HuffNodes := fun c ↦
  if histo.getD c 0 ≠ 0 then
    { bits := c, weight := storedWeight (histo.getD c 0) totaldata totalweight }
  else {}

/-- The items of `list` in `build_tree`, before they are sorted. -/
def occurring (histo : List ℕ) : List ℕ := (range histo.length).filter fun c ↦ histo.getD c 0 ≠ 0

/-- `list`, sorted. -/
def sortedItems (nodes : HuffNodes) (items : List ℕ) : List ℕ :=
  items.insertionSort fun i j ↦ treeNodeCompare (nodes i) (nodes j) ≤ 0

/-- A new node goes in front of the first item that has less weight. -/
def insertItem (nodes : HuffNodes) (new : ℕ) : List ℕ → List ℕ
  | [] => [new]
  | i :: items =>
      if (nodes i).weight < (nodes new).weight then new :: i :: items
        else i :: insertItem nodes new items

/-- A pointer to a parent is set. -/
def setParent (nodes : HuffNodes) (i parent : ℕ) : HuffNodes :=
  update nodes i { nodes i with parent := some parent }

/-- The nodes when the last two items have got a node above them. -/
def mergeItems (nodes : HuffNodes) (newnode node0 node1 : ℕ) : HuffNodes :=
  let nodes := update nodes newnode { nodes newnode with parent := none }
  let nodes := setParent (setParent nodes node1 newnode) node0 newnode
  update nodes newnode
    { nodes newnode with weight := ((nodes node0).weight + (nodes node1).weight) % 2 ^ 32 }

/-- The loop of `build_tree` that makes the tree. The list has its last item first. -/
def mergeLoop : ℕ → ℕ → HuffNodes → List ℕ → HuffNodes
  | fuel + 1, nextalloc, nodes, node1 :: node0 :: items =>
      let nodes := mergeItems nodes nextalloc node0 node1
      mergeLoop fuel (nextalloc + 1) nodes (insertItem nodes nextalloc items.reverse).reverse
  | _, _, nodes, _ => nodes

/-- The loop that counts the pointers above a node, for at most `fuel` rounds. `m_numbits` is a
byte. -/
def climb (nodes : HuffNodes) : ℕ → ℕ → ℕ → Option ℕ
  | 0, _, _ => none
  | fuel + 1, i, numbits =>
      match (nodes i).parent with
      | none => some numbits
      | some p => climb nodes fuel p ((numbits + 1) % 256)

/-- The number of bits of a code. -/
def nodeLength (nodes : HuffNodes) (fuel c : ℕ) : Option ℕ :=
  if 0 < (nodes c).weight then (climb nodes fuel c 0).map fun numbits ↦
    if numbits = 0 then 1 else numbits
  else some 0

/-- `build_tree`: the numbers of bits of the codes. -/
def buildTreeNodes (histo : List ℕ) (totaldata totalweight : ℕ) : Option (List ℕ) :=
  let nodes := codeNodes histo totaldata totalweight
  let items := sortedItems nodes (occurring histo)
  let nodes := mergeLoop items.length histo.length nodes items.reverse
  (range histo.length).mapM (nodeLength nodes (2 * histo.length + 1))

/-- The loop of `compute_tree_from_histo`, for at most `fuel` rounds. -/
def searchLoop (maxbits : ℕ) (histo : List ℕ) (sdatacount : ℕ) : ℕ → ℕ → ℕ → Option (List ℕ)
  | 0, _, _ => none
  | fuel + 1, lowerweight, upperweight =>
      let curweight := (upperweight + lowerweight) % 2 ^ 32 / 2
      match buildTreeNodes histo sdatacount curweight with
      | none => none
      | some numbits =>
          if maxNumbits numbits ≤ maxbits then
            if curweight = sdatacount ∨ (upperweight + 2 ^ 32 - curweight) % 2 ^ 32 ≤ 1
              then some numbits
            else searchLoop maxbits histo sdatacount fuel curweight upperweight
          else searchLoop maxbits histo sdatacount fuel lowerweight curweight

/-- `sdatacount`. -/
def dataCount (histo : List ℕ) : ℕ := histo.foldl (fun sum count ↦ (sum + count) % 2 ^ 32) 0

/-- `compute_tree_from_histo`, for at most `fuel` rounds of its search. -/
def computeTreeFromHisto (maxbits : ℕ) (histo : List ℕ) (fuel : ℕ) :
    Option (Except HuffmanError HuffmanEncoder) :=
  (searchLoop maxbits histo (dataCount histo) fuel 0
    (dataCount histo * 2 % 2 ^ 32)).map fun numbits ↦
    (assignCanonicalCodes maxbits numbits).map fun bits ↦ ⟨numbits, bits⟩

example : computeTreeFromHisto 2 [3, 1, 0, 1] 12 = some (.ok ⟨[1, 2, 0, 2], [1, 0, 0, 1]⟩) := by
  decide

/-! ## The array and the tree -/

/-- The node `i` is `d` pointers above the node `c`. -/
def Climbs (nodes : HuffNodes) : ℕ → ℕ → ℕ → Prop
  | 0, c, i => c = i
  | d + 1, c, i => ∃ p, (nodes c).parent = some p ∧ Climbs nodes d p i

/-- A node without a parent that holds a tree. -/
structure Represents (nodes : HuffNodes) (i : ℕ) (n : Weighted) : Prop where
  parent : (nodes i).parent = none
  weight : (nodes i).weight = n.weight
  leaves : ∀ p ∈ n.tree.leaves, Climbs nodes p.2 p.1 i

section Merge

variable {nodes nodes' : HuffNodes}

variable {d nextalloc fuel c i : ℕ} {items : List ℕ} {list : List Weighted}

/-- Pointers that are there stay. -/
theorem Climbs.mono (h : ∀ i p, (nodes i).parent = some p → (nodes' i).parent = some p)
    (hclimbs : Climbs nodes d c i) : Climbs nodes' d c i := by
  induction d generalizing c with
  | zero => exact hclimbs
  | succ d ih =>
    obtain ⟨p, hp, hrest⟩ := hclimbs
    exact ⟨p, h c p hp, ih hrest⟩

theorem Climbs.snoc {j : ℕ} (hclimbs : Climbs nodes d c i) (hparent : (nodes i).parent = some j) :
    Climbs nodes (d + 1) c j := by
  induction d generalizing c with
  | zero =>
    cases hclimbs
    exact ⟨j, hparent, rfl⟩
  | succ d ih =>
    obtain ⟨p, hp, hrest⟩ := hclimbs
    exact ⟨p, hp, ih hrest⟩

theorem parent_setParent (nodes : HuffNodes) (i parent k : ℕ) :
    (setParent nodes i parent k).parent = if k = i then some parent else (nodes k).parent := by
  rw [setParent, update_apply]
  split_ifs <;> rfl

theorem weight_setParent (nodes : HuffNodes) (i parent k : ℕ) :
    (setParent nodes i parent k).weight = (nodes k).weight := by
  rw [setParent, update_apply]
  split_ifs with h
  · rw [h]
  · rfl

variable {newnode node0 node1 : ℕ}

theorem parent_mergeItems (h0 : node0 ≠ newnode) (h1 : node1 ≠ newnode) (i : ℕ) :
    (mergeItems nodes newnode node0 node1 i).parent =
      if i = node0 ∨ i = node1 then some newnode else if i = newnode then none
      else (nodes i).parent := by
  rw [mergeItems, update_apply]
  by_cases hnew : i = newnode
  · rw [if_pos hnew, if_neg (by rw [hnew, not_or]; exact ⟨h0.symm, h1.symm⟩), if_pos hnew]
    rw [parent_setParent, if_neg h0.symm, parent_setParent, if_neg h1.symm, update_self]
  · rw [if_neg hnew, if_neg hnew, parent_setParent, parent_setParent, update_of_ne hnew]
    by_cases hnode0 : i = node0
    · rw [if_pos hnode0, if_pos (.inl hnode0)]
    · rw [if_neg hnode0]
      simp only [hnode0, false_or]

theorem weight_mergeItems (h0 : node0 ≠ newnode) (h1 : node1 ≠ newnode) (i : ℕ) :
    (mergeItems nodes newnode node0 node1 i).weight =
      if i = newnode then ((nodes node0).weight + (nodes node1).weight) % 2 ^ 32
      else (nodes i).weight := by
  rw [mergeItems, update_apply]
  split_ifs with hnew
  · simp only [weight_setParent, update_of_ne h0, update_of_ne h1]
  · rw [weight_setParent, weight_setParent, update_of_ne hnew]

/-- The items of the list hold the trees of a list. -/
structure Represented (nodes : HuffNodes) (nextalloc : ℕ) (items : List ℕ)
    (list : List Weighted) : Prop where
  trees : Forall₂ (Represents nodes) items list
  nodup : items.Nodup
  lt : ∀ i ∈ items, i < nextalloc
  fresh : ∀ i, nextalloc ≤ i → (nodes i).parent = none
  sum_lt : (list.map Weighted.weight).sum < 2 ^ 32

/-- A tree is still there when another two have been merged. -/
theorem Represents.mergeItems {n : Weighted} (h : Represents nodes i n)
    (hnew : (nodes newnode).parent = none)
    (h0 : (nodes node0).parent = none) (h1 : (nodes node1).parent = none) (hne0 : node0 ≠ newnode)
    (hne1 : node1 ≠ newnode) (hi : i ≠ newnode) (hi0 : i ≠ node0) (hi1 : i ≠ node1) :
    Represents (mergeItems nodes newnode node0 node1) i n := by
  refine ⟨?_, ?_, fun p hp ↦ (h.leaves p hp).mono fun k q hk ↦ ?_⟩
  · rw [parent_mergeItems hne0 hne1, if_neg (not_or.mpr ⟨hi0, hi1⟩), if_neg hi, h.parent]
  · rw [weight_mergeItems hne0 hne1, if_neg hi, h.weight]
  · have hroot {j : ℕ} (hj : (nodes j).parent = none) : k ≠ j := by
      rintro rfl
      exact Option.some_ne_none q (hk.symm.trans hj)
    rw [parent_mergeItems hne0 hne1, if_neg (not_or.mpr ⟨hroot h0, hroot h1⟩),
      if_neg (hroot hnew), hk]

/-- The node above two trees holds the tree of both. -/
theorem represents_merged {n0 n1 : Weighted} (h0 : Represents nodes node0 n0)
    (h1 : Represents nodes node1 n1) (hnew : (nodes newnode).parent = none) (hne0 : node0 ≠ newnode)
    (hne1 : node1 ≠ newnode) (hlt : n0.weight + n1.weight < 2 ^ 32) :
    Represents (mergeItems nodes newnode node0 node1) newnode (merged n0 n1) := by
  have hkeep {k q : ℕ} (hk : (nodes k).parent = some q) :
      (mergeItems nodes newnode node0 node1 k).parent = some q := by
    have hroot {j : ℕ} (hj : (nodes j).parent = none) : k ≠ j := by
      rintro rfl
      exact Option.some_ne_none q (hk.symm.trans hj)
    rw [parent_mergeItems hne0 hne1, if_neg (not_or.mpr ⟨hroot h0.parent, hroot h1.parent⟩),
      if_neg (hroot hnew), hk]
  refine ⟨?_, ?_, fun p hp ↦ ?_⟩
  · rw [parent_mergeItems hne0 hne1, if_neg (not_or.mpr ⟨hne0.symm, hne1.symm⟩), if_pos rfl]
  · rw [weight_mergeItems hne0 hne1, if_pos rfl, h0.weight, h1.weight, mod_eq_of_lt hlt]
    rfl
  · have hleaves : (merged n0 n1).tree.leaves =
        (n0.tree.leaves ++ n1.tree.leaves).map fun p ↦ (p.1, p.2 + 1) := rfl
    rw [hleaves, mem_map] at hp
    obtain ⟨q, hq, rfl⟩ := hp
    rcases List.mem_append.mp hq with hq | hq
    · refine ((h0.leaves q hq).mono fun k j ↦ hkeep).snoc ?_
      rw [parent_mergeItems hne0 hne1, if_pos (.inl rfl)]
    · refine ((h1.leaves q hq).mono fun k j ↦ hkeep).snoc ?_
      rw [parent_mergeItems hne0 hne1, if_pos (.inr rfl)]

theorem forall₂_of_mem {R S : ℕ → Weighted → Prop} (hRS : ∀ i n, i ∈ items → R i n → S i n)
    (h : Forall₂ R items list) : Forall₂ S items list := by
  induction h with
  | nil => exact .nil
  | cons hi hrest ih =>
    exact .cons (hRS _ _ mem_cons_self hi) (ih fun i n hi ↦ hRS i n (mem_cons_of_mem _ hi))

theorem forall₂_insertItem {new : ℕ} {node : Weighted} (h : Forall₂ (Represents nodes) items list)
    (hnew : Represents nodes new node) :
    Forall₂ (Represents nodes) (insertItem nodes new items) (insertNode node list) := by
  induction h with
  | nil => exact .cons hnew .nil
  | cons hi hrest ih =>
    rw [insertItem, insertNode, hi.weight, hnew.weight]
    split_ifs
    · exact .cons hnew (.cons hi hrest)
    · exact .cons hi ih

theorem perm_insertItem (nodes : HuffNodes) (new : ℕ) (items : List ℕ) :
    (insertItem nodes new items).Perm (new :: items) := by
  induction items with
  | nil => exact List.Perm.refl _
  | cons i items ih =>
    rw [insertItem]
    split_ifs
    · exact List.Perm.refl _
    · exact (ih.cons i).trans (List.Perm.swap new i items)

/-- **One round of the loop.** -/
theorem Represented.merge {n0 n1 : Weighted}
    (h : Represented nodes nextalloc (node1 :: node0 :: items) (n1 :: n0 :: list)) :
    Represented (mergeItems nodes nextalloc node0 node1) (nextalloc + 1)
      (insertItem (mergeItems nodes nextalloc node0 node1) nextalloc items.reverse).reverse
      (insertNode (merged n0 n1) list.reverse).reverse := by
  obtain ⟨h1, hrest⟩ := List.forall₂_cons.mp h.trees
  obtain ⟨h0, hitems⟩ := List.forall₂_cons.mp hrest
  obtain ⟨hnot1, hnodup⟩ := List.nodup_cons.mp h.nodup
  obtain ⟨hnot0, hnodup⟩ := List.nodup_cons.mp hnodup
  have hlt {i : ℕ} (hi : i ∈ node1 :: node0 :: items) : i ≠ nextalloc := Nat.ne_of_lt (h.lt i hi)
  have hne1 : node1 ≠ nextalloc := hlt mem_cons_self
  have hne0 : node0 ≠ nextalloc := hlt (mem_cons_of_mem _ mem_cons_self)
  have hmem {i : ℕ} (hi : i ∈ items) : i ∈ node1 :: node0 :: items :=
    mem_cons_of_mem _ (mem_cons_of_mem _ hi)
  have hnew := h.fresh nextalloc (Nat.le_refl _)
  have hsum := h.sum_lt
  rw [map_cons, map_cons, sum_cons, sum_cons] at hsum
  have hperm :
      (insertItem (mergeItems nodes nextalloc node0 node1) nextalloc items.reverse).reverse.Perm
      (nextalloc :: items) :=
    (reverse_perm _).trans ((perm_insertItem _ _ _).trans (items.reverse_perm.cons _))
  have hold : Forall₂ (Represents (mergeItems nodes nextalloc node0 node1)) items list := by
    refine forall₂_of_mem (fun i n hi hrep ↦ ?_) hitems
    refine hrep.mergeItems hnew h0.parent h1.parent hne0 hne1 (hlt (hmem hi)) ?_ ?_
    · rintro rfl
      exact hnot0 hi
    · rintro rfl
      exact hnot1 (mem_cons_of_mem _ hi)
  refine ⟨?_, ?_, fun i hi ↦ ?_, fun i hi ↦ ?_, ?_⟩
  · exact (forall₂_insertItem (rel_reverse hold)
      (represents_merged h0 h1 hnew hne0 hne1 (by omega))) |> rel_reverse
  · refine hperm.nodup_iff.mpr (List.nodup_cons.mpr ⟨fun hmem' ↦ hlt (hmem hmem') rfl, hnodup⟩)
  · rcases List.mem_cons.mp (hperm.mem_iff.mp hi) with rfl | hi
    · exact lt_succ_self _
    · exact lt_succ_of_lt (h.lt i (hmem hi))
  · rw [parent_mergeItems hne0 hne1, if_neg, if_neg (by omega), h.fresh i (by omega)]
    rintro (rfl | rfl)
    · exact absurd (h.lt i (mem_cons_of_mem _ mem_cons_self)) (by omega)
    · exact absurd (h.lt i mem_cons_self) (by omega)
  · rw [((perm_merge (merged n0 n1) list).map Weighted.weight).sum_eq, map_cons, sum_cons]
    have hweight : (merged n0 n1).weight = n0.weight + n1.weight := rfl
    rw [hweight]
    omega

/-- **The array holds the tree** that the list gives. -/
theorem represents_mergeLoop (h : Represented nodes nextalloc items list) (hne : list ≠ [])
    (hfuel : list.length ≤ fuel) {t : HuffTree} (ht : mergeNodes fuel list = some t) :
    ∃ i w, Represents (mergeLoop fuel nextalloc nodes items) i ⟨w, t⟩ := by
  induction fuel generalizing nextalloc nodes items list with
  | zero => exact absurd (List.length_eq_zero_iff.mp (Nat.le_zero.mp hfuel)) hne
  | succ fuel ih =>
    match items, list, h, hne, hfuel, ht with
    | [i], [n], h, _, _, ht =>
      obtain ⟨hi, -⟩ := List.forall₂_cons.mp h.trees
      cases Option.some.inj ht
      exact ⟨i, n.weight, hi⟩
    | node1 :: node0 :: items, n1 :: n0 :: list, h, _, hfuel, ht =>
      have hlength : (insertNode (merged n0 n1) list.reverse).reverse.length = list.length + 1 :=
        (perm_merge (merged n0 n1) list).length_eq
      refine ih h.merge (ne_nil_of_length_pos ?_) (hlength.trans_le ?_) ht
      · exact hlength ▸ succ_pos _
      · exact le_of_succ_le_succ hfuel
    | [], [n], h, _, _, _ => exact absurd h.trees (by simp)
    | [], _ :: _ :: _, h, _, _, _ => exact absurd h.trees (by simp)
    | [_], _ :: _ :: _, h, _, _, _ => exact absurd h.trees (by simp)
    | _ :: _ :: _, [_], h, _, _, _ => exact absurd h.trees (by simp)

/-- The weights of the codes stay as they are. -/
theorem weight_mergeLoop (hlt : ∀ i ∈ items, i < nextalloc) (hc : c < nextalloc) :
    (mergeLoop fuel nextalloc nodes items c).weight = (nodes c).weight := by
  induction fuel generalizing nextalloc nodes items with
  | zero => rfl
  | succ fuel ih =>
    match items, hlt with
    | [], _ => rfl
    | [_], _ => rfl
    | node1 :: node0 :: items, hlt =>
      have hne1 : node1 ≠ nextalloc := Nat.ne_of_lt (hlt node1 mem_cons_self)
      have hne0 : node0 ≠ nextalloc := Nat.ne_of_lt (hlt node0 (mem_cons_of_mem _ mem_cons_self))
      rw [mergeLoop, ih ?_ (lt_succ_of_lt hc), weight_mergeItems hne0 hne1,
        if_neg (Nat.ne_of_lt hc)]
      intro i hi
      rw [mem_reverse] at hi
      rcases List.mem_cons.mp ((perm_insertItem _ _ _).mem_iff.mp hi) with rfl | hi
      · exact lt_succ_self _
      · have hmem : i ∈ node1 :: node0 :: items :=
          mem_cons_of_mem _ (mem_cons_of_mem _ (List.mem_reverse.mp hi))
        exact lt_succ_of_lt (hlt i hmem)

/-- The count of the pointers above a code is its depth. -/
theorem climb_of_climbs (hclimbs : Climbs nodes d c i)
    (hroot : (nodes i).parent = none) (hfuel : d < fuel)
    {numbits : ℕ} (hlt : numbits + d < 256) : climb nodes fuel c numbits = some (numbits + d) := by
  induction d generalizing c fuel numbits with
  | zero =>
    obtain ⟨fuel, rfl⟩ := exists_eq_succ_of_ne_zero (Nat.ne_of_gt hfuel)
    cases hclimbs
    rw [climb, hroot]
    rfl
  | succ d ih =>
    obtain ⟨fuel, rfl⟩ := exists_eq_succ_of_ne_zero (Nat.ne_of_gt (zero_lt_of_lt hfuel))
    obtain ⟨p, hp, hrest⟩ := hclimbs
    rw [climb, hp]
    dsimp only
    rw [mod_eq_of_lt (by omega), ih hrest (by omega) (by omega)]
    congr 1
    omega

end Merge

/-! ## The lengths of the codes -/

section Lengths

instance : IsTrans (ℕ × ℕ) compareLe where
  trans a b c hab hbc := by
    rw [compareLe] at *
    omega

instance : Std.Total compareLe where
  total a b := by
    rw [compareLe, compareLe]
    omega

variable {histo : List ℕ} {totalweight : ℕ}

theorem getD_le_sum (histo : List ℕ) (c : ℕ) : histo.getD c 0 ≤ histo.sum := by
  rw [getD_eq_getElem?_getD]
  cases h : histo[c]? with
  | none => exact Nat.zero_le _
  | some count => exact single_le_sum (fun _ _ ↦ Nat.zero_le _) _ (mem_of_getElem? h)

/-- The quotient of `build_tree` is at most twice the count of a code. -/
theorem quotient_le (hle : totalweight ≤ 2 * histo.sum) (c : ℕ) :
    histo.getD c 0 * totalweight / histo.sum ≤ 2 * histo.getD c 0 := by
  refine Nat.div_le_of_le_mul ?_
  calc histo.getD c 0 * totalweight ≤ histo.getD c 0 * (2 * histo.sum) := Nat.mul_le_mul_left _ hle
    _ = histo.sum * (2 * histo.getD c 0) := by ring

variable {c : ℕ}

/-- The weight of a code is at most twice its count. -/
theorem scaledWeight_le (hle : totalweight ≤ 2 * histo.sum) (hc : histo.getD c 0 ≠ 0) :
    scaledWeight (histo.getD c 0) histo.sum totalweight ≤ 2 * histo.getD c 0 := by
  rw [scaledWeight]
  split_ifs
  · omega
  · exact quotient_le hle c

theorem scaledWeight_pos (count totaldata totalweight : ℕ) :
    0 < scaledWeight count totaldata totalweight := by
  rw [scaledWeight]
  split_ifs with h
  · exact Nat.one_pos
  · exact Nat.pos_of_ne_zero h

theorem storedWeight_eq (hsum : histo.sum < 2 ^ 30) (hle : totalweight ≤ 2 * histo.sum) (c : ℕ) :
    storedWeight (histo.getD c 0) histo.sum totalweight =
      scaledWeight (histo.getD c 0) histo.sum totalweight := by
  have hquot := quotient_le hle c
  have hcount := getD_le_sum histo c
  rw [storedWeight, scaledWeight, mod_eq_of_lt (by omega)]

theorem mem_occurring : c ∈ occurring histo ↔ c < histo.length ∧ histo.getD c 0 ≠ 0 := by
  rw [occurring, mem_filter, mem_range, decide_eq_true_iff]

theorem nodup_occurring (histo : List ℕ) : (occurring histo).Nodup := List.nodup_range.filter _

/-- The counts of the codes that occur make up all of the data. -/
theorem sum_occurring (histo : List ℕ) :
    ((occurring histo).map fun c ↦ histo.getD c 0).sum = histo.sum := by
  have hall : ((range histo.length).map fun c ↦ histo.getD c 0) = histo := by
    refine ext_getElem (by simp) fun c hc hc' ↦ ?_
    rw [getElem_map, getElem_range, getD_eq_getElem _ _ hc']
  have hsplit := sum_map_filter_add_sum_map_filter_not (fun c ↦ histo.getD c 0 ≠ 0)
    (fun c ↦ histo.getD c 0) (range histo.length)
  have hrest : (((range histo.length).filter fun c ↦ ¬ histo.getD c 0 ≠ 0).map fun c ↦
      histo.getD c 0).sum = 0 := by
    refine sum_eq_zero fun x hx ↦ ?_
    obtain ⟨c, hc, rfl⟩ := List.mem_map.mp hx
    simpa using (List.mem_filter.mp hc).2
  rw [hrest, Nat.add_zero, hall] at hsplit
  exact hsplit

/-- The weights of the codes have a sum of 31 bits. -/
theorem sum_scaledWeight_le (hle : totalweight ≤ 2 * histo.sum) :
    ((occurring histo).map fun c ↦ scaledWeight (histo.getD c 0) histo.sum totalweight).sum ≤
      2 * histo.sum := by
  calc ((occurring histo).map fun c ↦ scaledWeight (histo.getD c 0) histo.sum totalweight).sum
      ≤ ((occurring histo).map fun c ↦ 2 * histo.getD c 0).sum :=
        sum_le_sum fun c hc ↦ scaledWeight_le hle (mem_occurring.mp hc).2
    _ = 2 * histo.sum := by rw [sum_map_mul_left, sum_occurring]

/-- The comparison of the nodes is that of the numbers. -/
theorem treeNodeCompare_le_iff {a b : HuffNode} (ha : a.weight < 2 ^ 31) (hb : b.weight < 2 ^ 31) :
    treeNodeCompare a b ≤ 0 ↔ compareLe (a.weight, a.bits) (b.weight, b.bits) := by
  rw [treeNodeCompare, compareLe]
  by_cases heq : b.weight = a.weight
  · rw [if_neg (not_not.mpr heq), heq]
    omega
  · rw [if_pos heq, asInt]
    split_ifs with hsign
    · omega
    · omega

variable (hsum : histo.sum < 2 ^ 30) (hle : totalweight ≤ 2 * histo.sum)
include hsum hle

theorem codeNodes_of_occurring (hc : c ∈ occurring histo) :
    codeNodes histo histo.sum totalweight c =
      { bits := c, weight := scaledWeight (histo.getD c 0) histo.sum totalweight } := by
  rw [codeNodes, if_pos (mem_occurring.mp hc).2, storedWeight_eq hsum hle]

theorem map_sortedItems :
    (sortedItems (codeNodes histo histo.sum totalweight) (occurring histo)).map (fun c ↦
      (scaledWeight (histo.getD c 0) histo.sum totalweight, c)) =
      (usedCodes histo histo.sum totalweight).insertionSort compareLe := by
  have hused : usedCodes histo histo.sum totalweight = (occurring histo).map fun c ↦
      (scaledWeight (histo.getD c 0) histo.sum totalweight, c) := by
    rw [usedCodes, occurring, ← filterMap_eq_filter, map_filterMap]
    refine filterMap_congr fun c _ ↦ ?_
    by_cases hc : histo.getD c 0 = 0
    · rw [if_pos hc, Option.guard, if_neg (by simpa using hc)]
      rfl
    · rw [if_neg hc, Option.guard, if_pos (by simpa using hc)]
      rfl
  rw [hused, sortedItems]
  refine map_insertionSort _ _ _ _ fun a ha b hb ↦ ?_
  have hweight {c : ℕ} (hc : c ∈ occurring histo) :
      scaledWeight (histo.getD c 0) histo.sum totalweight < 2 ^ 31 := by
    have hle' := scaledWeight_le hle (mem_occurring.mp hc).2
    have hcount := getD_le_sum histo c
    omega
  have hiff := treeNodeCompare_le_iff
    (a := { bits := a, weight := scaledWeight (histo.getD a 0) histo.sum totalweight })
    (b := { bits := b, weight := scaledWeight (histo.getD b 0) histo.sum totalweight })
    (hweight ha) (hweight hb)
  rw [codeNodes_of_occurring hsum hle ha, codeNodes_of_occurring hsum hle hb, hiff]

/-- The codes in the order of their weights, the lightest first. -/
def lightestFirst (histo : List ℕ) (totalweight : ℕ) : List ℕ :=
  (sortedItems (codeNodes histo histo.sum totalweight) (occurring histo)).reverse

omit hsum hle in
theorem perm_lightestFirst : (lightestFirst histo totalweight).Perm (occurring histo) :=
  (reverse_perm _).trans (perm_insertionSort _ _)

theorem pairwise_lightestFirst : (lightestFirst histo totalweight).Pairwise fun a b ↦
    scaledWeight (histo.getD a 0) histo.sum totalweight ≤
    scaledWeight (histo.getD b 0) histo.sum totalweight := by
  have hsorted := pairwise_insertionSort compareLe (usedCodes histo histo.sum totalweight)
  rw [← map_sortedItems hsum hle, pairwise_map] at hsorted
  rw [lightestFirst, pairwise_reverse]
  refine hsorted.imp fun {a b} h ↦ ?_
  rcases h with hlt | ⟨heq, -⟩
  · exact hlt.le
  · exact heq.le

theorem leaves_buildTree : (((usedCodes histo histo.sum totalweight).insertionSort compareLe).map
    fun p ↦ (⟨p.1, .code p.2⟩ : Weighted)).reverse =
      leavesOf (fun c ↦ scaledWeight (histo.getD c 0) histo.sum totalweight)
      (lightestFirst histo totalweight) := by
  rw [← map_sortedItems hsum hle, map_map, leavesOf, lightestFirst, map_reverse]
  rfl

/-- The number of bits of a code by its depth in a tree. -/
def lengthIn (t : HuffTree) (c : ℕ) : ℕ :=
  match t.depth? c with
  | none => 0
  | some 0 => 1
  | some (d + 1) => d + 1

/-- The array at the start of the loop. -/
theorem represented_codeNodes : Represented (codeNodes histo histo.sum totalweight) histo.length
    (lightestFirst histo totalweight) (leavesOf (fun c ↦
    scaledWeight (histo.getD c 0) histo.sum totalweight) (lightestFirst histo totalweight)) := by
  have hmem {c : ℕ} (hc : c ∈ lightestFirst histo totalweight) : c ∈ occurring histo :=
    perm_lightestFirst.mem_iff.mp hc
  refine ⟨?_, ?_, fun c hc ↦ (mem_occurring.mp (hmem hc)).1, fun c hc ↦ ?_, ?_⟩
  · rw [leavesOf, forall₂_map_right_iff]
    refine List.forall₂_same.mpr fun c hc ↦ ?_
    have hnode := codeNodes_of_occurring hsum hle (hmem hc)
    refine ⟨by rw [hnode], by rw [hnode], fun p hp ↦ ?_⟩
    cases List.mem_singleton.mp hp
    exact rfl
  · exact perm_lightestFirst.nodup_iff.mpr (nodup_occurring histo)
  · rw [codeNodes, if_neg]
    rw [getD_eq_default _ _ hc]
    exact not_not.mpr rfl
  · have hperm : (lightestFirst histo totalweight).Perm (occurring histo) := perm_lightestFirst
    have hweights : (leavesOf (fun c ↦ scaledWeight (histo.getD c 0) histo.sum totalweight)
        (lightestFirst histo totalweight)).map Weighted.weight =
          (lightestFirst histo totalweight).map fun c ↦
          scaledWeight (histo.getD c 0) histo.sum totalweight := by
      rw [leavesOf, map_map]
      rfl
    have hbound := sum_scaledWeight_le hle
    rw [hweights, (hperm.map _).sum_eq]
    omega

omit hsum hle in
/-- The tree of the codes with their weights is not higher than 45. -/
theorem height_lt_of_heavy {w : ℕ → ℕ} {t : HuffTree} (hheavy : Heavy w t)
    (hlt : t.weight w < 2 ^ 32) : t.height < 46 := by
  by_contra hlong
  have hfib : fib 48 ≤ fib (t.height + 2) := fib_mono (by omega)
  have hnumber : fib 48 = 4807526976 := by decide
  rw [Heavy] at hheavy
  omega

theorem nodeLength_eq {nodes : HuffNodes} {i w : ℕ} {t : HuffTree}
    (hrep : Represents nodes i ⟨w, t⟩)
    (hcodes : t.codes.Perm (occurring histo)) (hheight : t.height < 46) (hc : c < histo.length)
    (hweight : (nodes c).weight = (codeNodes histo histo.sum totalweight c).weight) :
    nodeLength nodes (2 * histo.length + 1) c = some (lengthIn t c) := by
  have hlength : t.codes.length ≤ histo.length := by
    rw [hcodes.length_eq]
    exact (length_filter_le _ _).trans_eq length_range
  rw [nodeLength, hweight, lengthIn]
  by_cases hused : c ∈ occurring histo
  · obtain ⟨d, hd⟩ := Option.ne_none_iff_exists'.mp fun hnone ↦
      HuffTree.depth?_eq_none_iff.mp hnone (hcodes.mem_iff.mpr hused)
    have hleaf : (c, d) ∈ t.leaves := HuffTree.mem_codes_of_depth? hd
    have hdepth : d ≤ t.height := HuffTree.depth_le_height hleaf
    have hlt := t.height_lt_length_codes
    have hclimb := climb_of_climbs (hrep.leaves _ hleaf) hrep.parent
      (show d < 2 * histo.length + 1 by omega) (show 0 + d < 256 by omega)
    rw [codeNodes_of_occurring hsum hle hused, if_pos (scaledWeight_pos _ _ _), hclimb,
      hd, Nat.zero_add]
    cases d <;> rfl
  · have hnone : t.depth? c = none :=
      HuffTree.depth?_eq_none_iff.mpr fun hmem ↦ hused (hcodes.mem_iff.mp hmem)
    have hzero : histo.getD c 0 = 0 := by
      by_contra hcount
      exact hused (mem_occurring.mpr ⟨hc, hcount⟩)
    rw [codeNodes, if_neg (not_not.mpr hzero), if_neg (Nat.lt_irrefl 0), hnone]

omit hsum hle in
theorem mapM_congr {f g : ℕ → Option ℕ} {l : List ℕ} (h : ∀ c ∈ l, f c = g c) :
    l.mapM f = l.mapM g := by
  induction l with
  | nil => rfl
  | cons c l ih =>
    rw [mapM_cons, mapM_cons, h c mem_cons_self, ih fun c' hc' ↦ h c' (mem_cons_of_mem _ hc')]

/-- **The lengths of the codes that occur** are those of a tree of these codes, in the array and out
of it. -/
theorem exists_buildTree (hne : occurring histo ≠ []) :
    ∃ t : HuffTree, t.codes.Perm (occurring histo) ∧
      buildTreeNodes histo histo.sum totalweight = some ((range histo.length).map (lengthIn t)) ∧
        buildTree histo histo.sum totalweight = (range histo.length).map (lengthIn t) ∧
          (∀ maxbits, totalweight = 0 → histo.length ≤ 2 ^ maxbits → t.height ≤ maxbits) := by
  have hperm : (lightestFirst histo totalweight).Perm (occurring histo) := perm_lightestFirst
  have hcount : (lightestFirst histo totalweight).length ≤ histo.length := by
    rw [hperm.length_eq]
    exact (length_filter_le _ _).trans_eq length_range
  have hne' : lightestFirst histo totalweight ≠ [] := fun hnil ↦ hne (hnil ▸ hperm).nil_eq.symm
  obtain ⟨t, ht, hcodes, hheavy⟩ := exists_tree (fun c _ ↦ scaledWeight_pos _ _ _)
    (pairwise_lightestFirst hsum hle) hne' (Nat.le_refl _)
  have hweight :
      t.weight (fun c ↦ scaledWeight (histo.getD c 0) histo.sum totalweight) < 2 ^ 32 := by
    have hbound := sum_scaledWeight_le hle
    rw [HuffTree.weight_eq_sum, ((hcodes.trans hperm).map _).sum_eq]
    omega
  refine ⟨t, hcodes.trans hperm, ?_, ?_, fun maxbits hzero hlength ↦ ?_⟩
  · have hrepresented := represented_codeNodes hsum hle
    obtain ⟨i, w, hrep⟩ :=
      represents_mergeLoop hrepresented (fun hnil ↦ hne' (List.map_eq_nil_iff.mp hnil))
      (show (leavesOf _ _).length ≤
      (lightestFirst histo totalweight).length from (length_map _).le) ht
    have hlength : (sortedItems (codeNodes histo histo.sum totalweight) (occurring histo)).length =
        (lightestFirst histo totalweight).length := List.length_reverse.symm
    rw [buildTreeNodes, hlength]
    have hlengths : ∀ c ∈ range histo.length, nodeLength
        (mergeLoop (lightestFirst histo totalweight).length histo.length
        (codeNodes histo histo.sum totalweight)
          (lightestFirst histo totalweight)) (2 * histo.length + 1) c =
          (pure (lengthIn t c) : Option ℕ) := by
      intro c hc
      have hlt := List.mem_range.mp hc
      exact nodeLength_eq hsum hle hrep (hcodes.trans hperm) (height_lt_of_heavy hheavy hweight) hlt
        (weight_mergeLoop hrepresented.lt hlt)
    exact (mapM_congr hlengths).trans mapM_pure
  · have hused : ((usedCodes histo histo.sum totalweight).insertionSort compareLe).length =
        (lightestFirst histo totalweight).length := by
      rw [← map_sortedItems hsum hle, length_map, lightestFirst, length_reverse]
    rw [buildTree, leaves_buildTree hsum hle, hused, mergeNodes_succ ht]
    rfl
  · have hone : ∀ c ∈ lightestFirst histo totalweight,
        scaledWeight (histo.getD c 0) histo.sum totalweight = 1 := by
      intro c _
      rw [hzero, scaledWeight, Nat.mul_zero, Nat.zero_div, if_pos rfl]
    exact height_le_of_even hone (hcount.trans hlength) (Nat.le_refl _) ht hne'

end Lengths

end RoscoEmulator.Util
