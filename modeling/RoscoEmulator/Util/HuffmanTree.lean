import RoscoEmulator.Util.Huffman

/-!
# The trees of Huffman codes

What the merging of nodes keeps. The codes stay, and so does the sum of the weights. In a tree that
has been merged from two lightest nodes each time, what a node weighs grows with its height at least
as the Fibonacci numbers do, since a node is not merged before there is nothing lighter. And if all
codes have the same weight, then no code is deeper than the number of codes takes. -/

namespace RoscoEmulator.Util

open List

namespace HuffTree

/-- The codes of a tree with their depths. -/
def leaves : HuffTree → List (ℕ × ℕ)
  | code c => [(c, 0)]
  | node l r => (l.leaves ++ r.leaves).map fun p ↦ (p.1, p.2 + 1)

/-- The codes of a tree. -/
def codes : HuffTree → List ℕ
  | code c => [c]
  | node l r => l.codes ++ r.codes

/-- The depth of the deepest code. -/
def height : HuffTree → ℕ
  | code _ => 0
  | node l r => max l.height r.height + 1

/-- The sum of the weights of the codes. -/
def weight (w : ℕ → ℕ) : HuffTree → ℕ
  | code c => w c
  | node l r => l.weight w + r.weight w

variable {c : ℕ} (t : HuffTree)

theorem map_fst_leaves : t.leaves.map Prod.fst = t.codes := by
  induction t with
  | code c => rfl
  | node l r ihl ihr =>
    have hfst : (Prod.fst ∘ fun p : ℕ × ℕ ↦ (p.1, p.2 + 1)) = Prod.fst := rfl
    rw [leaves, codes, map_map, hfst, map_append, ihl, ihr]

theorem weight_eq_sum (w : ℕ → ℕ) (t : HuffTree) : t.weight w = (t.codes.map w).sum := by
  induction t with
  | code c => rw [weight, codes, map_singleton, sum_singleton]
  | node l r ihl ihr => rw [weight, codes, map_append, sum_append, ihl, ihr]

theorem codes_ne_nil : t.codes ≠ [] := by
  induction t with
  | code c => exact cons_ne_nil c []
  | node l r ihl _ => exact fun h ↦ ihl (List.append_eq_nil_iff.mp h).1

/-- A tree is not as high as it has codes. -/
theorem height_lt_length_codes : t.height < t.codes.length := by
  induction t with
  | code c => exact Nat.one_pos
  | node l r ihl ihr =>
    rw [height, codes, length_append]
    omega

theorem depth_le_height {t : HuffTree} {p : ℕ × ℕ} (hp : p ∈ t.leaves) : p.2 ≤ t.height := by
  induction t generalizing p with
  | code c =>
    rw [leaves, mem_singleton] at hp
    rw [hp]
    exact Nat.zero_le _
  | node l r ihl ihr =>
    rw [leaves, mem_map] at hp
    obtain ⟨q, hq, rfl⟩ := hp
    rw [height]
    rcases List.mem_append.mp hq with hq | hq
    · exact Nat.succ_le_succ ((ihl hq).trans (Nat.le_max_left _ _))
    · exact Nat.succ_le_succ ((ihr hq).trans (Nat.le_max_right _ _))

/-- A node is above its codes. -/
theorem pos_of_mem_leaves_node {l r : HuffTree} {p : ℕ × ℕ}
    (hp : p ∈ (node l r).leaves) : 0 < p.2 := by
  rw [leaves, mem_map] at hp
  obtain ⟨q, -, rfl⟩ := hp
  exact Nat.succ_pos _

/-- **The Kraft equality of a tree.** -/
theorem kraft_leaves {H : ℕ} (hH : t.height ≤ H) :
    (t.leaves.map fun p ↦ 2 ^ (H - p.2)).sum = 2 ^ H := by
  induction t generalizing H with
  | code c => rw [leaves, map_singleton, sum_singleton, Nat.sub_zero]
  | node l r ihl ihr =>
    rw [height] at hH
    obtain ⟨H, rfl⟩ : ∃ H', H = H' + 1 := ⟨H - 1, by omega⟩
    have hsub : ((fun p : ℕ × ℕ ↦ 2 ^ (H + 1 - p.2)) ∘ fun p : ℕ × ℕ ↦ (p.1, p.2 + 1)) =
        fun p : ℕ × ℕ ↦ 2 ^ (H - p.2) := by
      funext p
      rw [Function.comp_apply, Nat.add_sub_add_right]
    rw [leaves, map_map, hsub, map_append, sum_append, ihl (by omega), ihr (by omega), pow_succ]
    ring

theorem mem_codes_of_depth? {d : ℕ} {t : HuffTree} (h : t.depth? c = some d) :
    (c, d) ∈ t.leaves := by
  induction t generalizing d with
  | code c' =>
    rw [depth?] at h
    split_ifs at h with hc
    rw [Option.some.injEq] at h
    rw [leaves, hc, h]
    exact mem_singleton_self _
  | node l r ihl ihr =>
    rw [depth?, Option.map_eq_some_iff] at h
    obtain ⟨d, hd, rfl⟩ := h
    rw [leaves, mem_map]
    refine ⟨(c, d), List.mem_append.mpr ?_, rfl⟩
    cases hl : l.depth? c with
    | some d' =>
      rw [hl] at hd
      exact .inl (ihl (hl.trans hd))
    | none =>
      rw [hl] at hd
      exact .inr (ihr hd)

theorem depth?_eq_none_iff {t : HuffTree} : t.depth? c = none ↔ c ∉ t.codes := by
  induction t with
  | code c' =>
    rw [depth?, codes, mem_singleton]
    split_ifs with h
    · exact iff_of_false (by simp) (not_not.mpr h.symm)
    · exact iff_of_true rfl (Ne.symm h)
  | node l r ihl ihr =>
    rw [depth?, codes, mem_append, not_or, ← ihl, ← ihr, Option.map_eq_none_iff]
    cases l.depth? c with
    | none => simp
    | some d => simp

/-- Each code of a tree without repetitions has one depth. -/
theorem depth?_eq_some_iff {d : ℕ} {t : HuffTree} (hnodup : t.codes.Nodup) :
    t.depth? c = some d ↔ (c, d) ∈ t.leaves := by
  refine ⟨mem_codes_of_depth?, fun hmem ↦ ?_⟩
  have hfst : (t.leaves.map Prod.fst).Nodup := by rw [map_fst_leaves]; exact hnodup
  have hcode : c ∈ t.codes := by
    rw [← map_fst_leaves]
    exact mem_map_of_mem hmem
  obtain ⟨d', hd'⟩ := Option.ne_none_iff_exists'.mp fun h ↦ (depth?_eq_none_iff.mp h) hcode
  have hsame := inj_on_of_nodup_map hfst (mem_codes_of_depth? hd') hmem rfl
  rw [hd', (Prod.mk.inj hsame).2]

end HuffTree

/-! ## Merging -/

section Merging

/-- The node that is made of the two last items of the list. -/
def merged (node0 node1 : Weighted) : Weighted :=
  ⟨node0.weight + node1.weight, .node node0.tree node1.tree⟩

variable (node : Weighted) {list : List Weighted}

theorem perm_insertNode (list : List Weighted) : (insertNode node list).Perm (node :: list) := by
  induction list with
  | nil => exact List.Perm.refl _
  | cons n ns ih =>
    rw [insertNode]
    split_ifs
    · exact List.Perm.refl _
    · exact (ih.cons n).trans (List.Perm.swap node n ns)

theorem perm_merge (list : List Weighted) :
    (insertNode node list.reverse).reverse.Perm (node :: list) :=
  (reverse_perm _).trans ((perm_insertNode node _).trans (list.reverse_perm.cons node))

/-- The lightest node is first. -/
def Ascending (list : List Weighted) : Prop := list.Pairwise fun a b ↦ a.weight ≤ b.weight

theorem pairwise_insertNode (h : list.Pairwise fun a b ↦ b.weight ≤ a.weight) :
    (insertNode node list).Pairwise fun a b ↦ b.weight ≤ a.weight := by
  induction list with
  | nil => exact pairwise_singleton _ _
  | cons n ns ih =>
    obtain ⟨hn, hns⟩ := List.pairwise_cons.mp h
    rw [insertNode]
    split_ifs with hlight
    · refine List.pairwise_cons.mpr ⟨fun a ha ↦ ?_, h⟩
      rcases List.mem_cons.mp ha with rfl | ha
      · exact hlight.le
      · exact (hn a ha).trans hlight.le
    · refine List.pairwise_cons.mpr ⟨fun a ha ↦ ?_, ih hns⟩
      rcases List.mem_cons.mp ((perm_insertNode node ns).mem_iff.mp ha) with rfl | ha
      · exact Nat.not_lt.mp hlight
      · exact hn a ha

theorem Ascending.merge (h : Ascending list) (node : Weighted) :
    Ascending (insertNode node list.reverse).reverse := by
  rw [Ascending, pairwise_reverse]
  exact pairwise_insertNode node (List.pairwise_reverse.mpr h)

/-- **The rule of the loop of `build_tree`.** What each merge keeps holds of the tree that is
left. -/
theorem mergeNodes_rule {P : List Weighted → Prop}
    (hstep : ∀ node1 node0 list, P (node1 :: node0 :: list) →
      P (insertNode (merged node0 node1) list.reverse).reverse) {fuel : ℕ} (hP :
      P list) (hne : list ≠ [])
    (hfuel : list.length ≤ fuel) : ∃ n, P [n] ∧ mergeNodes fuel list = some n.tree := by
  induction fuel generalizing list with
  | zero => exact absurd (List.length_eq_zero_iff.mp (Nat.le_zero.mp hfuel)) hne
  | succ fuel ih =>
    match list, hP, hne, hfuel with
    | [n], hP, _, _ => exact ⟨n, hP, rfl⟩
    | node1 :: node0 :: list, hP, _, hfuel =>
      have hlength :
          (insertNode (merged node0 node1) list.reverse).reverse.length = list.length + 1 :=
        (perm_merge (merged node0 node1) list).length_eq
      refine ih (hstep node1 node0 list hP) (ne_nil_of_length_pos ?_) (hlength.trans_le ?_)
      · exact hlength ▸ Nat.succ_pos _
      · exact Nat.le_of_succ_le_succ hfuel

theorem mergeNodes_succ {fuel : ℕ} {t : HuffTree} (h : mergeNodes fuel list = some t) :
    mergeNodes (fuel + 1) list = some t := by
  induction fuel generalizing list with
  | zero => exact absurd h.symm (Option.some_ne_none t)
  | succ fuel ih =>
    match list, h with
    | [_], h => exact h
    | _ :: _ :: _, h => exact ih h

/-- The codes of the trees in a list. -/
def codesOf (list : List Weighted) : List ℕ := list.flatMap fun n ↦ n.tree.codes

theorem perm_codesOf_merge (node1 node0 : Weighted) (list : List Weighted) :
    (codesOf (insertNode (merged node0 node1) list.reverse).reverse).Perm
      (codesOf (node1 :: node0 :: list)) := by
  have hperm := (perm_merge (merged node0 node1) list).flatMap_right fun n : Weighted ↦ n.tree.codes
  refine hperm.trans ?_
  rw [codesOf, flatMap_cons, flatMap_cons, flatMap_cons, ← append_assoc]
  exact List.Perm.append_right _ perm_append_comm

/-- Every node has the weight of its codes. -/
def Weighs (w : ℕ → ℕ) (list : List Weighted) : Prop := ∀ n ∈ list, n.weight = n.tree.weight w

theorem Weighs.merge {w : ℕ → ℕ} {node1 node0 : Weighted} (h : Weighs w (node1 :: node0 :: list)) :
    Weighs w (insertNode (merged node0 node1) list.reverse).reverse := by
  intro n hn
  rcases List.mem_cons.mp ((perm_merge _ _).mem_iff.mp hn) with rfl | hn
  · rw [merged, HuffTree.weight, h node0 (by simp), h node1 (by simp)]
  · exact h n (mem_cons_of_mem _ (mem_cons_of_mem _ hn))

end Merging

/-! ## Heights -/

section Heights

/-- A tree weighs at least the Fibonacci number of its height. -/
def Heavy (w : ℕ → ℕ) (t : HuffTree) : Prop := Nat.fib (t.height + 2) ≤ t.weight w

/-- The nodes below another node are not heavier than `b`. -/
def Covers (w : ℕ → ℕ) (a b : Weighted) : Prop :=
  ∀ l r, a.tree = .node l r → l.weight w ≤ b.weight ∧ r.weight w ≤ b.weight

/-- What the merging keeps of the weights. -/
structure Grown (w : ℕ → ℕ) (list : List Weighted) : Prop where
  ascending : Ascending list
  weighs : Weighs w list
  heavy : ∀ n ∈ list, Heavy w n.tree
  below : ∀ n ∈ list, ∀ l r, n.tree = .node l r → Heavy w l ∧ Heavy w r
  covers : list.Pairwise fun a b ↦ Covers w a b ∧ Covers w b a

variable {w : ℕ → ℕ}

theorem heavy_above {a b : Weighted} (hwb : b.weight = b.tree.weight w) (ha : Heavy w a.tree)
    (hb : Heavy w b.tree) (hbelow : ∀ l r, a.tree = .node l r → Heavy w l ∧ Heavy w r)
    (hcovers : Covers w a b) : Nat.fib (a.tree.height + 3) ≤ a.tree.weight w + b.tree.weight w := by
  have hfib :
      Nat.fib (a.tree.height + 3) = Nat.fib (a.tree.height + 1) + Nat.fib (a.tree.height + 2) :=
    Nat.fib_add_two
  rw [hfib, Nat.add_comm]
  refine Nat.add_le_add ha ?_
  cases ht : a.tree with
  | code c =>
    have hone : Nat.fib ((HuffTree.code c).height + 1) = 1 := rfl
    rw [hone]
    exact (Nat.fib_pos.mpr (Nat.succ_pos _)).trans_le hb
  | node l r =>
    obtain ⟨hl, hr⟩ := hbelow l r ht
    obtain ⟨hwl, hwr⟩ := hcovers l r ht
    rw [← hwb, HuffTree.height]
    rcases Nat.le_total l.height r.height with hmax | hmax
    · rw [Nat.max_eq_right hmax]
      exact hr.trans hwr
    · rw [Nat.max_eq_left hmax]
      exact hl.trans hwl

theorem Grown.merge {node1 node0 : Weighted}
    {list : List Weighted} (h : Grown w (node1 :: node0 :: list)) :
    Grown w (insertNode (merged node0 node1) list.reverse).reverse := by
  have hperm := perm_merge (merged node0 node1) list
  obtain ⟨hle1, hascending⟩ := List.pairwise_cons.mp h.ascending
  obtain ⟨hle0, hrest⟩ := List.pairwise_cons.mp hascending
  obtain ⟨hcovers1, hcovers⟩ := List.pairwise_cons.mp h.covers
  obtain ⟨hcovers0, hcoversRest⟩ := List.pairwise_cons.mp hcovers
  have hmem1 : node1 ∈ node1 :: node0 :: list := mem_cons_self
  have hmem0 : node0 ∈ node1 :: node0 :: list := mem_cons_of_mem _ mem_cons_self
  have hmem {n : Weighted} (hn : n ∈ list) : n ∈ node1 :: node0 :: list :=
    mem_cons_of_mem _ (mem_cons_of_mem _ hn)
  have hpair := hcovers1 node0 mem_cons_self
  have hheavy : Heavy w (merged node0 node1).tree := by
    have hheight :
        (merged node0 node1).tree.height = max node0.tree.height node1.tree.height + 1 := rfl
    have hweight :
        (merged node0 node1).tree.weight w = node0.tree.weight w + node1.tree.weight w := rfl
    rw [Heavy, hheight, hweight]
    rcases Nat.le_total node0.tree.height node1.tree.height with hmax | hmax
    · rw [Nat.max_eq_right hmax, Nat.add_comm (node0.tree.weight w)]
      exact heavy_above (h.weighs _ hmem0) (h.heavy _ hmem1) (h.heavy _ hmem0)
        (h.below _ hmem1) hpair.1
    · rw [Nat.max_eq_left hmax]
      exact heavy_above (h.weighs _ hmem1) (h.heavy _ hmem0) (h.heavy _ hmem1)
        (h.below _ hmem0) hpair.2
  refine ⟨Ascending.merge hrest _, h.weighs.merge, fun n hn ↦ ?_, fun n hn ↦ ?_, ?_⟩
  · rcases List.mem_cons.mp (hperm.mem_iff.mp hn) with rfl | hn
    · exact hheavy
    · exact h.heavy n (hmem hn)
  · rcases List.mem_cons.mp (hperm.mem_iff.mp hn) with rfl | hn
    · rintro l r ht
      obtain ⟨rfl, rfl⟩ := HuffTree.node.inj ht
      exact ⟨h.heavy _ hmem0, h.heavy _ hmem1⟩
    · exact h.below n (hmem hn)
  · refine (hperm.pairwise_iff fun hab ↦ ⟨hab.2, hab.1⟩).mpr ?_
    refine List.pairwise_cons.mpr ⟨fun n hn ↦ ⟨?_, ?_⟩, hcoversRest⟩
    · rintro l r ht
      obtain ⟨rfl, rfl⟩ := HuffTree.node.inj ht
      exact ⟨h.weighs _ hmem0 ▸ hle0 n hn, h.weighs _ hmem1 ▸ hle1 n (mem_cons_of_mem _ hn)⟩
    · rintro l r ht
      obtain ⟨hl, hr⟩ := (hcovers1 n (mem_cons_of_mem _ hn)).2 l r ht
      have hless : node1.weight ≤ (merged node0 node1).weight := Nat.le_add_left _ _
      exact ⟨hl.trans hless, hr.trans hless⟩

/-- The weights of codes that have all the same one. -/
structure Even (k : ℕ) (list : List Weighted) : Prop where
  ascending : Ascending list
  sizes : ∀ n ∈ list, n.weight = 2 ^ k ∧ n.tree.height ≤ k ∨
    2 ^ k < n.weight ∧ n.weight ≤ 2 ^ (k + 1) ∧ n.tree.height ≤ k + 1
  /-- Only one node lies between two powers. -/
  odd : list.Pairwise fun a b ↦ ¬ (2 ^ k < a.weight ∧ a.weight < 2 ^ (k + 1) ∧
    2 ^ k < b.weight ∧ b.weight < 2 ^ (k + 1))

theorem Even.merge {k : ℕ} {node1 node0 : Weighted}
    {list : List Weighted} (h : Even k (node1 :: node0 :: list)) :
    ∃ k', Even k' (insertNode (merged node0 node1) list.reverse).reverse := by
  have hperm := perm_merge (merged node0 node1) list
  obtain ⟨hle1, hascending⟩ := List.pairwise_cons.mp h.ascending
  obtain ⟨hle0, hrest⟩ := List.pairwise_cons.mp hascending
  obtain ⟨hodd1, hodd⟩ := List.pairwise_cons.mp h.odd
  obtain ⟨hodd0, hoddRest⟩ := List.pairwise_cons.mp hodd
  have hsize1 := h.sizes node1 mem_cons_self
  have hsize0 := h.sizes node0 (mem_cons_of_mem _ mem_cons_self)
  have hle := hle1 node0 mem_cons_self
  have hsize {n : Weighted} (hn : n ∈ list) := h.sizes n (mem_cons_of_mem _ (mem_cons_of_mem _ hn))
  have hweight : (merged node0 node1).weight = node0.weight + node1.weight := rfl
  have hheight :
      (merged node0 node1).tree.height = max node0.tree.height node1.tree.height + 1 := rfl
  have hpos : 0 < 2 ^ k := Nat.two_pow_pos k
  have hcollect {k' : ℕ}
      (hnew : (merged node0 node1).weight = 2 ^ k' ∧ (merged node0 node1).tree.height ≤ k' ∨
        2 ^ k' < (merged node0 node1).weight ∧ (merged node0 node1).weight ≤ 2 ^ (k' + 1) ∧
          (merged node0 node1).tree.height ≤ k' + 1)
      (hold : ∀ n ∈ list, n.weight = 2 ^ k' ∧ n.tree.height ≤ k' ∨
        2 ^ k' < n.weight ∧ n.weight ≤ 2 ^ (k' + 1) ∧ n.tree.height ≤ k' + 1)
      (hone : (∀ n ∈ list, ¬ (2 ^ k' < n.weight ∧ n.weight < 2 ^ (k' + 1))) ∨
        (merged node0 node1).weight = 2 ^ (k' + 1) ∧ k' = k) :
      Even k' (insertNode (merged node0 node1) list.reverse).reverse := by
    refine ⟨Ascending.merge hrest _, fun n hn ↦ ?_, ?_⟩
    · rcases List.mem_cons.mp (hperm.mem_iff.mp hn) with rfl | hn
      · exact hnew
      · exact hold n hn
    · refine (hperm.pairwise_iff fun hab h ↦ hab ⟨h.2.2.1, h.2.2.2, h.1, h.2.1⟩).mpr ?_
      rcases hone with hnone | ⟨hwhole, rfl⟩
      · refine List.pairwise_cons.mpr ⟨fun n hn hno ↦ hnone n hn hno.2.2, ?_⟩
        exact List.Pairwise.imp_of_mem (fun hn _ _ hno ↦ hnone _ hn ⟨hno.1, hno.2.1⟩) hoddRest
      · refine List.pairwise_cons.mpr ⟨fun n _ hno ↦ ?_, hoddRest⟩
        exact absurd hno.2.1 (by omega)
  by_cases hboth : node0.weight = 2 ^ k
  · -- both have the smaller power, and the new node has the larger one
    refine ⟨k, hcollect (.inr ?_) (fun n hn ↦ hsize hn) (.inr ⟨?_, rfl⟩)⟩
    · rw [hheight, hweight]
      omega
    · rw [hweight]
      omega
  · -- nothing behind the second one is smaller than the larger power
    have hwhole : ∀ n ∈ list, n.weight = 2 ^ (k + 1) ∧ n.tree.height ≤ k + 1 := by
      intro n hn
      have hn' := hsize hn
      have hle' := hle0 n hn
      have hno := hodd0 n hn
      omega
    refine ⟨k + 1, hcollect (.inr ?_) (fun n hn ↦ .inl (hwhole n hn)) (.inl fun n hn hno ↦ ?_)⟩
    · rw [hheight, hweight]
      omega
    · exact absurd (hwhole n hn).1 (by omega)

/-- What the leaves of the codes are before the merging. -/
def leavesOf (w : ℕ → ℕ) (codes : List ℕ) : List Weighted := codes.map fun c ↦ ⟨w c, .code c⟩

theorem codesOf_leavesOf (w : ℕ → ℕ) (codes : List ℕ) : codesOf (leavesOf w codes) = codes := by
  rw [codesOf, leavesOf, flatMap_map]
  exact flatMap_singleton' codes

/-- **The tree of codes in the order of their weights**: it has these codes, and no more height than
its weight has Fibonacci numbers. -/
theorem exists_tree {codes : List ℕ} (hw : ∀ c ∈ codes, 0 < w c)
    (hsorted : codes.Pairwise fun a b ↦ w a ≤ w b)
    (hne : codes ≠ []) {fuel : ℕ} (hfuel : codes.length ≤ fuel) :
    ∃ t, mergeNodes fuel (leavesOf w codes) = some t ∧ t.codes.Perm codes ∧ Heavy w t := by
  have hstart : Grown w (leavesOf w codes) := by
    have hcode {n : Weighted} (hn : n ∈ leavesOf w codes) : ∃ c ∈ codes, n = ⟨w c, .code c⟩ := by
      obtain ⟨c, hc, rfl⟩ := List.mem_map.mp hn
      exact ⟨c, hc, rfl⟩
    refine ⟨List.pairwise_map.mpr hsorted, fun n hn ↦ ?_, fun n hn ↦ ?_, fun n hn l r ht ↦ ?_, ?_⟩
    · obtain ⟨c, -, rfl⟩ := hcode hn
      rfl
    · obtain ⟨c, hc, rfl⟩ := hcode hn
      exact hw c hc
    · obtain ⟨c, -, rfl⟩ := hcode hn
      exact HuffTree.noConfusion ht
    · refine List.pairwise_map.mpr (pairwise_of_forall fun a b ↦ ⟨fun l r ht ↦ ?_, fun l r ht ↦ ?_⟩)
      · exact HuffTree.noConfusion ht
      · exact HuffTree.noConfusion ht
  have hlist : (leavesOf w codes).length ≤ fuel := (length_map _).trans_le hfuel
  obtain ⟨n, ⟨hgrown, hcodes⟩, htree⟩ := mergeNodes_rule
    (P := fun list ↦ Grown w list ∧ (codesOf list).Perm codes)
    (fun node1 node0 list h ↦ ⟨h.1.merge, (perm_codesOf_merge node1 node0 list).trans h.2⟩)
    ⟨hstart, by rw [codesOf_leavesOf]⟩ (fun hnil ↦ hne (List.map_eq_nil_iff.mp hnil))
    hlist
  refine ⟨n.tree, htree, ?_, hgrown.heavy n (mem_singleton_self n)⟩
  have hsingle : codesOf [n] = n.tree.codes := flatMap_singleton _ _
  rwa [hsingle] at hcodes

/-- **The tree of codes that have all the weight 1** is as deep as their number takes. -/
theorem height_le_of_even {codes : List ℕ} (hw : ∀ c ∈ codes, w c = 1) {maxbits : ℕ}
    (hlength : codes.length ≤ 2 ^ maxbits) {fuel : ℕ} (hfuel : codes.length ≤ fuel) {t : HuffTree}
    (ht : mergeNodes fuel (leavesOf w codes) = some t) (hne : codes ≠ []) : t.height ≤ maxbits := by
  have hcode {n : Weighted} (hn : n ∈ leavesOf w codes) : ∃ c ∈ codes, n = ⟨w c, .code c⟩ := by
    obtain ⟨c, hc, rfl⟩ := List.mem_map.mp hn
    exact ⟨c, hc, rfl⟩
  have hstart : Even 0 (leavesOf w codes) := by
    have hone {n : Weighted} (hn : n ∈ leavesOf w codes) : n.weight = 1 := by
      obtain ⟨c, hc, rfl⟩ := hcode hn
      exact hw c hc
    refine ⟨?_, fun n hn ↦ .inl ⟨hone hn, ?_⟩, ?_⟩
    · exact List.Pairwise.imp_of_mem (fun ha hb _ ↦ (hone ha).trans_le (hone hb).ge)
        (pairwise_of_forall fun _ _ ↦ trivial)
    · obtain ⟨c, -, rfl⟩ := hcode hn
      rfl
    · exact List.Pairwise.imp_of_mem (fun ha _ _ hno ↦ absurd hno.1 (hone ha).not_gt)
        (pairwise_of_forall fun _ _ ↦ trivial)
  have hweighs : Weighs w (leavesOf w codes) := by
    intro n hn
    obtain ⟨c, -, rfl⟩ := hcode hn
    rfl
  have hlist : (leavesOf w codes).length ≤ fuel := (length_map _).trans_le hfuel
  obtain ⟨n, ⟨⟨k, heven⟩, hw', hcodes⟩, htree⟩ := mergeNodes_rule
    (P := fun list ↦ (∃ k, Even k list) ∧ Weighs w list ∧ (codesOf list).Perm codes)
    (fun node1 node0 list h ↦ by
      obtain ⟨⟨k, heven⟩, hweighs, hcodes⟩ := h
      exact ⟨heven.merge, hweighs.merge, (perm_codesOf_merge node1 node0 list).trans hcodes⟩)
    ⟨⟨0, hstart⟩, hweighs, by rw [codesOf_leavesOf]⟩ (fun hnil ↦ hne (List.map_eq_nil_iff.mp hnil))
    hlist
  rw [ht, Option.some.injEq] at htree
  have hsingle : codesOf [n] = n.tree.codes := flatMap_singleton _ _
  rw [hsingle] at hcodes
  have hweight : n.weight = codes.length := by
    have hones : n.tree.codes.map w = replicate n.tree.codes.length 1 :=
      List.map_eq_replicate_iff.mpr fun c hc ↦ hw c (hcodes.mem_iff.mp hc)
    rw [hw' n (mem_singleton_self n), HuffTree.weight_eq_sum, hones, sum_replicate, smul_eq_mul,
      mul_one, hcodes.length_eq]
  rw [htree]
  rcases heven.sizes n (mem_singleton_self n) with ⟨hpower, hheight⟩ | ⟨hlt, -, hheight⟩
  · have hle : 2 ^ k ≤ 2 ^ maxbits := hpower.symm.trans_le (hweight.trans_le hlength)
    exact hheight.trans ((Nat.pow_le_pow_iff_right Nat.one_lt_two).mp hle)
  · have hle : 2 ^ k < 2 ^ maxbits := hlt.trans_le (hweight.trans_le hlength)
    exact hheight.trans ((Nat.pow_lt_pow_iff_right Nat.one_lt_two).mp hle)

end Heights

end RoscoEmulator.Util
