import Mathlib.Data.List.Nodup

/-!
# Linked lists

The pointers of a linked structure are a function from a node to the node it points to, if it points
to one. `Chain f l` says that the pointers `f` lead through the nodes of `l` in order, and end
there. A doubly linked list is two chains, one of the forward pointers and one of the backward
pointers along the reversed list, so that what holds of a chain holds for both directions.

Unlinking a node redirects the pointer of its predecessor; linking one in also sets its own. An
insertion by priority walks along the list up to the first node that has to come later;
`insertBefore` is its effect on the list. -/

namespace RoscoEmulator.LinkedList

open Function List

variable {ι : Type*} [DecidableEq ι]

/-! ## Chains -/

/-- The pointers `f` lead through `l`, and the last one is null. -/
def Chain (f : ι → Option ι) : List ι → Prop
  | [] => True
  | x :: l => f x = l.head? ∧ Chain f l

/-- Write through a pointer, if it is not null. -/
def setAt (f : ι → Option ι) : Option ι → Option ι → ι → Option ι
  | none, _ => f
  | some x, v => update f x v

variable {f g : ι → Option ι} {l l₁ l₂ : List ι} {x : ι} {v : Option ι}

omit [DecidableEq ι] in
theorem Chain.congr (h : ∀ x ∈ l, g x = f x) (hf : Chain f l) : Chain g l := by
  induction l with
  | nil => trivial
  | cons x l ih =>
    refine ⟨(h x mem_cons_self).trans hf.1, ih ?_ hf.2⟩
    exact fun y hy ↦ h y (mem_cons_of_mem x hy)

omit [DecidableEq ι] in
theorem Chain.of_append (h : Chain f (l₁ ++ l₂)) : Chain f l₂ := by
  induction l₁ with
  | nil => exact h
  | cons x l₁ ih => exact ih h.2

omit [DecidableEq ι] in
theorem Chain.apply_eq (h : Chain f (l₁ ++ x :: l₂)) : f x = l₂.head? := h.of_append.1

theorem setAt_of_ne {p : Option ι} (h : p ≠ some x) : setAt f p v x = f x := by
  cases p with
  | none => rfl
  | some y =>
    have hne : x ≠ y := fun hxy ↦ h (congrArg some hxy.symm)
    exact update_of_ne hne _ _

/-- Writes through different pointers commute. -/
theorem update_setAt_comm {p w : Option ι} (h : p ≠ some x) :
    update (setAt f p v) x w = setAt (update f x w) p v := by
  rcases p with _ | y
  · rfl
  · exact update_comm (fun hyx ↦ h (congrArg some hyx)) _ _ _

theorem setAt_getLast_of_notMem (h : x ∉ l) : setAt f l.getLast? v x = f x :=
  setAt_of_ne fun hlast ↦ h (List.mem_of_getLast? hlast)

/-- The chain after its last pointer but those of `l₂` has been redirected. -/
theorem Chain.redirect (hnodup : (l₁ ++ l₂).Nodup) (h₁ : ∀ m₁ x y m₂, l₁ = m₁ ++ x :: y :: m₂ →
    f x = some y) (h₂ : Chain f l₂) : Chain (setAt f l₁.getLast? l₂.head?) (l₁ ++ l₂) := by
  induction l₁ with
  | nil => exact h₂
  | cons a l ih =>
    obtain ⟨ha, hnodup⟩ := List.nodup_cons.mp hnodup
    rcases l with _ | ⟨b, l⟩
    · refine ⟨update_self a _ _, h₂.congr ?_⟩
      intro y hy
      have hya : y ≠ a := ne_of_mem_of_not_mem hy ha
      exact update_of_ne hya _ _
    · have hlast : (a :: b :: l).getLast? = (b :: l).getLast? := List.getLast?_cons_cons
      rw [hlast]
      refine ⟨?_, ih hnodup fun m₁ x y m₂ hm ↦ h₁ (a :: m₁) x y m₂ (by rw [hm]; rfl)⟩
      rw [setAt_getLast_of_notMem fun hmem ↦ ha (mem_append_left _ hmem)]
      exact h₁ [] a b l rfl

omit [DecidableEq ι] in
theorem Chain.apply_of_append (h : Chain f (l₁ ++ l₂)) {m₁ m₂ : List ι} {x y : ι}
    (hl : l₁ = m₁ ++ x :: y :: m₂) : f x = some y := by
  subst hl
  rw [append_assoc] at h
  exact h.apply_eq

/-- Unlinking a node. -/
theorem Chain.unlink (hnodup : (l₁ ++ x :: l₂).Nodup) (h : Chain f (l₁ ++ x :: l₂)) :
    Chain (setAt f l₁.getLast? l₂.head?) (l₁ ++ l₂) :=
  .redirect (hnodup.sublist ((sublist_cons_self x l₂).append_left l₁))
    (fun _ _ _ _ hl ↦ h.apply_of_append hl) h.of_append.2

/-- Linking a node in: its own pointer is set first. -/
theorem Chain.link (hnodup : (l₁ ++ x :: l₂).Nodup) (h : Chain f (l₁ ++ l₂)) :
    Chain (setAt (update f x l₂.head?) l₁.getLast? (some x)) (l₁ ++ x :: l₂) := by
  have hx : x ∉ l₁ ++ l₂ := (List.nodup_middle.mp hnodup).notMem
  have hupdate : ∀ y ∈ l₁ ++ l₂, update f x l₂.head? y = f y :=
    fun y hy ↦ update_of_ne (ne_of_mem_of_not_mem hy hx) _ _
  have h' : Chain (update f x l₂.head?) (l₁ ++ l₂) := h.congr hupdate
  exact .redirect hnodup (fun _ _ _ _ hl ↦ h'.apply_of_append hl)
    ⟨update_self x _ _, h'.of_append⟩

/-! ## Doubly linked lists -/

/-- The two directions of a doubly linked list. -/
structure Linked (next prev : ι → Option ι) (l : List ι) : Prop where
  next : Chain next l
  prev : Chain prev l.reverse

variable {next prev next' prev' : ι → Option ι}

omit [DecidableEq ι] in
theorem Linked.congr (hnext : ∀ x ∈ l, next' x = next x) (hprev : ∀ x ∈ l, prev' x = prev x)
    (h : Linked next prev l) : Linked next' prev' l :=
  ⟨h.next.congr hnext, h.prev.congr fun x hx ↦ hprev x (List.mem_reverse.mp hx)⟩

omit [DecidableEq ι] in
theorem Linked.next_eq (h : Linked next prev (l₁ ++ x :: l₂)) : next x = l₂.head? :=
  h.next.apply_eq

omit [DecidableEq ι] in
theorem Linked.prev_eq (h : Linked next prev (l₁ ++ x :: l₂)) : prev x = l₁.getLast? := by
  have hprev := h.prev
  have hreverse : (l₁ ++ x :: l₂).reverse = l₂.reverse ++ x :: l₁.reverse := by simp
  rw [hreverse] at hprev
  rw [hprev.apply_eq, List.head?_reverse]

omit [DecidableEq ι] in
theorem Linked.next_head (h : Linked next prev (x :: l)) : next x = l.head? := h.next.1

omit [DecidableEq ι] in
theorem Linked.prev_head (h : Linked next prev (x :: l)) : prev x = none := by
  have h' : Linked next prev ([] ++ x :: l) := h
  exact h'.prev_eq

theorem Linked.unlink (hnodup : (l₁ ++ x :: l₂).Nodup) (h : Linked next prev (l₁ ++ x :: l₂)) :
    Linked (setAt next l₁.getLast? l₂.head?) (setAt prev l₂.head? l₁.getLast?) (l₁ ++ l₂) := by
  refine ⟨h.next.unlink hnodup, ?_⟩
  have hreverse : (l₁ ++ x :: l₂).reverse = l₂.reverse ++ x :: l₁.reverse := by simp
  have hprev := h.prev
  rw [hreverse] at hprev
  have hunlink := hprev.unlink (hreverse ▸ List.nodup_reverse.mpr hnodup)
  rwa [List.getLast?_reverse, List.head?_reverse, ← reverse_append] at hunlink

theorem Linked.link (hnodup : (l₁ ++ x :: l₂).Nodup) (h : Linked next prev (l₁ ++ l₂)) :
    Linked (setAt (update next x l₂.head?) l₁.getLast? (some x))
      (setAt (update prev x l₁.getLast?) l₂.head? (some x)) (l₁ ++ x :: l₂) := by
  refine ⟨h.next.link hnodup, ?_⟩
  have hreverse : (l₁ ++ x :: l₂).reverse = l₂.reverse ++ x :: l₁.reverse := by simp
  have hprev := h.prev
  rw [reverse_append] at hprev
  have hlink := hprev.link (hreverse ▸ List.nodup_reverse.mpr hnodup)
  rwa [List.getLast?_reverse, List.head?_reverse, ← hreverse] at hlink

/-! ## Insertion by priority -/

/-- Insert `x` before the first node that is `here`. -/
def insertBefore (here : ι → Bool) (x : ι) (l : List ι) : List ι :=
  l.takeWhile (fun y ↦ !here y) ++ x :: l.dropWhile (fun y ↦ !here y)

omit [DecidableEq ι] in
theorem perm_insertBefore (here : ι → Bool) (x : ι) (l : List ι) :
    (insertBefore here x l).Perm (x :: l) := by
  have hsplit : l.takeWhile (fun y ↦ !here y) ++ l.dropWhile (fun y ↦ !here y) = l :=
    takeWhile_append_dropWhile
  calc (insertBefore here x l).Perm
        (x :: (l.takeWhile (fun y ↦ !here y) ++ l.dropWhile (fun y ↦ !here y))) := perm_middle
    _ = x :: l := by rw [hsplit]

omit [DecidableEq ι] in
theorem mem_insertBefore {here : ι → Bool} {y : ι} : y ∈ insertBefore here x l ↔ y = x ∨ y ∈ l := by
  rw [(perm_insertBefore here x l).mem_iff, mem_cons]

omit [DecidableEq ι] in
/-- A list stays in order if the nodes before which `x` may stand come after it, and the others
before it. -/
theorem pairwise_insertBefore {r : ι → ι → Prop} {here : ι → Bool}
    (htrans : ∀ {a b c}, r a b → r b c → r a c) (hhere : ∀ y ∈ l, here y = true → r x y)
    (hnot : ∀ y ∈ l, here y = false → r y x) (h : l.Pairwise r) :
    (insertBefore here x l).Pairwise r := by
  induction l with
  | nil => exact pairwise_singleton r x
  | cons a l ih =>
    obtain ⟨ha, hl⟩ := List.pairwise_cons.mp h
    rcases ha' : here a with _ | _
    · have hinsert : insertBefore here x (a :: l) = a :: insertBefore here x l := by
        simp [insertBefore, ha']
      rw [hinsert, pairwise_cons]
      refine ⟨?_, ih (fun y hy ↦ hhere y (mem_cons_of_mem a hy))
        (fun y hy ↦ hnot y (mem_cons_of_mem a hy)) hl⟩
      intro y hy
      rcases mem_insertBefore.mp hy with rfl | hy
      · exact hnot a mem_cons_self ha'
      · exact ha y hy
    · have hinsert : insertBefore here x (a :: l) = x :: a :: l := by simp [insertBefore, ha']
      rw [hinsert, pairwise_cons]
      refine ⟨?_, h⟩
      intro y hy
      rcases List.mem_cons.mp hy with rfl | hy
      · exact hhere y mem_cons_self ha'
      · exact htrans (hhere a mem_cons_self ha') (ha y hy)

omit [DecidableEq ι] in
/-- A node before which `x` may stand stays last. -/
theorem insertBefore_append {here : ι → Bool} {y : ι} (hy : here y = true) :
    insertBefore here x (l ++ [y]) = insertBefore here x l ++ [y] := by
  induction l with
  | nil => simp [insertBefore, hy]
  | cons a l ih =>
    rcases ha : here a with _ | _
    · simpa [insertBefore, ha] using ih
    · simp [insertBefore, ha]

/-! ## Lists that correspond -/

section Forall₂

variable {κ : Type*} {r r' : ι → κ → Prop} {m : List κ} {x' : κ}

omit [DecidableEq ι] in
theorem forall₂_imp_of_mem (h : ∀ a ∈ l, ∀ b ∈ m, r a b → r' a b) (hr : Forall₂ r l m) :
    Forall₂ r' l m := by
  induction hr with
  | nil => exact .nil
  | cons hab _ ih =>
    refine .cons (h _ mem_cons_self _ mem_cons_self hab) (ih fun a ha b hb ↦ ?_)
    exact h a (mem_cons_of_mem _ ha) b (mem_cons_of_mem _ hb)

theorem forall₂_erase [DecidableEq κ] (hx : ∀ a ∈ l, ∀ b ∈ m, r a b → (a = x ↔ b = x'))
    (hr : Forall₂ r l m) : Forall₂ r (l.erase x) (m.erase x') := by
  induction hr with
  | nil => exact .nil
  | @cons a b l m hab hlm ih =>
    have hiff := hx a mem_cons_self b mem_cons_self hab
    by_cases hax : a = x
    · have hbx := hiff.mp hax
      subst hax hbx
      rwa [erase_cons_head, erase_cons_head]
    · rw [erase_cons_tail (by simpa using hax),
        erase_cons_tail (by simpa using fun hbx ↦ hax (hiff.mpr hbx))]
      refine .cons hab (ih fun c hc d hd ↦ ?_)
      exact hx c (mem_cons_of_mem _ hc) d (mem_cons_of_mem _ hd)

omit [DecidableEq ι] in
theorem forall₂_insertBefore {here : ι → Bool} {here' : κ → Bool} (hx : r x x')
    (hhere : ∀ a ∈ l, ∀ b ∈ m, r a b → here a = here' b) (hr : Forall₂ r l m) :
    Forall₂ r (insertBefore here x l) (insertBefore here' x' m) := by
  induction hr with
  | nil => exact .cons hx .nil
  | @cons a b l m hab hlm ih =>
    have heq := hhere a mem_cons_self b mem_cons_self hab
    have ih' := ih fun c hc d hd ↦
      hhere c (mem_cons_of_mem _ hc) d (mem_cons_of_mem _ hd)
    rcases ha : here a with _ | _
    · simp only [insertBefore, ha, ← heq, Bool.not_false, takeWhile_cons_of_pos,
        dropWhile_cons_of_pos, cons_append]
      exact .cons hab ih'
    · simp only [insertBefore, ha, ← heq, Bool.not_true, Bool.false_eq_true, not_false_eq_true,
        takeWhile_cons_of_neg, dropWhile_cons_of_neg, nil_append]
      exact .cons hx (.cons hab hlm)

end Forall₂

end RoscoEmulator.LinkedList
