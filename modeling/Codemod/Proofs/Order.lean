import Codemod.Edit.Basic
import Mathlib.Data.List.MinMax
import Mathlib.Data.List.Pairwise
import Mathlib.Tactic.Common

/-!
# Document order

The nodes of a tree in document order. In a tree whose children stand in a row, a node that comes
before another one in document order either ends before the other one starts or has the other one
below it.
-/

namespace Codemod

namespace Tree

/-! ### What stands below a tree -/

theorem sizeOf_child_lt {u t : Tree} (h : u ∈ t.children) :
  sizeOf u < sizeOf t
  := by
  obtain ⟨k, r, s, e, cs⟩ := t
  apply Nat.lt_of_lt_of_le (List.sizeOf_lt_of_mem h)
  rw [node.sizeOf_spec, children]
  omega

/-- What holds of a tree when it holds of its children holds of all trees. -/
theorem induct {P : Tree → Prop} (h : ∀ t : Tree, (∀ u ∈ t.children, P u) → P t) (t : Tree) :
  P t
  := by
  apply h
  intro u hu
  have := sizeOf_child_lt hu
  apply induct h u
termination_by sizeOf t

/-- A tree stands somewhere below another one. -/
inductive Below : Tree → Tree → Prop where
  | child {u t : Tree} (h : u ∈ t.children) : Below u t
  | deeper {v u t : Tree} (h : u ∈ t.children) (hv : Below v u) : Below v t

/-- A tree is another one or stands below it. -/
def Part (u t : Tree) : Prop :=
  u = t ∨ Below u t

theorem Part.refl (t : Tree) :
  Part t t
  := .inl rfl

theorem Part.of_child {v u t : Tree} (h : u ∈ t.children) (hv : Part v u) :
  Below v t
  := by
  rcases hv with rfl | hv
  · apply Below.child h
  · apply Below.deeper h hv

theorem Below.exists_child {v t : Tree} (h : Below v t) :
  ∃ u ∈ t.children, Part v u
  := by
  cases h with
  | child h => exact ⟨v, h, .refl v⟩
  | deeper h hv => exact ⟨_, h, .inr hv⟩

/-- What holds of a tree and of all trees in its children holds of all trees in it. -/
theorem forall_part {P : Tree → Prop} {t : Tree} (h : P t)
    (hs : ∀ u ∈ t.children, ∀ v, Part v u → P v) :
  ∀ v, Part v t → P v
  := by
  intro v hv
  rcases hv with rfl | hv
  · apply h
  · obtain ⟨u, hu, hpart⟩ := hv.exists_child
    apply hs u hu v hpart

theorem Below.sizeOf_lt {u t : Tree} (h : Below u t) :
  sizeOf u < sizeOf t
  := by
  induction h with
  | child hu => apply sizeOf_child_lt hu
  | deeper hc _ ih => apply Nat.lt_trans ih (sizeOf_child_lt hc)

theorem Below.trans {u v w : Tree} (huv : Below u v) (hvw : Below v w) :
  Below u w
  := by
  induction hvw with
  | child h => apply Below.deeper h huv
  | deeper h _ ih => apply Below.deeper h ih

theorem Below.part {u v w : Tree} (huv : Below u v) (hvw : Part v w) :
  Below u w
  := by
  rcases hvw with rfl | hvw
  · apply huv
  · apply huv.trans hvw

/-! ### Spans of trees -/

/-- In a tree and in all trees below it, the children lie within the span of the tree, and each of
them ends before those behind it start. A span may be empty. -/
inductive Spanned : Tree → Prop where
  | intro {t : Tree} (within : ∀ u ∈ t.children, t.start ≤ u.start ∧ u.stop ≤ t.stop)
      (inTurn : t.children.Pairwise fun u v => u.stop ≤ v.start)
      (below : ∀ u ∈ t.children, Spanned u) : Spanned t

theorem Spanned.part {t u : Tree} (h : Spanned t) (hu : Part u t) :
  Spanned u
  := by
  induction h with
  | intro within inTurn below ih =>
    rcases hu with rfl | hu
    · apply Spanned.intro within inTurn below
    · obtain ⟨v, hv, hpart⟩ := hu.exists_child
      apply ih v hv hpart

theorem Spanned.part_within {t u : Tree} (h : Spanned t) (hu : Part u t) :
  t.start ≤ u.start ∧ u.stop ≤ t.stop
  := by
  induction h with
  | intro within _ _ ih =>
    rcases hu with rfl | hu
    · exact ⟨Nat.le_refl _, Nat.le_refl _⟩
    · obtain ⟨v, hv, hpart⟩ := hu.exists_child
      have h₁ := within v hv
      have h₂ := ih v hv hpart
      omega

/-! ### Rows of trees -/

/-- Trees that stand one after the other between two offsets, none of them empty. -/
def Row : Nat → Nat → List Tree → Prop
  | lo, hi, [] => lo ≤ hi
  | lo, hi, t :: ts => lo ≤ t.start ∧ t.start < t.stop ∧ Row t.stop hi ts

theorem Row.le {lo hi : Nat} {ts : List Tree} (h : Row lo hi ts) :
  lo ≤ hi
  := by
  induction ts generalizing lo with
  | nil => apply h
  | cons t ts ih =>
    obtain ⟨h₁, h₂, h₃⟩ := h
    have := ih h₃
    omega

/-- A tree of a row lies between the offsets of the row and is not empty. -/
theorem Row.mem {lo hi : Nat} {ts : List Tree} (h : Row lo hi ts) {t : Tree} (ht : t ∈ ts) :
  lo ≤ t.start ∧ t.start < t.stop ∧ t.stop ≤ hi
  := by
  induction ts generalizing lo with
  | nil => cases ht
  | cons u us ih =>
    obtain ⟨h₁, h₂, h₃⟩ := h
    rcases List.mem_cons.mp ht with rfl | ht
    · use h₁, h₂, h₃.le
    · obtain ⟨h₄, h₅, h₆⟩ := ih h₃ ht
      use by omega

/-- A tree of a row ends before those behind it start. -/
theorem Row.pairwise {lo hi : Nat} {ts : List Tree} (h : Row lo hi ts) :
  ts.Pairwise fun t u => t.stop ≤ u.start
  := by
  induction ts generalizing lo with
  | nil => apply List.Pairwise.nil
  | cons t ts ih =>
    obtain ⟨-, -, h⟩ := h
    apply List.pairwise_cons.mpr
    use fun u hu => (h.mem hu).1, ih h

/-- Two trees of a row at the same place are the same. -/
theorem Row.eq_of_sameAs {lo hi : Nat} {ts : List Tree} (h : Row lo hi ts) {t u : Tree}
    (ht : t ∈ ts) (hu : u ∈ ts) (hsame : t.sameAs u = true) :
  t = u
  := by
  simp only [sameAs, Bool.and_eq_true, decide_eq_true_iff] at hsame
  induction ts generalizing lo with
  | nil => cases ht
  | cons v vs ih =>
    obtain ⟨-, hspan, hrest⟩ := h
    rcases List.mem_cons.mp ht with rfl | htrest
    · rcases List.mem_cons.mp hu with rfl | hurest
      · rfl
      · have := hrest.mem hurest
        omega
    · rcases List.mem_cons.mp hu with rfl | hurest
      · have := hrest.mem htrest
        omega
      · apply ih hrest htrest hurest

theorem Row.widen {lo lo' hi hi' : Nat} {ts : List Tree} (h : Row lo hi ts) (hlo : lo' ≤ lo)
    (hhi : hi ≤ hi') :
  Row lo' hi' ts
  := by
  induction ts generalizing lo lo' with
  | nil => apply Nat.le_trans hlo (Nat.le_trans h hhi)
  | cons t ts ih =>
    obtain ⟨h₁, h₂, h₃⟩ := h
    use Nat.le_trans hlo h₁, h₂
    apply ih h₃ (Nat.le_refl _)

theorem Row.append {lo mid hi : Nat} {ts us : List Tree} (ht : Row lo mid ts)
    (hu : Row mid hi us) :
  Row lo hi (ts ++ us)
  := by
  induction ts generalizing lo with
  | nil => apply hu.widen ht (Nat.le_refl hi)
  | cons t ts ih =>
    obtain ⟨h₁, h₂, h₃⟩ := ht
    use h₁, h₂, ih h₃

theorem Row.split {lo hi : Nat} {ts us : List Tree} (h : Row lo hi (ts ++ us)) :
  ∃ mid, Row lo mid ts ∧ Row mid hi us
  := by
  induction ts generalizing lo with
  | nil => exact ⟨lo, Nat.le_refl lo, h⟩
  | cons t ts ih =>
    obtain ⟨h₁, h₂, h₃⟩ := h
    obtain ⟨mid, h₄, h₅⟩ := ih h₃
    use mid, ⟨h₁, h₂, h₄⟩

/-- In a tree and in all trees below it the children stand in a row. -/
def Nested (t : Tree) : Prop :=
  ∀ u, Part u t → Row u.start u.stop u.children

theorem Nested.child {t u : Tree} (h : Nested t) (hu : u ∈ t.children) :
  Nested u
  := by
  intro v hv
  apply h
  apply Or.inr (hv.of_child hu)

theorem Nested.part {t u : Tree} (h : Nested t) (hu : Part u t) :
  Nested u
  := by
  intro v hv
  rcases hv with rfl | hv
  · apply h v hu
  · apply h v (.inr (hv.part hu))

/-- What stands below a tree lies within its span. -/
theorem Nested.within {t u : Tree} (h : Nested t) (hu : Below u t) :
  t.start ≤ u.start ∧ u.start < u.stop ∧ u.stop ≤ t.stop
  := by
  induction hu with
  | child hu => apply (h _ (.refl _)).mem hu
  | deeper hc _ ih =>
    have h₁ := (h _ (.refl _)).mem hc
    have h₂ := ih (h.child hc)
    omega

theorem Nested.spanned {t : Tree} (h : Nested t) :
  Spanned t
  := by
  induction t using Tree.induct with
  | h t ih =>
    have hrow := h t (.refl t)
    constructor
    · intro u hu
      obtain ⟨h₁, -, h₂⟩ := hrow.mem hu
      exact ⟨h₁, h₂⟩
    · apply hrow.pairwise
    · intro u hu
      apply ih u hu (h.child hu)

theorem Nested.part_within {t u : Tree} (h : Nested t) (hu : Part u t) :
  t.start ≤ u.start ∧ u.stop ≤ t.stop
  := h.spanned.part_within hu

/-- What stands below a tree with several children does not have its span. -/
theorem Nested.strictly {t u v w : Tree} {ts : List Tree} (h : Nested t)
    (hc : t.children = v :: w :: ts) (hu : Below u t) :
  t.start < u.start ∨ u.stop < t.stop
  := by
  have hrow := h t (.refl t)
  obtain ⟨c, hcmem, hpart⟩ := hu.exists_child
  have hwithin := (h.child hcmem).part_within hpart
  rw [hc] at hrow hcmem
  obtain ⟨h₁, h₂, h₃⟩ := hrow
  rcases List.mem_cons.mp hcmem with rfl | hcmem
  · have := h₃.mem List.mem_cons_self
    omega
  · have := h₃.mem hcmem
    omega

end Tree

namespace Node

/-! ### Nodes below a node -/

@[simp]
theorem kind_below (n : Node) (t : Tree) :
  (n.below t).kind = t.kind
  := rfl

@[simp]
theorem parent?_below (n : Node) (t : Tree) :
  (n.below t).parent? = some n
  := by
  cases n
  rfl

theorem parent?_of_mem_children {n m : Node} (h : m ∈ n.children) :
  m.parent? = some n
  := by
  obtain ⟨t, -, rfl⟩ := List.mem_map.mp h
  apply parent?_below

theorem tree_mem_children {n m : Node} (h : m ∈ n.children) :
  m.tree ∈ n.tree.children
  := by
  obtain ⟨t, ht, rfl⟩ := List.mem_map.mp h
  apply ht

theorem mem_children_of_child? {n m : Node} {r : Role} (h : n.child? r = some m) :
  m ∈ n.children
  := by
  obtain ⟨t, ht, rfl⟩ := Option.map_eq_some_iff.mp h
  apply List.mem_map_of_mem (List.mem_of_find?_eq_some ht)

theorem mem_children_of_childOfKind? {n m : Node} {k : Kind} (h : n.childOfKind? k = some m) :
  m ∈ n.children ∧ m.kind = k
  := by
  obtain ⟨t, ht, rfl⟩ := Option.map_eq_some_iff.mp h
  rw [Tree.childOfKind?] at ht
  use List.mem_map_of_mem (List.mem_of_find?_eq_some ht)
  have hkind := List.find?_some ht
  apply of_decide_eq_true hkind

theorem eq_below_of_parent? {n p : Node} (h : n.parent? = some p) :
  n = p.below n.tree
  := by
  obtain ⟨t, above⟩ := n
  cases above with
  | nil => cases h
  | cons u us =>
    cases h
    rfl

/-- A child plays the role that its tree has. -/
theorem role?_below {n : Node} {u : Tree} (hrow : Tree.Row n.start n.stop n.tree.children)
    (hu : u ∈ n.tree.children) :
  (n.below u).role? = u.role
  := by
  change (n.tree.children.find? u.sameAs).bind Tree.role = u.role
  cases hfind : n.tree.children.find? u.sameAs with
  | none =>
    have hno := List.find?_eq_none.mp hfind u hu
    simp [Tree.sameAs] at hno
  | some v =>
    obtain rfl :=
      hrow.eq_of_sameAs hu (List.mem_of_find?_eq_some hfind) (List.find?_some hfind)
    rfl

/-! ### The list of nodes -/

theorem allInOrder_eq (above ts : List Tree) :
  allInOrder above ts = ts.flatMap (inOrder above)
  := by
  induction ts with
  | nil => rfl
  | cons t ts ih => rw [allInOrder, ih, List.flatMap_cons]

theorem inOrder_eq (above : List Tree) (t : Tree) :
  inOrder above t = ⟨t, above⟩ :: t.children.flatMap (inOrder (t :: above))
  := by
  obtain ⟨k, r, s, e, cs⟩ := t
  rw [inOrder, allInOrder_eq]
  rfl

theorem mem_inOrder {above : List Tree} {t : Tree} {n : Node} :
  n ∈ inOrder above t ↔ n = ⟨t, above⟩ ∨ ∃ u ∈ t.children, n ∈ inOrder (t :: above) u
  := by
  rw [inOrder_eq, List.mem_cons, List.mem_flatMap]

/-- The tree of a node is part of the tree whose nodes are listed. -/
theorem part_of_mem {above : List Tree} {t : Tree} {n : Node} (h : n ∈ inOrder above t) :
  Tree.Part n.tree t
  := by
  induction t using Tree.induct generalizing above with
  | h t ih =>
    rcases mem_inOrder.mp h with rfl | ⟨u, hu, hn⟩
    · apply Tree.Part.refl
    · apply Or.inr ((ih u hu hn).of_child hu)

/-- The children of a listed node are listed. -/
theorem below_mem {above : List Tree} {t u : Tree} {n : Node} (h : n ∈ inOrder above t)
    (hu : u ∈ n.tree.children) :
  n.below u ∈ inOrder above t
  := by
  induction t using Tree.induct generalizing above with
  | h t ih =>
    rcases mem_inOrder.mp h with rfl | ⟨v, hv, hn⟩
    · apply mem_inOrder.mpr
      apply Or.inr
      use u, hu
      apply mem_inOrder.mpr (.inl rfl)
    · apply mem_inOrder.mpr
      apply Or.inr
      use v, hv, ih v hv hn

theorem mem_of_mem_children {above : List Tree} {t : Tree} {n m : Node} (h : n ∈ inOrder above t)
    (hm : m ∈ n.children) :
  m ∈ inOrder above t
  := by
  obtain ⟨u, hu, rfl⟩ := List.mem_map.mp hm
  apply below_mem h hu

/-- A listed node is the first one, or its parent is listed. -/
theorem parent_mem {above : List Tree} {t : Tree} {n : Node} (h : n ∈ inOrder above t) :
  n = ⟨t, above⟩ ∨ ∃ p ∈ inOrder above t, n.parent? = some p ∧ n.tree ∈ p.tree.children
  := by
  induction t using Tree.induct generalizing above with
  | h t ih =>
    rcases mem_inOrder.mp h with rfl | ⟨u, hu, hn⟩
    · apply Or.inl rfl
    · apply Or.inr
      rcases ih u hu hn with rfl | ⟨p, hp, hparent, hmem⟩
      · use ⟨t, above⟩, mem_inOrder.mpr (.inl rfl), rfl, hu
      · use p, mem_inOrder.mpr (.inr ⟨u, hu, hp⟩), hparent, hmem

theorem mem_descendants {n m : Node} :
  m ∈ n.descendants ↔ ∃ u ∈ n.tree.children, m ∈ (n.below u).preorder
  := by
  rw [descendants, allInOrder_eq, List.mem_flatMap]
  rfl

theorem mem_preorder {n m : Node} :
  m ∈ n.preorder ↔ m = n ∨ m ∈ n.descendants
  := by
  rw [preorder, mem_inOrder, mem_descendants]
  rfl

theorem below_of_mem_descendants {n m : Node} (h : m ∈ n.descendants) :
  Tree.Below m.tree n.tree
  := by
  obtain ⟨u, hu, hm⟩ := mem_descendants.mp h
  apply (part_of_mem hm).of_child hu

/-- A node below another one is a child of it or of a node below it. -/
theorem parent_of_mem_descendants {n m : Node} (h : m ∈ n.descendants) :
  ∃ p ∈ n.preorder, ∃ u ∈ p.tree.children, m = p.below u
  := by
  obtain ⟨u, hu, hm⟩ := mem_descendants.mp h
  rcases parent_mem hm with heq | ⟨p, hp, hparent, hmem⟩
  · exact ⟨n, mem_preorder.mpr (.inl rfl), u, hu, heq⟩
  · exact ⟨p, mem_preorder.mpr (.inr (mem_descendants.mpr ⟨u, hu, hp⟩)), _, hmem,
      eq_below_of_parent? hparent⟩

/-- Of two nodes in document order, the first one has the second one below it or ends before the
second one starts. -/
theorem pairwise_inOrder_of_spanned {above : List Tree} {t : Tree} (h : t.Spanned) :
  (inOrder above t).Pairwise fun n m => Tree.Below m.tree n.tree ∨ n.stop ≤ m.start
  := by
  induction h generalizing above with
  | @intro t _ inTurn below ih =>
    rw [inOrder_eq]
    apply List.pairwise_cons.mpr
    constructor
    · intro m hm
      obtain ⟨u, hu, hm⟩ := List.mem_flatMap.mp hm
      apply Or.inl ((part_of_mem hm).of_child hu)
    · apply List.pairwise_flatMap.mpr
      use fun u hu => ih u hu
      apply inTurn.imp_of_mem
      intro u v hu hv huv n hn m hm
      apply Or.inr
      have hn' : n.stop ≤ u.stop := ((below u hu).part_within (part_of_mem hn)).2
      have hm' : v.start ≤ m.start := ((below v hv).part_within (part_of_mem hm)).1
      omega

theorem pairwise_inOrder {above : List Tree} {t : Tree} (h : t.Nested) :
  (inOrder above t).Pairwise fun n m => Tree.Below m.tree n.tree ∨ n.stop ≤ m.start
  := pairwise_inOrder_of_spanned h.spanned

/-! ### Outermost nodes -/

theorem isInside_iff {n m : Node} :
  n.isInside m = true
    ↔ m.start ≤ n.start ∧ n.stop ≤ m.stop ∧ ¬ (m.start = n.start ∧ m.stop = n.stop)
  := by
  simp only [isInside, Tree.isInside, start, stop, Bool.and_eq_true, decide_eq_true_iff,
    Bool.not_eq_true', Bool.and_eq_false_iff, decide_eq_false_iff_not, not_and_or, and_assoc]

/-- What stands below a node with several children lies inside of it. -/
theorem isInside_of_below {n m : Node} {u v : Tree} {us : List Tree} (h : n.tree.Nested)
    (hchildren : n.tree.children = u :: v :: us) (hbelow : Tree.Below m.tree n.tree) :
  m.isInside n = true
  := by
  have hwithin := h.within hbelow
  have hstrict := h.strictly hchildren hbelow
  simp only [isInside_iff, start, stop]
  omega

/-- Outermost nodes with several children each end before the next one starts. -/
theorem pairwise_outermost {above : List Tree} {t : Tree} {ns : List Node} (h : t.Nested)
    (hsublist : ns.Sublist (inOrder above t))
    (hseveral : ∀ n ∈ ns, ∃ u v us, n.tree.children = u :: v :: us) :
  (outermost ns).Pairwise fun n m => n.stop ≤ m.start
  := by
  have houter : (outermost ns).Sublist (inOrder above t) := List.filter_sublist.trans hsublist
  apply ((pairwise_inOrder h).sublist houter).imp_of_mem
  intro n m hn hm hnm
  rcases hnm with hbelow | hle
  · have hmem := (List.mem_filter.mp hn).1
    obtain ⟨u, v, us, hchildren⟩ := hseveral n hmem
    have hnested := h.part (part_of_mem (hsublist.subset hmem))
    have hany : ns.any m.isInside = true :=
      List.any_eq_true.mpr ⟨n, hmem, isInside_of_below hnested hchildren hbelow⟩
    have hnot := (List.mem_filter.mp hm).2
    rw [hany] at hnot
    cases hnot
  · apply hle

/-- How far the span of a node reaches. -/
def extent (n : Node) : Int := n.stop - n.start

/-- Every node lies within the span of an outermost one. -/
theorem exists_outermost {ns : List Node} {n : Node} (hn : n ∈ ns) :
  ∃ m ∈ outermost ns, m.start ≤ n.start ∧ n.stop ≤ m.stop
  := by
  -- the widest one of the nodes around it is outermost
  have haround (m : Node) : m ∈ ns.filter (fun m => m.start ≤ n.start && n.stop ≤ m.stop)
      ↔ m ∈ ns ∧ m.start ≤ n.start ∧ n.stop ≤ m.stop := by
    simp
  have hself := (haround n).mpr ⟨hn, Nat.le_refl _, Nat.le_refl _⟩
  have hsome := mt (List.argmax_eq_none (f := extent)).mp (List.ne_nil_of_mem hself)
  obtain ⟨m, hm⟩ := Option.ne_none_iff_exists'.mp hsome
  obtain ⟨hmem, hstart, hstop⟩ := (haround m).mp (List.argmax_mem hm)
  refine ⟨m, List.mem_filter.mpr ⟨hmem, ?_⟩, hstart, hstop⟩
  simp only [Bool.not_eq_true', List.any_eq_false, isInside_iff]
  rintro o ho ⟨hle, hge, hne⟩
  have hwidest := List.le_of_mem_argmax ((haround o).mpr ⟨ho, by omega⟩) hm
  rw [extent, extent] at hwidest
  omega

/-- There are outermost nodes unless there are none at all. -/
theorem outermost_eq_nil {ns : List Node} :
  outermost ns = [] ↔ ns = []
  := by
  constructor
  · intro h
    apply List.eq_nil_iff_forall_not_mem.mpr
    intro n hn
    obtain ⟨m, hm, -⟩ := exists_outermost hn
    rw [h] at hm
    cases hm
  · rintro rfl
    rfl

/-- Whether a node lies inside of another one depends on its place only. -/
theorem isInside_eq_of_sameAs {n o : Node} (h : n.sameAs o = true) (m : Node) :
  n.isInside m = o.isInside m
  := by
  simp only [sameAs, Tree.sameAs, Bool.and_eq_true, decide_eq_true_iff] at h
  obtain ⟨⟨hstart, hstop⟩, -⟩ := h
  rw [isInside, isInside, Tree.isInside, Tree.isInside, hstart, hstop]

/-- To stand where an outermost node stands is to be outermost. -/
theorem any_sameAs_outermost {ns : List Node} {n : Node} (hn : n ∈ ns) :
  (outermost ns).any n.sameAs = !ns.any n.isInside
  := by
  apply Bool.eq_iff_iff.mpr
  constructor
  · intro h
    obtain ⟨o, ho, hsame⟩ := List.any_eq_true.mp h
    have heq : n.isInside = o.isInside := funext (isInside_eq_of_sameAs hsame)
    rw [heq]
    apply (List.mem_filter.mp ho).2
  · intro h
    apply List.any_eq_true.mpr
    use n, List.mem_filter.mpr ⟨hn, h⟩
    simp [sameAs, Tree.sameAs]

end Node

end Codemod
