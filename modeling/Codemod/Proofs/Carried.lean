import Codemod.Proofs.Order
import Mathlib.Data.List.Basic

/-!
# Carried trees

What becomes of a tree when the text under it is rewritten word by word: every offset is moved, and
a leaf may be split into several leaves. The nodes of a carried tree are those that come of the
nodes of the tree, in their order, and parents, children and roles are carried along.
-/

namespace Codemod

namespace Tree

mutual

/-- Whether two trees are equal. -/
def same : Tree → Tree → Bool
  | .node k r s e cs, .node k' r' s' e' cs' =>
    k = k' && r = r' && s = s' && e = e' && sameAll cs cs'

/-- Whether two rows of trees are equal. -/
def sameAll : List Tree → List Tree → Bool
  | [], [] => true
  | t :: ts, u :: us => same t u && sameAll ts us
  | _, _ => false

end

theorem sameAll_iff {ts us : List Tree} (h : ∀ t ∈ ts, ∀ u, same t u = true ↔ t = u) :
  sameAll ts us = true ↔ ts = us
  := by
  induction ts generalizing us with
  | nil => cases us <;> simp [sameAll]
  | cons t ts ih =>
    obtain ⟨ht, hts⟩ := List.forall_mem_cons.mp h
    cases us with
    | nil => simp [sameAll]
    | cons u us => rw [sameAll, Bool.and_eq_true, ht, ih hts, List.cons.injEq]

theorem same_iff (t u : Tree) :
  same t u = true ↔ t = u
  := by
  induction t using Tree.induct generalizing u with
  | h t ih =>
    obtain ⟨k, r, s, e, cs⟩ := t
    obtain ⟨k', r', s', e', cs'⟩ := u
    have hchildren : sameAll cs cs' = true ↔ cs = cs' := sameAll_iff ih
    simp only [same, Bool.and_eq_true, decide_eq_true_iff, hchildren, node.injEq, and_assoc]

instance : DecidableEq Tree := fun t u => decidable_of_iff _ (same_iff t u)

end Tree

/-- How offsets are moved, and which leaves are split. -/
structure Carriage where
  move : Nat → Nat
  parts : Tree → Option (List Tree)

namespace Carriage

variable {g : Carriage} {t : Tree} {ts : List Tree}

mutual

/-- What becomes of a tree. -/
def carry (g : Carriage) : Tree → List Tree
  | .node k r s e cs =>
    match g.parts (.node k r s e cs) with
    | some ts => ts
    | none => [.node k r (g.move s) (g.move e) (carryAll g cs)]

/-- What becomes of trees in a row. -/
def carryAll (g : Carriage) : List Tree → List Tree
  | [] => []
  | t :: ts => carry g t ++ carryAll g ts

end

/-- What becomes of a tree that is not split. -/
def whole (g : Carriage) (t : Tree) : Tree :=
  .node t.kind t.role (g.move t.start) (g.move t.stop) (t.children.flatMap g.carry)

theorem carryAll_eq (g : Carriage) (ts : List Tree) :
  g.carryAll ts = ts.flatMap g.carry
  := by
  induction ts with
  | nil => rfl
  | cons t ts ih => rw [carryAll, ih, List.flatMap_cons]

theorem carry_eq (g : Carriage) (t : Tree) :
  g.carry t = (g.parts t).getD [g.whole t]
  := by
  obtain ⟨k, r, s, e, cs⟩ := t
  rw [carry, carryAll_eq]
  cases g.parts (.node k r s e cs) <;> rfl

theorem carry_of_none (h : g.parts t = none) :
  g.carry t = [g.whole t]
  := by
  rw [carry_eq, h]
  rfl

theorem carry_of_some (h : g.parts t = some ts) :
  g.carry t = ts
  := by
  rw [carry_eq, h]
  rfl

/-- Only leaves are split, into leaves. The first of them plays the role of the leaf, and the others
play this role or none. -/
structure Lawful (g : Carriage) : Prop where
  leaf : ∀ {t ts}, g.parts t = some ts → t.children = []
  leaves : ∀ {t ts}, g.parts t = some ts → ∀ u ∈ ts, u.children = []
  roles : ∀ {t ts}, g.parts t = some ts → ∃ u us, ts = u :: us ∧ u.role = t.role
    ∧ ∀ v ∈ us, v.role = t.role ∨ v.role = none

/-! ### Carried nodes -/

/-- What becomes of a node that is not split. -/
def wholeNode (g : Carriage) (n : Node) : Node :=
  ⟨g.whole n.tree, n.above.map g.whole⟩

/-- The nodes that a node becomes. -/
def images (g : Carriage) (n : Node) : List Node :=
  (g.carry n.tree).map fun t => ⟨t, n.above.map g.whole⟩

variable {n m : Node}

theorem images_of_none (h : g.parts n.tree = none) :
  g.images n = [g.wholeNode n]
  := by
  rw [images, carry_of_none h]
  rfl

@[simp]
theorem kind_wholeNode (g : Carriage) (n : Node) :
  (g.wholeNode n).kind = n.kind
  := rfl

/-- The nodes of a carried tree, in document order. -/
theorem flatMap_inOrder_carry (hg : g.Lawful) (above : List Tree) (t : Tree) :
  (g.carry t).flatMap (Node.inOrder (above.map g.whole)) = (Node.inOrder above t).flatMap g.images
  := by
  induction t using Tree.induct generalizing above with
  | h t ih =>
    cases hparts : g.parts t with
    | some ts =>
      have hleaves : ts.flatMap (Node.inOrder (above.map g.whole))
          = ts.map fun u => ⟨u, above.map g.whole⟩ := by
        rw [← List.flatMap_pure_eq_map _ ts]
        apply List.flatMap_congr
        intro u hu
        rw [Node.inOrder_eq, hg.leaves hparts u hu, List.flatMap_nil]
        rfl
      rw [Node.inOrder_eq, hg.leaf hparts, List.flatMap_nil, List.flatMap_singleton, images,
        carry_of_some hparts, hleaves]
    | none =>
      have hchildren : (g.whole t).children = t.children.flatMap g.carry := rfl
      have hbelow : g.whole t :: above.map g.whole = (t :: above).map g.whole := rfl
      rw [carry_of_none hparts, List.flatMap_singleton, Node.inOrder_eq above t, List.flatMap_cons,
        images_of_none hparts, Node.inOrder_eq, hchildren, hbelow, List.flatMap_assoc,
        List.flatMap_assoc]
      apply congrArg (g.wholeNode ⟨t, above⟩ :: ·)
      apply List.flatMap_congr
      intro u hu
      apply ih u hu

/-- A node of a carried tree comes of a node of the tree. -/
theorem mem_inOrder_iff (hg : g.Lawful) {t' : Tree} (h : g.carry t = [t']) {n' : Node} :
  n' ∈ Node.inOrder [] t' ↔ ∃ n ∈ Node.inOrder [] t, n' ∈ g.images n
  := by
  have hnodes := flatMap_inOrder_carry hg [] t
  rw [h, List.flatMap_singleton, List.map_nil] at hnodes
  rw [hnodes, List.mem_flatMap]

theorem parent?_wholeNode (g : Carriage) (n : Node) :
  (g.wholeNode n).parent? = n.parent?.map g.wholeNode
  := by
  obtain ⟨u, above⟩ := n
  cases above <;> rfl

/-- The children of a carried node are those that come of its children. -/
theorem children_wholeNode (g : Carriage) (n : Node) :
  (g.wholeNode n).children = n.children.flatMap g.images
  := by
  rw [Node.children, Node.children, List.flatMap_map]
  change (n.tree.children.flatMap g.carry).map (g.wholeNode n).below = _
  rw [List.map_flatMap]
  rfl

/-! ### Roles -/

theorem find?_carry (hg : g.Lawful) (t : Tree) (r : Role) :
  (g.carry t).find? (·.role = some r) = if t.role = some r then (g.carry t).head? else none
  := by
  cases hparts : g.parts t with
  | some ts =>
    obtain ⟨u, us, rfl, hu, hus⟩ := hg.roles hparts
    rw [carry_of_some hparts]
    split
    · rename_i hrole
      rw [List.find?_cons_of_pos (by simp [hu, hrole])]
      rfl
    · rename_i hrole
      apply List.find?_eq_none.mpr
      intro v hv
      rcases List.mem_cons.mp hv with rfl | hv
      · simpa [hu] using hrole
      · rcases hus v hv with hv | hv
        · simpa [hv] using hrole
        · simp [hv]
  | none =>
    have hwhole : (g.whole t).role = t.role := rfl
    rw [carry_of_none hparts]
    split
    · rename_i hrole
      rw [List.find?_cons_of_pos (by simp [hwhole, hrole])]
      rfl
    · rename_i hrole
      rw [List.find?_cons_of_neg (by simpa [hwhole] using hrole), List.find?_nil]

theorem head?_carry (hg : g.Lawful) (t : Tree) :
  ∃ u, (g.carry t).head? = some u
  := by
  cases hparts : g.parts t with
  | some ts =>
    obtain ⟨u, us, rfl, -⟩ := hg.roles hparts
    rw [carry_of_some hparts]
    exact ⟨u, rfl⟩
  | none =>
    rw [carry_of_none hparts]
    exact ⟨_, rfl⟩

/-- The child in a role is the first one that comes of the child in this role. -/
theorem child?_whole (hg : g.Lawful) (t : Tree) (r : Role) :
  (g.whole t).child? r = (t.child? r).bind fun u => (g.carry u).head?
  := by
  change (t.children.flatMap g.carry).find? (·.role = some r)
    = (t.children.find? (·.role = some r)).bind fun u => (g.carry u).head?
  induction t.children with
  | nil => rfl
  | cons u us ih =>
    rw [List.flatMap_cons, List.find?_append, find?_carry hg]
    split
    · rename_i hrole
      obtain ⟨v, hv⟩ := head?_carry hg u
      rw [List.find?_cons_of_pos (by simp [hrole]), Option.bind_some, hv]
      rfl
    · rename_i hrole
      rw [List.find?_cons_of_neg (by simpa using hrole), Option.none_or, ih]

/-- The same for a child that is not split. -/
theorem child?_wholeNode (hg : g.Lawful) {r : Role}
    (h : ∀ m, n.child? r = some m → g.parts m.tree = none) :
  (g.wholeNode n).child? r = (n.child? r).map g.wholeNode
  := by
  change ((g.whole n.tree).child? r).map (g.wholeNode n).below = _
  rw [child?_whole hg]
  rw [Node.child?] at h ⊢
  cases hchild : n.tree.child? r with
  | none => rfl
  | some u =>
    rw [hchild] at h
    have hparts := h (n.below u) rfl
    change g.parts u = none at hparts
    rw [Option.bind_some, carry_of_none hparts]
    rfl

end Carriage

end Codemod
