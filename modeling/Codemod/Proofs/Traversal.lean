import Codemod.Proofs.Order
import Mathlib.Logic.Function.Iterate

/-!
# Walks through a tree

The nodes below a node can be listed with a stack of nodes that are still to be visited. After each
step, what has been listed and what is still to come make up the nodes below the node in document
order. What document order is can be said on addresses alone: an address gives the number of a
child, then the number of a child of that child and so on, a node comes before the nodes below it,
and what stands below one child comes before what stands below the next.
-/

namespace Codemod

/-! ### Addresses -/

/-- The node at an address below a node. -/
def Node.at? (n : Node) : List Nat → Option Node
  | [] => some n
  | i :: is => n.children[i]?.bind (·.at? is)

/-- An address comes before another one in document order. -/
inductive Earlier : List Nat → List Nat → Prop where
  /-- A node comes before the nodes below it. -/
  | above {j : Nat} {js : List Nat} : Earlier [] (j :: js)
  /-- What stands below a child comes before what stands below the children behind it. -/
  | before {i j : Nat} {is js : List Nat} (h : i < j) : Earlier (i :: is) (j :: js)
  /-- What stands below one child comes in the order that it has there. -/
  | within {i : Nat} {is js : List Nat} (h : Earlier is js) : Earlier (i :: is) (i :: js)

theorem Earlier.ne {is js : List Nat} (h : Earlier is js) :
  is ≠ js
  := by
  induction h with
  | above => simp
  | before h =>
    intro heq
    exact Nat.ne_of_lt h (List.cons.inj heq).1
  | within _ ih => simpa using ih

namespace Tree

mutual

/-- The addresses of a tree and of the trees below it, in document order. -/
def addresses : Tree → List (List Nat)
  | .node _ _ _ _ cs => [] :: addressesFrom 0 cs

/-- The addresses of children, the first of which has a given number, and of the trees below
them. -/
def addressesFrom : (number : Nat) → List Tree → List (List Nat)
  | _, [] => []
  | number, t :: ts => (addresses t).map (number :: ·) ++ addressesFrom (number + 1) ts

end

theorem addresses_eq (t : Tree) :
  t.addresses = [] :: addressesFrom 0 t.children
  := by
  obtain ⟨k, r, s, e, cs⟩ := t
  rw [addresses, children]

theorem mem_addressesFrom {number : Nat} {ts : List Tree} {is : List Nat} :
  is ∈ addressesFrom number ts
    ↔ ∃ i u js, is = (number + i) :: js ∧ ts[i]? = some u ∧ js ∈ u.addresses
  := by
  induction ts generalizing number with
  | nil => simp [addressesFrom]
  | cons t ts ih =>
    rw [addressesFrom, List.mem_append, ih, List.mem_map]
    constructor
    · rintro (⟨js, hjs, rfl⟩ | ⟨i, u, js, rfl, hu, hjs⟩)
      · exact ⟨0, t, js, rfl, rfl, hjs⟩
      · exact ⟨i + 1, u, js, by rw [Nat.add_assoc, Nat.add_comm 1], hu, hjs⟩
    · rintro ⟨i, u, js, rfl, hu, hjs⟩
      cases i with
      | zero =>
        cases hu
        exact .inl ⟨js, hjs, rfl⟩
      | succ i => exact .inr ⟨i, u, js, by rw [Nat.add_assoc, Nat.add_comm 1], hu, hjs⟩

theorem pairwise_addressesFrom {number : Nat} {ts : List Tree}
    (h : ∀ t ∈ ts, t.addresses.Pairwise Earlier) :
  (addressesFrom number ts).Pairwise Earlier
  := by
  induction ts generalizing number with
  | nil => exact .nil
  | cons t ts ih =>
    obtain ⟨ht, hts⟩ := List.forall_mem_cons.mp h
    rw [addressesFrom, List.pairwise_append]
    refine ⟨?_, ih hts, ?_⟩
    · apply List.pairwise_map.mpr
      exact ht.imp .within
    · intro is his js hjs
      obtain ⟨is, -, rfl⟩ := List.mem_map.mp his
      obtain ⟨i, u, js, rfl, -, -⟩ := mem_addressesFrom.mp hjs
      exact .before (by omega)

/-- Addresses are listed in document order. -/
theorem pairwise_addresses (t : Tree) :
  t.addresses.Pairwise Earlier
  := by
  induction t using Tree.induct with
  | h t ih =>
    rw [addresses_eq, List.pairwise_cons]
    refine ⟨?_, pairwise_addressesFrom ih⟩
    intro js hjs
    obtain ⟨i, u, is, rfl, -, -⟩ := mem_addressesFrom.mp hjs
    exact .above

end Tree

namespace Node

theorem getElem?_children (n : Node) (i : Nat) :
  n.children[i]? = n.tree.children[i]?.map n.below
  := List.getElem?_map

/-- The addresses of a tree are those at which there is a node. -/
theorem mem_addresses {n : Node} {is : List Nat} :
  is ∈ n.tree.addresses ↔ (n.at? is).isSome = true
  := by
  induction is generalizing n with
  | nil =>
    rw [Tree.addresses_eq]
    simp [at?]
  | cons i is ih =>
    rw [Tree.addresses_eq, List.mem_cons, Tree.mem_addressesFrom, at?, getElem?_children]
    constructor
    · rintro (h | ⟨j, u, js, heq, hu, hjs⟩)
      · cases h
      · obtain ⟨rfl, rfl⟩ := List.cons.inj heq
        rw [Nat.zero_add, hu]
        exact ih.mp hjs
    · intro h
      cases hu : n.tree.children[i]? with
      | none => simp [hu] at h
      | some u =>
        rw [hu] at h
        exact .inr ⟨i, u, is, by rw [Nat.zero_add], hu, ih.mpr h⟩

/-- The nodes of some children in document order are those at the addresses below the children,
when these are counted from a number that fits. -/
theorem allInOrder_eq_addressesFrom {n : Node} {number : Nat} {ts : List Tree}
    (hts : n.tree.children.drop number = ts)
    (h : ∀ t ∈ ts, (n.below t).preorder.map some = t.addresses.map (n.below t).at?) :
  (allInOrder (n.tree :: n.above) ts).map some = (Tree.addressesFrom number ts).map n.at?
  := by
  induction ts generalizing number with
  | nil => rfl
  | cons t ts ih =>
    obtain ⟨ht, hrest⟩ := List.forall_mem_cons.mp h
    have hnumber : n.children[number]? = some (n.below t) := by
      rw [getElem?_children, ← List.head?_drop, hts]
      rfl
    have hdrop : n.tree.children.drop (number + 1) = ts := by
      rw [← List.drop_drop, hts]
      rfl
    have hone : (n.below t).preorder.map some
        = (t.addresses.map (number :: ·)).map n.at? := by
      rw [ht, List.map_map]
      apply List.map_congr_left
      intro is _
      simp only [Function.comp_apply, at?, hnumber, Option.bind_some]
    rw [allInOrder, Tree.addressesFrom, List.map_append, List.map_append, ih hdrop hrest, ← hone]
    rfl

theorem preorder_eq_cons (n : Node) :
  n.preorder = n :: n.descendants
  := by
  rw [preorder, inOrder_eq, descendants, allInOrder_eq]

theorem preorder_eq_addresses (n : Node) :
  n.preorder.map some = n.tree.addresses.map n.at?
  := by
  obtain ⟨t, above⟩ := n
  induction t using Tree.induct generalizing above with
  | h t ih =>
    rw [preorder_eq_cons, Tree.addresses_eq, List.map_cons, List.map_cons, descendants,
      allInOrder_eq_addressesFrom (List.drop_zero) fun u hu => ih u hu _]
    rfl

/-- The nodes below a node are those at the addresses below its own, in document order. -/
theorem descendants_eq_addresses (n : Node) :
  n.descendants.map some = (Tree.addressesFrom 0 n.tree.children).map n.at?
  := allInOrder_eq_addressesFrom List.drop_zero fun _ _ => preorder_eq_addresses _

/-- The nodes below a node are the nodes at all addresses but its own, each of them once. -/
theorem exists_addresses (n : Node) :
  ∃ addresses : List (List Nat),
    n.descendants.map some = addresses.map n.at? ∧ addresses.Pairwise Earlier ∧ addresses.Nodup
      ∧ ∀ is, is ∈ addresses ↔ is ≠ [] ∧ (n.at? is).isSome = true
  := by
  have hordered := Tree.pairwise_addresses n.tree
  rw [Tree.addresses_eq, List.pairwise_cons] at hordered
  obtain ⟨hfirst, hordered⟩ := hordered
  refine ⟨Tree.addressesFrom 0 n.tree.children, descendants_eq_addresses n, hordered,
    hordered.imp Earlier.ne, ?_⟩
  intro is
  rw [← mem_addresses, Tree.addresses_eq, List.mem_cons]
  constructor
  · intro h
    exact ⟨(hfirst is h).ne.symm, .inr h⟩
  · rintro ⟨hne, h | h⟩
    · cases hne h
    · exact h

end Node

/-! ### A walk with a stack -/

/-- A walk on its way: the nodes listed so far, and a stack of nodes that are still to be visited,
the next one at its end. -/
structure Traversal where
  listed : List Node
  stack : List Node

namespace Traversal

/-- The start of a walk through the nodes below a node: its first child is visited first. -/
def start (n : Node) : Traversal := ⟨[], n.children.reverse⟩

/-- One step of a walk: the next node is listed, and its children take its place on the stack. -/
def step (w : Traversal) : Traversal :=
  match w.stack.getLast? with
  | none => w
  | some n => ⟨w.listed ++ [n], w.stack.dropLast ++ n.children.reverse⟩

/-- The nodes that are still to come, in document order. -/
def pending (w : Traversal) : List Node := w.stack.reverse.flatMap Node.preorder

theorem flatMap_preorder_children (n : Node) :
  n.children.flatMap Node.preorder = n.descendants
  := by
  rw [Node.children, List.flatMap_map, Node.descendants, Node.allInOrder_eq]
  rfl

theorem pending_start (n : Node) :
  (start n).pending = n.descendants
  := by
  rw [pending, start, List.reverse_reverse, flatMap_preorder_children]

theorem pending_eq_nil_iff {w : Traversal} :
  w.pending = [] ↔ w.stack = []
  := by
  rw [pending, List.flatMap_eq_nil_iff, List.eq_nil_iff_forall_not_mem]
  simp [Node.preorder_eq_cons]

/-- A step moves one node from those to come to those that are listed. -/
theorem step_eq (w : Traversal) :
  w.step.listed = w.listed ++ w.pending.take 1 ∧ w.step.pending = w.pending.drop 1
  := by
  rw [step]
  split
  · rename_i hnone
    have hpending := pending_eq_nil_iff.mpr (List.getLast?_eq_none_iff.mp hnone)
    simp [hpending]
  · rename_i n hlast
    have hstack := List.dropLast_append_getLast? n hlast
    have hpending : w.pending
        = n :: (n.descendants ++ w.stack.dropLast.reverse.flatMap Node.preorder) := by
      rw [pending]
      nth_rewrite 1 [← hstack]
      rw [List.reverse_append, List.reverse_singleton, List.singleton_append, List.flatMap_cons,
        Node.preorder_eq_cons, List.cons_append]
    constructor
    · rw [hpending]
      rfl
    · rw [hpending, List.drop_one, List.tail_cons, pending, List.reverse_append,
        List.reverse_reverse, List.flatMap_append, flatMap_preorder_children]

/-- What a walk has listed after some steps, and what is still to come. -/
theorem iterate_eq (w : Traversal) (k : Nat) :
  (step^[k] w).listed = w.listed ++ w.pending.take k ∧ (step^[k] w).pending = w.pending.drop k
  := by
  induction k generalizing w with
  | zero => simp
  | succ k ih =>
    obtain ⟨hlisted, hpending⟩ := step_eq w
    obtain ⟨hlisted', hpending'⟩ := ih w.step
    rw [Function.iterate_succ_apply, hlisted', hpending', hlisted, hpending, List.append_assoc,
      List.drop_drop, Nat.add_comm 1]
    refine ⟨?_, rfl⟩
    rw [Nat.add_comm k 1, List.take_add]

/-- A walk lists the nodes below a node one by one in document order, and ends when all of them are
listed. -/
theorem iterate_start (n : Node) (k : Nat) :
  (step^[k] (start n)).listed = n.descendants.take k
    ∧ ((step^[k] (start n)).stack = [] ↔ n.descendants.length ≤ k)
  := by
  obtain ⟨hlisted, hpending⟩ := iterate_eq (start n) k
  rw [pending_start] at hlisted hpending
  refine ⟨hlisted, ?_⟩
  rw [← pending_eq_nil_iff, hpending, List.drop_eq_nil_iff]

end Traversal

end Codemod
