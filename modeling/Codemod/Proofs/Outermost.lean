import Codemod.Proofs.Order
import Codemod.Proofs.Rewrite

/-!
# The outermost nodes

Of some nodes of a tree, the outermost ones are those whose span is a proper part of no other span.
Any two of them stand apart from one another or have one and the same span, and all nodes lie within
them. So they can be replaced at once.
-/

namespace Codemod.Node

open Text

/-- Two nodes have the same span. -/
def SameSpan (n m : Node) : Prop :=
  n.start = m.start ∧ n.stop = m.stop

instance (n m : Node) : Decidable (n.SameSpan m) :=
  inferInstanceAs (Decidable (_ ∧ _))

/-- A node lies within the span of another one. -/
def Within (n m : Node) : Prop :=
  m.start ≤ n.start ∧ n.stop ≤ m.stop

/-! ### Spans in a tree -/

/-- One of two nodes lies within the other one, or one of them ends before the other one starts. -/
def Laminar (n m : Node) : Prop :=
  n.Within m ∨ m.Within n ∨ n.stop ≤ m.start ∨ m.stop ≤ n.start

instance : Std.Symm Laminar where
  symm n m h := by
    rcases h with h | h | h | h
    · apply Or.inr (.inl h)
    · apply Or.inl h
    · apply Or.inr (.inr (.inr h))
    · apply Or.inr (.inr (.inl h))

theorem laminar_refl (n : Node) :
  n.Laminar n
  := .inl ⟨Nat.le_refl _, Nat.le_refl _⟩

/-- The spans of the nodes of a tree do not cross one another. -/
theorem laminar_of_mem {above : List Tree} {t : Tree} {n m : Node} (h : t.Spanned)
    (hn : n ∈ inOrder above t) (hm : m ∈ inOrder above t) :
  n.Laminar m
  := by
  have hpairwise : (inOrder above t).Pairwise Laminar := by
    apply (pairwise_inOrder_of_spanned h).imp_of_mem
    intro n m hn _ hnm
    rcases hnm with hbelow | hle
    · apply Or.inr (.inl ((h.part (part_of_mem hn)).part_within (.inr hbelow)))
    · apply Or.inr (.inr (.inl hle))
  apply hpairwise.forall_of_forall (fun n _ => laminar_refl n) hn hm

/-! ### Outermost nodes -/

/-- The outermost nodes are those that lie within other ones of the same span only. -/
theorem mem_outermost {ns : List Node} {n : Node} :
  n ∈ outermost ns ↔ n ∈ ns ∧ ∀ m ∈ ns, n.Within m → n.SameSpan m
  := by
  rw [outermost, List.mem_filter, Bool.not_eq_true', List.any_eq_false]
  apply and_congr_right'
  apply forall₂_congr
  intro m _
  rw [isInside_iff, Within, SameSpan]
  omega

/-- The outermost nodes do not depend on the order of the nodes. -/
theorem perm_outermost {ns ms : List Node} (h : ns.Perm ms) :
  (outermost ns).Perm (outermost ms)
  := by
  have hany : (fun n : Node => !ns.any n.isInside) = fun n => !ms.any n.isInside := by
    funext n
    rw [h.any_eq]
  rw [outermost, outermost, hany]
  apply h.filter

theorem outermost_outermost (ns : List Node) :
  outermost (outermost ns) = outermost ns
  := by
  apply List.filter_eq_self.mpr
  intro n hn
  obtain ⟨-, houter⟩ := List.mem_filter.mp hn
  rw [Bool.not_eq_true', List.any_eq_false] at houter ⊢
  intro m hm
  apply houter m (List.mem_of_mem_filter hm)

/-- Two outermost nodes have the same span or stand apart. -/
theorem sameSpan_or_apart {t : Tree} {ns : List Node} {n m : Node} (h : t.Spanned)
    (hns : ∀ n ∈ ns, n ∈ (root t).preorder) (hn : n ∈ outermost ns) (hm : m ∈ outermost ns) :
  n.SameSpan m ∨ n.stop ≤ m.start ∨ m.stop ≤ n.start
  := by
  obtain ⟨hn, houter⟩ := mem_outermost.mp hn
  obtain ⟨hm, houter'⟩ := mem_outermost.mp hm
  rcases laminar_of_mem h (hns n hn) (hns m hm) with hwithin | hwithin | hapart
  · apply Or.inl (houter m hm hwithin)
  · obtain ⟨hstart, hstop⟩ := houter' n hn hwithin
    apply Or.inl ⟨hstart.symm, hstop.symm⟩
  · apply Or.inr hapart

/-! ### Replacing outermost nodes -/

section Replacing

variable {t : Tree} {ns kept : List Node} {source : List Char}

/-- Replacements of outermost nodes that are not empty and have different spans do not overlap. -/
theorem compatible_replacements (h : t.Spanned) (hns : ∀ n ∈ ns, n ∈ (root t).preorder)
    (hlimit : t.stop ≤ byteLength source) (hkept : ∀ n ∈ kept, n ∈ outermost ns)
    (hne : ∀ n ∈ kept, n.start < n.stop) (hspans : kept.Pairwise fun n m => ¬ n.SameSpan m)
    (text : Node → List Char) :
  Edit.Compatible (byteLength source) (kept.map fun n => n.replace (text n))
  := by
  constructor
  · intro e he
    obtain ⟨n, hn, rfl⟩ := List.mem_map.mp he
    have hspan := hne n hn
    have hmem := hns n (mem_outermost.mp (hkept n hn)).1
    have hstop : n.stop ≤ t.stop := (h.part_within (part_of_mem hmem)).2
    simp only [Edit.Fits, replace]
    omega
  · apply List.pairwise_map.mpr
    apply hspans.imp_of_mem
    intro n m hn hm hdiffer
    have hapart := (sameSpan_or_apart h hns (hkept n hn) (hkept m hm)).resolve_left hdiffer
    simp only [Edit.Apart, replace]
    omega

/-- The outermost nodes are some of the nodes, in their order: those that lie within other ones of
the same span only. Two of them have the same span or stand apart, every node lies within one of
them, and they do not depend on the order of the nodes.
Replacements of some that are not empty and have different spans can be spliced into the bytes of
the text, and can be committed where their spans start and end between characters. -/
theorem outermost_antichain (h : t.Spanned) (hns : ∀ n ∈ ns, n ∈ (root t).preorder) :
  (outermost ns).Sublist ns
  ∧ (∀ n, n ∈ outermost ns ↔ n ∈ ns ∧ ∀ m ∈ ns, n.Within m → n.SameSpan m)
  ∧ (∀ n ∈ outermost ns, ∀ m ∈ outermost ns,
    n.SameSpan m ∨ n.stop ≤ m.start ∨ m.stop ≤ n.start)
  ∧ (∀ n ∈ ns, ∃ m ∈ outermost ns, n.Within m)
  ∧ outermost (outermost ns) = outermost ns
  ∧ (∀ ms : List Node, ms.Perm ns → (outermost ms).Perm (outermost ns))
  ∧ ∀ (source : List Char) (kept : List Node) (text : Node → List Char),
    t.stop ≤ byteLength source → (∀ n ∈ kept, n ∈ outermost ns) →
    (∀ n ∈ kept, n.start < n.stop) → (kept.Pairwise fun n m => ¬ n.SameSpan m) →
      (∃ bytes, Edit.splice (Utf8.encode source) (kept.map fun n => n.replace (text n)) = .ok bytes)
      ∧ ((∀ n ∈ kept, Boundary source n.start ∧ Boundary source n.stop) →
        ∃ result, Edit.commit source (kept.map fun n => n.replace (text n)) = .ok result)
  := by
  use List.filter_sublist, fun n => mem_outermost
  use fun n hn m hm => sameSpan_or_apart h hns hn hm
  use fun n hn => exists_outermost hn, outermost_outermost ns, fun ms hms => perm_outermost hms
  intro source kept text hlimit hkept hne hspans
  have hcompatible := compatible_replacements h hns hlimit hkept hne hspans text
  constructor
  · rw [← Utf8.length_encode] at hcompatible
    exact ⟨_, Edit.splice_of_compatible hcompatible⟩
  · intro hboundary
    have hedges : ∀ e ∈ kept.map fun n => n.replace (text n), e.OnBoundaries source := by
      intro e he
      obtain ⟨n, hn, rfl⟩ := List.mem_map.mp he
      obtain ⟨hstart, hstop⟩ := hboundary n hn
      exact ⟨hstart, hstop⟩
    rcases Edit.commit_cases hcompatible.fits hedges with ⟨-, hcommit⟩ | ⟨hoverlap, -⟩
    · apply hcommit
    · apply absurd hcompatible.apart hoverlap

end Replacing

/-- A call of two bytes with a name of the same span, an empty name behind it, and another call that
has a name of one byte. -/
def twoCalls : Tree :=
  .node .program none 0 4
    [.node .callExpression none 0 2 [.node .identifier none 0 2 []],
      .node .identifier none 2 2 [],
      .node .callExpression none 2 4 [.node .identifier none 3 4 []]]

theorem spanned_twoCalls :
  twoCalls.Spanned
  := by
  have hleaf (k : Kind) (s e : Nat) : (Tree.node k none s e []).Spanned := ⟨nofun, .nil, nofun⟩
  constructor
  · decide
  · decide
  · simp only [twoCalls, Tree.children, List.forall_mem_cons, List.not_mem_nil, IsEmpty.forall_iff,
      implies_true, and_true]
    refine ⟨⟨by decide, by decide, ?_⟩, hleaf _ _ _, ⟨by decide, by decide, ?_⟩⟩
    · simpa [Tree.children] using hleaf _ _ _
    · simpa [Tree.children] using hleaf _ _ _

/-- Of the nodes below the whole text, the first call and its name stay, and the second call. The
two calls can be replaced. -/
theorem outermost_antichain_calls :
  let ns := (root twoCalls).descendants.reverse
  let kept := (outermost ns).filter (·.kind = .callExpression)
  (outermost ns).map (fun n => (n.kind, n.start, n.stop))
      = [(.callExpression, 2, 4), (.identifier, 0, 2), (.callExpression, 0, 2)]
  ∧ ∃ result, Edit.commit "abcd".toList (kept.map fun n => n.replace ['x']) = .ok result
  := by
  intro ns kept
  have hns : ∀ n ∈ ns, n ∈ (root twoCalls).preorder := by
    intro n hn
    apply List.mem_cons_of_mem _ (List.mem_reverse.mp hn)
  obtain ⟨-, -, -, -, -, -, hreplace⟩ := outermost_antichain spanned_twoCalls hns
  use by decide
  have htwo : Boundary "abcd".toList 2 := ⟨"ab".toList, "cd".toList, rfl, rfl⟩
  have hfour : Boundary "abcd".toList 4 := ⟨"abcd".toList, [], rfl, rfl⟩
  have hspans : ∀ n ∈ kept, n.start = 0 ∧ n.stop = 2 ∨ n.start = 2 ∧ n.stop = 4 := by decide
  obtain ⟨-, hcommit⟩ := hreplace "abcd".toList kept (fun _ => ['x']) (by decide)
    (fun n hn => List.mem_of_mem_filter hn) (by decide) (by decide)
  apply hcommit
  intro n hn
  rcases hspans n hn with ⟨hstart, hstop⟩ | ⟨hstart, hstop⟩
  · rw [hstart, hstop]
    exact ⟨boundary_zero _, htwo⟩
  · rw [hstart, hstop]
    exact ⟨htwo, hfour⟩

end Codemod.Node
