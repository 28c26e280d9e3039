import Codemod.Diff
import Mathlib.Data.List.Chain
import Mathlib.Tactic.Common

/-!
# What is matched is common

The stretches of two lists that are matched have the same items on both sides, they follow each
other on both sides, and together with what is between them they make up both lists. Which of the
common stretches are matched does not matter for this.
-/

namespace Codemod.Diff

/-! ### Common stretches -/

section Agreement

variable {α : Type} {as bs cs : List α} {i j k m n : Nat}

/-- Two lists have the same items in stretches of one length that start at given places. -/
structure Agree (as bs : List α) (i j n : Nat) : Prop where
  left : i + n ≤ as.length
  right : j + n ≤ bs.length
  items : ∀ k < n, as[i + k]? = bs[j + k]?

theorem Agree.empty (hi : i ≤ as.length) (hj : j ≤ bs.length) :
  Agree as bs i j 0
  := by
  refine ⟨hi, hj, ?_⟩
  intro k hk
  omega

theorem Agree.single {a : α} (ha : as[i]? = some a) (hb : bs[j]? = some a) :
  Agree as bs i j 1
  := by
  obtain ⟨hi, -⟩ := List.getElem?_eq_some_iff.mp ha
  obtain ⟨hj, -⟩ := List.getElem?_eq_some_iff.mp hb
  refine ⟨hi, hj, ?_⟩
  intro k hk
  obtain rfl : k = 0 := by omega
  rw [Nat.add_zero, Nat.add_zero, ha, hb]

theorem Agree.trans (h : Agree as bs i j n) (h' : Agree bs cs j k n) :
  Agree as cs i k n
  := ⟨h.left, h'.right, fun l hl => (h.items l hl).trans (h'.items l hl)⟩

theorem Agree.symm (h : Agree as bs i j n) :
  Agree bs as j i n
  := ⟨h.right, h.left, fun k hk => (h.items k hk).symm⟩

theorem Agree.refl (h : i + n ≤ as.length) :
  Agree as as i i n
  := ⟨h, h, fun _ _ => rfl⟩

/-- A part of a common stretch is common. -/
theorem Agree.part (h : Agree as bs i j n) (hk : k + m ≤ n) :
  Agree as bs (i + k) (j + k) m
  := by
  have hleft := h.left
  have hright := h.right
  refine ⟨by omega, by omega, ?_⟩
  intro l hl
  have hitem := h.items (k + l) (by omega)
  rwa [← Nat.add_assoc, ← Nat.add_assoc] at hitem

/-- Two common stretches, the second of which follows the first one on both sides, are one. -/
theorem Agree.append (h : Agree as bs i j m) (h' : Agree as bs (i + m) (j + m) n) :
  Agree as bs i j (m + n)
  := by
  have hleft := h'.left
  have hright := h'.right
  refine ⟨by omega, by omega, ?_⟩
  intro k hk
  by_cases hkm : k < m
  · exact h.items k hkm
  · have hitem := h'.items (k - m) (by omega)
    have hi : i + m + (k - m) = i + k := by omega
    have hj : j + m + (k - m) = j + k := by omega
    rwa [hi, hj] at hitem

/-- The items of a common stretch. -/
theorem Agree.between_eq (h : Agree as bs i j n) :
  between i (i + n) as = between j (j + n) bs
  := by
  have hleft := h.left
  have hright := h.right
  apply List.ext_getElem?
  intro k
  rw [between, between, List.getElem?_drop, List.getElem?_drop]
  by_cases hk : k < n
  · rw [List.getElem?_take_of_lt (by omega), List.getElem?_take_of_lt (by omega), h.items k hk]
  · rw [List.getElem?_eq_none (by simp; omega), List.getElem?_eq_none (by simp; omega)]

/-- What precedes a place, read backwards. -/
theorem getElem?_reverse_take (hi : i ≤ as.length) (hk : k < i) :
  (as.take i).reverse[k]? = as[i - 1 - k]?
  := by
  have hlength : (as.take i).length = i := List.length_take_of_le hi
  rw [List.getElem?_reverse (by omega), hlength, List.getElem?_take_of_lt (by omega)]

end Agreement

/-! ### The longest stretch -/

section Longest

variable {α : Type} {as bs : List α} {i j : Nat}

/-- A stretch lies within two lists and has the same items in both. -/
def Block.Common (as bs : List α) (b : Block) : Prop := Agree as bs b.i b.j b.size

/-- A row is about the items up to a place: it has one entry for each item on the other side, and
the entry is the length of a common stretch that ends there. -/
structure RowAt (as bs : List α) (i : Nat) (row : List Nat) : Prop where
  length_eq : row.length = bs.length
  common : ∀ j k, row[j]? = some k → k ≤ i ∧ k ≤ j + 1 ∧ Agree as bs (i - k) (j + 1 - k) k

theorem rowAt_zero (as bs : List α) :
  RowAt as bs 0 (bs.map fun _ => 0)
  := by
  refine ⟨by simp, ?_⟩
  intro j k hk
  obtain ⟨b, hb, rfl⟩ := List.getElem?_map .. ▸ hk |> Option.map_eq_some_iff.mp
  obtain ⟨hj, -⟩ := List.getElem?_eq_some_iff.mp hb
  exact ⟨Nat.le_refl 0, by omega, .empty (Nat.zero_le _) (by omega)⟩

theorem common_bestOf {row : List Nat} {best : Block}
    (hrow : ∀ l k, row[l]? = some k → Agree as bs (i + 1 - k) (j + l + 1 - k) k)
    (hbest : best.Common as bs) :
  (bestOf i j row best).Common as bs
  := by
  induction row generalizing j best with
  | nil => exact hbest
  | cons k ks ih =>
    rw [bestOf]
    apply ih
    · intro l k' hl
      have hcommon := hrow (l + 1) k' hl
      have hj : j + (l + 1) + 1 - k' = j + 1 + l + 1 - k' := by omega
      rwa [hj] at hcommon
    · split
      · exact hrow 0 k rfl
      · exact hbest

variable [DecidableEq α]

theorem agree_agreement (as bs : List α) :
  Agree as bs 0 0 (agreement as bs)
  := by
  fun_induction agreement as bs with
  | case1 a as bs ih =>
    refine ⟨by simpa using ih.left, by simpa using ih.right, ?_⟩
    intro k hk
    cases k with
    | zero => rfl
    | succ k => simpa using ih.items k (by omega)
  | case2 a as b bs hab => exact .empty (Nat.zero_le _) (Nat.zero_le _)
  | case3 as bs _ => exact .empty (Nat.zero_le _) (Nat.zero_le _)

/-- What two lists agree on in front of two places. -/
theorem agree_back (hi : i ≤ as.length) (hj : j ≤ bs.length) :
  agreement (as.take i).reverse (bs.take j).reverse ≤ i
    ∧ agreement (as.take i).reverse (bs.take j).reverse ≤ j
    ∧ Agree as bs (i - agreement (as.take i).reverse (bs.take j).reverse)
      (j - agreement (as.take i).reverse (bs.take j).reverse)
      (agreement (as.take i).reverse (bs.take j).reverse)
  := by
  have hback := agree_agreement (as.take i).reverse (bs.take j).reverse
  set back := agreement (as.take i).reverse (bs.take j).reverse
  have hleft := hback.left
  have hright := hback.right
  rw [Nat.zero_add, List.length_reverse, List.length_take_of_le hi] at hleft
  rw [Nat.zero_add, List.length_reverse, List.length_take_of_le hj] at hright
  refine ⟨hleft, hright, by omega, by omega, ?_⟩
  intro k hk
  have hitem := hback.items (back - 1 - k) (by omega)
  rw [Nat.zero_add, getElem?_reverse_take hi (by omega),
    getElem?_reverse_take hj (by omega)] at hitem
  have hi' : i - 1 - (back - 1 - k) = i - back + k := by omega
  have hj' : j - 1 - (back - 1 - k) = j - back + k := by omega
  rwa [hi', hj'] at hitem

/-- What two lists agree on behind two places. -/
theorem agree_front (hi : i ≤ as.length) (hj : j ≤ bs.length) :
  Agree as bs i j (agreement (as.drop i) (bs.drop j))
  := by
  have hfront := agree_agreement (as.drop i) (bs.drop j)
  have hleft := hfront.left
  have hright := hfront.right
  rw [List.length_drop] at hleft hright
  refine ⟨by omega, by omega, ?_⟩
  intro k hk
  have hitem := hfront.items k hk
  rwa [List.getElem?_drop, List.getElem?_drop, Nat.zero_add] at hitem

theorem common_extend {b : Block} (h : b.Common as bs) :
  (extend as bs b).Common as bs
  := by
  have hleft := h.left
  have hright := h.right
  obtain ⟨hi, hj, hback⟩ := @agree_back _ as bs b.i b.j _ (by omega) (by omega)
  have hfront := agree_front hleft hright
  rw [extend]
  set back := agreement (as.take b.i).reverse (bs.take b.j).reverse
  have hwhole : Agree as bs (b.i - back) (b.j - back) (back + b.size) := by
    apply hback.append
    rw [Nat.sub_add_cancel hi, Nat.sub_add_cancel hj]
    exact h
  apply hwhole.append
  rw [← Nat.add_assoc, ← Nat.add_assoc, Nat.sub_add_cancel hi, Nat.sub_add_cancel hj]
  exact hfront

theorem RowAt.next {cs : List (α × Bool)} {row : List Nat} {a : α}
    (h : RowAt as (cs.map Prod.fst) i row) (ha : as[i]? = some a) :
  RowAt as (cs.map Prod.fst) (i + 1) (nextRow a cs row)
  := by
  obtain ⟨hi, -⟩ := List.getElem?_eq_some_iff.mp ha
  have hlength := h.length_eq
  rw [List.length_map] at hlength
  refine ⟨by simp [nextRow, hlength], ?_⟩
  intro j k hk
  rw [nextRow, List.getElem?_zipWith_eq_some] at hk
  obtain ⟨b, l, hb, hl, rfl⟩ := hk
  obtain ⟨hj, -⟩ := List.getElem?_eq_some_iff.mp hb
  have hlast : j + 1 ≤ (cs.map Prod.fst).length := by
    rw [List.length_map]
    exact hj
  have hbs : (cs.map Prod.fst)[j]? = some b.1 := by rw [List.getElem?_map, hb, Option.map_some]
  split
  · -- the items agree here, and so do the ones before them that the entry counts
    rename_i heq
    simp only [Bool.and_eq_true, decide_eq_true_eq] at heq
    have hone : Agree as (cs.map Prod.fst) i j 1 := .single ha (heq.2 ▸ hbs)
    cases j with
    | zero =>
      rw [List.getElem?_cons_zero, Option.some.injEq] at hl
      subst hl
      exact ⟨by omega, by omega, hone⟩
    | succ j =>
      rw [List.getElem?_cons_succ] at hl
      obtain ⟨hli, hlj, hagree⟩ := h.common j l hl
      refine ⟨by omega, by omega, ?_⟩
      have hi' : i + 1 - (l + 1) = i - l := by omega
      have hj' : j + 1 + 1 - (l + 1) = j + 1 - l := by omega
      rw [hi', hj']
      apply hagree.append
      rwa [Nat.sub_add_cancel hli, Nat.sub_add_cancel hlj]
  · exact ⟨Nat.zero_le _, Nat.zero_le _, .empty hi hlast⟩

theorem common_bestFrom {cs : List (α × Bool)} {rest : List α} {row : List Nat} {best : Block}
    (hrest : as.drop i = rest) (hrow : RowAt as (cs.map Prod.fst) i row)
    (hbest : best.Common as (cs.map Prod.fst)) :
  (bestFrom cs i rest row best).Common as (cs.map Prod.fst)
  := by
  induction rest generalizing i row best with
  | nil => exact hbest
  | cons a rest ih =>
    have ha : as[i]? = some a := by
      rw [← List.head?_drop, hrest, List.head?_cons]
    have hnext := hrow.next ha
    apply ih _ hnext
    · apply common_bestOf _ hbest
      intro j k hk
      rw [Nat.zero_add]
      exact (hnext.common j k hk).2.2
    · rw [← List.drop_drop, hrest, List.drop_succ_cons, List.drop_zero]

/-- The longest stretch of two lists is common to them. -/
theorem common_longest (as : List α) (cs : List (α × Bool)) :
  (longest as cs).Common as (cs.map Prod.fst)
  := by
  apply common_extend
  have hrow := rowAt_zero as (cs.map Prod.fst)
  rw [List.map_map] at hrow
  exact common_bestFrom List.drop_zero hrow (.empty (Nat.zero_le _) (Nat.zero_le _))

end Longest

/-! ### All matched stretches -/

section Blocks

variable {α : Type} {as bs : List α} {i j i' j' p q : Nat} {ms ns : List Block}

/-- Common stretches that follow each other on both sides, between two pairs of places. -/
inductive Chain (as bs : List α) : (i j : Nat) → List Block → (i' j' : Nat) → Prop where
  | nil {i j i' j' : Nat} (left : i ≤ i') (right : j ≤ j') : Chain as bs i j [] i' j'
  | cons {i j i' j' : Nat} {b : Block} {ms : List Block} (left : i ≤ b.i) (right : j ≤ b.j)
    (size_pos : 0 < b.size) (common : b.Common as bs)
    (rest : Chain as bs (b.i + b.size) (b.j + b.size) ms i' j') : Chain as bs i j (b :: ms) i' j'

theorem Chain.append (h : Chain as bs i j ms p q) (h' : Chain as bs p q ns i' j') :
  Chain as bs i j (ms ++ ns) i' j'
  := by
  induction h with
  | nil left right =>
    cases h' with
    | nil left' right' => exact .nil (by omega) (by omega)
    | cons left' right' size_pos common rest =>
      exact .cons (by omega) (by omega) size_pos common rest
  | cons left right size_pos common _ ih => exact .cons left right size_pos common (ih h')

/-- The items of a list that are taken from another one, from a place on. -/
theorem Agree.take {part : List α} {n : Nat} (h : Agree as part i 0 part.length)
    (hn : n ≤ part.length) :
  Agree as (part.take n) i 0 (part.take n).length
  := by
  have hleft := h.left
  have hlength : (part.take n).length = n := List.length_take_of_le hn
  refine ⟨by omega, by omega, ?_⟩
  intro k hk
  rw [h.items k (by omega), List.getElem?_take_of_lt (by omega)]

theorem Agree.drop {part : List α} {n : Nat} (h : Agree as part i 0 part.length)
    (hn : n ≤ part.length) :
  Agree as (part.drop n) (i + n) 0 (part.drop n).length
  := by
  have hleft := h.left
  have hlength : (part.drop n).length = part.length - n := List.length_drop
  refine ⟨by omega, by omega, ?_⟩
  intro k hk
  rw [Nat.add_assoc, h.items (n + k) (by omega), List.getElem?_drop, Nat.zero_add, Nat.zero_add]

theorem Chain.mergeFrom {b : Block} (h : Chain as bs i j (b :: ms) i' j') :
  Chain as bs i j (mergeFrom b ms) i' j'
  := by
  induction ms generalizing i j b with
  | nil => exact h
  | cons c cs ih =>
    rw [Diff.mergeFrom]
    cases h with
    | cons left right size_pos common rest =>
      split
      · rename_i hdirect
        simp only [Bool.and_eq_true, decide_eq_true_eq] at hdirect
        cases rest with
        | cons left' right' size_pos' common' rest' =>
          apply ih
          refine .cons left right (Nat.add_pos_left size_pos _) ?_ ?_
          · apply Agree.append common
            rw [hdirect.1, hdirect.2]
            exact common'
          · rwa [← Nat.add_assoc, ← Nat.add_assoc, hdirect.1, hdirect.2]
      · exact .cons left right size_pos common (ih rest)

theorem Chain.merge (h : Chain as bs i j ms i' j') :
  Chain as bs i j (merge ms) i' j'
  := by
  cases ms with
  | nil => exact h
  | cons b ms => exact h.mergeFrom

variable [DecidableEq α]

theorem chain_blocksFrom {limit : Nat} {part : List α} {cs : List (α × Bool)}
    (hleft : Agree as part i 0 part.length)
    (hright : Agree bs (cs.map Prod.fst) j 0 (cs.map Prod.fst).length) :
  Chain as bs i j (blocksFrom limit i j part cs) (i + part.length) (j + cs.length)
  := by
  induction limit generalizing i j part cs with
  | zero => exact .nil (Nat.le_add_right _ _) (Nat.le_add_right _ _)
  | succ limit ih =>
    rw [blocksFrom]
    have hm := common_longest part cs
    set m := longest part cs
    have hmi := hm.left
    have hmj := hm.right
    split
    · exact .nil (Nat.le_add_right _ _) (Nat.le_add_right _ _)
    · rename_i hsize
      have hbefore := ih (hleft.take (n := m.i) (by omega))
        (List.map_take ▸ hright.take (n := m.j) (by omega))
      have hbehind := ih (hleft.drop (n := m.i + m.size) (by omega))
        (List.map_drop ▸ hright.drop (n := m.j + m.size) (by omega))
      rw [List.length_map] at hmj
      rw [List.length_take_of_le (by omega), List.length_take_of_le (by omega)] at hbefore
      rw [List.length_drop, List.length_drop] at hbehind
      have hcommon : Agree as bs (i + m.i) (j + m.j) m.size := by
        have hl := hleft.part (k := m.i) (m := m.size) (by omega)
        have hr := hright.part (k := m.j) (m := m.size) (by rw [List.length_map]; omega)
        rw [Nat.zero_add] at hl hr
        exact hl.trans (Agree.trans hm hr.symm)
      apply hbefore.append
      refine .cons (Nat.le_refl _) (Nat.le_refl _) (Nat.pos_of_ne_zero hsize) hcommon ?_
      have hi : i + part.length = i + (m.i + m.size) + (part.length - (m.i + m.size)) := by omega
      have hj : j + cs.length = j + (m.j + m.size) + (cs.length - (m.j + m.size)) := by omega
      rw [hi, hj]
      simpa only [Nat.add_assoc] using hbehind

theorem map_fst_anchored (bs : List α) :
  (anchored bs).map Prod.fst = bs
  := by
  rw [anchored, List.map_map]
  exact List.map_id bs

/-- The matched stretches of two lists are common and follow each other. -/
theorem chain_blocks (as bs : List α) :
  Chain as bs 0 0 (blocks as bs) as.length bs.length
  := by
  have hleft : Agree as as 0 0 as.length := .refl (Nat.le_of_eq (Nat.zero_add _))
  have hright : Agree bs ((anchored bs).map Prod.fst) 0 0 ((anchored bs).map Prod.fst).length := by
    rw [map_fst_anchored]
    exact .refl (Nat.le_of_eq (Nat.zero_add _))
  have hchain : Chain as bs 0 0 (blocks as bs) _ _ := chain_blocksFrom hleft hright
  rwa [Nat.zero_add, Nat.zero_add, anchored, List.length_map] at hchain

end Blocks

/-! ### Equal and changed stretches -/

section Stretches

variable {α : Type} {as bs : List α} {i j i' j' p q : Nat} {ms : List Block}
  {ss ts : List Stretch}

/-- Stretches that make up two lists between two pairs of places: the equal ones have the same items
on both sides, and none is empty. -/
inductive Spans (as bs : List α) : (i j : Nat) → List Stretch → (i' j' : Nat) → Prop where
  | nil {i j : Nat} : Spans as bs i j [] i j
  | same {i j i' j' n : Nat} {ss : List Stretch} (pos : 0 < n) (agree : Agree as bs i j n)
    (rest : Spans as bs (i + n) (j + n) ss i' j') :
    Spans as bs i j (⟨true, i, i + n, j, j + n⟩ :: ss) i' j'
  | changed {i j p q i' j' : Nat} {ss : List Stretch} (left : i ≤ p) (right : j ≤ q)
    (pos : i < p ∨ j < q) (inLeft : p ≤ as.length) (inRight : q ≤ bs.length)
    (rest : Spans as bs p q ss i' j') : Spans as bs i j (⟨false, i, p, j, q⟩ :: ss) i' j'

/-- Of two neighbours, at least one is equal. -/
def Sparse (ss : List Stretch) : Prop := ss.IsChain fun s t => s.same = true ∨ t.same = true

theorem Sparse.cons_same {s : Stretch} (h : Sparse ss) (hs : s.same = true) :
  Sparse (s :: ss)
  := List.isChain_cons.mpr ⟨fun _ _ => .inl hs, h⟩

theorem spans_stretchesFrom (h : Chain as bs i j ms i' j') (hi : i' ≤ as.length)
    (hj : j' ≤ bs.length) :
  Spans as bs i j (stretchesFrom i j (ms ++ [⟨i', j', 0⟩])) i' j'
    ∧ Sparse (stretchesFrom i j (ms ++ [⟨i', j', 0⟩]))
  := by
  induction h with
  | @nil i j i' j' left right =>
    rw [List.nil_append, stretchesFrom, stretchesFrom, if_pos rfl, List.append_nil, List.append_nil]
    split
    · rename_i hgap
      simp only [Bool.or_eq_true, decide_eq_true_eq] at hgap
      exact ⟨.changed left right hgap hi hj .nil, List.isChain_singleton _⟩
    · rename_i hgap
      simp only [Bool.or_eq_true, decide_eq_true_eq] at hgap
      obtain rfl : i = i' := by omega
      obtain rfl : j = j' := by omega
      exact ⟨.nil, List.isChain_nil⟩
  | @cons i j i' j' b ms left right size_pos common rest ih =>
    obtain ⟨hspans, hsparse⟩ := ih hi hj
    have hspans' := Spans.same size_pos common hspans
    have hsparse' := hsparse.cons_same (s := ⟨true, b.i, b.i + b.size, b.j, b.j + b.size⟩) rfl
    have hleft := common.left
    have hright := common.right
    rw [List.cons_append, stretchesFrom, if_neg (Nat.ne_of_gt size_pos), List.append_assoc,
      List.singleton_append]
    split
    · rename_i hgap
      simp only [Bool.or_eq_true, decide_eq_true_eq] at hgap
      refine ⟨.changed left right hgap (by omega) (by omega) hspans', ?_⟩
      exact List.isChain_cons_cons.mpr ⟨.inr rfl, hsparse'⟩
    · rename_i hgap
      simp only [Bool.or_eq_true, decide_eq_true_eq] at hgap
      obtain rfl : i = b.i := by omega
      obtain rfl : j = b.j := by omega
      exact ⟨hspans', hsparse'⟩

variable [DecidableEq α]

/-- The stretches of two lists make up both of them, and no two changes are neighbours. -/
theorem spans_stretches (as bs : List α) :
  Spans as bs 0 0 (stretches as bs) as.length bs.length ∧ Sparse (stretches as bs)
  := spans_stretchesFrom (chain_blocks as bs).merge (Nat.le_refl _) (Nat.le_refl _)

end Stretches

end Codemod.Diff
