import Codemod.Proofs.Matching

/-!
# Applying hunks

Hunks are applied to a list of lines from its front on: what is between them is kept, and each of
them applies where its old lines stand. The hunks of two lists of lines, applied to the first one,
give the second one. What is left out between the hunks is equal on both sides.
-/

namespace Codemod.Diff

/-! ### Both sides of a hunk -/

/-- The lines of the first side. -/
def oldLines (lines : List (Mark × List Char)) : List (List Char) :=
  (lines.filter fun l => l.1 ≠ .added).map Prod.snd

/-- The lines of the second side. -/
def newLines (lines : List (Mark × List Char)) : List (List Char) :=
  (lines.filter fun l => l.1 ≠ .removed).map Prod.snd

@[simp]
theorem oldLines_append (ks ls : List (Mark × List Char)) :
  oldLines (ks ++ ls) = oldLines ks ++ oldLines ls
  := by
  simp [oldLines]

@[simp]
theorem newLines_append (ks ls : List (Mark × List Char)) :
  newLines (ks ++ ls) = newLines ks ++ newLines ls
  := by
  simp [newLines]

theorem oldLines_map (m : Mark) (ls : List (List Char)) :
  oldLines (ls.map (m, ·)) = if m = .added then [] else ls
  := by
  cases m <;> simp [oldLines, List.filter_map, Function.comp_def]

theorem newLines_map (m : Mark) (ls : List (List Char)) :
  newLines (ls.map (m, ·)) = if m = .removed then [] else ls
  := by
  cases m <;> simp [newLines, List.filter_map, Function.comp_def]

/-- Some lines from a place on, with hunks applied to them; so many lines are made before. A hunk
applies if it says where its old lines stand and where its new ones will. -/
def applyHunks? (old : List (List Char)) :
    (reached made : Nat) → List Hunk → Option (List (List Char))
  | reached, _, [] => some (old.drop reached)
  | reached, made, h :: hs =>
    if reached ≤ h.i₁ ∧ h.i₁ ≤ h.i₂ ∧ h.j₁ = made + (h.i₁ - reached)
        ∧ between h.i₁ h.i₂ old = oldLines h.lines then
      (applyHunks? old h.i₂ h.j₂ hs).map fun rest =>
        between reached h.i₁ old ++ newLines h.lines ++ rest
    else none

/-! ### Parts of a list -/

section Between

variable {α : Type} {as bs : List α} {i j k n : Nat}

theorem between_eq_take (i j : Nat) (as : List α) :
  between i j as = (as.drop i).take (j - i)
  := List.drop_take

theorem between_append (hij : i ≤ j) (hjk : j ≤ k) :
  between i j as ++ between j k as = between i k as
  := by
  have hk : k - i = (j - i) + (k - j) := by omega
  have hj : i + (j - i) = j := by omega
  rw [between_eq_take, between_eq_take, between_eq_take, hk, List.take_add, List.drop_drop, hj]

theorem between_append_drop (hij : i ≤ j) :
  between i j as ++ as.drop j = as.drop i
  := by
  have hj : i + (j - i) = j := by omega
  have hsplit := List.take_append_drop (j - i) (as.drop i)
  rwa [List.drop_drop, hj, ← between_eq_take] at hsplit

theorem Agree.drop_eq (h : Agree as bs i j n) (hi : i + n = as.length) (hj : j + n = bs.length) :
  as.drop i = bs.drop j
  := by
  have hbetween := h.between_eq
  rwa [hi, hj, between, between, List.take_length, List.take_length] at hbetween

end Between

/-! ### Stretches as lines -/

section Sides

variable {old new : List (List Char)} {i j i' j' : Nat} {ss ts : List Stretch}

theorem Spans.le (h : Spans old new i j ss i' j') :
  i ≤ i' ∧ j ≤ j'
  := by
  induction h with
  | nil => exact ⟨Nat.le_refl _, Nat.le_refl _⟩
  | same _ _ _ ih => exact ⟨by omega, by omega⟩
  | changed _ _ _ _ _ _ ih => exact ⟨by omega, by omega⟩

/-- The lines of some stretches are, on each side, the lines they span. -/
theorem Spans.lines (h : Spans old new i j ss i' j') :
  oldLines (ss.flatMap (stretchLines old new)) = between i i' old
    ∧ newLines (ss.flatMap (stretchLines old new)) = between j j' new
  := by
  induction h with
  | nil => simp [oldLines, newLines, between_eq_take]
  | @same i j i' j' n ss pos agree rest ih =>
    obtain ⟨hi, hj⟩ := rest.le
    rw [List.flatMap_cons, oldLines_append, newLines_append, ih.1, ih.2, stretchLines, if_pos rfl,
      oldLines_map, newLines_map, if_neg (by decide), if_neg (by decide)]
    refine ⟨between_append (Nat.le_add_right _ _) hi, ?_⟩
    rw [agree.between_eq]
    exact between_append (Nat.le_add_right _ _) hj
  | @changed i j p q i' j' ss left right pos inLeft inRight rest ih =>
    obtain ⟨hi, hj⟩ := rest.le
    rw [List.flatMap_cons, oldLines_append, newLines_append, ih.1, ih.2, stretchLines,
      if_neg Bool.false_ne_true, oldLines_append, newLines_append, oldLines_map, oldLines_map,
      newLines_map, newLines_map, if_neg (by decide), if_pos rfl, if_pos rfl, if_neg (by decide)]
    rw [List.append_nil, List.nil_append]
    exact ⟨between_append left hi, between_append right hj⟩

theorem Spans.head (h : Spans old new i j ss i' j') :
  ∀ s ∈ ss.head?, s.i₁ = i ∧ s.j₁ = j
  := by
  cases h <;> simp

theorem Spans.last (h : Spans old new i j ss i' j') :
  ∀ s ∈ ss.getLast?, s.i₂ = i' ∧ s.j₂ = j'
  := by
  induction h with
  | nil => simp
  | same _ _ rest ih =>
    cases rest <;> simp_all
  | changed _ _ _ _ _ rest ih =>
    cases rest <;> simp_all

/-- The hunk of a group has the lines that the group spans. -/
theorem Spans.hunk?_eq (h : Spans old new i j ss i' j') (hne : ss ≠ []) :
  hunk? old new ss = some ⟨i, i', j, j', ss.flatMap (stretchLines old new)⟩
  := by
  have hfirst := List.head?_eq_some_head hne
  have hlast := List.getLast?_eq_some_getLast hne
  obtain ⟨hi, hj⟩ := h.head _ hfirst
  obtain ⟨hi', hj'⟩ := h.last _ hlast
  rw [hunk?, hfirst, hlast]
  simp only [hi, hj, hi', hj']

end Sides

/-! ### Groups -/

section Groups

variable {old new : List (List Char)} {i j i' j' p q n m : Nat} {ss ts group : List Stretch}
  {gs : List (List Stretch)}

/-- Groups of stretches that make up two lists from a pair of places on, but for parts that are
equal on both sides. -/
inductive Steps (old new : List (List Char)) : (i j : Nat) → List (List Stretch) → Prop where
  | done {i j n : Nat} (agree : Agree old new i j n) (left : i + n = old.length)
    (right : j + n = new.length) : Steps old new i j []
  | group {i j n i' j' : Nat} {g : List Stretch} {gs : List (List Stretch)}
    (agree : Agree old new i j n) (spans : Spans old new (i + n) (j + n) g i' j') (ne_nil : g ≠ [])
    (rest : Steps old new i' j' gs) : Steps old new i j (g :: gs)

/-- Hunks that make up two lists lead from the one to the other. -/
theorem Steps.applyHunks?_eq (h : Steps old new i j gs) :
  applyHunks? old i j (gs.filterMap (hunk? old new)) = some (new.drop j)
  := by
  induction h with
  | done agree left right =>
    rw [List.filterMap_nil, applyHunks?, agree.drop_eq left right]
  | @group i j n i' j' g gs agree spans ne_nil rest ih =>
    obtain ⟨hi, hj⟩ := spans.le
    obtain ⟨hold, hnew⟩ := spans.lines
    rw [List.filterMap_cons_some (spans.hunk?_eq ne_nil), applyHunks?, ih]
    simp only [hold, hnew, Nat.add_sub_cancel_left, Nat.le_add_right, hi, and_self, ↓reduceIte,
      Option.map_some, agree.between_eq]
    rw [between_append (Nat.le_add_right _ _) hj,
      between_append_drop (Nat.le_trans (Nat.le_add_right _ _) hj)]

theorem Spans.append (h : Spans old new i j ss p q) (h' : Spans old new p q ts i' j') :
  Spans old new i j (ss ++ ts) i' j'
  := by
  induction h with
  | nil => exact h'
  | same pos agree _ ih => exact .same pos agree (ih h')
  | changed left right pos inLeft inRight _ ih =>
    exact .changed left right pos inLeft inRight (ih h')

/-- Stretches without a change, with an equal part behind them, are an equal part. -/
theorem Spans.agree (h : Spans old new i j ss p q) (hss : isChanged ss = false)
    (hbehind : Agree old new p q m) :
  ∃ n, i + n = p ∧ j + n = q ∧ Agree old new i j (n + m)
  := by
  induction h with
  | nil =>
    refine ⟨0, rfl, rfl, ?_⟩
    rwa [Nat.zero_add]
  | same pos agree _ ih =>
    obtain ⟨n, rfl, rfl, hagree⟩ := ih hss hbehind
    refine ⟨_, (Nat.add_assoc ..).symm, (Nat.add_assoc ..).symm, ?_⟩
    rw [Nat.add_assoc]
    exact agree.append hagree
  | changed => cases hss

theorem opening_same (i j m n : Nat) :
  Stretch.opening n ⟨true, i, i + m, j, j + m⟩ = ⟨true, i, i + min m n, j, j + min m n⟩
  := by
  simp only [Stretch.opening, Nat.add_min_add_left]

theorem ending_same (i j m n : Nat) :
  Stretch.ending n ⟨true, i, i + m, j, j + m⟩
    = ⟨true, i + (m - n), i + (m - n) + min m n, j + (m - n), j + (m - n) + min m n⟩
  := by
  simp only [Stretch.ending, Stretch.mk.injEq, true_and]
  omega

/-- Groups that are cut within equal stretches leave out what is equal. -/
theorem steps_groupsFrom {k l g : Nat} (hn : 0 < n) (hgap : Agree old new i j g)
    (hgroup : Spans old new (i + g) (j + g) group p q) (hss : Spans old new p q ss k l)
    (hbehind : Agree old new k l m) (hk : k + m = old.length) (hl : l + m = new.length) :
  Steps old new i j (groupsFrom n group ss)
  := by
  induction ss generalizing i j g group p q with
  | nil =>
    cases hss
    rw [groupsFrom]
    split
    · rename_i hchanged
      apply Steps.group hgap hgroup _ (.done hbehind hk hl)
      rintro rfl
      cases hchanged
    · rename_i hchanged
      obtain ⟨n, rfl, rfl, hagree⟩ := hgroup.agree (Bool.eq_false_iff.mpr hchanged) hbehind
      exact .done (hgap.append hagree) (by omega) (by omega)
  | cons s ss ih =>
    rw [groupsFrom]
    split
    · rename_i hcut
      cases hss with
      | changed => simp at hcut
      | same pos agree rest =>
        rename_i size
        simp only [Nat.add_sub_cancel_left, Bool.true_and, decide_eq_true_eq] at hcut
        rw [opening_same, ending_same, Nat.min_eq_right (by omega)]
        have hopening : Agree old new p q n := agree.part (k := 0) (by omega)
        have hmiddle : Agree old new (p + n) (q + n) (size - n - n) := agree.part (by omega)
        have hending : Agree old new (p + (size - n)) (q + (size - n)) n := agree.part (by omega)
        have hp : p + (size - n) = p + n + (size - n - n) := by omega
        have hq : q + (size - n) = q + n + (size - n - n) := by omega
        have hpn : p + (size - n) + n = p + size := by omega
        have hqn : q + (size - n) + n = q + size := by omega
        refine .group hgap (hgroup.append (.same hn hopening .nil)) (by simp) ?_
        refine ih hmiddle ?_ rest
        rw [← hp, ← hq, ← hpn, ← hqn]
        exact .same hn hending .nil
    · cases hss with
      | same pos agree rest => exact ih hgap (hgroup.append (.same pos agree .nil)) rest
      | changed left right pos inLeft inRight rest =>
        exact ih hgap (hgroup.append (.changed left right pos inLeft inRight .nil)) rest

theorem Spans.trimFirst (hn : 0 < n) (h : Spans old new i j ss i' j') (hi : i ≤ old.length)
    (hj : j ≤ new.length) :
  ∃ g, Agree old new i j g ∧ Spans old new (i + g) (j + g) (trimFirst n ss) i' j'
  := by
  cases h with
  | nil => exact ⟨0, .empty hi hj, .nil⟩
  | same pos agree rest =>
    rename_i size ss
    rw [Diff.trimFirst, if_pos rfl, ending_same]
    refine ⟨size - n, agree.part (k := 0) (by omega), .same (by omega) (agree.part (by omega)) ?_⟩
    have hi' : i + (size - n) + min size n = i + size := by omega
    have hj' : j + (size - n) + min size n = j + size := by omega
    rwa [hi', hj']
  | changed left right pos inLeft inRight rest =>
    exact ⟨0, .empty hi hj, .changed left right pos inLeft inRight rest⟩

theorem Spans.trimLast (hn : 0 < n) (h : Spans old new i j ss i' j') (hi : i' ≤ old.length)
    (hj : j' ≤ new.length) :
  ∃ k l m, Spans old new i j (trimLast n ss) k l ∧ Agree old new k l m ∧ k + m = i' ∧ l + m = j'
  := by
  induction h with
  | nil => exact ⟨_, _, 0, .nil, .empty hi hj, rfl, rfl⟩
  | @same i j i' j' size ss pos agree rest ih =>
    cases ss with
    | nil =>
      cases rest
      rw [Diff.trimLast, if_pos rfl, opening_same]
      exact ⟨_, _, size - min size n, .same (by omega) (agree.part (k := 0) (by omega)) .nil,
        agree.part (by omega), by omega, by omega⟩
    | cons s ss =>
      obtain ⟨k, l, m, hspans, hagree⟩ := ih hi hj
      exact ⟨k, l, m, .same pos agree hspans, hagree⟩
  | @changed i j p q i' j' ss left right pos inLeft inRight rest ih =>
    obtain ⟨k, l, m, hspans, hagree⟩ := ih hi hj
    refine ⟨k, l, m, ?_, hagree⟩
    cases ss with
    | nil => exact .changed left right pos inLeft inRight hspans
    | cons s ss => exact .changed left right pos inLeft inRight hspans

/-- The groups of stretches that make up two lists make these up. -/
theorem steps_groups (hn : 0 < n) (h : Spans old new 0 0 ss old.length new.length) :
  Steps old new 0 0 (groups n ss)
  := by
  obtain ⟨g, hgap, hspans⟩ := h.trimFirst hn (Nat.zero_le _) (Nat.zero_le _)
  obtain ⟨k, l, m, hspans, hbehind, hk, hl⟩ := hspans.trimLast hn (Nat.le_refl _) (Nat.le_refl _)
  exact steps_groupsFrom hn hgap .nil hspans hbehind hk hl

end Groups

/-- The hunks of two lists of lines, applied to the first one, give the second one. -/
theorem applyHunks?_eq_some (old new : List (List Char)) :
  applyHunks? old 0 0 (hunks old new) = some new
  := (steps_groups (by decide) (spans_stretches old new).1).applyHunks?_eq

/-! ### The order of stretches -/

section Order

variable {old new : List (List Char)} {i j i' j' n : Nat} {s t : Stretch}
  {ss ts group : List Stretch} {gs : List (List Stretch)}

/-- A stretch lies within two lists, has something on one of its sides, and has the same items on
both sides if it is equal. -/
structure Stretch.Within (old new : List (List Char)) (s : Stretch) : Prop where
  left : s.i₁ ≤ s.i₂
  right : s.j₁ ≤ s.j₂
  inLeft : s.i₂ ≤ old.length
  inRight : s.j₂ ≤ new.length
  pos : s.i₁ < s.i₂ ∨ s.j₁ < s.j₂
  agree : s.same = true → s.j₁ + (s.i₂ - s.i₁) = s.j₂ ∧ Agree old new s.i₁ s.j₁ (s.i₂ - s.i₁)

/-- A stretch ends before another one starts, on both sides. -/
def Stretch.Before (s t : Stretch) : Prop := s.i₂ ≤ t.i₁ ∧ s.j₂ ≤ t.j₁

/-- Stretches follow each other between two pairs of places. -/
structure Ordered (old new : List (List Char)) (i j : Nat) (ss : List Stretch) (i' j' : Nat) :
    Prop where
  within : ∀ s ∈ ss, s.Within old new
  bounds : ∀ s ∈ ss, i ≤ s.i₁ ∧ j ≤ s.j₁ ∧ s.i₂ ≤ i' ∧ s.j₂ ≤ j'
  before : ss.Pairwise Stretch.Before

theorem Ordered.cons (hs : s.Within old new) (hi : s.i₂ ≤ i') (hj : s.j₂ ≤ j')
    (h : Ordered old new s.i₂ s.j₂ ss i' j') :
  Ordered old new s.i₁ s.j₁ (s :: ss) i' j'
  := by
  have hleft := hs.left
  have hright := hs.right
  refine ⟨List.forall_mem_cons.mpr ⟨hs, h.within⟩, List.forall_mem_cons.mpr ⟨?_, ?_⟩,
    .cons ?_ h.before⟩
  · exact ⟨Nat.le_refl _, Nat.le_refl _, hi, hj⟩
  · intro t ht
    obtain ⟨hti, htj, hends⟩ := h.bounds t ht
    exact ⟨by omega, by omega, hends⟩
  · intro t ht
    obtain ⟨hti, htj, -⟩ := h.bounds t ht
    exact ⟨hti, htj⟩

theorem Spans.ordered (h : Spans old new i j ss i' j') :
  Ordered old new i j ss i' j'
  := by
  induction h with
  | nil => exact ⟨List.forall_mem_nil _, List.forall_mem_nil _, .nil⟩
  | @same i j i' j' n ss pos agree rest ih =>
    obtain ⟨hi, hj⟩ := rest.le
    have hs : Stretch.Within old new ⟨true, i, i + n, j, j + n⟩ := by
      refine ⟨Nat.le_add_right _ _, Nat.le_add_right _ _, agree.left, agree.right,
        .inl (Nat.lt_add_of_pos_right pos), fun _ => ?_⟩
      rw [Nat.add_sub_cancel_left]
      exact ⟨rfl, agree⟩
    exact .cons hs hi hj ih
  | @changed i j p q i' j' ss left right pos inLeft inRight rest ih =>
    obtain ⟨hi, hj⟩ := rest.le
    have hs : Stretch.Within old new ⟨false, i, p, j, q⟩ := by
      refine ⟨left, right, inLeft, inRight, pos, fun hsame => ?_⟩
      cases hsame
    exact .cons hs hi hj ih

theorem Steps.ordered (h : Steps old new i j gs) :
  Ordered old new i j gs.flatten old.length new.length
  := by
  induction h with
  | done => exact ⟨List.forall_mem_nil _, List.forall_mem_nil _, .nil⟩
  | @group i j n i' j' g gs agree spans ne_nil rest ih =>
    obtain ⟨hi, hj⟩ := spans.le
    have hgroup := spans.ordered
    rw [List.flatten_cons]
    refine ⟨List.forall_mem_append.mpr ⟨hgroup.within, ih.within⟩,
      List.forall_mem_append.mpr ⟨?_, ?_⟩,
      List.pairwise_append.mpr ⟨hgroup.before, ih.before, ?_⟩⟩
    · intro s hs
      obtain ⟨hsi, hsj, -⟩ := hgroup.bounds s hs
      have hwithin := hgroup.within s hs
      exact ⟨by omega, by omega, hwithin.inLeft, hwithin.inRight⟩
    · intro s hs
      obtain ⟨hsi, hsj, hends⟩ := ih.bounds s hs
      exact ⟨by omega, by omega, hends⟩
    · intro s hs t ht
      obtain ⟨-, -, hsi, hsj⟩ := hgroup.bounds s hs
      obtain ⟨hti, htj, -⟩ := ih.bounds t ht
      exact ⟨by omega, by omega⟩

/-- Whether changes are neighbours can be seen on both sides of an equal stretch. -/
theorem sparse_append_same (hs : s.same = true) :
  Sparse (ss ++ s :: ts) ↔ Sparse ss ∧ Sparse ts
  := by
  rw [Sparse, List.isChain_append, List.isChain_cons]
  constructor
  · rintro ⟨hss, ⟨-, hts⟩, -⟩
    exact ⟨hss, hts⟩
  · rintro ⟨hss, hts⟩
    refine ⟨hss, ⟨fun t _ => .inl hs, hts⟩, ?_⟩
    intro t _ s' hs'
    cases hs'
    exact .inr hs

theorem sparse_iff_map :
  Sparse ss ↔ (ss.map Stretch.same).IsChain fun s t => s = true ∨ t = true
  := by
  rw [List.isChain_map, Sparse]

theorem map_same_trimFirst (n : Nat) (ss : List Stretch) :
  (trimFirst n ss).map Stretch.same = ss.map Stretch.same
  := by
  cases ss with
  | nil => rfl
  | cons s ss =>
    rw [trimFirst, List.map_cons, List.map_cons]
    split <;> rfl

theorem map_same_trimLast (n : Nat) (ss : List Stretch) :
  (trimLast n ss).map Stretch.same = ss.map Stretch.same
  := by
  fun_induction trimLast n ss with
  | case1 => rfl
  | case2 s =>
    rw [List.map_singleton, List.map_singleton]
    split <;> rfl
  | case3 s ss _ ih => rw [List.map_cons, List.map_cons, ih]

theorem Sparse.flatten_groupsFrom (h : Sparse (group ++ ss)) :
  Sparse (groupsFrom n group ss).flatten
  := by
  induction ss generalizing group with
  | nil =>
    rw [groupsFrom]
    rw [List.append_nil] at h
    split
    · rwa [List.flatten_singleton]
    · exact .nil
  | cons s ss ih =>
    rw [groupsFrom]
    split
    · rename_i hcut
      rw [Bool.and_eq_true] at hcut
      obtain ⟨hgroup, hss⟩ := (sparse_append_same hcut.1).mp h
      have hending : Sparse ([s.ending n] ++ ss) := hss.cons_same hcut.1
      rw [List.flatten_cons, List.append_assoc, List.singleton_append]
      have hopening : (s.opening n).same = true := hcut.1
      exact (sparse_append_same hopening).mpr ⟨hgroup, ih hending⟩
    · apply ih
      rwa [List.append_assoc]

theorem Sparse.flatten_groups (h : Sparse ss) :
  Sparse (groups n ss).flatten
  := by
  apply flatten_groupsFrom
  rw [List.nil_append, sparse_iff_map, map_same_trimLast, map_same_trimFirst]
  exact sparse_iff_map.mp h

/-- The changes of groups are the changes of the stretches they are made from. -/
theorem mem_of_mem_groupsFrom (hs : s.same = false) (h : s ∈ (groupsFrom n group ss).flatten) :
  s ∈ group ∨ s ∈ ss
  := by
  induction ss generalizing group with
  | nil =>
    rw [groupsFrom] at h
    split at h
    · rw [List.flatten_singleton] at h
      exact .inl h
    · cases h
  | cons t ss ih =>
    rw [groupsFrom] at h
    split at h
    · rename_i hcut
      rw [Bool.and_eq_true] at hcut
      rw [List.flatten_cons, List.mem_append, List.mem_append, List.mem_singleton] at h
      obtain (h | rfl) | h := h
      · exact .inl h
      · cases hs.symm.trans hcut.1
      · obtain h | h := ih h
        · cases List.mem_singleton.mp h
          cases hs.symm.trans hcut.1
        · exact .inr (List.mem_cons_of_mem _ h)
    · obtain h | h := ih h
      · obtain h | h := List.mem_append.mp h
        · exact .inl h
        · cases List.mem_singleton.mp h
          exact .inr List.mem_cons_self
      · exact .inr (List.mem_cons_of_mem _ h)

theorem mem_of_mem_trimFirst (hs : s.same = false) (h : s ∈ trimFirst n ss) :
  s ∈ ss
  := by
  cases ss with
  | nil => cases h
  | cons t ss =>
    obtain h | h := List.mem_cons.mp h
    · split at h
      · rename_i hsame
        subst h
        cases hs.symm.trans hsame
      · rw [h]
        exact List.mem_cons_self
    · exact List.mem_cons_of_mem _ h

theorem mem_of_mem_trimLast (hs : s.same = false) (h : s ∈ trimLast n ss) :
  s ∈ ss
  := by
  fun_induction trimLast n ss with
  | case1 => cases h
  | case2 t =>
    have h := List.mem_singleton.mp h
    split at h
    · rename_i hsame
      subst h
      cases hs.symm.trans hsame
    · rw [h]
      exact List.mem_cons_self
  | case3 t ss _ ih =>
    obtain rfl | h := List.mem_cons.mp h
    · exact List.mem_cons_self
    · exact List.mem_cons_of_mem _ (ih h)

theorem mem_of_mem_groups (hs : s.same = false) (h : s ∈ (groups n ss).flatten) :
  s ∈ ss
  := by
  obtain h | h := mem_of_mem_groupsFrom hs h
  · cases h
  · exact mem_of_mem_trimFirst hs (mem_of_mem_trimLast hs h)

theorem groupsFrom_append_changed (hs : s.same = false) :
  ∃ gs g, groupsFrom n group (ss ++ [s]) = gs ++ [g ++ [s]]
  := by
  induction ss generalizing group with
  | nil =>
    have hchanged : isChanged (group ++ [s]) = true := by simp [isChanged, hs]
    refine ⟨[], group, ?_⟩
    rw [List.nil_append, groupsFrom, hs, Bool.false_and, if_neg Bool.false_ne_true, groupsFrom,
      if_pos hchanged, List.nil_append]
  | cons t ss ih =>
    rw [List.cons_append, groupsFrom]
    split
    · obtain ⟨gs, g, h⟩ := @ih [t.ending n]
      exact ⟨_ :: gs, g, by rw [h, List.cons_append]⟩
    · exact ih

theorem trimLast_append_changed (hs : s.same = false) :
  trimLast n (ss ++ [s]) = ss ++ [s]
  := by
  induction ss with
  | nil => rw [List.nil_append, trimLast, hs, if_neg Bool.false_ne_true]
  | cons t ss ih =>
    rw [List.cons_append, trimLast, ih]
    simp

/-- A change that is the last stretch is the last one of the last group. -/
theorem groups_append_changed (n : Nat) (ss : List Stretch) (hs : s.same = false) :
  ∃ gs g, groups n (ss ++ [s]) = gs ++ [g ++ [s]]
  := by
  have htrim : ∃ ts, trimFirst n (ss ++ [s]) = ts ++ [s] := by
    cases ss with
    | nil =>
      refine ⟨[], ?_⟩
      rw [List.nil_append, trimFirst, hs, if_neg Bool.false_ne_true]
    | cons t ss => exact ⟨_ :: ss, rfl⟩
  obtain ⟨ts, htrim⟩ := htrim
  rw [groups, htrim, trimLast_append_changed hs]
  exact groupsFrom_append_changed hs

end Order

end Codemod.Diff
