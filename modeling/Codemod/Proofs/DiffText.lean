import Codemod.Proofs.Cutting
import Codemod.Proofs.DiffReader

/-!
# The text of a difference

The text of a difference, cut into lines, can be read again. What is read can be applied to the
first text, and gives the second one. The exception are texts whose last line has no break and gets
replaced: the line that follows it in the difference is joined to it, and the last hunk is one line
short.
-/

namespace Codemod.Diff

open Text

/-! ### Cutting the text of a difference -/

theorem unbroken_renderRange (start stop : Nat) :
  Unbroken (renderRange start stop)
  := by
  have hdigits (n : Nat) : Unbroken (Nat.toDigits 10 n) := fun c hc =>
    isLineBreak_of_isDigit (Nat.isDigit_of_mem_toDigits (by decide) (by decide) hc)
  rw [renderRange_eq]
  split
  · exact hdigits _
  · exact unbroken_append (hdigits _) (List.forall_mem_cons.mpr ⟨rfl, hdigits _⟩)

theorem Hunk.isLine_header (h : Hunk) :
  IsLine h.header ∧ Ended h.header
  := by
  have hfront : Unbroken "@@ -".toList := unbroken_of_all (by decide)
  have hplus : Unbroken " +".toList := unbroken_of_all (by decide)
  have hback : Unbroken " @@".toList := unbroken_of_all (by decide)
  have hheader : h.header = ("@@ -".toList ++ (renderRange h.i₁ h.i₂ ++ (" +".toList ++
      (renderRange h.j₁ h.j₂ ++ " @@".toList)))) ++ ['\n'] := by
    simp only [header, List.append_assoc]
    rfl
  rw [hheader]
  apply isLine_append_break
  exact unbroken_append hfront (unbroken_append (unbroken_renderRange _ _)
    (unbroken_append hplus (unbroken_append (unbroken_renderRange _ _) hback)))

theorem isLine_lineText {l : Mark × List Char} (h : IsLine l.2) :
  IsLine (lineText l)
  := by
  obtain ⟨mark, text⟩ := l
  cases mark <;> exact .cons rfl h

theorem head?_lineText (l : Mark × List Char) :
  (lineText l).head? ≠ some '\n'
  := by
  obtain ⟨mark, text⟩ := l
  have hmark : ∀ m : Mark, m.char ≠ '\n' := by
    intro m
    cases m <;> decide
  exact fun h => hmark mark (Option.some.inj h)

/-- Hunks whose lines are lines, all of which but the last one of all end with a break. -/
structure Cuttable (hs : List Hunk) : Prop where
  isLine : ∀ h ∈ hs, ∀ l ∈ h.lines, IsLine l.2
  within : ∀ h ∈ hs, h.lines.Pairwise fun l _ => Ended l.2
  across : hs.Pairwise fun h _ => ∀ l ∈ h.lines, Ended l.2

theorem ended_lineText {l : Mark × List Char} (h : Ended l.2) :
  Ended (lineText l)
  := h.append [l.1.char]

theorem Cuttable.concat {hs : List Hunk} {h : Hunk} (hhs : Cuttable hs)
    (hended : ∀ k ∈ hs, ∀ l ∈ k.lines, Ended l.2) (hlines : ∀ l ∈ h.lines, IsLine l.2)
    (hpairwise : h.lines.Pairwise fun l _ => Ended l.2) :
  Cuttable (hs ++ [h])
  := by
  refine ⟨?_, ?_, ?_⟩
  · exact List.forall_mem_append.mpr ⟨hhs.isLine, List.forall_mem_singleton.mpr hlines⟩
  · exact List.forall_mem_append.mpr ⟨hhs.within, List.forall_mem_singleton.mpr hpairwise⟩
  · exact List.pairwise_append.mpr ⟨hhs.across, List.pairwise_singleton _ _,
      fun k hk _ _ => hended k hk⟩

theorem Cuttable.isLine_textLines {hs : List Hunk} (h : Cuttable hs) :
  ∀ l ∈ hs.flatMap Hunk.textLines, IsLine l ∧ l.head? ≠ some '\n'
  := by
  intro l hl
  obtain ⟨k, hk, hl⟩ := List.mem_flatMap.mp hl
  obtain rfl | hl := List.mem_cons.mp hl
  · exact ⟨k.isLine_header.1, fun h => absurd (Option.some.inj h) (by decide)⟩
  · obtain ⟨l, hmem, rfl⟩ := List.mem_map.mp hl
    exact ⟨isLine_lineText (h.isLine k hk l hmem), head?_lineText l⟩

theorem Cuttable.separate {hs : List Hunk} (h : Cuttable hs) :
  Separate (hs.flatMap Hunk.textLines)
  := by
  refine List.pairwise_flatMap.mpr ⟨?_, ?_⟩
  · intro k hk
    refine .cons (fun _ _ => k.isLine_header.2) (List.pairwise_map.mpr ?_)
    exact (h.within k hk).imp ended_lineText
  · refine h.across.imp fun {k k'} hk l hl _ _ => ?_
    obtain rfl | hl := List.mem_cons.mp hl
    · exact k.isLine_header.2
    · obtain ⟨l, hmem, rfl⟩ := List.mem_map.mp hl
      exact ended_lineText (hk l hmem)

/-- The lines that name the files. -/
def nameLines (path : Path) : List (List Char) :=
  ["--- a/".toList ++ path.render ++ ['\n'], "+++ b/".toList ++ path.render ++ ['\n']]

theorem render_eq (path : Path) {old new : List Char}
    (hne : hunks (keptLines old) (keptLines new) ≠ []) :
  render path old new = (nameLines path).flatten
    ++ (hunks (keptLines old) (keptLines new)).flatMap Hunk.render
  := by
  have hplus : "\n+++ b/".toList = '\n' :: "+++ b/".toList := rfl
  rw [render]
  split
  · rename_i hnil
    cases hne hnil
  · rw [hplus]
    simp [nameLines]

/-- The names of the files and hunks that can be cut are cut apart again. -/
theorem Cuttable.keptLines_eq {hs : List Hunk} (h : Cuttable hs) {path : Path}
    (hpath : Unbroken path.render) :
  keptLines ((nameLines path).flatten ++ (hs.flatMap Hunk.textLines).flatten)
    = nameLines path ++ hs.flatMap Hunk.textLines
  := by
  have hold : Unbroken ("--- a/".toList ++ path.render) :=
    unbroken_append (unbroken_of_all (by decide)) hpath
  have hnew : Unbroken ("+++ b/".toList ++ path.render) :=
    unbroken_append (unbroken_of_all (by decide)) hpath
  have hnames : ∀ l ∈ nameLines path, (IsLine l ∧ l.head? ≠ some '\n') ∧ Ended l := by
    refine List.forall_mem_cons.mpr ⟨?_, List.forall_mem_singleton.mpr ?_⟩
    · obtain ⟨hline, hended⟩ := isLine_append_break hold
      exact ⟨⟨hline, fun h => absurd (Option.some.inj h) (by decide)⟩, hended⟩
    · obtain ⟨hline, hended⟩ := isLine_append_break hnew
      exact ⟨⟨hline, fun h => absurd (Option.some.inj h) (by decide)⟩, hended⟩
  rw [← List.flatten_append]
  apply keptLines_flatten
  · exact List.forall_mem_append.mpr ⟨fun l hl => (hnames l hl).1, h.isLine_textLines⟩
  · refine List.pairwise_append.mpr ⟨?_, h.separate, fun l hl _ _ => (hnames l hl).2⟩
    exact .cons (fun _ _ => (hnames _ List.mem_cons_self).2) (List.pairwise_singleton _ _)

theorem read?_nameLines (path : Path) (lines : List (List Char)) :
  read? (nameLines path ++ lines) = (readLines? 0 0 lines).map Prod.snd
  := rfl

/-! ### Where lines lack their breaks -/

section Breaks

variable {old new : List (List Char)} {i j : Nat} {s t : Stretch} {ss : List Stretch}
  {gs : List (List Stretch)} {l : Mark × List Char}

theorem ended_of_mem_between {ls : List (List Char)} (h : Separate ls) (hj : j < ls.length) :
  ∀ l ∈ between i j ls, Ended l
  := by
  intro l hl
  rw [Separate, ← List.take_append_drop j ls, List.pairwise_append] at h
  have hnext : ls[j] ∈ ls.drop j := by
    rw [List.drop_eq_getElem_cons hj]
    exact List.mem_cons_self
  exact h.2.2 l (List.mem_of_mem_drop hl) _ hnext

theorem separate_between {ls : List (List Char)} (h : Separate ls) :
  Separate (between i j ls)
  := h.sublist ((List.drop_sublist _ _).trans (List.take_sublist _ _))

theorem mem_stretchLines (h : l ∈ stretchLines old new s) :
  l.2 ∈ between s.i₁ s.i₂ old ∨ s.same = false ∧ l.2 ∈ between s.j₁ s.j₂ new
  := by
  rw [stretchLines] at h
  split at h
  · obtain ⟨text, htext, rfl⟩ := List.mem_map.mp h
    exact .inl htext
  · rename_i hsame
    obtain h | h := List.mem_append.mp h
    · obtain ⟨text, htext, rfl⟩ := List.mem_map.mp h
      exact .inl htext
    · obtain ⟨text, htext, rfl⟩ := List.mem_map.mp h
      exact .inr ⟨Bool.eq_false_iff.mpr hsame, htext⟩

theorem isLine_of_mem_stretchLines (hold : ∀ k ∈ old, IsLine k) (hnew : ∀ k ∈ new, IsLine k)
    (h : l ∈ stretchLines old new s) :
  IsLine l.2
  := by
  obtain h | ⟨-, h⟩ := mem_stretchLines h
  · exact hold _ (List.mem_of_mem_take (List.mem_of_mem_drop h))
  · exact hnew _ (List.mem_of_mem_take (List.mem_of_mem_drop h))

/-- An equal stretch has lines on both sides. -/
theorem Stretch.Within.same_pos (h : s.Within old new) (hs : s.same = true) :
  s.i₁ < s.i₂ ∧ s.j₁ < s.j₂
  := by
  obtain ⟨hlength, -⟩ := h.agree hs
  have hleft := h.left
  have hpos := h.pos
  omega

/-- The lines of a stretch end with breaks if another stretch follows it. -/
theorem ended_of_next (hold : Separate old) (hnew : Separate new) (hs : s.Within old new)
    (ht : t.Within old new) (hbefore : s.Before t) (hsparse : s.same = true ∨ t.same = true) :
  ∀ l ∈ stretchLines old new s, Ended l.2
  := by
  intro l hl
  have hti := ht.inLeft
  have htj := ht.inRight
  obtain ⟨hi, hj⟩ := hbefore
  cases hsame : s.same with
  | true =>
    -- the lines stand on both sides, and on one of these there are further ones
    obtain ⟨hlength, hagree⟩ := hs.agree hsame
    have hbetween := hagree.between_eq
    rw [Nat.add_sub_cancel' hs.left, hlength] at hbetween
    obtain hl | ⟨hchanged, -⟩ := mem_stretchLines hl
    · obtain hpos | hpos := ht.pos
      · exact ended_of_mem_between hold (by omega) _ hl
      · rw [hbetween] at hl
        exact ended_of_mem_between hnew (by omega) _ hl
    · cases hchanged.symm.trans hsame
  | false =>
    have htsame : t.same = true := hsparse.resolve_left (Bool.eq_false_iff.mp hsame)
    obtain ⟨hposLeft, hposRight⟩ := ht.same_pos htsame
    obtain hl | ⟨-, hl⟩ := mem_stretchLines hl
    · exact ended_of_mem_between hold (by omega) _ hl
    · exact ended_of_mem_between hnew (by omega) _ hl

/-- All lines of stretches in their order end with breaks, except in the last stretch. -/
theorem pairwise_ended (hold : Separate old) (hnew : Separate new)
    (hwithin : ∀ s ∈ ss, s.Within old new) (hbefore : ss.Pairwise Stretch.Before)
    (hsparse : Sparse ss) :
  ss.Pairwise fun s _ => ∀ l ∈ stretchLines old new s, Ended l.2
  := by
  induction ss with
  | nil => exact .nil
  | cons s ss ih =>
    obtain ⟨hs, hwithin⟩ := List.forall_mem_cons.mp hwithin
    obtain ⟨hnext, hbefore⟩ := List.pairwise_cons.mp hbefore
    cases ss with
    | nil => exact List.pairwise_singleton _ _
    | cons t ss =>
      obtain ⟨hst, hsparse⟩ := List.isChain_cons_cons.mp hsparse
      refine .cons (fun _ _ => ?_) (ih hwithin hbefore hsparse)
      exact ended_of_next hold hnew hs (hwithin t List.mem_cons_self)
        (hnext t List.mem_cons_self) hst

/-- The lines of a stretch but the last one end with breaks, unless a line without one is
replaced. -/
theorem pairwise_stretchLines (hold : Separate old) (hnew : Separate new)
    (hreplaced : s.same = false → s.j₁ < s.j₂ → ∀ l ∈ between s.i₁ s.i₂ old, Ended l) :
  (stretchLines old new s).Pairwise fun l _ => Ended l.2
  := by
  rw [stretchLines]
  split
  · exact List.pairwise_map.mpr (separate_between hold)
  · rename_i hsame
    refine List.pairwise_append.mpr ⟨List.pairwise_map.mpr (separate_between hold),
      List.pairwise_map.mpr (separate_between hnew), ?_⟩
    intro l hl k hk
    obtain ⟨text, htext, rfl⟩ := List.mem_map.mp hl
    obtain ⟨text', htext', rfl⟩ := List.mem_map.mp hk
    refine hreplaced (Bool.eq_false_iff.mpr hsame) ?_ text htext
    have hlength := List.length_pos_of_mem htext'
    rw [between, List.length_drop, List.length_take] at hlength
    omega

theorem isLine_of_hunk? {g : List Stretch} {h : Hunk} (hold : ∀ k ∈ old, IsLine k)
    (hnew : ∀ k ∈ new, IsLine k) (hg : hunk? old new g = some h) :
  ∀ l ∈ h.lines, IsLine l.2
  := by
  intro l hl
  rw [(hunk?_eq_some hg).2] at hl
  obtain ⟨s, -, hl⟩ := List.mem_flatMap.mp hl
  exact isLine_of_mem_stretchLines hold hnew hl

/-- The hunks of groups can be cut if the lines of their stretches end with breaks. -/
theorem cuttable_hunks (hold : ∀ k ∈ old, IsLine k) (hnew : ∀ k ∈ new, IsLine k)
    (hended : gs.flatten.Pairwise fun s _ => ∀ l ∈ stretchLines old new s, Ended l.2)
    (hwithin : ∀ s ∈ gs.flatten, (stretchLines old new s).Pairwise fun l _ => Ended l.2) :
  Cuttable (gs.filterMap (hunk? old new))
  := by
  obtain ⟨hgroups, hacross⟩ := List.pairwise_flatten.mp hended
  refine ⟨?_, ?_, ?_⟩
  · intro h hh
    obtain ⟨g, -, hg⟩ := List.mem_filterMap.mp hh
    exact isLine_of_hunk? hold hnew hg
  · intro h hh
    obtain ⟨g, hmem, hg⟩ := List.mem_filterMap.mp hh
    rw [(hunk?_eq_some hg).2]
    refine List.pairwise_flatMap.mpr ⟨?_, ?_⟩
    · intro s hs
      exact hwithin s (List.mem_flatten_of_mem hmem hs)
    · exact (hgroups g hmem).imp fun hs l hl _ _ => hs l hl
  · refine List.pairwise_filterMap.mpr (hacross.imp ?_)
    intro g g' hgg' h hg h' hg' l hl
    rw [(hunk?_eq_some hg).2] at hl
    obtain ⟨s, hs, hl⟩ := List.mem_flatMap.mp hl
    obtain ⟨t, ht⟩ := List.exists_mem_of_ne_nil _ (hunk?_eq_some hg').1
    exact hgg' s hs t ht l hl

end Breaks

/-! ### Joined lines -/

/-- The last line of a text has no break, and lines take its place. -/
def Joins (old new : List Char) : Prop :=
  ¬ Ended old
    ∧ ∃ s ∈ stretches (keptLines old) (keptLines new), s.same = false
      ∧ s.i₂ = (keptLines old).length ∧ s.i₁ < s.i₂ ∧ s.j₁ < s.j₂

section Joined

variable {old new : List Char}

/-- Without joined lines, the hunks of two texts can be cut. -/
theorem cuttable_of_not_joins (h : ¬ Joins old new) :
  Cuttable (hunks (keptLines old) (keptLines new))
  := by
  obtain ⟨hspans, hsparse⟩ := spans_stretches (keptLines old) (keptLines new)
  have hsteps := steps_groups (n := contextLines) (by decide) hspans
  have hordered := hsteps.ordered
  apply cuttable_hunks (isLine_of_mem_keptLines old) (isLine_of_mem_keptLines new)
  · exact pairwise_ended (separate_keptLines old) (separate_keptLines new) hordered.within
      hordered.before hsparse.flatten_groups
  · intro s hs
    apply pairwise_stretchLines (separate_keptLines old) (separate_keptLines new)
    intro hsame hj l hl
    have hle := (hordered.within s hs).inLeft
    obtain hlt | heq := Nat.lt_or_eq_of_le hle
    · exact ended_of_mem_between (separate_keptLines old) hlt l hl
    · have hi : s.i₁ < s.i₂ := by
        have hlength := List.length_pos_of_mem hl
        rw [length_between hle] at hlength
        omega
      have hended : Ended old := by
        by_contra hended
        exact h ⟨hended, s, mem_of_mem_groups hsame hs, hsame, heq, hi, hj⟩
      exact hended.forall_mem_keptLines l (List.mem_of_mem_take (List.mem_of_mem_drop hl))

/-- Of a hunk with two lines joined, not all lines can be read. -/
theorem readLines?_joined {h : Hunk} (hcounted : h.Counted) {ks ms : List (Mark × List Char)}
    {x y : List Char} (hlines : h.lines = ks ++ (.removed, x) :: (.added, y) :: ms) :
  readLines? 0 0 (Hunk.textLines { h with lines := ks ++ (.removed, x ++ '+' :: y) :: ms }) = none
  := by
  have holds := hcounted.olds
  have hnews := hcounted.news
  have hold : oldLines h.lines = oldLines ks ++ x :: oldLines ms := by
    rw [hlines, oldLines_append]
    rfl
  have hnew : newLines h.lines = newLines ks ++ y :: newLines ms := by
    rw [hlines, newLines_append]
    rfl
  have hread := readLines?_append (ks ++ (.removed, x ++ '+' :: y) :: ms) 0 1 []
  have hold' : oldLines (ks ++ (.removed, x ++ '+' :: y) :: ms)
      = oldLines ks ++ (x ++ '+' :: y) :: oldLines ms := by
    rw [oldLines_append]
    rfl
  have hnew' : newLines (ks ++ (.removed, x ++ '+' :: y) :: ms) = newLines ks ++ newLines ms := by
    rw [newLines_append]
    rfl
  rw [Hunk.textLines, readLines?, readHeader?_header, Option.bind_some]
  simp only [← holds, ← hnews, hold, hnew, hold', hnew', List.length_append, List.length_cons,
    List.append_nil, Nat.add_zero, ← Nat.add_assoc] at hread ⊢
  rw [hread]
  rfl

/-- A replaced line without a break stands in the last stretch. -/
theorem stretches_of_joins (h : Joins old new) :
  ∃ ss s, stretches (keptLines old) (keptLines new) = ss ++ [s] ∧ s.same = false
    ∧ s.i₂ = (keptLines old).length ∧ s.i₁ < s.i₂ ∧ s.j₁ < s.j₂
  := by
  obtain ⟨-, s, hs, hsame, hi, hpos⟩ := h
  obtain ⟨hspans, hsparse⟩ := spans_stretches (keptLines old) (keptLines new)
  obtain ⟨hwithin, -, hbefore⟩ := hspans.ordered
  obtain ⟨ss, ts, hss⟩ := List.append_of_mem hs
  rw [hss] at hwithin hbefore hsparse ⊢
  cases ts with
  | nil => exact ⟨ss, s, rfl, hsame, hi, hpos⟩
  | cons t ts =>
    -- a stretch behind it would be an equal one, and have lines of the old text
    obtain ⟨hst, -⟩ := List.isChain_cons_cons.mp (List.isChain_append.mp hsparse).2.1
    have ht := hwithin t (by simp)
    have hlt := (ht.same_pos (hst.resolve_left (Bool.eq_false_iff.mp hsame))).1
    have hle := ht.inLeft
    have hst := (List.pairwise_cons.mp (List.pairwise_append.mp hbefore).2.1).1 t
      List.mem_cons_self
    have hi' := hst.1
    omega

/-- In the lines of a stretch that replaces a line without a break, this line is followed by the
first new one. -/
theorem stretchLines_of_joins {s : Stretch} (hended : ¬ Ended old) (hsame : s.same = false)
    (hi : s.i₂ = (keptLines old).length) (hposLeft : s.i₁ < s.i₂) (hposRight : s.j₁ < s.j₂)
    (hj : s.j₂ ≤ (keptLines new).length) :
  ∃ ks x y ms, stretchLines (keptLines old) (keptLines new) s
      = ks ++ (.removed, x) :: (.added, y) :: ms
    ∧ (∀ k ∈ ks, Ended k.2) ∧ ¬ Ended x ∧ ((Mark.added, y) :: ms).Pairwise fun l _ => Ended l.2
  := by
  have hremoved : between s.i₁ s.i₂ (keptLines old) ≠ [] := by
    rw [← List.length_pos_iff, length_between (Nat.le_of_eq hi)]
    omega
  have hadded : between s.j₁ s.j₂ (keptLines new) ≠ [] := by
    rw [← List.length_pos_iff, length_between hj]
    omega
  have hlast := List.getLast?_eq_some_getLast hremoved
  obtain ⟨xs, hxs⟩ := List.getLast?_eq_some_iff.mp hlast
  obtain ⟨y, ys, hys⟩ := List.exists_cons_of_ne_nil hadded
  have hlines := @separate_between s.i₁ s.i₂ _ (separate_keptLines old)
  have hlines' := @separate_between s.j₁ s.j₂ _ (separate_keptLines new)
  set x := (between s.i₁ s.i₂ (keptLines old)).getLast hremoved
  rw [Separate, hxs, List.pairwise_append] at hlines
  refine ⟨xs.map (Mark.removed, ·), x, y, ys.map (Mark.added, ·), ?_, ?_, ?_, ?_⟩
  · rw [stretchLines, hsame, if_neg Bool.false_ne_true, hxs, hys, List.map_append,
      List.append_assoc]
    rfl
  · intro k hk
    obtain ⟨text, htext, rfl⟩ := List.mem_map.mp hk
    exact hlines.2.2 text htext x List.mem_cons_self
  · rw [between, hi, List.take_length, List.getLast?_drop, if_neg (by omega)] at hlast
    rwa [← ended_iff_of_getLast? hlast]
  · rw [hys] at hlines'
    change ((y :: ys).map (Mark.added, ·)).Pairwise _
    exact List.pairwise_map.mpr hlines'

/-- Two lines of a hunk, joined, are lines with the same text. -/
theorem flatten_joined {h : Hunk} {ks ms : List (Mark × List Char)} {x y : List Char}
    (hlines : h.lines = ks ++ (.removed, x) :: (.added, y) :: ms) :
  (Hunk.textLines { h with lines := ks ++ (.removed, x ++ '+' :: y) :: ms }).flatten
    = h.textLines.flatten
  := by
  simp only [Hunk.textLines, hlines, List.map_append, List.map_cons, lineText, Mark.char,
    List.flatten_cons, List.flatten_append, List.cons_append, List.append_assoc]
  rfl

theorem isLine_joined {ks ms : List (Mark × List Char)} {x y : List Char}
    (h : ∀ l ∈ ks ++ (.removed, x) :: (.added, y) :: ms, IsLine l.2) (hx : ¬ Ended x) :
  ∀ l ∈ ks ++ (.removed, x ++ '+' :: y) :: ms, IsLine l.2
  := by
  obtain ⟨hks, h⟩ := List.forall_mem_append.mp h
  obtain ⟨hisLine, h⟩ := List.forall_mem_cons.mp h
  obtain ⟨hy, hms⟩ := List.forall_mem_cons.mp h
  refine List.forall_mem_append.mpr ⟨hks, List.forall_mem_cons.mpr ⟨?_, hms⟩⟩
  exact .append (hisLine.unbroken hx) (.cons rfl hy)

theorem pairwise_joined {ks ms : List (Mark × List Char)} {x y : List Char}
    (hks : ∀ l ∈ ks, Ended l.2) (h : ((Mark.added, y) :: ms).Pairwise fun l _ => Ended l.2) :
  (ks ++ (Mark.removed, x ++ '+' :: y) :: ms).Pairwise fun l _ => Ended l.2
  := by
  obtain ⟨hy, hms⟩ := List.pairwise_cons.mp h
  refine List.pairwise_append.mpr ⟨?_, .cons ?_ hms, fun l hl _ _ => hks l hl⟩
  · exact List.pairwise_of_forall_mem_list fun l hl _ _ => hks l hl
  · intro l hl
    change Ended (x ++ '+' :: y)
    rw [List.append_cons]
    exact (hy l hl).append _

/-- With joined lines, the last hunk has a line without a break before another one, and all lines
before it have breaks. -/
theorem hunks_of_joins (h : Joins old new) :
  ∃ hs last ks x y ms, hunks (keptLines old) (keptLines new) = hs ++ [last] ∧ Cuttable hs
    ∧ (∀ k ∈ hs, ∀ l ∈ k.lines, Ended l.2) ∧ (∀ l ∈ last.lines, IsLine l.2)
    ∧ last.lines = ks ++ (.removed, x) :: (.added, y) :: ms ∧ (∀ l ∈ ks, Ended l.2) ∧ ¬ Ended x
    ∧ ((Mark.added, y) :: ms).Pairwise fun l _ => Ended l.2
  := by
  obtain ⟨ss, s, hss, hsame, hi, hposLeft, hposRight⟩ := stretches_of_joins h
  obtain ⟨hspans, hsparse⟩ := spans_stretches (keptLines old) (keptLines new)
  have hsteps := steps_groups (n := contextLines) (by decide) hspans
  have hsparse := hsparse.flatten_groups (n := contextLines)
  obtain ⟨gs, g, hgroups⟩ := groups_append_changed contextLines ss hsame
  rw [hunks]
  rw [hss, hgroups] at hsteps hsparse ⊢
  obtain ⟨hwithin, -, hbefore⟩ := hsteps.ordered
  have hpairwise := pairwise_ended (separate_keptLines old) (separate_keptLines new) hwithin
    hbefore hsparse
  rw [List.flatten_append, List.flatten_singleton, ← List.append_assoc] at hpairwise hwithin
  -- the stretch with the line stands behind all others, so the lines of these have breaks
  obtain ⟨hfront, -, hended⟩ := List.pairwise_append.mp hpairwise
  have hended (t : Stretch) (ht : t ∈ gs.flatten ++ g) := hended t ht s List.mem_cons_self
  obtain ⟨hgs, hg⟩ := List.forall_mem_append.mp hended
  obtain ⟨ks, x, y, ms, hs, hks, hx, hy⟩ := stretchLines_of_joins h.1 hsame hi hposLeft hposRight
    (hwithin s (by simp)).inRight
  obtain ⟨last, hlast⟩ := exists_hunk? (keptLines old) (keptLines new) (g := g ++ [s]) (by simp)
  refine ⟨gs.filterMap (hunk? (keptLines old) (keptLines new)), last,
    g.flatMap (stretchLines (keptLines old) (keptLines new)) ++ ks, x, y, ms, ?_, ?_, ?_, ?_, ?_,
    ?_, hx, hy⟩
  · rw [List.filterMap_append, List.filterMap_cons_some hlast, List.filterMap_nil]
  · refine cuttable_hunks (isLine_of_mem_keptLines old) (isLine_of_mem_keptLines new)
      (List.pairwise_append.mp hfront).1 ?_
    exact fun t ht => List.pairwise_of_forall_mem_list fun l hl _ _ => hgs t ht l hl
  · intro k hk l hl
    obtain ⟨g', hmem, hg'⟩ := List.mem_filterMap.mp hk
    rw [(hunk?_eq_some hg').2] at hl
    obtain ⟨t, ht, hl⟩ := List.mem_flatMap.mp hl
    exact hgs t (List.mem_flatten_of_mem hmem ht) l hl
  · exact isLine_of_hunk? (isLine_of_mem_keptLines old) (isLine_of_mem_keptLines new) hlast
  · rw [(hunk?_eq_some hlast).2, List.flatMap_append, List.flatMap_singleton, hs,
      List.append_assoc]
  · exact List.forall_mem_append.mpr ⟨List.forall_mem_flatMap.mpr hg, hks⟩

/-- The hunks of two lists of lines are counted right. -/
theorem counted_hunks (old new : List (List Char)) :
  ∀ h ∈ hunks old new, h.Counted
  := (steps_groups (by decide) (spans_stretches old new).1).counted

/-- With joined lines, the text of the hunks is that of some hunks that can be cut, and of which not
all lines can be read. -/
theorem exists_cuttable_of_joins (h : Joins old new) :
  ∃ hs, (hunks (keptLines old) (keptLines new)).flatMap Hunk.render
      = (hs.flatMap Hunk.textLines).flatten
    ∧ Cuttable hs ∧ readLines? 0 0 (hs.flatMap Hunk.textLines) = none
  := by
  have hcounted := counted_hunks (keptLines old) (keptLines new)
  obtain ⟨hs, last, ks, x, y, ms, hhunks, hcuttable, hended, hisLine, hlines, hks, hx, hy⟩ :=
    hunks_of_joins h
  rw [hhunks] at hcounted ⊢
  obtain ⟨hcounted, hlast⟩ := List.forall_mem_append.mp hcounted
  have hlast := List.forall_mem_singleton.mp hlast
  refine ⟨hs ++ [{ last with lines := ks ++ (.removed, x ++ '+' :: y) :: ms }], ?_, ?_, ?_⟩
  · rw [flatMap_render, List.flatMap_append, List.flatMap_append, List.flatMap_singleton,
      List.flatMap_singleton, List.flatten_append, List.flatten_append, flatten_joined hlines]
  · rw [hlines] at hisLine
    exact hcuttable.concat hended (isLine_joined hisLine hx) (pairwise_joined hks hy)
  · rw [List.flatMap_append, List.flatMap_singleton, readLines?_flatMap hcounted,
      readLines?_joined hlast hlines]
    rfl

end Joined

/-! ### The main result -/

theorem hunks_ne_nil {old new : List Char} (hne : old ≠ new) :
  hunks (keptLines old) (keptLines new) ≠ []
  := by
  intro hnil
  have happly := applyHunks?_eq_some (keptLines old) (keptLines new)
  rw [hnil, applyHunks?, List.drop_zero, Option.some.injEq] at happly
  apply hne
  rw [← flatten_keptLines old, happly, flatten_keptLines]

/-- The difference of two texts under a name without line breaks can be read, unless a last line
without a break is replaced. What is read, applied to the first text, gives the second one. So it
does whenever the first text is empty or ends with a break. -/
theorem render_faithful {path : Path} (hpath : Unbroken path.render) {old new : List Char}
    (hne : old ≠ new) :
  (read? (keptLines (render path old new)) = none ↔ Joins old new)
    ∧ (¬ Joins old new → patch? old (keptLines (render path old new)) = some new)
    ∧ (old = [] ∨ Ended old → ¬ Joins old new)
  := by
  have hjoins (h : Joins old new) : read? (keptLines (render path old new)) = none := by
    obtain ⟨hs, htext, hcuttable, hread⟩ := exists_cuttable_of_joins h
    rw [render_eq path (hunks_ne_nil hne), htext, hcuttable.keptLines_eq hpath, read?_nameLines,
      hread]
    rfl
  have hfaithful (h : ¬ Joins old new) : read? (keptLines (render path old new))
      = some (hunks (keptLines old) (keptLines new)) := by
    have hread := readLines?_flatMap (counted_hunks (keptLines old) (keptLines new)) []
    rw [List.append_nil] at hread
    rw [render_eq path (hunks_ne_nil hne), flatMap_render,
      (cuttable_of_not_joins h).keptLines_eq hpath, read?_nameLines, hread]
    exact congrArg some (List.append_nil _)
  refine ⟨⟨?_, hjoins⟩, ?_, ?_⟩
  · intro hnone
    by_contra h
    rw [hfaithful h] at hnone
    cases hnone
  · intro h
    rw [patch?, hfaithful h, Option.bind_some, applyHunks?_eq_some, Option.map_some,
      flatten_keptLines]
  · rintro (rfl | hended) ⟨hnot, s, -, -, hi, hpos, -⟩
    · rw [hi] at hpos
      cases hpos
    · exact hnot hended

/-- A script in the current directory. -/
def script : Path := ⟨[], ["a.js".toList]⟩

/-- The last line may lose its break. -/
theorem render_faithful_ended :
  Unbroken script.render ∧ ¬ Joins "a\nb\n".toList "a\nc".toList
    ∧ patch? "a\nb\n".toList (keptLines (render script "a\nb\n".toList "a\nc".toList))
      = some "a\nc".toList
  := by
  have hpath : Unbroken script.render := unbroken_of_all (by decide)
  have hended : Ended "a\nb\n".toList := ⟨'\n', rfl, rfl⟩
  obtain ⟨-, hfaithful, hjoins⟩ :=
    @render_faithful script hpath "a\nb\n".toList "a\nc".toList (by decide)
  exact ⟨hpath, hjoins (.inr hended), hfaithful (hjoins (.inr hended))⟩

/-- A replaced last line without a break is joined to the line that replaces it. -/
theorem render_joined :
  Joins "a".toList "b".toList
    ∧ render script "a".toList "b".toList
      = "--- a/a.js\n+++ b/a.js\n@@ -1 +1 @@\n-a+b".toList
    ∧ read? (keptLines (render script "a".toList "b".toList)) = none
  := by
  refine ⟨⟨?_, ⟨false, 0, 1, 0, 1⟩, by decide +kernel⟩, by decide +kernel, by decide +kernel⟩
  rintro ⟨c, hc, hbreak⟩
  cases hc
  cases hbreak

end Codemod.Diff
