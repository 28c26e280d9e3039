import Codemod.Proofs.LineBreaks

/-!
# Texts as lines

A text is cut behind each of its line breaks. The lines put together are the text, and some lines
put together are cut into these again, provided that all but the last one end with a break and that
none starts with a line feed, which the line before could take for the rest of its own break.
-/

namespace Codemod.Text

/-- A text that is not cut. -/
def IsLine (l : List Char) : Prop := keptLines l = [l]

/-- A text ends with a line break. -/
def Ended (l : List Char) : Prop := ∃ c, l.getLast? = some c ∧ isLineBreak c = true

/-- A text has no line break. -/
def Unbroken (l : List Char) : Prop := ∀ c ∈ l, isLineBreak c = false

variable {c : Char} {l cs ds : List Char} {ls : List (List Char)}

/-! ### One character more -/

theorem keptLines_cons_break (hc : isLineBreak c = true) (hcs : c = '\r' → cs.head? ≠ some '\n') :
  keptLines (c :: cs) = [c] :: keptLines cs
  := by
  rw [keptLines, if_pos hc]
  rintro ds rfl rfl
  exact hcs rfl rfl

theorem keptLines_cons_nil (hc : isLineBreak c = false) :
  keptLines [c] = [[c]]
  := by
  rw [keptLines, hc]
  · rfl
  · simp

theorem keptLines_cons_line (hc : isLineBreak c = false) (hcs : keptLines cs = l :: ls) :
  keptLines (c :: cs) = (c :: l) :: ls
  := by
  rw [keptLines, hc, hcs]
  · rfl
  · rintro ds rfl rfl
    cases hc

theorem keptLines_eq_nil :
  keptLines cs = [] ↔ cs = []
  := by
  constructor
  · fun_cases keptLines cs <;> simp_all
  · rintro rfl
    rfl

/-- The lines of a text, put together, are the text. -/
theorem flatten_keptLines (cs : List Char) :
  (keptLines cs).flatten = cs
  := by
  fun_induction keptLines cs <;> simp_all

/-! ### Lines -/

theorem IsLine.ne_nil (h : IsLine l) :
  l ≠ []
  := by
  rintro rfl
  cases h

theorem IsLine.cons (hc : isLineBreak c = false) (h : IsLine l) :
  IsLine (c :: l)
  := keptLines_cons_line hc h

/-- A text without breaks in front of a line makes a line with it. -/
theorem IsLine.append (hcs : Unbroken cs) (h : IsLine l) :
  IsLine (cs ++ l)
  := by
  induction cs with
  | nil => exact h
  | cons c cs ih =>
    obtain ⟨hc, hcs⟩ := List.forall_mem_cons.mp hcs
    exact .cons hc (ih hcs)

theorem Ended.append (cs : List Char) (h : Ended l) :
  Ended (cs ++ l)
  := by
  obtain ⟨c, hlast, hc⟩ := h
  refine ⟨c, ?_, hc⟩
  rw [List.getLast?_append, hlast]
  rfl

theorem Ended.of_cons (h : Ended (c :: cs)) (hc : isLineBreak c = false) :
  Ended cs
  := by
  obtain ⟨d, hlast, hd⟩ := h
  cases cs with
  | nil =>
    rw [List.getLast?_singleton, Option.some.injEq] at hlast
    rw [← hlast, hc] at hd
    cases hd
  | cons e cs =>
    rw [List.getLast?_cons_cons] at hlast
    exact ⟨d, hlast, hd⟩

/-- A line is a break, or a character that is none with the rest of the line. -/
theorem IsLine.cases (h : IsLine (c :: cs)) :
  isLineBreak c = true ∧ cs = [] ∨ c = '\r' ∧ cs = ['\n']
    ∨ isLineBreak c = false ∧ (cs = [] ∨ IsLine cs)
  := by
  by_cases hpair : c = '\r' ∧ ∃ ds, cs = '\n' :: ds
  · obtain ⟨rfl, ds, rfl⟩ := hpair
    rw [IsLine, keptLines, List.cons.injEq, keptLines_eq_nil] at h
    rw [h.2]
    exact .inr (.inl ⟨rfl, rfl⟩)
  · cases hc : isLineBreak c with
    | true =>
      have hhead : c = '\r' → cs.head? ≠ some '\n' := by
        rintro rfl hcs
        obtain ⟨ds, rfl⟩ := List.head?_eq_some_iff.mp hcs
        exact hpair ⟨rfl, ds, rfl⟩
      rw [IsLine, keptLines_cons_break hc hhead, List.cons.injEq, keptLines_eq_nil] at h
      exact .inl ⟨rfl, h.2⟩
    | false =>
      refine .inr (.inr ⟨rfl, ?_⟩)
      cases hcs : keptLines cs with
      | nil => exact .inl (keptLines_eq_nil.mp hcs)
      | cons l ls =>
        rw [IsLine, keptLines_cons_line hc hcs, List.cons.injEq, List.cons.injEq] at h
        obtain ⟨⟨-, rfl⟩, rfl⟩ := h
        exact .inr hcs

/-- A line that does not end with a break has none. -/
theorem IsLine.unbroken (h : IsLine l) (hl : ¬ Ended l) :
  Unbroken l
  := by
  induction l with
  | nil => exact List.forall_mem_nil _
  | cons c cs ih =>
    obtain ⟨hc, rfl⟩ | ⟨rfl, rfl⟩ | ⟨hc, hcs⟩ := h.cases
    · cases hl ⟨c, rfl, hc⟩
    · cases hl ⟨'\n', rfl, rfl⟩
    · refine List.forall_mem_cons.mpr ⟨hc, ?_⟩
      obtain rfl | hcs := hcs
      · exact List.forall_mem_nil _
      · exact ih hcs fun hended => hl (.append [c] hended)

/-- A line that ends with a break is cut off from what follows it. -/
theorem keptLines_append (h : IsLine l) (hl : Ended l) (hds : ds.head? ≠ some '\n') :
  keptLines (l ++ ds) = l :: keptLines ds
  := by
  induction l with
  | nil => cases h
  | cons c cs ih =>
    obtain ⟨hc, rfl⟩ | ⟨rfl, rfl⟩ | ⟨hc, hcs⟩ := h.cases
    · exact keptLines_cons_break hc fun _ => hds
    · exact keptLines.eq_2 ds
    · obtain rfl | hcs := hcs
      · obtain ⟨_, hlast, -⟩ := hl.of_cons hc
        cases hlast
      · exact keptLines_cons_line hc (ih hcs (hl.of_cons hc))

/-! ### Texts without breaks -/

theorem isLineBreak_of_isDigit (h : c.isDigit = true) :
  isLineBreak c = false
  := by
  simp only [Char.isDigit, Bool.and_eq_true, decide_eq_true_eq, UInt32.le_iff_toNat_le] at h
  have hlow : 48 ≤ c.toNat := h.1
  have hhigh : c.toNat ≤ 57 := h.2
  simp only [isLineBreak, Bool.or_eq_false_iff, Bool.and_eq_false_iff, decide_eq_false_iff_not,
    UInt32.le_iff_toNat_le, ← UInt32.toNat_inj]
  simp
  omega

theorem unbroken_of_all (h : cs.all (!isLineBreak ·) = true) :
  Unbroken cs
  := by
  intro c hc
  simpa using List.all_eq_true.mp h c hc

theorem unbroken_append (hcs : Unbroken cs) (hds : Unbroken ds) :
  Unbroken (cs ++ ds)
  := List.forall_mem_append.mpr ⟨hcs, hds⟩

theorem isLine_append_break (hcs : Unbroken cs) :
  IsLine (cs ++ ['\n']) ∧ Ended (cs ++ ['\n'])
  := ⟨.append hcs rfl, .append cs ⟨'\n', rfl, rfl⟩⟩

/-! ### Cutting and putting together -/

/-- All of some lines but the last one end with a break. -/
def Separate (ls : List (List Char)) : Prop := ls.Pairwise fun l _ => Ended l

/-- Lines are cut apart again if all but the last one end with a break. -/
theorem keptLines_flatten (hlines : ∀ l ∈ ls, IsLine l ∧ l.head? ≠ some '\n')
    (hseparate : Separate ls) :
  keptLines ls.flatten = ls
  := by
  induction ls with
  | nil => rfl
  | cons l ls ih =>
    obtain ⟨⟨hl, -⟩, hlines⟩ := List.forall_mem_cons.mp hlines
    obtain ⟨hended, hseparate⟩ := List.pairwise_cons.mp hseparate
    cases ls with
    | nil =>
      rw [List.flatten_cons, List.flatten_nil, List.append_nil]
      exact hl
    | cons l' ls =>
      obtain ⟨⟨hl', hhead⟩, -⟩ := List.forall_mem_cons.mp hlines
      rw [List.flatten_cons, keptLines_append hl (hended l' List.mem_cons_self),
        ih hlines hseparate]
      rw [List.flatten_cons, List.head?_append]
      cases l' with
      | nil => cases hl'
      | cons c cs => exact hhead

/-- What a text is cut into are lines. -/
theorem isLine_of_mem_keptLines (cs : List Char) :
  ∀ l ∈ keptLines cs, IsLine l
  := by
  fun_induction keptLines cs with
  | case1 => exact List.forall_mem_nil _
  | case2 cs ih => exact List.forall_mem_cons.mpr ⟨rfl, ih⟩
  | case3 c cs hpair hc ih =>
    exact List.forall_mem_cons.mpr ⟨keptLines_cons_break hc (by simp), ih⟩
  | case4 c cs hpair hc hcs ih =>
    exact List.forall_mem_singleton.mpr (keptLines_cons_nil (Bool.eq_false_iff.mpr hc))
  | case5 c cs hpair hc line lines hcs ih =>
    rw [hcs, List.forall_mem_cons] at ih
    exact List.forall_mem_cons.mpr ⟨.cons (Bool.eq_false_iff.mpr hc) ih.1, ih.2⟩

/-- The lines that a text is cut into end with a break, except perhaps the last one. -/
theorem separate_keptLines (cs : List Char) :
  Separate (keptLines cs)
  := by
  fun_induction keptLines cs with
  | case1 => exact .nil
  | case2 cs ih => exact .cons (fun _ _ => ⟨'\n', rfl, rfl⟩) ih
  | case3 c cs hpair hc ih => exact .cons (fun _ _ => ⟨c, rfl, hc⟩) ih
  | case4 c cs hpair hc hcs ih => exact List.pairwise_singleton _ _
  | case5 c cs hpair hc line lines hcs ih =>
    rw [hcs] at ih
    obtain ⟨hline, hlines⟩ := List.pairwise_cons.mp ih
    exact .cons (fun l hl => (hline l hl).append [c]) hlines

/-- A text ends with a break if its last line does. -/
theorem ended_iff_of_getLast? (h : (keptLines cs).getLast? = some l) :
  Ended cs ↔ Ended l
  := by
  obtain ⟨ls, hls⟩ := List.getLast?_eq_some_iff.mp h
  have hl : IsLine l := isLine_of_mem_keptLines cs l (List.mem_of_getLast? h)
  have hcs := flatten_keptLines cs
  rw [hls, List.flatten_append, List.flatten_singleton] at hcs
  subst hcs
  rw [Ended, Ended, List.getLast?_append, List.getLast?_eq_some_getLast hl.ne_nil, Option.some_or]

/-- All lines of a text that ends with a break end with breaks. -/
theorem Ended.forall_mem_keptLines (h : Ended cs) :
  ∀ l ∈ keptLines cs, Ended l
  := by
  intro l hl
  have hlast := List.getLast?_eq_some_getLast (List.ne_nil_of_mem hl)
  obtain ⟨ls, hls⟩ := List.getLast?_eq_some_iff.mp hlast
  have hseparate := separate_keptLines cs
  rw [Separate, hls, List.pairwise_append] at hseparate
  rw [hls, List.mem_append, List.mem_singleton] at hl
  obtain hl | hl := hl
  · exact hseparate.2.2 l hl _ List.mem_cons_self
  · rw [hl]
    exact (ended_iff_of_getLast? hlast).mp h

end Codemod.Text
