import Codemod.Proofs.Layout

/-!
# The lines of a text

A text is cut into lines at its line feeds and is put together from its lines again. The lines of a
text with a line feed at some place are those of the text before that place, followed by those of
the text behind it.
-/

namespace Codemod.Text

/-! ### Cutting and joining -/

theorem splitOn_eq (separator : Char) (cs : List Char) :
  splitOn separator cs = cs.splitOn separator
  := by
  induction cs with
  | nil => rfl
  | cons c cs ih =>
    rw [splitOn, List.splitOn_cons_eq_if_modifyHead, ih]
    by_cases hc : c = separator
    · rw [if_pos hc, if_pos (by simp [hc])]
    · rw [if_neg hc, if_neg (by simp [hc])]
      cases h : cs.splitOn separator with
      | nil => apply absurd h (List.splitOn_ne_nil _ _)
      | cons part parts => rfl

theorem joinWith_eq (separator : List Char) (ts : List (List Char)) :
  joinWith separator ts = separator.intercalate ts
  := by
  fun_induction joinWith with
  | case1 => rfl
  | case2 t => rw [List.intercalate_singleton]
  | case3 t ts h ih => rw [ih, List.intercalate_cons_of_ne_nil h]

theorem joinWith_splitLines (cs : List Char) :
  joinWith ['\n'] (splitLines cs) = cs
  := by
  rw [joinWith_eq, splitLines, splitOn_eq, List.intercalate_splitOn]

/-- Texts without line feeds are the lines of the text that they are joined to. -/
theorem splitLines_joinWith {lines : List (List Char)} (hne : lines ≠ [])
    (h : ∀ line ∈ lines, '\n' ∉ line) :
  splitLines (joinWith ['\n'] lines) = lines
  := by
  rw [joinWith_eq, splitLines, splitOn_eq, List.splitOn_intercalate '\n' h hne]

theorem splitLines_ne_nil (cs : List Char) :
  splitLines cs ≠ []
  := by
  rw [splitLines, splitOn_eq]
  apply List.splitOn_ne_nil

theorem splitLines_of_not_mem {cs : List Char} (h : '\n' ∉ cs) :
  splitLines cs = [cs]
  := by
  rw [splitLines, splitOn_eq, List.splitOn_eq_singleton h]

theorem splitLines_append_break (s t : List Char) :
  splitLines (s ++ '\n' :: t) = splitLines s ++ splitLines t
  := by
  simp only [splitLines, splitOn_eq, List.splitOn_append_cons_self]

/-- What holds of every line on its own, and of a text when it holds of what follows the first line,
holds of all texts. -/
theorem lineInduct {P : List Char → Prop} (line : ∀ cs, '\n' ∉ cs → P cs)
    (lines : ∀ cs rest, '\n' ∉ cs → P rest → P (cs ++ '\n' :: rest)) (cs : List Char) :
  P cs
  := by
  obtain ⟨hback, heq | ⟨rest, heq⟩⟩ := lineBack_cases cs
  · rw [heq]
    apply line _ hback
  · have : rest.length < cs.length := by
      rw [heq, List.length_append, List.length_cons]
      omega
    rw [heq]
    apply lines _ rest hback (lineInduct line lines rest)
termination_by cs.length

theorem not_mem_of_mem_splitLines {cs line : List Char} (h : line ∈ splitLines cs) :
  '\n' ∉ line
  := by
  induction cs using lineInduct with
  | line cs hcs =>
    rw [splitLines_of_not_mem hcs, List.mem_singleton] at h
    rw [h]
    apply hcs
  | lines cs rest hcs ih =>
    rw [splitLines_append_break, splitLines_of_not_mem hcs] at h
    rcases List.mem_cons.mp h with rfl | h
    · apply hcs
    · apply ih h

/-- There is one line more than there are line feeds. -/
theorem length_splitLines (cs : List Char) :
  (splitLines cs).length = lineNumber cs
  := by
  rw [lineNumber]
  induction cs using lineInduct with
  | line cs hcs =>
    rw [splitLines_of_not_mem hcs, List.count_eq_zero.mpr hcs]
    rfl
  | lines cs rest hcs ih =>
    rw [splitLines_append_break, splitLines_of_not_mem hcs, List.length_append, ih,
      List.count_append, List.count_eq_zero.mpr hcs, List.count_cons_self, List.length_singleton]
    omega

/-! ### The first and the last line -/

theorem head?_splitLines (cs : List Char) :
  (splitLines cs).head? = some (lineBack cs)
  := by
  obtain ⟨hback, heq | ⟨rest, heq⟩⟩ := lineBack_cases cs
  · conv_lhs => rw [heq, splitLines_of_not_mem hback]
    rfl
  · conv_lhs => rw [heq, splitLines_append_break, splitLines_of_not_mem hback]
    rfl

theorem getLast?_splitLines (cs : List Char) :
  (splitLines cs).getLast? = some (lineFront cs)
  := by
  obtain ⟨hfront, heq | ⟨rest, heq⟩⟩ := lineFront_cases cs
  · conv_lhs => rw [heq, splitLines_of_not_mem hfront]
    rfl
  · conv_lhs => rw [heq, splitLines_append_break, splitLines_of_not_mem hfront]
    apply List.getLast?_concat

theorem lineFront_append_break (s : List Char) {t : List Char} (h : '\n' ∉ t) :
  lineFront (s ++ '\n' :: t) = t
  := by
  have hlast := getLast?_splitLines (s ++ '\n' :: t)
  rw [splitLines_append_break, splitLines_of_not_mem h, List.getLast?_concat] at hlast
  apply (Option.some.inj hlast).symm

/-! ### The lines around a part of a text -/

theorem lineNumber_append_of_not_mem (s : List Char) {t : List Char} (h : '\n' ∉ t) :
  lineNumber (s ++ t) = lineNumber s
  := by
  rw [lineNumber, lineNumber, List.count_append, List.count_eq_zero.mpr h, Nat.add_zero]

/-- The lines of a text before the one on which a beginning of it ends. -/
theorem take_splitLines (s t : List Char) :
  (splitLines (s ++ t)).take (lineNumber s - 1) = (splitLines s).dropLast
  := by
  obtain ⟨hfront, heq | ⟨rest, heq⟩⟩ := lineFront_cases s
  · rw [← heq] at hfront
    rw [lineNumber, List.count_eq_zero.mpr hfront, splitLines_of_not_mem hfront]
    rfl
  · have hlength : lineNumber s - 1 = (splitLines rest).length := by
      rw [heq, lineNumber, List.count_append, List.count_cons_self, List.count_eq_zero.mpr hfront,
        length_splitLines, lineNumber]
      omega
    have hlines : splitLines s = splitLines rest ++ [lineFront s] := by
      conv_lhs => rw [heq, splitLines_append_break, splitLines_of_not_mem hfront]
    rw [hlength, hlines, List.dropLast_concat]
    conv_lhs => rw [heq, List.append_assoc, List.cons_append, splitLines_append_break]
    rw [List.take_left]

/-- The lines of a text behind the one on which a beginning of it ends. -/
theorem drop_splitLines (s t : List Char) :
  (splitLines (s ++ t)).drop (lineNumber s) = (splitLines t).tail
  := by
  obtain ⟨hback, heq | ⟨rest, heq⟩⟩ := lineBack_cases t
  · rw [← heq] at hback
    rw [splitLines_of_not_mem hback, ← lineNumber_append_of_not_mem s hback, ← length_splitLines,
      List.drop_length]
    rfl
  · rw [heq, ← List.append_assoc, splitLines_append_break, splitLines_append_break,
      splitLines_of_not_mem hback, ← lineNumber_append_of_not_mem s hback, ← length_splitLines,
      List.drop_left]
    rfl

end Codemod.Text
