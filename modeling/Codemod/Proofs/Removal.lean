import Codemod.Proofs.Lines
import Codemod.Proofs.Rewrite

/-!
# Removing a node from its lines

When only white space stands beside a node on the lines that it occupies, its removal leaves the
other lines of the text. Otherwise the removal takes the node alone.
-/

namespace Codemod

open Text

/-- An edit of a part of a text replaces this part. -/
theorem Edit.commit_part (front mid back text : List Char) :
  commit (front ++ mid ++ back) [⟨byteLength front, byteLength (front ++ mid), text⟩]
    = .ok (some (front ++ text ++ back))
  := by
  have hstart : Boundary (front ++ mid ++ back) (byteLength front) :=
    ⟨front, mid ++ back, List.append_assoc front mid back, rfl⟩
  have hstop : Boundary (front ++ mid ++ back) (byteLength (front ++ mid)) :=
    ⟨front ++ mid, back, rfl, rfl⟩
  have hle := hstop.le
  have hslice : slice (front ++ mid ++ back) 0 (byteLength front) = front := by
    have hfront := slice_append [] front (mid ++ back)
    rwa [List.nil_append, ← List.append_assoc] at hfront
  rw [commit_eq_rewriteFrom (List.cons_ne_nil _ _)]
  · simp only [inOrder, insertInOrder, rewriteFrom, Int.toNat_natCast, hslice, dropBytes_append]
  · constructor
    · simp only [List.mem_singleton, forall_eq, Fits]
      rw [byteLength_append front mid] at hle ⊢
      omega
    · apply List.pairwise_singleton
  · intro e he
    rw [List.mem_singleton.mp he]
    exact ⟨hstart, hstop⟩

namespace Node

/-- The lines of a text that a node does not occupy: those before the line on which it starts, and
those behind the line on which it ends. A node whose last character is a line feed ends on the line
behind it. -/
def otherLines (n : Node) (source : List Char) : List (List Char) :=
  (splitLines source).take (n.line source - 1)
    ++ (splitLines source).drop (lineNumber (takeBytes source n.stop))

/-- Only white space precedes a node on the line on which it starts, and only white space follows it
on the line on which it ends. -/
structure Alone (n : Node) (source : List Char) : Prop where
  front : ∀ line ∈ (splitLines (n.textBefore source)).getLast?, line.all isAsciiSpace = true
  back : ∀ line ∈ (splitLines (n.textBehind source)).head?, line.all isAsciiSpace = true

theorem alone_iff {n : Node} {source : List Char} :
  n.Alone source ↔ n.startsLine source = true
    ∧ (lineBack (n.textBehind source)).all isAsciiSpace = true
  := by
  constructor
  · intro h
    use h.front _ (getLast?_splitLines _), h.back _ (head?_splitLines _)
  · rintro ⟨hfront, hback⟩
    constructor
    · intro line hline
      rw [getLast?_splitLines, Option.mem_some_iff] at hline
      rw [← hline]
      apply hfront
    · intro line hline
      rw [head?_splitLines, Option.mem_some_iff] at hline
      rw [← hline]
      apply hback

/-! ### The lines above a node -/

/-- A text is the lines before its last one, each with its line feed, and its last line. -/
theorem exists_above (before : List Char) :
  ∃ above, before = above ++ lineFront before
    ∧ ∀ rest, joinWith ['\n'] ((splitLines before).dropLast ++ splitLines rest) = above ++ rest
  := by
  obtain ⟨hfront, heq | ⟨above, heq⟩⟩ := lineFront_cases before
  · use [], heq
    intro rest
    rw [heq, splitLines_of_not_mem hfront]
    apply joinWith_splitLines
  · use above ++ ['\n']
    constructor
    · rw [List.append_assoc]
      apply heq
    · intro rest
      rw [heq, splitLines_append_break, splitLines_of_not_mem hfront, List.dropLast_concat,
        ← splitLines_append_break, joinWith_splitLines, List.append_assoc]
      rfl

/-- A text is the lines before its last one, the line feed behind them if there are any, and its
last line. -/
theorem exists_above_break (before : List Char) :
  ∃ above gap, before = above ++ (gap ++ lineFront before) ∧ gap.all isAsciiSpace = true
    ∧ byteLength above = byteLength before - byteLength (lineFront before) - 1
    ∧ joinWith ['\n'] (splitLines before).dropLast = above
  := by
  obtain ⟨hfront, heq | ⟨above, heq⟩⟩ := lineFront_cases before
  · use [], [], heq, rfl
    rw [← heq, Nat.sub_self]
    rw [← heq] at hfront
    rw [splitLines_of_not_mem hfront]
    exact ⟨rfl, rfl⟩
  · use above, ['\n'], heq, rfl
    constructor
    · have hlength := congrArg byteLength heq
      have hbreak : ('\n').utf8Size = 1 := rfl
      rw [byteLength_append, byteLength_cons, hbreak] at hlength
      omega
    · rw [heq, splitLines_append_break, splitLines_of_not_mem hfront, List.dropLast_concat,
        joinWith_splitLines]

/-! ### Cuts -/

/-- A node stands between two parts of a text. -/
structure Between (n : Node) (source before mid behind : List Char) : Prop where
  text : source = before ++ mid ++ behind
  start : byteLength before = n.start
  stop : byteLength (before ++ mid) = n.stop

/-- The removal of a node takes the part between `above` and `below` out of a text. This part is the
node with white space around it. -/
structure Cuts (n : Node) (source above front mid back below : List Char) : Prop where
  between : n.Between source (above ++ front) mid (back ++ below)
  edit : n.removal source = ⟨byteLength above, byteLength (above ++ (front ++ mid ++ back)), []⟩
  front_blank : front.all isAsciiSpace = true
  back_blank : back.all isAsciiSpace = true

section Parts

variable {source before mid behind : List Char} {n : Node}

theorem Between.textBefore_eq (h : n.Between source before mid behind) :
  n.textBefore source = before
  := by
  rw [textBefore, h.text, ← h.start, List.append_assoc, takeBytes_append]

theorem Between.textBehind_eq (h : n.Between source before mid behind) :
  n.textBehind source = behind
  := by
  rw [textBehind, h.text, ← h.stop, dropBytes_append]

/-- The lines that a node does not occupy are those of the texts before and behind it without the
ones that it is on. -/
theorem Between.otherLines_eq (h : n.Between source before mid behind) :
  n.otherLines source = (splitLines before).dropLast ++ (splitLines behind).tail
  := by
  rw [otherLines, line, h.textBefore_eq, h.text, ← h.stop, takeBytes_append, drop_splitLines,
    List.append_assoc, take_splitLines]

theorem Cuts.commit_eq {above front back below : List Char}
    (h : n.Cuts source above front mid back below) :
  Edit.commit source [n.removal source] = .ok (some (above ++ below))
  := by
  have htext : source = above ++ (front ++ mid ++ back) ++ below := by
    rw [h.between.text]
    simp only [List.append_assoc]
  rw [h.edit]
  conv_lhs => rw [htext]
  rw [Edit.commit_part, List.append_nil]

theorem Between.cuts_of_not_alone (h : n.Between source before mid behind)
    (halone : ¬ n.Alone source) :
  n.Cuts source before [] mid [] behind
  := by
  rw [alone_iff] at halone
  refine ⟨by simpa using h, ?_, rfl, rfl⟩
  rw [removal_of_shared halone, replace, h.start, ← h.stop, List.nil_append, List.append_nil]

/-- Lines with a line feed behind them are taken with it. -/
theorem OnItsLines.exists_cuts (hparts : n.Between source before mid behind)
    (h : n.OnItsLines source (lineFront (n.textBefore source)) (lineBack (n.textBehind source))) :
  ∃ above front back below, n.Cuts source above front mid back below
    ∧ above ++ below = joinWith ['\n'] (n.otherLines source)
  := by
  have hedit := h.removal_eq
  obtain ⟨-, ⟨below, hbelow⟩, hfront, hback, -, hline⟩ := h
  rw [hparts.otherLines_eq]
  rw [hparts.textBefore_eq] at hedit hfront
  rw [hparts.textBehind_eq] at hedit hbelow hback hline
  obtain ⟨above, habove, hjoin⟩ := exists_above before
  use above, lineFront before, lineBack behind ++ ['\n'], below
  constructor
  · refine ⟨?_, ?_, hfront, by simpa using ⟨List.all_eq_true.mp hback, rfl⟩⟩
    · rw [← habove, List.append_assoc]
      rw [hbelow] at hparts
      apply hparts
    · have hbreak : byteLength ['\n'] = 1 := rfl
      have hstart := hparts.start
      have hstop := hparts.stop
      have hlength := congrArg byteLength habove
      simp only [byteLength_append] at hstop hlength
      rw [hedit, Edit.mk.injEq]
      simp only [byteLength_append, hbreak]
      use by omega, by omega
  · rw [hbelow, splitLines_append_break, splitLines_of_not_mem hline]
    apply (hjoin below).symm

/-- Lines at the end of a text are taken with the line feed before them. -/
theorem OnLastLine.exists_cuts (hparts : n.Between source before mid behind)
    (h : n.OnLastLine source) :
  ∃ above front back below, n.Cuts source above front mid back below
    ∧ above ++ below = joinWith ['\n'] (n.otherLines source)
  := by
  have hedit := h.removal_eq
  obtain ⟨hfront, hback, hline⟩ := h
  rw [startsLine] at hfront
  rw [hparts.otherLines_eq]
  rw [hparts.textBefore_eq] at hedit hfront
  rw [hparts.textBehind_eq] at hback hline
  obtain ⟨above, gap, habove, hgap, hlength, hjoin⟩ := exists_above_break before
  use above, gap ++ lineFront before, behind, []
  constructor
  · refine ⟨?_, ?_, by simp [hgap, hfront], hback⟩
    · rw [← habove, List.append_nil]
      apply hparts
    · have hend : above ++ (gap ++ lineFront before ++ mid ++ behind) = source := by
        rw [hparts.text]
        conv_rhs => rw [habove]
        simp only [List.append_assoc]
      rw [hend, hedit, hlength, hparts.start]
  · rw [splitLines_of_not_mem hline, List.append_nil, ← hjoin]
    apply congrArg _ (List.append_nil _).symm

end Parts

/-! ### The removal -/

/-- The removal of a node takes it out of a text together with nothing but white space. When the
node shares its lines with white space only, the other lines of the text are left. Otherwise the
node alone is taken. -/
theorem removal_exact {source : List Char} {n : Node} (hstart : Boundary source n.start)
    (hstop : Boundary source n.stop) (hle : n.start ≤ n.stop) :
  ∃ above front mid back below, n.Cuts source above front mid back below
    ∧ Edit.commit source [n.removal source] = .ok (some (above ++ below))
    ∧ (n.Alone source → above ++ below = joinWith ['\n'] (n.otherLines source))
    ∧ (¬ n.Alone source → front = [] ∧ back = [])
  := by
  obtain ⟨before, mid, behind, htext, hbefore, hmid⟩ := hstart.split hstop hle
  have hparts : n.Between source before mid behind := ⟨htext, hbefore, hmid⟩
  by_cases halone : n.Alone source
  · have hblank := alone_iff.mp halone
    have hcuts : ∃ above front back below, n.Cuts source above front mid back below
        ∧ above ++ below = joinWith ['\n'] (n.otherLines source) := by
      rcases onItsLines_or_onLastLine hblank.1 hblank.2 with hlines | hlast
      · apply hlines.exists_cuts hparts
      · apply hlast.exists_cuts hparts
    obtain ⟨above, front, back, below, hcut, hjoin⟩ := hcuts
    use above, front, mid, back, below, hcut, hcut.commit_eq, fun _ => hjoin, absurd halone
  · have hcut := hparts.cuts_of_not_alone halone
    use before, [], mid, [], behind, hcut, hcut.commit_eq, fun h => absurd h halone
    exact fun _ => ⟨rfl, rfl⟩

/-- A call on two lines, the last ones of a text, goes with its blanks and with the line feed before
them. -/
theorem removal_exact_last :
  let source := "é();\n  b(\n  1); \t".toList
  let n : Node := ⟨.node .expressionStatement none 8 16 [], []⟩
  n.Alone source ∧ Edit.commit source [n.removal source] = .ok (some "é();".toList)
  := by
  intro source n
  have hstart : Boundary source n.start := ⟨"é();\n  ".toList, _, rfl, rfl⟩
  have hstop : Boundary source n.stop := ⟨"é();\n  b(\n  1);".toList, _, rfl, rfl⟩
  have halone : n.Alone source := alone_iff.mpr (by decide)
  obtain ⟨above, front, mid, back, below, -, hcommit, hlines, -⟩ :=
    removal_exact hstart hstop (by decide)
  use halone
  rw [hcommit, hlines halone]
  rfl

end Node

end Codemod
