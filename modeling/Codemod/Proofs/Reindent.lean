import Codemod.Edit.Reindent
import Codemod.Proofs.Lines
import Mathlib.Data.List.DropRight

/-!
# Reindenting line by line

The lines of a reindented text are the lines of what stands between its first and its last line
break. A line of spaces and tabs becomes empty, and every other line goes from the margin that these
lines share to the indentation. So the content of the text stays, and the lines keep their
indentation relative to one another.
-/

namespace Codemod.Reindent

open Text

/-! ### The breaks at the ends -/

/-- A text starts with a line break and goes on with `rest`. -/
def Opens (body rest : List Char) : Prop :=
  body = '\n' :: rest ∨ body = '\r' :: '\n' :: rest

theorem splitFirstBreak_of_opens {body rest : List Char} (h : Opens body rest) :
  splitFirstBreak body = (rest, true)
  := by
  rcases h with rfl | rfl
  · rfl
  · rfl

theorem splitFirstBreak_of_not_opens {body : List Char} (h : ∀ rest, ¬ Opens body rest) :
  splitFirstBreak body = (body, false)
  := by
  rw [splitFirstBreak.eq_def]
  split
  · apply absurd (Or.inr rfl) (h _)
  · apply absurd (Or.inl rfl) (h _)
  · rfl

/-- A text loses its last line break, when only spaces and tabs follow it, together with these. The
line break is a line feed, or a carriage return and a line feed. -/
inductive Trims : List Char → List Char → Prop where
  | lineFeed {inside tail : List Char} (hlast : inside.getLast? ≠ some '\r')
      (htail : tail.all isIndent = true) : Trims (inside ++ '\n' :: tail) inside
  | both {inside tail : List Char} (htail : tail.all isIndent = true) :
      Trims (inside ++ '\r' :: '\n' :: tail) inside
  | stay {cs : List Char}
      (h : ∀ front tail, cs = front ++ '\n' :: tail → tail.all isIndent = false) : Trims cs cs

theorem all_isSpace_of_isIndent {cs : List Char} (h : cs.all isIndent = true) :
  cs.all isSpace = true
  := by
  apply List.all_eq_true.mpr
  intro c hc
  apply isSpace_of_isIndent (List.all_eq_true.mp h c hc)

theorem not_mem_of_all_isIndent {cs : List Char} (h : cs.all isIndent = true) {c : Char}
    (hc : isIndent c = false) :
  c ∉ cs
  := by
  intro hmem
  rw [List.all_eq_true.mp h c hmem] at hc
  cases hc

theorem dropTrailingBlank_of_blank (front : List Char) {tail : List Char}
    (htail : tail.all isIndent = true) :
  dropTrailingBlank (front ++ '\n' :: tail)
    = if front.getLast? = some '\r' then front.dropLast else front
  := by
  have hfront := lineFront_append_break front (not_mem_of_all_isIndent htail rfl)
  have hlength : (front ++ '\n' :: tail).length - tail.length - 1 = front.length := by
    rw [List.length_append, List.length_cons]
    omega
  rw [dropTrailingBlank, hfront, hlength, List.take_left, if_pos (by simp [htail])]

theorem dropTrailingBlank_of_not_blank {cs : List Char}
    (h : ∀ front tail, cs = front ++ '\n' :: tail → tail.all isIndent = false) :
  dropTrailingBlank cs = cs
  := by
  rw [dropTrailingBlank, if_neg]
  rw [Bool.and_eq_true, List.contains_iff_mem]
  rintro ⟨hbreak, hblank⟩
  obtain ⟨hfront, heq | ⟨front, heq⟩⟩ := lineFront_cases cs
  · rw [heq] at hbreak
    apply hfront hbreak
  · rw [h front _ heq] at hblank
    cases hblank

theorem trims_iff {cs inside : List Char} :
  Trims cs inside ↔ inside = dropTrailingBlank cs
  := by
  constructor
  · intro h
    cases h with
    | lineFeed hlast htail => rw [dropTrailingBlank_of_blank _ htail, if_neg hlast]
    | both htail =>
      rw [List.append_cons, dropTrailingBlank_of_blank _ htail, List.getLast?_concat, if_pos rfl,
        List.dropLast_concat]
    | stay h => rw [dropTrailingBlank_of_not_blank h]
  · rintro rfl
    by_cases h : ∀ front tail, cs = front ++ '\n' :: tail → tail.all isIndent = false
    · rw [dropTrailingBlank_of_not_blank h]
      apply Trims.stay h
    · simp only [not_forall, Bool.not_eq_false] at h
      obtain ⟨front, tail, rfl, htail⟩ := h
      rw [dropTrailingBlank_of_blank front htail]
      split
      · rename_i hlast
        obtain ⟨inside, rfl⟩ := List.getLast?_eq_some_iff.mp hlast
        rw [List.dropLast_concat, List.append_assoc]
        apply Trims.both htail
      · rename_i hlast
        apply Trims.lineFeed hlast htail

theorem content_of_indent {cs : List Char} (h : cs.all isIndent = true) :
  content cs = []
  := content_of_all (fun _ => isSpace_of_isIndent) h

theorem Trims.content_eq {cs inside : List Char} (h : Trims cs inside) :
  content inside = content cs
  := by
  cases h with
  | lineFeed _ htail =>
    rw [content_append, content_cons, content_of_indent htail]
    apply (List.append_nil _).symm
  | both htail =>
    rw [content_append, content_cons, content_cons '\n', content_of_indent htail]
    apply (List.append_nil _).symm
  | stay _ => rfl

/-! ### The margin -/

theorem isPrefix_sharedFront_iff {p s t : List Char} :
  p <+: sharedFront s t ↔ p <+: s ∧ p <+: t
  := by
  fun_induction sharedFront generalizing p with
  | case1 a as bs ih =>
    cases p with
    | nil => simp
    | cons c p =>
      rw [List.cons_prefix_cons, List.cons_prefix_cons, List.cons_prefix_cons, ih]
      tauto
  | case2 a as b bs hne =>
    cases p with
    | nil => simp
    | cons c p =>
      simp only [List.prefix_nil, reduceCtorEq, List.cons_prefix_cons, false_iff]
      rintro ⟨⟨rfl, -⟩, rfl, -⟩
      apply hne rfl
  | case3 s t h =>
    cases s with
    | nil => simp +contextual
    | cons a as =>
      cases t with
      | nil => simp +contextual
      | cons b bs => apply absurd rfl (h a as b bs rfl)

theorem isPrefix_foldl_sharedFront_iff {p m : List Char} {ms : List (List Char)} :
  p <+: ms.foldl sharedFront m ↔ p <+: m ∧ ∀ t ∈ ms, p <+: t
  := by
  induction ms generalizing m with
  | nil => simp
  | cons t ms ih =>
    rw [List.foldl_cons, ih, isPrefix_sharedFront_iff, List.forall_mem_cons, and_assoc]

theorem isPrefix_takeWhile_iff {q : Char → Bool} {p cs : List Char} :
  p <+: cs.takeWhile q ↔ p.all q = true ∧ p <+: cs
  := by
  constructor
  · intro h
    use List.all_eq_true.mpr fun c hc => List.mem_takeWhile_imp (h.subset hc)
    apply h.trans (List.takeWhile_prefix q)
  · rintro ⟨hall, rest, rfl⟩
    rw [List.takeWhile_append_of_pos (List.all_eq_true.mp hall)]
    apply List.prefix_append

/-- What starts the margin starts each of the lines that have more than spaces and tabs. -/
theorem isPrefix_margin_iff {lines : List (List Char)} {p : List Char}
    (h : ∃ line ∈ lines, line.all isIndent = false) :
  p <+: margin lines
    ↔ p.all isIndent = true ∧ ∀ line ∈ lines, line.all isIndent = false → p <+: line
  := by
  obtain ⟨line, hline, hmore⟩ := h
  have hmem (l : List Char) : l ∈ (lines.filter fun l => !l.all isIndent)
      ↔ l ∈ lines ∧ l.all isIndent = false := by
    rw [List.mem_filter, Bool.not_eq_true']
  rw [margin]
  split
  · rename_i heq
    rw [List.map_eq_nil_iff] at heq
    have hnil := (hmem line).mpr ⟨hline, hmore⟩
    rw [heq] at hnil
    cases hnil
  · rename_i m ms heq
    rw [isPrefix_foldl_sharedFront_iff, ← List.forall_mem_cons, ← heq]
    simp only [List.forall_mem_map, hmem, isPrefix_takeWhile_iff]
    constructor
    · intro hp
      use (hp line ⟨hline, hmore⟩).1
      intro l hl hl'
      apply (hp l ⟨hl, hl'⟩).2
    · rintro ⟨hall, hp⟩ l ⟨hl, hl'⟩
      exact ⟨hall, hp l hl hl'⟩

/-- A run of spaces and tabs is the longest one that starts every line that has more than spaces and
tabs. -/
structure IsMargin (lines : List (List Char)) (m : List Char) : Prop where
  blank : m.all isIndent = true
  starts : ∀ line ∈ lines, line.all isIndent = false → m <+: line
  longest : (∃ line ∈ lines, line.all isIndent = false) → ∀ p : List Char, p.all isIndent = true →
    (∀ line ∈ lines, line.all isIndent = false → p <+: line) → p.length ≤ m.length

theorem isMargin_margin (lines : List (List Char)) :
  IsMargin lines (margin lines)
  := by
  by_cases h : ∃ line ∈ lines, line.all isIndent = false
  · obtain ⟨hblank, hstarts⟩ := (isPrefix_margin_iff h).mp List.prefix_rfl
    use hblank, hstarts
    intro _ p hp hstarts'
    apply ((isPrefix_margin_iff h).mpr ⟨hp, hstarts'⟩).length_le
  · have hnil : lines.filter (fun l => !l.all isIndent) = [] := by
      apply List.filter_eq_nil_iff.mpr
      intro line hline hmore
      apply h ⟨line, hline, by simpa using hmore⟩
    have hmargin : margin lines = [] := by
      rw [margin, hnil]
      rfl
    rw [hmargin]
    use rfl, fun _ _ _ => List.nil_prefix, fun h' => absurd h' h

/-! ### Trimming -/

/-- Trimming takes characters of the set off both ends of a text, and leaves none of them there. -/
theorem exists_trim (q : Char → Bool) (cs : List Char) :
  ∃ front back, cs = front ++ trim q cs ++ back ∧ front.all q = true ∧ back.all q = true
    ∧ (∀ c ∈ (trim q cs).head?, q c = false) ∧ ∀ c ∈ (trim q cs).getLast?, q c = false
  := by
  have hnot (s : List Char) {c : Char} (hc : c ∈ (s.dropWhile q).head?) : q c = false := by
    have h := List.head?_dropWhile_not q s
    rwa [Option.mem_def.mp hc] at h
  rw [trim, trimEnd, trimStart]
  use cs.takeWhile q, ((cs.dropWhile q).reverse.takeWhile q).reverse
  have hback : cs.dropWhile q = ((cs.dropWhile q).reverse.dropWhile q).reverse
      ++ ((cs.dropWhile q).reverse.takeWhile q).reverse := by
    rw [← List.reverse_append, List.takeWhile_append_dropWhile, List.reverse_reverse]
  refine ⟨?_, List.all_takeWhile, by rw [List.all_reverse, List.all_takeWhile], ?_, ?_⟩
  · rw [List.append_assoc, ← hback, List.takeWhile_append_dropWhile]
  · intro c hc
    apply hnot cs
    rw [hback]
    apply List.mem_head?_append_of_mem_head? hc
  · intro c hc
    rw [List.getLast?_reverse] at hc
    apply hnot _ hc

/-! ### One line -/

/-- How a line moves from the margin `m` to an indentation, as the line of some number. -/
inductive Laid (indent m : List Char) : Nat → List Char → List Char → Prop where
  /-- A line of spaces and tabs becomes empty. -/
  | blank {i : Nat} {line : List Char} (hline : line.all isIndent = true) : Laid indent m i line []
  /-- The first line loses the margin. -/
  | first {rest : List Char} (hmore : (m ++ rest).all isIndent = false) :
      Laid indent m 0 (m ++ rest) rest
  /-- A later line with content has the indentation in place of the margin. -/
  | later {i : Nat} {rest : List Char} (hmore : (m ++ rest).all isSpace = false) :
      Laid indent m (i + 1) (m ++ rest) (indent ++ rest)
  /-- A later line of other white space loses the spaces and tabs around it. -/
  | space {i : Nat} {front rest back : List Char}
      (hspace : (front ++ rest ++ back).all isSpace = true)
      (hmore : (front ++ rest ++ back).all isIndent = false)
      (hfront : front.all isIndent = true) (hback : back.all isIndent = true)
      (hfirst : ∀ c ∈ rest.head?, isIndent c = false)
      (hlast : ∀ c ∈ rest.getLast?, isIndent c = false) :
      Laid indent m (i + 1) (front ++ rest ++ back) rest

/-- A line without the margin of some lines. -/
def dedented (lines : List (List Char)) (line : List Char) : List Char :=
  dropMargin (margin lines) (emptied line)

theorem dedented_of_blank (lines : List (List Char)) {line : List Char}
    (h : line.all isIndent = true) :
  dedented lines line = []
  := by
  rw [dedented, emptied, if_pos h, dropMargin]
  split
  · apply List.drop_nil
  · rfl

/-- A line with more than spaces and tabs is the margin and what is left of it. -/
theorem margin_append_dedented {lines : List (List Char)} {line : List Char} (hline : line ∈ lines)
    (h : line.all isIndent = false) :
  margin lines ++ dedented lines line = line
  := by
  obtain ⟨rest, hrest⟩ := (isMargin_margin lines).starts line hline h
  rw [dedented, emptied, if_neg (by simp [h]), ← hrest, dropMargin,
    if_pos (List.isPrefixOf_iff_prefix.mpr (List.prefix_append _ _)), List.drop_left]

theorem indented_nil (indent : List Char) :
  indented indent [] = []
  := rfl

theorem all_isSpace_dedented {lines : List (List Char)} {line : List Char} (hline : line ∈ lines)
    (h : line.all isIndent = false) :
  (dedented lines line).all isSpace = line.all isSpace
  := by
  have hmargin := all_isSpace_of_isIndent (isMargin_margin lines).blank
  conv_rhs => rw [← margin_append_dedented hline h, List.all_append, hmargin, Bool.true_and]

theorem laid_first (indent : List Char) {lines : List (List Char)} {line : List Char}
    (hline : line ∈ lines) :
  Laid indent (margin lines) 0 line (dedented lines line)
  := by
  cases h : line.all isIndent with
  | true =>
    rw [dedented_of_blank lines h]
    apply Laid.blank h
  | false =>
    have heq := margin_append_dedented hline h
    rw [← heq] at h
    conv => arg 4; rw [← heq]
    apply Laid.first h

theorem laid_later (indent : List Char) (i : Nat) {lines : List (List Char)} {line : List Char}
    (hline : line ∈ lines) :
  Laid indent (margin lines) (i + 1) line (indented indent (dedented lines line))
  := by
  cases h : line.all isIndent with
  | true =>
    rw [dedented_of_blank lines h, indented_nil]
    apply Laid.blank h
  | false =>
    have heq := margin_append_dedented hline h
    have hspace := all_isSpace_dedented hline h
    rw [indented, hspace]
    split
    · rename_i hline'
      obtain ⟨front, back, htrim, hfront, hback, hfirst, hlast⟩ :=
        exists_trim isIndent (dedented lines line)
      have htext : line = margin lines ++ front ++ trim isIndent (dedented lines line) ++ back := by
        conv_lhs => rw [← heq, htrim]
        simp only [List.append_assoc]
      rw [htext] at h hline'
      conv => arg 4; rw [htext]
      apply Laid.space hline' h _ hback hfirst hlast
      rw [List.all_append, (isMargin_margin lines).blank, hfront, Bool.and_self]
    · rename_i hline'
      rw [← heq, Bool.not_eq_true] at hline'
      conv => arg 4; rw [← heq]
      apply Laid.later hline'

/-- The spaces and tabs at the front of a line. -/
def lead (line : List Char) : List Char :=
  line.takeWhile isIndent

/-- A later line with content keeps what it has beyond the margin. -/
theorem Laid.lead_eq {indent m line new : List Char} {i : Nat} (h : Laid indent m i line new)
    (hindent : indent.all isIndent = true) (hm : m.all isIndent = true) (hi : 0 < i)
    (hline : line.all isSpace = false) :
  ∃ beyond, lead line = m ++ beyond ∧ lead new = indent ++ beyond
  := by
  cases h with
  | blank hblank =>
    rw [all_isSpace_of_isIndent hblank] at hline
    cases hline
  | first => cases hi
  | later =>
    rename_i rest _
    use rest.takeWhile isIndent
    use List.takeWhile_append_of_pos (List.all_eq_true.mp hm)
    apply List.takeWhile_append_of_pos (List.all_eq_true.mp hindent)
  | space hspace =>
    rw [hspace] at hline
    cases hline

/-! ### All lines -/

/-- Some lines at an indentation, the first one in place of a wrapper. -/
def relaid (indent : List Char) : List (List Char) → List (List Char)
  | [] => []
  | first :: rest =>
    dedented (first :: rest) first
      :: rest.map fun line => indented indent (dedented (first :: rest) line)

theorem reindent_of_opens {body rest : List Char} (h : Opens body rest) (indent : List Char) :
  reindent body indent
    = joinWith ['\n'] (relaid indent (splitLines (dropTrailingBlank rest)))
  := by
  rw [reindent, splitFirstBreak_of_opens h]
  dsimp only
  cases splitLines (dropTrailingBlank rest) with
  | nil => rfl
  | cons first lines =>
    simp only [dedent, List.map_cons, List.map_map, relaid]
    rfl

theorem length_relaid (indent : List Char) (lines : List (List Char)) :
  (relaid indent lines).length = lines.length
  := by
  cases lines with
  | nil => rfl
  | cons first rest => rw [relaid, List.length_cons, List.length_map, List.length_cons]

theorem laid_relaid {indent line new : List Char} {lines : List (List Char)} {i : Nat}
    (hline : lines[i]? = some line) (hnew : (relaid indent lines)[i]? = some new) :
  Laid indent (margin lines) i line new
  := by
  have hmem := List.mem_of_getElem? hline
  cases lines with
  | nil => cases hline
  | cons first rest =>
    cases i with
    | zero =>
      obtain rfl := Option.some.inj hnew
      obtain rfl := Option.some.inj hline
      apply laid_first indent hmem
    | succ i =>
      rw [relaid, List.getElem?_cons_succ, List.getElem?_map] at hnew
      rw [List.getElem?_cons_succ] at hline
      rw [hline] at hnew
      obtain rfl := Option.some.inj hnew
      apply laid_later indent i hmem

theorem Laid.not_mem {indent m line new : List Char} {i : Nat} (h : Laid indent m i line new)
    {c : Char} (hindent : c ∉ indent) (hline : c ∉ line) :
  c ∉ new
  := by
  cases h with
  | blank => apply List.not_mem_nil
  | first => apply fun hc => hline (List.mem_append_right m hc)
  | later =>
    intro hc
    rcases List.mem_append.mp hc with hc | hc
    · apply hindent hc
    · apply hline (List.mem_append_right m hc)
  | space => apply fun hc => hline (List.mem_append_left _ (List.mem_append_right _ hc))

/-- The lines of a reindented text. -/
theorem splitLines_reindent {body rest : List Char} (h : Opens body rest) {indent : List Char}
    (hindent : indent.all isIndent = true) :
  splitLines (reindent body indent) = relaid indent (splitLines (dropTrailingBlank rest))
  := by
  have hlength := length_relaid indent (splitLines (dropTrailingBlank rest))
  rw [reindent_of_opens h]
  apply splitLines_joinWith
  · intro hnil
    rw [hnil] at hlength
    apply splitLines_ne_nil _ (List.eq_nil_of_length_eq_zero hlength.symm)
  · intro new hnew
    obtain ⟨i, hi, hget⟩ := List.mem_iff_getElem.mp hnew
    have hi' := hi
    rw [hlength] at hi'
    have hlaid := laid_relaid (List.getElem?_eq_getElem hi')
      (List.getElem?_eq_some_iff.mpr ⟨hi, hget⟩)
    apply hlaid.not_mem (not_mem_of_all_isIndent hindent rfl)
    apply not_mem_of_mem_splitLines (List.getElem_mem hi')

/-! ### Content -/

theorem Laid.content_eq {indent m line new : List Char} {i : Nat} (h : Laid indent m i line new)
    (hindent : indent.all isIndent = true) (hm : m.all isIndent = true) :
  content new = content line
  := by
  cases h with
  | blank hline => rw [content_of_indent hline, content_nil]
  | first => rw [content_append, content_of_indent hm, List.nil_append]
  | later => rw [content_append, content_append, content_of_indent hindent, content_of_indent hm]
  | space _ _ hfront hback =>
    rw [content_append, content_append, content_of_indent hfront, content_of_indent hback,
      List.nil_append, List.append_nil]

theorem flatMap_content_relaid {indent : List Char} (hindent : indent.all isIndent = true)
    (lines : List (List Char)) :
  (relaid indent lines).flatMap content = lines.flatMap content
  := by
  cases lines with
  | nil => rfl
  | cons first rest =>
    have hm := (isMargin_margin (first :: rest)).blank
    rw [relaid, List.flatMap_cons, List.flatMap_map, List.flatMap_cons,
      (laid_first indent List.mem_cons_self).content_eq hindent hm]
    congr 1
    apply List.flatMap_congr
    intro line hline
    apply (laid_later indent 0 (List.mem_cons_of_mem first hline)).content_eq hindent hm

/-- Reindenting changes the layout of a text only. -/
theorem content_reindent (body : List Char) {indent : List Char}
    (hindent : indent.all isIndent = true) :
  content (reindent body indent) = content body
  := by
  by_cases h : ∃ rest, Opens body rest
  · obtain ⟨rest, hrest⟩ := h
    have hcontent : content body = content rest := by
      rcases hrest with rfl | rfl
      · rfl
      · rfl
    rw [reindent_of_opens hrest, content_joinWith, flatMap_content_relaid hindent, splitLines,
      flatMap_content_splitOn, (trims_iff.mpr rfl).content_eq, hcontent]
  · rw [reindent, splitFirstBreak_of_not_opens (not_exists.mp h)]

/-! ### The reindented text -/

/-- A text that does not start with a line break is left as it is. Of any other text the part
between its first and its last line break is moved line by line from its margin to the indentation.
Content is kept, and the later lines with content keep the indentation that they have beyond the
margin. -/
theorem reindent_exact (body : List Char) {indent : List Char}
    (hindent : indent.all isIndent = true) :
  ((∀ rest, ¬ Opens body rest) → reindent body indent = body)
  ∧ (∀ rest, Opens body rest → ∃ inside m, Trims rest inside ∧ IsMargin (splitLines inside) m
    ∧ (splitLines (reindent body indent)).length = (splitLines inside).length
    ∧ ∀ i line new, (splitLines inside)[i]? = some line →
      (splitLines (reindent body indent))[i]? = some new →
        Laid indent m i line new
        ∧ (0 < i → line.all isSpace = false →
          ∃ beyond, lead line = m ++ beyond ∧ lead new = indent ++ beyond))
  ∧ content (reindent body indent) = content body
  := by
  constructor
  · intro h
    rw [reindent, splitFirstBreak_of_not_opens h]
  constructor
  · intro rest hrest
    have hm := isMargin_margin (splitLines (dropTrailingBlank rest))
    rw [splitLines_reindent hrest hindent]
    use dropTrailingBlank rest, margin (splitLines (dropTrailingBlank rest)), trims_iff.mpr rfl, hm,
      length_relaid indent _
    intro i line new hline hnew
    have hlaid := laid_relaid hline hnew
    use hlaid, hlaid.lead_eq hindent hm.blank
  · apply content_reindent body hindent

/-- Lines that share a tab and a space: one with two spaces behind the tab, one that is shorter and
blank, and one with a vertical tab. -/
theorem reindent_exact_margin :
  let body := "\n\t  <A>\n \n\t \x0b \n\t <B/>\n  ".toList
  let lines := ["\t  <A>", " ", "\t \x0b ", "\t <B/>"].map String.toList
  let indent := "  ".toList
  reindent body indent = " <A>\n\n\x0b\n  <B/>".toList
  ∧ ∃ m, IsMargin lines m ∧ Laid indent m 2 "\t \x0b ".toList "\x0b".toList
    ∧ Laid indent m 3 "\t <B/>".toList "  <B/>".toList
  := by
  intro body lines indent
  obtain ⟨-, hlines, -⟩ := reindent_exact body (show indent.all isIndent = true from rfl)
  obtain ⟨inside, m, htrims, hmargin, -, hlaid⟩ := hlines _ (Or.inl rfl)
  obtain rfl := trims_iff.mp htrims
  use rfl, m, hmargin, (hlaid 2 _ _ rfl rfl).1, (hlaid 3 _ _ rfl rfl).1

end Codemod.Reindent
