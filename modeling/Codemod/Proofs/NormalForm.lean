import Codemod.Proofs.Lines
import Codemod.Proofs.NamedImports
import Codemod.Proofs.Specifier

/-!
# Named imports that are written anew twice

A block of named imports that is written anew is guessed to have the layout that it was given: the
same lines, the same indentation and the same blanks inside of its braces. So it is written in the
same way once more. There is one exception. A block on several lines without a comma at its end gets
one when its specifiers, white space aside, end with a comma, as they can when the last name
consists of the next-line character, which is both a character of names and white space.
-/

namespace Codemod

namespace Text

/-- A text of parts starts with the first one. -/
theorem exists_intercalate_cons (sep part : List Char) (parts : List (List Char)) :
  ∃ rest, sep.intercalate (part :: parts) = part ++ rest
  := by
  cases parts with
  | nil => exact ⟨[], by simp⟩
  | cons next parts => exact ⟨sep ++ sep.intercalate (next :: parts), by simp⟩

/-- A text of parts ends with the last one. -/
theorem exists_intercalate_concat (sep last : List Char) (parts : List (List Char)) :
  ∃ front, sep.intercalate (parts ++ [last]) = front ++ last
  := by
  induction parts with
  | nil => exact ⟨[], by simp⟩
  | cons part parts ih =>
    obtain ⟨front, hfront⟩ := ih
    obtain ⟨next, others, hcons⟩ : ∃ next others, parts ++ [last] = next :: others := by
      apply List.exists_cons_of_ne_nil
      simp
    rw [hcons] at hfront
    use part ++ sep ++ front
    rw [List.cons_append, hcons, List.intercalate_cons_cons, hfront]
    simp

end Text

namespace Unwrap

open Text Grammar Lexeme Document

/-! ### The two layouts -/

/-- The inside of a block with each specifier on a line of its own. -/
def onLines (indent comma closing : List Char) (specs : List (List Char)) : List Char :=
  '\n' :: (",\n".toList.intercalate (specs.map (indent ++ ·)) ++ comma ++ '\n' :: closing)

/-- The inside of a block on one line. -/
def inLine (pad : List Char) (specs : List (List Char)) : List Char :=
  pad ++ ", ".toList.intercalate specs ++ pad

/-- What stands before the closing brace on its line, if that is white space only. -/
def closingMargin (inner : List Char) : List Char :=
  if isBlank (lineFront ('\x7b' :: inner)) then lineFront ('\x7b' :: inner) else []

/-- The blank behind the opening brace. -/
def padding (inner : List Char) : List Char :=
  if inner.head? = some ' ' then [' '] else []

section Layouts

variable {d : Document} {block : Node} {inner : List Char}
  (hblock : d.textOf block = '\x7b' :: (inner ++ ['\x7d']))

include hblock

theorem inside_textOf :
  ((d.textOf block).drop 1).dropLast = inner
  := by
  rw [hblock, List.drop_one, List.tail_cons, List.dropLast_concat]

theorem rebuild?_onLines (hlines : isMultiline inner = true) (first : Node) (rest : List Node) :
  rebuild? d block (first :: rest) = some ('\x7b' :: (onLines (first.lineIndent d.text)
    (finalComma inner) (closingMargin inner) ((first :: rest).map d.textOf) ++ ['\x7d']))
  := by
  have hfront : (d.textOf block).dropLast = '\x7b' :: inner := by
    rw [hblock, ← List.cons_append, List.dropLast_concat]
  have hcomma : (if (content inner).getLast? = some ',' then [','] else [])
      = finalComma inner := by
    simp [finalComma, hlines]
  rw [rebuild?]
  simp only [inside_textOf hblock, hfront, getLast?_trimEnd, hcomma, if_pos hlines, List.head?_cons,
    Option.map_some, closingMargin, onLines]
  simp

theorem rebuild?_inLine (hlines : isMultiline inner = false) (keep : List Node) :
  rebuild? d block keep = some ('\x7b' :: (inLine (padding inner) (keep.map d.textOf) ++ ['\x7d']))
  := by
  rw [rebuild?]
  simp only [inside_textOf hblock, hlines, padding, inLine]
  simp

end Layouts

/-! ### What is guessed of a written block -/

section Guesses

variable {indent comma closing : List Char} {specs : List (List Char)}

theorem isMultiline_onLines :
  isMultiline (onLines indent comma closing specs) = true
  := rfl

theorem closingMargin_onLines (hbreak : '\n' ∉ closing) (hblank : isBlank closing = true) :
  closingMargin (onLines indent comma closing specs) = closing
  := by
  have hfront : lineFront ('\x7b' :: onLines indent comma closing specs) = closing := by
    rw [onLines, ← List.cons_append, ← List.cons_append]
    exact lineFront_append_break _ hbreak
  rw [closingMargin, hfront, if_pos hblank]

theorem closingMargin_plain (inner : List Char) :
  '\n' ∉ closingMargin inner ∧ isBlank (closingMargin inner) = true
  := by
  rw [closingMargin]
  split
  · exact ⟨(lineFront_cases _).1, ‹_›⟩
  · exact ⟨List.not_mem_nil, rfl⟩

/-- White space aside, the inside of a block on several lines is its specifiers with commas. -/
theorem content_onLines (hindent : content indent = []) (hclosing : isBlank closing = true) :
  content (onLines indent comma closing specs) = content ([','].intercalate specs) ++ content comma
  := by
  have hspecs : (specs.map (indent ++ ·)).map content = specs.map content := by
    simp [hindent]
  have hbreak : content ",\n".toList = [','] := rfl
  have hcomma : content [','] = [','] := rfl
  have hblank : content ['\n'] = [] := rfl
  rw [onLines, ← List.singleton_append, ← List.singleton_append (l := closing)]
  simp only [content_append, content_intercalate, hspecs, hbreak, hcomma, hblank,
    content_eq_nil hclosing, List.nil_append, List.append_nil]

/-- The specifiers of a block, white space aside, end with a comma, although the block is on several
lines and has no comma at its end. -/
def GainsComma (inner : List Char) (specs : List (List Char)) : Prop :=
  isMultiline inner = true ∧ (content inner).getLast? ≠ some ','
    ∧ (content ([','].intercalate specs)).getLast? = some ','

/-- A comma is guessed at the end of a written block as it was at the end of the block before,
unless the block gains one. -/
theorem finalComma_onLines {inner : List Char} (hlines : isMultiline inner = true)
    (hindent : content indent = []) (hclosing : isBlank closing = true) :
  (¬ GainsComma inner specs →
      finalComma (onLines indent (finalComma inner) closing specs) = finalComma inner)
    ∧ (GainsComma inner specs → finalComma inner = []
      ∧ finalComma (onLines indent (finalComma inner) closing specs) = [','])
  := by
  rw [finalComma, content_onLines hindent hclosing, content_finalComma, GainsComma]
  by_cases hlast : (content inner).getLast? = some ','
  · have hcomma : finalComma inner = [','] := if_pos ⟨hlines, hlast⟩
    simp [hcomma, isMultiline_onLines, hlast]
  · have hcomma : finalComma inner = [] := if_neg fun h => hlast h.2
    simp [hcomma, isMultiline_onLines, hlines, hlast]

variable {pad first : List Char}

/-- On one line a name follows the blank behind the brace. -/
theorem exists_inLine (pad : List Char) (specs : List (List Char)) (hfirst : EdgeAhead first) :
  ∃ x rest, inLine pad (first :: specs) = pad ++ x :: rest ∧ isEdge x = true
  := by
  obtain ⟨x, hx, hedge⟩ := hfirst
  obtain ⟨xs, rfl⟩ := List.head?_eq_some_iff.mp hx
  obtain ⟨rest, hrest⟩ := exists_intercalate_cons ", ".toList (x :: xs) specs
  refine ⟨x, xs ++ rest ++ pad, ?_, hedge⟩
  rw [inLine, hrest]
  simp

theorem isMultiline_inLine (hpad : ∀ x ∈ pad, isIndent x = true) (hfirst : EdgeAhead first) :
  isMultiline (inLine pad (first :: specs)) = false
  := by
  obtain ⟨x, rest, hinner, hedge⟩ := exists_inLine pad specs hfirst
  have hblank : x ≠ ' ' := ne_of_isEdge hedge rfl
  have htab : x ≠ '\t' := ne_of_isEdge hedge rfl
  have hbreak : '\n' ≠ x := (ne_of_isEdge hedge rfl).symm
  have hreturn : '\r' ≠ x := (ne_of_isEdge hedge rfl).symm
  have htrim : trimStart isIndent (inLine pad (first :: specs)) = x :: rest := by
    rw [hinner, trimStart, List.dropWhile_append_of_pos hpad]
    simp [isIndent, hblank, htab]
  rw [isMultiline, htrim]
  simp [List.isPrefixOf, hbreak, hreturn]

theorem isIndent_of_mem_padding {inner : List Char} {x : Char} (h : x ∈ padding inner) :
  isIndent x = true
  := by
  rw [padding] at h
  split at h
  · rw [List.mem_singleton.mp h]
    rfl
  · cases h

theorem padding_inLine (inner : List Char) (hfirst : EdgeAhead first) :
  padding (inLine (padding inner) (first :: specs)) = padding inner
  := by
  obtain ⟨x, rest, hwhole, hedge⟩ := exists_inLine (padding inner) specs hfirst
  have hblank : x ≠ ' ' := ne_of_isEdge hedge rfl
  rw [padding, hwhole]
  by_cases hinner : inner.head? = some ' '
  · have hpad : padding inner = [' '] := if_pos hinner
    rw [hpad]
    rfl
  · have hpad : padding inner = [] := if_neg hinner
    simp [hpad, hblank]

end Guesses

/-! ### The specifiers of a written block -/

section Specifiers

variable {d : Document} {dialect : Dialect} {block : Node}

theorem map_tree_specifiers (block : Node) :
  (Import.specifiers block).map Node.tree
    = block.tree.children.filter (·.kind = .importSpecifier)
  := by
  have hnamed : ∀ u : Tree, (decide (u.kind = .importSpecifier) && u.kind.isNamed)
      = decide (u.kind = .importSpecifier) := by
    intro u
    by_cases hu : u.kind = .importSpecifier
    · rw [hu]
      rfl
    · simp [hu]
  rw [Import.specifiers, Node.namedChildren, Tree.namedChildren, List.filter_map, List.map_map]
  change List.map id _ = _
  rw [List.map_id, List.filter_filter]
  exact List.filter_congr fun u _ => hnamed u

/-- The text of a specifier starts and ends with edges of names. -/
theorem edges_of_specifier (hd : d.WellRead dialect) (hb : block ∈ d.nodes)
    (hkind : block.kind = .namedImports) {s : Node} (hs : s ∈ Import.specifiers block) :
  EdgeAhead (d.textOf s) ∧ ∃ y, (d.textOf s).getLast? = some y ∧ isEdge y = true
  := by
  obtain ⟨hlisted, hspecifier⟩ := List.mem_filter.mp hs
  have hspecifier : s.kind = .importSpecifier := of_decide_eq_true hspecifier
  obtain ⟨u, hu, rfl⟩ := List.mem_map.mp hlisted
  have hchild : u ∈ block.tree.children := (List.mem_filter.mp hu).1
  obtain ⟨hknown, -⟩ := hd.known_node hb (by rw [hkind]; decide)
  obtain ⟨hinner, hspan⟩ := hd.known_node (Node.below_mem hb hchild) (by rw [hspecifier]; decide)
  obtain ⟨⟨x, hx, hfirst⟩, y, hy, hlast⟩ := hknown.edged_of_namedImports hkind u hchild hspecifier
  constructor
  · exact ⟨x, head?_slice hinner.start hinner.stop hspan hx, hfirst⟩
  · exact ⟨y, getLast?_slice hinner.start hinner.stop hspan hy, hlast⟩

theorem passes_blanks {c : Cursor} {blanks rest : List Char} (hrest : c.rest = blanks ++ rest)
    (hblanks : ∀ x ∈ blanks, isTokenSpace x = true) :
  Passes c [] (c.advance blanks.length)
  := by
  induction blanks generalizing c with
  | nil =>
    have hzero : c.advance 0 = c := by simp [Cursor.advance]
    rw [List.length_nil, hzero]
    exact .refl c
  | cons x blanks ih =>
    obtain ⟨hx, hblanks⟩ := List.forall_mem_cons.mp hblanks
    have hstep : c.advance (x :: blanks).length = (c.advance 1).advance blanks.length := by
      simp [Cursor.advance, hrest, Nat.add_assoc]
    rw [hstep]
    refine .blank hrest hx (ih ?_ hblanks)
    simp [Cursor.advance, hrest]

/-- The indentation of the first specifier is the white space that follows the first line of a block
that starts with a line feed. -/
theorem lineIndent_first (hd : d.WellRead dialect) (hb : block ∈ d.nodes)
    (hkind : block.kind = .namedImports) {indent rest : List Char}
    (htext : d.textOf block = '\x7b' :: '\n' :: (indent ++ rest))
    (hindent : ∀ x ∈ indent, isIndent x = true) (hrest : EdgeAhead rest) {first : Node}
    {others : List Node} (hfirst : Import.specifiers block = first :: others) :
  first.lineIndent d.text = indent
  := by
  obtain ⟨hknown, hspan⟩ := hd.known_node hb (by rw [hkind]; decide)
  have hchildren := map_tree_specifiers block
  rw [hfirst, List.map_cons] at hchildren
  obtain ⟨comments, c, c₁, hc, hpos, hpasses, hstart, hahead⟩ :=
    hknown.first_of_namedImports hkind hchildren.symm
  obtain ⟨front, mid, back, hsplit, hfront, hmid⟩ :=
    hknown.start.split hknown.stop (Nat.le_of_lt hspan)
  have hblock : mid = '\x7b' :: '\n' :: (indent ++ rest) := by
    rw [← htext, Document.textOf, Node.text, Tree.text, hsplit, ← hfront, ← hmid, slice_append]
  have hwhole : d.text = front ++ ['\x7b'] ++ ('\n' :: indent ++ (rest ++ back)) := by
    rw [hsplit, hblock]
    simp
  have hbrace : c.pos = byteLength (front ++ ['\x7b']) := by
    rw [hpos, byteLength_append, hfront]
    rfl
  have hblanks : c.rest = '\n' :: indent ++ (rest ++ back) := by
    rw [← hc.dropBytes, hbrace, hwhole, dropBytes_append]
  -- only blanks stand between the brace and the first name, so this is the next token
  have hspace : ∀ x ∈ '\n' :: indent, isTokenSpace x = true := by
    refine List.forall_mem_cons.mpr ⟨rfl, ?_⟩
    intro x hx
    have hcases : x = ' ' ∨ x = '\t' := by simpa [isIndent] using hindent x hx
    rcases hcases with rfl | rfl
    · rfl
    · rfl
  have hnext : c₁ = c.advance ('\n' :: indent).length := by
    refine (hpasses.unique (passes_blanks hblanks hspace) hahead.settled ?_).2
    apply EdgeAhead.settled
    change EdgeAhead (c.rest.drop _)
    rw [hblanks, List.drop_left]
    apply hrest.append
  have hbefore : first.textBefore d.text = front ++ ['\x7b'] ++ '\n' :: indent := by
    have hplace : first.start = byteLength (front ++ ['\x7b'] ++ '\n' :: indent) := by
      change first.tree.start = _
      rw [hstart, hnext]
      change c.pos + byteLength (c.rest.take _) = _
      rw [hblanks, List.take_left, hbrace, ← byteLength_append]
    rw [Node.textBefore, hplace, hwhole, ← List.append_assoc, takeBytes_append]
  have hline : '\n' ∉ indent := by
    intro hmem
    cases hindent _ hmem
  rw [Node.lineIndent, hbefore, lineFront_append_break _ hline]
  exact List.takeWhile_eq_self_iff.mpr hindent

variable {specs : List (List Char)} {first : List Char}

/-- A block on several lines is written with the lines that it has, and only the comma at its end is
a guess. -/
theorem rebuild?_again_onLines (hd : d.WellRead dialect) (hb : block ∈ d.nodes)
    (hkind : block.kind = .namedImports) {indent comma closing : List Char}
    (hindent : ∀ x ∈ indent, isIndent x = true) (hbreak : '\n' ∉ closing)
    (hblank : isBlank closing = true) (hfirst : EdgeAhead first)
    (htext : d.textOf block
      = '\x7b' :: (onLines indent comma closing (first :: specs) ++ ['\x7d']))
    (hspecs : (Import.specifiers block).map d.textOf = first :: specs) :
  rebuild? d block (Import.specifiers block)
    = some ('\x7b' :: (onLines indent (finalComma (onLines indent comma closing (first :: specs)))
      closing (first :: specs) ++ ['\x7d']))
  := by
  obtain ⟨s, others, hspecifiers⟩ : ∃ s others, Import.specifiers block = s :: others := by
    apply List.exists_cons_of_ne_nil
    intro hnil
    rw [hnil] at hspecs
    cases hspecs
  obtain ⟨rest, hrest⟩ :=
    exists_intercalate_cons ",\n".toList (indent ++ first) (specs.map (indent ++ ·))
  have hline : d.textOf block = '\x7b' :: '\n' ::
      (indent ++ (first ++ (rest ++ comma ++ '\n' :: closing ++ ['\x7d']))) := by
    rw [htext, onLines, List.map_cons, hrest]
    simp
  have hmargin := lineIndent_first hd hb hkind hline hindent (hfirst.append _) hspecifiers
  rw [hspecifiers, rebuild?_onLines htext isMultiline_onLines, hmargin, ← hspecifiers, hspecs,
    closingMargin_onLines hbreak hblank]

/-- A block on one line is written as it is. -/
theorem rebuild?_again_inLine (inner : List Char) (hfirst : EdgeAhead first)
    (htext : d.textOf block
      = '\x7b' :: (inLine (padding inner) (first :: specs) ++ ['\x7d']))
    (hspecs : (Import.specifiers block).map d.textOf = first :: specs) :
  rebuild? d block (Import.specifiers block) = some (d.textOf block)
  := by
  have hlines : isMultiline (inLine (padding inner) (first :: specs)) = false :=
    isMultiline_inLine (fun _ => isIndent_of_mem_padding) hfirst
  rw [rebuild?_inLine htext hlines, hspecs, padding_inLine inner hfirst, htext]

end Specifiers

/-! ### Writing a block twice -/

/-- A comma is only gained when the last specifier ends with a character that is white space. -/
theorem not_gainsComma {inner last : List Char} {y : Char} (hlast : last.getLast? = some y)
    (hedge : isEdge y = true) (hy : y ≠ '\u0085') (specs : List (List Char)) :
  ¬ GainsComma inner (specs ++ [last])
  := by
  rintro ⟨-, -, hcomma⟩
  have hspace : isSpace y = false := by
    by_contra hspace
    exact hy (eq_of_isEdge_of_isSpace hedge (by simpa using hspace))
  obtain ⟨front, rfl⟩ := List.getLast?_eq_some_iff.mp hlast
  obtain ⟨whole, hwhole⟩ := exists_intercalate_concat [','] (front ++ [y]) specs
  rw [hwhole, ← List.append_assoc, content_append] at hcomma
  have hsingle : content [y] = [y] := by simp [content, hspace]
  rw [hsingle, List.getLast?_concat] at hcomma
  obtain rfl := Option.some.inj hcomma
  cases hedge

/-- A block that is written anew, and read as a block with the same specifiers, is written in the
same way once more, unless it gains a comma. It does not gain one if the last specifier does not end
with the character for the next line, and if it does, the comma is all that is new. -/
theorem rebuild_again {text : List Char} {language : String} {filename : Option String}
    {lenient : Bool} {d : Document} (h : Document.parse text language filename lenient = .ok d)
    {block : Node} (hb : block ∈ d.nodes) (hkind : block.kind = .namedImports) {keep : List Node}
    (hkeep : keep ≠ []) (hspecifiers : keep ⊆ Import.specifiers block) :
  ∃ inner new, d.textOf block = '\x7b' :: (inner ++ ['\x7d']) ∧ rebuild? d block keep = some new
    ∧ ((∀ s ∈ keep.getLast?, (d.textOf s).getLast? ≠ some '\u0085') →
      ¬ GainsComma inner (keep.map d.textOf))
    ∧ ∀ (text' : List Char) (language' : String) (filename' : Option String) (lenient' : Bool)
      (d' : Document) (block' : Node),
      Document.parse text' language' filename' lenient' = .ok d' → block' ∈ d'.nodes →
      block'.kind = .namedImports → d'.textOf block' = new →
      (Import.specifiers block').map d'.textOf = keep.map d.textOf →
      (¬ GainsComma inner (keep.map d.textOf) →
        rebuild? d' block' (Import.specifiers block') = some new)
      ∧ (GainsComma inner (keep.map d.textOf) → ∃ front back, new = front ++ back
        ∧ rebuild? d' block' (Import.specifiers block') = some (front ++ ',' :: back))
  := by
  obtain ⟨-, dialect, hd⟩ := Document.wellRead_of_parse h
  obtain ⟨inner, hinner⟩ := exists_inner hd hb hkind
  obtain ⟨first, rest, rfl⟩ := List.exists_cons_of_ne_nil hkeep
  have hedges (s : Node) (hs : s ∈ first :: rest) :=
    edges_of_specifier hd hb hkind (hspecifiers hs)
  have hfirst := (hedges first List.mem_cons_self).1
  have hlast : (∀ s ∈ (first :: rest).getLast?, (d.textOf s).getLast? ≠ some '\u0085') →
      ¬ GainsComma inner ((first :: rest).map d.textOf) := by
    intro hplain
    obtain hnil | ⟨front, s, hconcat⟩ := List.eq_nil_or_concat (first :: rest)
    · cases hnil
    · rw [List.concat_eq_append] at hconcat
      obtain ⟨-, y, hy, hedge⟩ := hedges s (by rw [hconcat]; simp)
      have hnext := hplain s (by rw [hconcat]; simp)
      rw [hconcat, List.map_append]
      refine not_gainsComma hy hedge ?_ _
      rintro rfl
      exact hnext hy
  by_cases hlines : isMultiline inner = true
  · refine ⟨inner, _, hinner, rebuild?_onLines hinner hlines first rest, hlast, ?_⟩
    intro text' language' filename' lenient' d' block' h' hb' hkind' htext' hspecs'
    obtain ⟨-, dialect', hd'⟩ := Document.wellRead_of_parse h'
    have hindent : ∀ x ∈ first.lineIndent d.text, isIndent x = true := by
      intro x hx
      exact List.mem_takeWhile_imp hx
    have hcontent : content (first.lineIndent d.text) = [] :=
      content_of_all (fun _ => isSpace_of_isIndent) List.all_takeWhile
    obtain ⟨hbreak, hblank⟩ := closingMargin_plain inner
    have hagain := rebuild?_again_onLines hd' hb' hkind' hindent hbreak hblank hfirst htext' hspecs'
    rw [← List.map_cons] at hagain
    constructor
    · intro hgain
      rw [hagain, (finalComma_onLines hlines hcontent hblank).1 hgain]
    · intro hgain
      obtain ⟨hnone, hcomma⟩ := (finalComma_onLines hlines hcontent hblank).2 hgain
      rw [hagain, hcomma, hnone]
      refine ⟨'\x7b' :: '\n' :: ",\n".toList.intercalate (((first :: rest).map d.textOf).map
        (first.lineIndent d.text ++ ·)), '\n' :: closingMargin inner ++ ['\x7d'], ?_, ?_⟩
      · simp [onLines]
      · simp [onLines]
  · rw [Bool.not_eq_true] at hlines
    refine ⟨inner, _, hinner, rebuild?_inLine hinner hlines _, hlast, ?_⟩
    intro text' language' filename' lenient' d' block' _ _ _ htext' hspecs'
    have hagain := rebuild?_again_inLine inner hfirst htext' hspecs'
    rw [htext'] at hagain
    refine ⟨fun _ => hagain, ?_⟩
    rintro ⟨hgain, -⟩
    rw [hlines] at hgain
    cases hgain

/-- A statement with its names on several lines. -/
def namesOnLines : List Char :=
  "import \x7b\n  A,\n  B as D,\n  C,\n\x7d from 'p'".toList

/-- The same statement without its first name. -/
def fewerNamesOnLines : List Char :=
  "import \x7b\n  B as D,\n  C,\n\x7d from 'p'".toList

set_option maxRecDepth 100000 in
/-- Without its first name the statement has a block that is written in the same way once more. -/
theorem rebuild_again_fewer :
  ∃ (d d' : Document) (block block' : Node) (new : List Char),
    Document.parse namesOnLines "tsx" none false = .ok d ∧ block ∈ d.nodes
    ∧ block.kind = .namedImports
    ∧ rebuild? d block ((Import.specifiers block).drop 1) = some new
    ∧ Document.parse fewerNamesOnLines "tsx" none false = .ok d' ∧ block' ∈ d'.nodes
    ∧ block'.kind = .namedImports ∧ d'.textOf block' = new
    ∧ rebuild? d' block' (Import.specifiers block') = some new
  := by
  have hrun : ((Document.parse namesOnLines "tsx" none false).toOption.map fun d =>
      d.nodes.any fun block => block.kind = .namedImports
        && (Import.specifiers block).map d.textOf = ["A".toList, "B as D".toList, "C".toList]
        && rebuild? d block ((Import.specifiers block).drop 1)
          = some "\x7b\n  B as D,\n  C,\n\x7d".toList)
      = some true := by
    decide +kernel
  have hrun' : ((Document.parse fewerNamesOnLines "tsx" none false).toOption.map fun d =>
      d.nodes.any fun block => block.kind = .namedImports
        && (Import.specifiers block).map d.textOf = ["B as D".toList, "C".toList]
        && d.textOf block = "\x7b\n  B as D,\n  C,\n\x7d".toList)
      = some true := by
    decide +kernel
  cases hparse : Document.parse namesOnLines "tsx" none false with
  | error e =>
    rw [hparse] at hrun
    cases hrun
  | ok d =>
    cases hparse' : Document.parse fewerNamesOnLines "tsx" none false with
    | error e =>
      rw [hparse'] at hrun'
      cases hrun'
    | ok d' =>
      rw [hparse] at hrun
      rw [hparse'] at hrun'
      obtain ⟨block, hb, hfound⟩ := List.any_eq_true.mp (Option.some.inj hrun)
      obtain ⟨block', hb', hfound'⟩ := List.any_eq_true.mp (Option.some.inj hrun')
      simp only [Bool.and_eq_true, decide_eq_true_iff] at hfound hfound'
      obtain ⟨⟨hkind, hnames⟩, hnew⟩ := hfound
      obtain ⟨⟨hkind', hnames'⟩, htext'⟩ := hfound'
      have hspecs : ((Import.specifiers block).drop 1).map d.textOf
          = ["B as D".toList, "C".toList] := by
        rw [List.map_drop, hnames]
        rfl
      have hkeep : (Import.specifiers block).drop 1 ≠ [] := by
        intro hnil
        rw [hnil] at hspecs
        cases hspecs
      obtain ⟨inner, new, -, hrebuild, hplain, hagain⟩ :=
        rebuild_again hparse hb hkind hkeep (List.drop_subset _ _)
      obtain rfl := Option.some.inj (hnew.symm.trans hrebuild)
      have hgain : ¬ GainsComma inner (((Import.specifiers block).drop 1).map d.textOf) := by
        apply hplain
        intro s hs
        have hlast := congrArg List.getLast? hspecs
        rw [List.getLast?_map, hs] at hlast
        rw [Option.some.inj hlast]
        decide
      refine ⟨d, d', block, block', _, rfl, hb, hkind, hnew, rfl, hb', hkind', htext', ?_⟩
      exact (hagain _ _ _ _ d' block' hparse' hb' hkind' htext' (hnames'.trans hspecs.symm)).1 hgain

/-- A statement whose second name is the character for the next line. -/
def nextLineName : List Char :=
  "import \x7b\nA,\n\u0085,\nC\n\x7d from 'p'".toList

/-- The same statement without its third name. -/
def nextLineLast : List Char :=
  "import \x7b\nA,\n\u0085\n\x7d from 'p'".toList

set_option maxRecDepth 100000 in
/-- Without its third name the statement has a block that gains a comma when it is written once
more. -/
theorem rebuild_gains_comma :
  ((Document.parse nextLineName "tsx" none false).toOption.map fun d =>
      (d.nodes.filter (·.kind = .namedImports)).map fun block =>
        rebuild? d block ((Import.specifiers block).take 2))
    = some [some "\x7b\nA,\n\u0085\n\x7d".toList]
    ∧ ((Document.parse nextLineLast "tsx" none false).toOption.map fun d =>
      (d.nodes.filter (·.kind = .namedImports)).map fun block =>
        (d.textOf block, (Import.specifiers block).map d.textOf,
          rebuild? d block (Import.specifiers block)))
    = some [("\x7b\nA,\n\u0085\n\x7d".toList, ["A".toList, "\u0085".toList],
      some "\x7b\nA,\n\u0085,\n\x7d".toList)]
  := by
  decide +kernel

end Unwrap

end Codemod
