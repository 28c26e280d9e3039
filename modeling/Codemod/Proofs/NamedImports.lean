import Codemod.Proofs.ImportRound

/-!
# Named imports with some of their specifiers

A block of named imports is written anew when some of its specifiers go. White space aside, the new
text is made of the specifiers that stay, with commas between them, and of nothing else. So a
comment inside of a specifier that stays is kept, and all other comments of the block are lost.
-/

namespace Codemod

namespace Text

/-! ### Texts that are joined -/

theorem content_intercalate (sep : List Char) (parts : List (List Char)) :
  content (sep.intercalate parts) = (content sep).intercalate (parts.map content)
  := by
  induction parts with
  | nil => rfl
  | cons part parts ih =>
    cases parts with
    | nil => simp
    | cons next parts =>
      rw [List.intercalate_cons_cons, content_append, content_append, ih]
      simp

/-- A part stands in the whole. -/
theorem infix_intercalate (sep : List Char) {part : List Char} {parts : List (List Char)}
    (h : part ∈ parts) :
  part <:+: sep.intercalate parts
  := by
  induction parts with
  | nil => cases h
  | cons first parts ih =>
    cases parts with
    | nil =>
      have hwhole : [] ++ part ++ [] = sep.intercalate [first] := by
        rw [List.mem_singleton.mp h, List.intercalate_singleton, List.nil_append, List.append_nil]
      exact ⟨[], [], hwhole⟩
    | cons next parts =>
      rw [List.intercalate_cons_cons]
      rcases List.mem_cons.mp h with rfl | h
      · rw [List.append_assoc]
        apply (List.prefix_append _ _).isInfix
      · apply (ih h).trans (List.suffix_append _ _).isInfix

/-- A character that is not in the separator is in the whole as often as in the parts. -/
theorem count_intercalate {x : Char} {sep : List Char} (hsep : x ∉ sep)
    (parts : List (List Char)) :
  (sep.intercalate parts).count x = parts.flatten.count x
  := by
  induction parts with
  | nil => rfl
  | cons part parts ih =>
    cases parts with
    | nil => simp
    | cons next parts =>
      rw [List.intercalate_cons_cons, List.count_append, List.count_append, ih,
        List.count_eq_zero_of_not_mem hsep, Nat.add_zero, ← List.count_append, ← List.flatten_cons]

/-- The last character of a text without the white space at its end. -/
theorem getLast?_trimEnd (cs : List Char) :
  (trimEnd isSpace cs).getLast? = (content cs).getLast?
  := by
  rw [trimEnd, content, List.getLast?_reverse, ← List.head?_reverse, ← List.filter_reverse,
    List.head?_filter, List.find?_eq_head?_dropWhile_not]
  simp

end Text

namespace Unwrap

open Text Grammar Document

variable {d : Document} {dialect : Dialect} {block : Node} {keep : List Node} {inner : List Char}

/-! ### The text of a block -/

/-- The comma behind the last specifier of a block: a block on several lines has one if it had one
before. -/
def finalComma (inner : List Char) : List Char :=
  if isMultiline inner = true ∧ (content inner).getLast? = some ',' then [','] else []

theorem content_finalComma (inner : List Char) :
  content (finalComma inner) = finalComma inner
  := by
  rw [finalComma]
  split <;> rfl

/-- The text of a block starts and ends with its braces. -/
theorem exists_inner (hd : d.WellRead dialect) (hb : block ∈ d.nodes)
    (hkind : block.kind = .namedImports) :
  ∃ inner, d.textOf block = '\x7b' :: (inner ++ ['\x7d'])
  := by
  obtain ⟨hknown, hspan⟩ := hd.known_node hb (by rw [hkind]; nofun)
  have hbody : Script.bodyOf? block.tree.kind = some Script.importNames := by
    rw [← Node.kind, hkind]
    rfl
  obtain ⟨hfirst, hlast, -⟩ := hknown.signs hbody
  have hfirst : (d.textOf block).head? = some '\x7b' :=
    head?_slice hknown.start hknown.stop hspan hfirst
  have hlast : (d.textOf block).getLast? = some '\x7d' :=
    getLast?_slice hknown.start hknown.stop hspan hlast
  obtain ⟨rest, hrest⟩ := List.head?_eq_some_iff.mp hfirst
  rw [hrest, List.getLast?_cons] at hlast
  rw [hrest]
  rcases List.eq_nil_or_concat rest with rfl | ⟨inner, last, rfl⟩
  · cases hlast
  · rw [List.concat_eq_append, List.getLast?_concat, Option.getD_some] at hlast
    obtain rfl := Option.some.inj hlast
    use inner
    rw [List.concat_eq_append]

/-- How a block is written anew: the specifiers that stay, with white space before each of them and
a comma with white space between them, in braces. -/
theorem exists_layout (hblock : d.textOf block = '\x7b' :: (inner ++ ['\x7d']))
    (hkeep : keep ≠ []) :
  ∃ front margin sep back, content front = ['\x7b'] ∧ content margin = [] ∧ content sep = [',']
    ∧ content back = finalComma inner ++ ['\x7d']
    ∧ rebuild? d block keep
      = some (front ++ sep.intercalate (keep.map fun s => margin ++ d.textOf s) ++ back)
  := by
  have hinner : ((d.textOf block).drop 1).dropLast = inner := by
    rw [hblock, List.drop_one, List.tail_cons, List.dropLast_concat]
  obtain ⟨first, rest, rfl⟩ := List.exists_cons_of_ne_nil hkeep
  rw [rebuild?]
  simp only [hinner, getLast?_trimEnd]
  by_cases hlines : isMultiline inner = true
  · have hcomma : (if (content inner).getLast? = some ',' then [','] else [])
        = finalComma inner := by
      simp [finalComma, hlines]
    have hclosing : content (if isBlank (lineFront (d.textOf block).dropLast) then
        lineFront (d.textOf block).dropLast else []) = [] := by
      split
      · apply content_eq_nil ‹_›
      · rfl
    rw [if_pos hlines, List.head?_cons, Option.map_some, hcomma, List.map_map]
    generalize (if isBlank (lineFront (d.textOf block).dropLast) then
        lineFront (d.textOf block).dropLast else []) = closing at hclosing ⊢
    refine ⟨"\x7b\n".toList, first.lineIndent d.text, ",\n".toList,
      finalComma inner ++ ('\n' :: closing ++ ['\x7d']), rfl, ?_, rfl, ?_, ?_⟩
    · exact content_of_all (fun _ => isSpace_of_isIndent) List.all_takeWhile
    · rw [content_append, content_finalComma, content_append, content_cons, hclosing]
      rfl
    · simp [Function.comp_def]
  · have hpad : content (if inner.head? = some ' ' then [' '] else []) = [] := by
      split <;> rfl
    rw [if_neg hlines]
    generalize (if inner.head? = some ' ' then [' '] else []) = pad at hpad ⊢
    refine ⟨'\x7b' :: pad, [], ", ".toList, pad ++ ['\x7d'], ?_, rfl, rfl, ?_, ?_⟩
    · rw [content_cons, hpad]
      rfl
    · rw [content_append, hpad, finalComma, if_neg fun h => hlines h.1]
      rfl
    · simp

/-- White space aside, a block that is written anew consists of the specifiers that stay, in their
order and with commas between them, in braces. -/
theorem content_rebuild? (hblock : d.textOf block = '\x7b' :: (inner ++ ['\x7d']))
    (hkeep : keep ≠ []) {text : List Char} (h : rebuild? d block keep = some text) :
  content text = content
    ('\x7b' :: ([','].intercalate (keep.map d.textOf) ++ finalComma inner ++ ['\x7d']))
  := by
  obtain ⟨front, margin, sep, back, hfront, hmargin, hsep, hback, hlayout⟩ :=
    exists_layout hblock hkeep
  obtain rfl := Option.some.inj (hlayout.symm.trans h)
  have hspecifiers : (keep.map fun s => margin ++ d.textOf s).map content
      = (keep.map d.textOf).map content := by
    simp [hmargin]
  have hopen : content ['\x7b'] = ['\x7b'] := rfl
  have hcomma : content [','] = [','] := rfl
  have hclose : content ['\x7d'] = ['\x7d'] := rfl
  rw [content_append, content_append, content_intercalate, hspecifiers, hfront, hsep, hback,
    content_cons, content_append, content_append, content_intercalate, content_finalComma, hopen,
    hcomma, hclose]
  simp only [List.append_assoc]

/-- The text of each specifier that stays is in the block that is written anew. -/
theorem infix_rebuild? (hblock : d.textOf block = '\x7b' :: (inner ++ ['\x7d'])) {s : Node}
    (hs : s ∈ keep) {text : List Char} (h : rebuild? d block keep = some text) :
  d.textOf s <:+: text
  := by
  obtain ⟨front, margin, sep, back, -, -, -, -, hlayout⟩ :=
    exists_layout hblock (List.ne_nil_of_mem hs)
  obtain rfl := Option.some.inj (hlayout.symm.trans h)
  have hlisted : margin ++ d.textOf s
      <:+: sep.intercalate (keep.map fun s => margin ++ d.textOf s) :=
    infix_intercalate sep (List.mem_map_of_mem hs)
  apply (List.suffix_append margin _).isInfix.trans
  apply hlisted.trans
  apply List.infix_append

/-! ### Comments -/

/-- The slashes of a block that is written anew are those of the specifiers that stay. -/
theorem count_rebuild? (hblock : d.textOf block = '\x7b' :: (inner ++ ['\x7d']))
    (hkeep : keep ≠ []) {text : List Char} (h : rebuild? d block keep = some text) :
  text.count '/' = (keep.flatMap d.textOf).count '/'
  := by
  have hcontent (cs : List Char) : (content cs).count '/' = cs.count '/' :=
    List.count_filter rfl
  have hcomma : (finalComma inner).count '/' = 0 := by
    rw [finalComma]
    split <;> rfl
  rw [← hcontent text, content_rebuild? hblock hkeep h, hcontent, List.count_cons,
    List.count_append, List.count_append, count_intercalate (by decide), hcomma, List.flatMap]
  rfl

/-- The text of a node is in that of a node around it. -/
theorem infix_textOf (hd : d.WellRead dialect) {n m : Node} (hn : n ∈ d.nodes)
    (hkind : n.kind ≠ .program) (hm : m ∈ n.descendants) :
  d.textOf m <:+: d.textOf n
  := by
  have hbelow := Node.below_of_mem_descendants hm
  obtain ⟨hknown, -⟩ := hd.known_node hn hkind
  have hinner := hd.known m.tree (hbelow.part (Node.part_of_mem hn))
  obtain ⟨hstart, hspan, hstop⟩ := (hd.nested.part (Node.part_of_mem hn)).within hbelow
  have hsplit : d.textOf n = slice d.text n.start m.start ++ d.textOf m
      ++ slice d.text m.stop n.stop := by
    change slice d.text n.tree.start n.tree.stop = _
    rw [hknown.start.slice_eq hinner.stop hknown.stop (by omega) hstop,
      hknown.start.slice_eq hinner.start hinner.stop hstart (by omega)]
    rfl
  rw [hsplit]
  apply List.infix_append

/-- A comment has a slash. -/
theorem slash_mem_comment {text : List Char} {t : Tree}
    (h : Known (Script.rules dialect) Script.Lawful text t) (hkind : t.kind = .comment) :
  '/' ∈ t.text text
  := by
  obtain ⟨-, rest, k, hlength, htext⟩ := h.comment hkind
  have hslash := mem_lineFront_comment hlength (Nat.succ_ne_zero k)
  rw [← htext] at hslash
  obtain ⟨-, heq | ⟨front, heq⟩⟩ := lineFront_cases (t.text text)
  · rwa [← heq] at hslash
  · rw [heq]
    simp [hslash]

/-- A block that is written anew with some of its specifiers has the comments inside of these
specifiers. Its slashes are those of these specifiers, so when they have none, all comments of the
block are lost. -/
theorem rebuild_comments {text : List Char} {language : String} {filename : Option String}
    {lenient : Bool} {d : Document} (h : Document.parse text language filename lenient = .ok d)
    {block : Node} (hb : block ∈ d.nodes) (hkind : block.kind = .namedImports) {keep : List Node}
    (hkeep : keep ≠ []) (hspecifiers : keep ⊆ Import.specifiers block) :
  ∃ new, rebuild? d block keep = some new
    ∧ (∀ s ∈ keep, ∀ comment ∈ s.descendants, comment.kind = .comment →
      d.textOf comment <:+: new)
    ∧ new.count '/' = (keep.flatMap d.textOf).count '/'
    ∧ ((∀ s ∈ keep, '/' ∉ d.textOf s) → ∀ comment ∈ block.descendants,
      comment.kind = .comment → ¬ d.textOf comment <:+: new)
  := by
  obtain ⟨-, dialect, hd⟩ := Document.wellRead_of_parse h
  obtain ⟨inner, hinner⟩ := exists_inner hd hb hkind
  obtain ⟨new, hnew⟩ := exists_rebuild (d := d) block hkeep
  have hcount := count_rebuild? hinner hkeep hnew
  refine ⟨new, hnew, ?_, hcount, ?_⟩
  · intro s hs comment hcomment _
    obtain ⟨hnamed, hspecifier⟩ := List.mem_filter.mp (hspecifiers hs)
    obtain ⟨u, hu, rfl⟩ := List.mem_map.mp hnamed
    have hlisted := Node.below_mem hb (List.mem_filter.mp hu).1
    have hother : (block.below u).kind ≠ .program := by
      rw [of_decide_eq_true hspecifier]
      nofun
    exact (infix_textOf hd hlisted hother hcomment).trans (infix_rebuild? hinner hs hnew)
  · intro hplain comment hcomment hcommentKind hinfix
    have hknown := hd.known comment.tree
      ((Node.below_of_mem_descendants hcomment).part (Node.part_of_mem hb))
    have hslash : '/' ∈ new := hinfix.subset (slash_mem_comment hknown hcommentKind)
    have hkept : '/' ∈ keep.flatMap d.textOf := by
      rw [← List.count_pos_iff, ← hcount]
      apply List.count_pos_iff.mpr hslash
    obtain ⟨s, hs, hmem⟩ := List.mem_flatMap.mp hkept
    apply hplain s hs hmem

/-- A statement with a comment inside of its first specifier and one before its second specifier. -/
def commentedNames : List Char :=
  "import \x7bA /* a */ as C, /* b */ B\x7d from 'p';\n".toList

set_option maxRecDepth 100000 in
/-- The comment inside of a specifier that stays is kept. -/
theorem rebuild_comments_inside :
  ∃ (d : Document) (block s : Node) (new : List Char),
    Document.parse commentedNames "tsx" none false = .ok d ∧ block ∈ d.nodes
    ∧ block.kind = .namedImports ∧ s ∈ Import.specifiers block
    ∧ rebuild? d block [s] = some new
    ∧ (∃ comment ∈ s.descendants, comment.kind = .comment ∧ d.textOf comment <:+: new)
    ∧ new.count '/' = (d.textOf s).count '/'
  := by
  have hrun : ((Document.parse commentedNames "tsx" none false).toOption.map fun d =>
      d.nodes.any fun block => block.kind = .namedImports
        && (Import.specifiers block).any fun s => s.descendants.any (·.kind = .comment))
      = some true := by
    decide +kernel
  cases hparse : Document.parse commentedNames "tsx" none false with
  | error e =>
    rw [hparse] at hrun
    cases hrun
  | ok d =>
    rw [hparse] at hrun
    obtain ⟨block, hb, hfound⟩ := List.any_eq_true.mp (Option.some.inj hrun)
    obtain ⟨hkind, hspecifier⟩ := Bool.and_eq_true_iff.mp hfound
    obtain ⟨s, hs, hcomments⟩ := List.any_eq_true.mp hspecifier
    obtain ⟨comment, hcomment, hcommentKind⟩ := List.any_eq_true.mp hcomments
    obtain ⟨new, hnew, hkept, hcount, -⟩ := rebuild_comments hparse hb (of_decide_eq_true hkind)
      (List.cons_ne_nil s []) (List.cons_subset.mpr ⟨hs, List.nil_subset _⟩)
    refine ⟨d, block, s, new, rfl, hb, of_decide_eq_true hkind, hs, hnew, ?_, by simpa using hcount⟩
    exact ⟨comment, hcomment, of_decide_eq_true hcommentKind,
      hkept s (List.mem_singleton_self s) comment hcomment (of_decide_eq_true hcommentKind)⟩

/-- A statement with a comment between its specifiers. -/
def commentBetween : List Char :=
  "import \x7bA, /* c */ B\x7d from 'p'".toList

set_option maxRecDepth 100000 in
/-- A comment between the specifiers is lost, although a specifier stays. -/
theorem rebuild_comment_lost :
  ((Document.parse commentBetween "tsx" none false).toOption.map fun d =>
      (d.nodes.filter (·.kind = .namedImports)).map fun block =>
        ((block.descendants.filter (·.kind = .comment)).map d.textOf,
          rebuild? d block ((Import.specifiers block).take 1)))
    = some [(["/* c */".toList], some "\x7bA\x7d".toList)]
    ∧ ¬ "/* c */".toList <:+: "\x7bA\x7d".toList
  := by
  decide +kernel

end Unwrap

end Codemod
