import Codemod.Import
import Codemod.Proofs.Layout
import Codemod.Proofs.Parsed

/-!
# The shape of import statements

An import statement of a parsed document starts with its keyword and does not end at the margin of
a line. A block of names in braces is the last part of its clause, and another import statement
inside of a statement can only stand among the attributes, behind the clause.
-/

namespace Codemod

namespace Grammar

open Text

/-! ### Comments do not end at a margin -/

theorem not_mem_take_lineLength (cs : List Char) :
  '\n' ∉ cs.take (lineLength cs)
  := by
  induction cs with
  | nil => nofun
  | cons c cs ih =>
    rw [lineLength]
    split
    · nofun
    · rename_i hc
      simp only [Bool.or_eq_true, decide_eq_true_iff, not_or] at hc
      rw [List.take_succ_cons, List.mem_cons, not_or]
      exact ⟨Ne.symm hc.1.1.1, ih⟩

theorem take_blockLength? {cs : List Char} {n : Nat} (h : blockLength? cs = some n) :
  ∃ front, cs.take n = front ++ ['/']
  := by
  induction cs generalizing n with
  | nil => cases h
  | cons c cs ih =>
    rw [blockLength?] at h
    split at h
    · rename_i hend
      obtain ⟨-, hslash⟩ := Bool.and_eq_true_iff.mp hend
      obtain ⟨rest, rfl⟩ := List.head?_eq_some_iff.mp (of_decide_eq_true hslash)
      cases h
      exact ⟨[c], rfl⟩
    · obtain ⟨k, hk, rfl⟩ := Option.map_eq_some_iff.mp h
      obtain ⟨front, hfront⟩ := ih hk
      use c :: front
      rw [List.take_succ_cons, hfront, List.cons_append]

/-- A comment has something else than white space on its last line. -/
theorem mem_lineFront_comment {cs : List Char} {n : Nat} (h : commentLength cs = n) (hn : n ≠ 0) :
  '/' ∈ lineFront (cs.take n)
  := by
  rw [commentLength.eq_def] at h
  split at h
  · rename_i rest
    have hline : '\n' ∉ ('/' :: '/' :: rest).take n := by
      rw [← h]
      simp [not_mem_take_lineLength]
    obtain ⟨-, heq | ⟨front, heq⟩⟩ := lineFront_cases (('/' :: '/' :: rest).take n)
    · rw [← heq, ← h]
      simp
    · rw [heq] at hline
      simp at hline
  · rename_i rest
    cases hblock : blockLength? rest with
    | none =>
      rw [hblock] at h
      cases hn h.symm
    | some k =>
      obtain ⟨front, hfront⟩ := take_blockLength? hblock
      rw [hblock] at h
      change k + 2 = n at h
      rw [← h, List.take_succ_cons, List.take_succ_cons, hfront, ← List.cons_append,
        ← List.cons_append]
      simp [lineFront]
  · cases hn h.symm

/-! ### Where parts of statements end -/

section Ends

open Script

variable {dialect : Dialect} {text : List Char}

theorem lands_sign (k : String) {w v : List Char} {x : Char} (hw : w.getLast? = some x)
    (hspace : isAsciiSpace x = false) :
  Lands (rules dialect) text (OffMargin text) (.leaf (.token k) (Lexeme.sign w v))
  := by
  apply lands_leaf
  intro c n hc hn
  have hbefore := hc.charBefore_eq (Lexeme.spells_sign w v) hn
  rw [hw] at hbefore
  apply offMargin_of_charBefore hbefore hspace

/-- What stands between two signs ends with the second one. -/
theorem lands_between {k₂ : String} {w v : List Char} {x : Char} (p q : Script)
    (hw : w.getLast? = some x) (hspace : isAsciiSpace x = false) :
  Lands (rules dialect) text (OffMargin text) (.seq [p, q, .leaf (.token k₂) (Lexeme.sign w v)])
  := by
  apply Lands.seq
  apply Lands.seq
  exact (lands_sign k₂ hw hspace).seq_mayLand mayLand_seq_nil

theorem lands_string :
  Lands (rules dialect) text (OffMargin text) (.rule .string)
  := by
  apply Lands.rule
  apply lands_alt
  intro p hp
  simp only [List.mem_cons, List.not_mem_nil, or_false] at hp
  rcases hp with rfl | rfl
  · exact (lands_between _ _ rfl rfl).node _
  · exact (lands_between _ _ rfl rfl).node _

theorem lands_object :
  Lands (rules dialect) text (OffMargin text) (.rule .object)
  := by
  apply Lands.rule
  exact (lands_between _ _ rfl rfl).node _

theorem mayLand_ending (afterOperand : Bool) :
  MayLand (rules dialect) text (OffMargin text) (ending afterOperand)
  := by
  have hcomment :
      Lands (rules dialect) text (OffMargin text) (.rawLeaf .comment commentLength) := by
    apply lands_rawLeaf
    intro c n hc hn
    obtain ⟨front, hfront⟩ := hc.takeBytes_advance (n + 1)
    apply offMargin_of_mem hfront (mem_lineFront_comment hn (Nat.succ_ne_zero n)) rfl
  apply mayLand_alt
  intro p hp
  simp only [List.mem_cons, List.not_mem_nil, or_false] at hp
  rcases hp with rfl | rfl
  · have hone := (hcomment.seq_mayLand mayLand_seq_nil).seq (.skip Lexeme.inlineBlanks)
    exact hone.many.seq ((mayLand_check _).seq mayLand_seq_nil)
  · exact (lands_sign ";" rfl rfl).mayLand

theorem lands_importTaken :
  Lands (rules dialect) text (OffMargin text) importTaken
  := by
  have hsource : Lands (rules dialect) text (OffMargin text) importSource :=
    lands_string.role .source
  apply lands_alt
  intro p hp
  simp only [List.mem_cons, List.not_mem_nil, or_false] at hp
  rcases hp with rfl | rfl | rfl
  · have hfrom := (hsource.seq_mayLand mayLand_seq_nil).seq (kw "from")
    exact (hfrom.seq_mayLand mayLand_seq_nil).seq importClause
  · exact ((((lands_between _ _ rfl rfl).seq _).seq _).seq _).node _
  · exact hsource

/-- An import statement does not end at a margin. -/
theorem lands_importParts :
  Lands (rules dialect) text (OffMargin text) importParts
  := by
  have htaken : Lands (rules dialect) text (OffMargin text)
      (.alt [.seq [kw "type", importTaken], importTaken]) := by
    apply lands_alt
    intro p hp
    simp only [List.mem_cons, List.not_mem_nil, or_false] at hp
    rcases hp with rfl | rfl
    · exact (lands_importTaken.seq_mayLand mayLand_seq_nil).seq (kw "type")
    · exact lands_importTaken
  have hattributes : MayLand (rules dialect) text (OffMargin text) importAttributes :=
    (((lands_object.seq_mayLand mayLand_seq_nil).seq _).node _).opt
  have hrest := hattributes.seq ((mayLand_ending false).seq mayLand_seq_nil)
  exact (htaken.seq_mayLand hrest).seq (kw "import")

end Ends

/-! ### Parts of statements and clauses -/

section Parts

open Script Codemod.Tree

variable {dialect : Dialect} {text : List Char} {t : Tree}

/-- An import statement starts with its keyword and does not end at a margin. -/
theorem Known.import_ends (h : Known (rules dialect) Lawful text t)
    (hkind : t.kind = .importStatement) :
  charAt text t.start = some 'i' ∧ OffMargin text t.stop
  := by
  have hbody : bodyOf? t.kind = some importParts := by rw [hkind]; rfl
  obtain ⟨c, c', ts, u, us, hc, hreads, hdrop, -, hstart, hstop⟩ := h.body hbody
  have hends := lands_importParts hc hreads
  rw [hstart, hstop, hends.stopOf_eq hdrop]
  obtain ⟨-, -, -, -, hend⟩ := hends
  refine ⟨?_, hend⟩
  obtain ⟨_, _, _, rfl, hkeyword, -⟩ := reads_seq_cons hreads
  obtain ⟨comments, c₁, n, rfl, hcomments, hc₁, hn, -⟩ := reads_leaf hkeyword hc
  rw [List.append_assoc, List.singleton_append, dropWhile_isComment hcomments rfl] at hdrop
  cases hdrop
  apply hc₁.charAt_eq (Lexeme.spells_keyword _) hn

/-- The trees of a part that is made without values hold no import statement. -/
theorem Reads.no_statement {p : Script} {c c' : Cursor} {ts : List Tree}
    (h : Reads (rules dialect) p c ts c')
    (hp : p.Makes (· ≠ .importStatement) (· = .string)) :
  AllOfKind (· ≠ .importStatement) ts
  := by
  apply h.allOfKind (by decide) _ hp
  rintro name rfl
  simp [rules, value, Script.quoted, sym, Peg.Makes, Peg.MakesOf]

/-- The attributes of an import are no clause. -/
theorem Reads.no_clause {c c' : Cursor} {ts : List Tree}
    (h : Reads (rules dialect) importAttributes c ts c') :
  ∀ u ∈ ts, u.kind ≠ .importClause
  := by
  intro u hu
  rcases reads_opt h with ⟨rfl, -⟩ | hnode
  · cases hu
  · cases hnode with
    | node _ =>
      rcases mem_enclose hu with hcomment | heq
      · apply kind_ne_of_isComment hcomment (by decide)
      · rw [heq]
        decide

/-- The end of a statement holds no import statement and no clause. -/
theorem Reads.allOfKind_ending {c c' : Cursor} {ts : List Tree}
    (h : Reads (rules dialect) (ending false) c ts c') :
  AllOfKind (fun k => k ≠ .importStatement ∧ k ≠ .importClause) ts
  := by
  refine h.allOfKind (S := fun _ => False) (by decide) (fun _ h => h.elim) ?_
  simp [ending, lineEnd, sym, Peg.Makes, Peg.MakesOf]

/-- The parts of an import statement. Another statement can stand among its attributes only, and
these have no clause. -/
theorem Known.import_parts (h : Known (rules dialect) Lawful text t)
    (hkind : t.kind = .importStatement) :
  ∃ front attributes rest, t.children = front ++ (attributes ++ rest)
    ∧ AllOfKind (· ≠ .importStatement) front ∧ AllOfKind (· ≠ .importStatement) rest
    ∧ ∀ u ∈ attributes ++ rest, u.kind ≠ .importClause
  := by
  have hbody : bodyOf? t.kind = some importParts := by rw [hkind]; rfl
  obtain ⟨c, c', ts, u, us, hc, hreads, hdrop, hchildren, -, -⟩ := h.body hbody
  obtain ⟨_, _, _, rfl, h₁, hreads⟩ := reads_seq_cons hreads
  obtain ⟨_, taken, _, rfl, h₂, hreads⟩ := reads_seq_cons hreads
  obtain ⟨_, attributes, _, rfl, h₃, hreads⟩ := reads_seq_cons hreads
  obtain ⟨_, rest, _, rfl, h₄, hreads⟩ := reads_seq_cons hreads
  obtain ⟨rfl, -⟩ := reads_seq_nil hreads
  have htaken : AllOfKind (· ≠ .importStatement) taken := by
    apply h₂.no_statement
    simp [importTaken, importClause, importBindings, importTargets, importNames, inBraces,
      listedLoosely, listed, specifier, exported, anyWord, declared, fromSource, importSource,
      openBrace, closeBrace, Peg.opt, Peg.ahead, kw, sym, Peg.Makes, Peg.MakesOf]
  have hrest := h₄.allOfKind_ending
  obtain ⟨comments, c₁, n, rfl, hcomments, -, -, -⟩ := reads_leaf h₁ hc
  rw [List.append_assoc, List.singleton_append, dropWhile_isComment hcomments rfl] at hdrop
  rw [List.append_nil] at hdrop
  cases hdrop
  refine ⟨c₁.leaf (.token "import") (n + 1) :: taken, attributes, rest, hchildren, ?_, ?_, ?_⟩
  · exact (allOfKind_nil.over (by decide) none _ _).append htaken
  · exact fun v hv w hw => (hrest v hv w hw).1
  · apply List.forall_mem_append.mpr ⟨h₃.no_clause, ?_⟩
    intro v hv
    apply (hrest v hv v (.refl v)).2

/-- Comments and a token are no block of names. -/
theorem no_block_of_leaf {kind : Kind} {scan : List Char → Nat} {c c' : Cursor} {ts : List Tree}
    (h : Reads (rules dialect) (.leaf kind scan) c ts c') (hc : c.At text)
    (hkind : kind ≠ .namedImports) :
  ∃ front u, ts = front ++ [u] ∧ (∀ v ∈ front, v.kind ≠ .namedImports) ∧ u.kind ≠ .namedImports
  := by
  obtain ⟨comments, c₁, n, rfl, hcomments, -, -, -⟩ := reads_leaf h hc
  refine ⟨comments, _, rfl, ?_, hkind⟩
  intro v hv
  apply kind_ne_of_isComment (hcomments v hv) (by decide)

/-- The module as a whole or a block of names is one tree behind the comments before it. -/
theorem reads_importTargets {c c' : Cursor} {ts : List Tree}
    (h : Reads (rules dialect) (.alt importTargets) c ts c') (hc : c.At text) :
  ∃ comments u, ts = comments ++ [u] ∧ (∀ v ∈ comments, isComment v = true)
    ∧ isComment u = false
  := by
  cases h with
  | alt hp h =>
    simp only [importTargets, List.mem_cons, List.not_mem_nil, or_false] at hp
    rcases hp with rfl | rfl
    · obtain ⟨comments, u, hts, hcomments, hkind⟩ := reads_node h hc
      refine ⟨comments, u, hts, hcomments, ?_⟩
      rw [isComment, hkind]
      rfl
    · obtain ⟨comments, u, hts, hcomments, hkind⟩ := reads_node h hc
      refine ⟨comments, u, hts, hcomments, ?_⟩
      rw [isComment, hkind]
      rfl

/-- A block of names is the last thing that an import binds. -/
theorem reads_importBindings {c c' : Cursor} {ts : List Tree}
    (h : Reads (rules dialect) importBindings c ts c') (hc : c.At text) :
  ∃ front u, ts = front ++ [u] ∧ ∀ v ∈ front, v.kind ≠ .namedImports
  := by
  cases h with
  | alt hp h =>
    rcases List.mem_append.mp hp with hp | hp
    · obtain ⟨comments, u, hts, hcomments, -⟩ := reads_importTargets (.alt hp h) hc
      refine ⟨comments, u, hts, ?_⟩
      intro v hv
      apply kind_ne_of_isComment (hcomments v hv) (by decide)
    · rw [List.mem_singleton.mp hp] at h
      obtain ⟨c₁, _, _, rfl, h₁, h⟩ := reads_seq_cons h
      obtain ⟨_, _, _, rfl, h₂, h⟩ := reads_seq_cons h
      obtain ⟨rfl, -⟩ := reads_seq_nil h
      obtain ⟨front, u, rfl, hfront, hu⟩ := no_block_of_leaf h₁ hc (by decide)
      rcases reads_opt h₂ with ⟨rfl, -⟩ | h₂
      · exact ⟨front, u, by simp, hfront⟩
      · obtain ⟨_, _, _, rfl, h₃, h₂⟩ := reads_seq_cons h₂
        obtain ⟨_, _, _, rfl, h₄, h₂⟩ := reads_seq_cons h₂
        obtain ⟨rfl, -⟩ := reads_seq_nil h₂
        have hc₁ := h₁.at hc
        obtain ⟨front', u', rfl, hfront', hu'⟩ := no_block_of_leaf h₃ hc₁ (by decide)
        obtain ⟨comments, u'', rfl, hcomments, -⟩ := reads_importTargets h₄ (h₃.at hc₁)
        refine ⟨front ++ [u] ++ (front' ++ [u']) ++ comments, u'', by simp, ?_⟩
        simp only [List.forall_mem_append, List.forall_mem_singleton]
        refine ⟨⟨⟨hfront, hu⟩, hfront', hu'⟩, ?_⟩
        intro v hv
        apply kind_ne_of_isComment (hcomments v hv) (by decide)

/-- What an import binds is one tree, or it starts with the name for the default. -/
theorem first_importBindings {c c' : Cursor} {u : Tree} {ts us : List Tree}
    (h : Reads (rules dialect) importBindings c ts c') (hc : c.At text)
    (hdrop : ts.dropWhile isComment = u :: us) :
  us = [] ∨ u.kind = .identifier
  := by
  cases h with
  | alt hp h =>
    rcases List.mem_append.mp hp with hp | hp
    · obtain ⟨comments, v, rfl, hcomments, hv⟩ := reads_importTargets (.alt hp h) hc
      rw [dropWhile_isComment hcomments hv] at hdrop
      cases hdrop
      apply Or.inl rfl
    · rw [List.mem_singleton.mp hp] at h
      obtain ⟨_, _, _, rfl, h₁, -⟩ := reads_seq_cons h
      obtain ⟨comments, c₁, n, rfl, hcomments, -, -, -⟩ := reads_leaf h₁ hc
      rw [List.append_assoc, List.singleton_append, dropWhile_isComment hcomments rfl] at hdrop
      cases hdrop
      apply Or.inr rfl

/-- A block of names is the last part of its clause. -/
theorem Known.clause_parts (h : Known (rules dialect) Lawful text t)
    (hkind : t.kind = .importClause) {u : Tree} (hu : u ∈ t.children)
    (hblock : u.kind = .namedImports) :
  ∃ front, t.children = front ++ [u] ∧ ∀ v ∈ front, v.kind ≠ .namedImports
  := by
  have hbody : bodyOf? t.kind = some importBindings := by rw [hkind]; rfl
  obtain ⟨c, c', ts, w, ws, hc, hreads, hdrop, hchildren, -, -⟩ := h.body hbody
  obtain ⟨front, v, rfl, hfront⟩ := reads_importBindings hreads hc
  obtain ⟨first, hsplit⟩ := List.dropWhile_suffix (l := front ++ [v]) isComment
  rw [hdrop, ← hchildren] at hsplit
  rcases List.eq_nil_or_concat t.children with hnil | ⟨mid, last, hlast⟩
  · rw [hnil] at hu
    cases hu
  · rw [hlast, List.concat_eq_append, ← List.append_assoc] at hsplit
    obtain ⟨rfl, hv⟩ := List.append_inj' hsplit rfl
    cases hv
    have hmid : ∀ v ∈ mid, v.kind ≠ .namedImports := fun v hv =>
      hfront v (List.mem_append_right first hv)
    rw [hlast, List.concat_eq_append] at hu ⊢
    rcases List.mem_append.mp hu with hu | hu
    · cases hmid u hu hblock
    · rw [List.mem_singleton.mp hu]
      exact ⟨mid, rfl, hmid⟩

/-- A clause has one part, or its first part is the name for the default. -/
theorem Known.clause_first (h : Known (rules dialect) Lawful text t)
    (hkind : t.kind = .importClause) :
  ∃ u us, t.children = u :: us ∧ (us = [] ∨ u.kind = .identifier)
  := by
  have hbody : bodyOf? t.kind = some importBindings := by rw [hkind]; rfl
  obtain ⟨c, c', ts, u, us, hc, hreads, hdrop, hchildren, -, -⟩ := h.body hbody
  exact ⟨u, us, hchildren, first_importBindings hreads hc hdrop⟩

/-- A block of names ends with a brace. -/
theorem Known.block_ends (h : Known (rules dialect) Lawful text t)
    (hkind : t.kind = .namedImports) :
  OffMargin text t.stop
  := by
  have hbody : bodyOf? t.kind = some importNames := by rw [hkind]; rfl
  obtain ⟨-, hlast, -⟩ := h.signs hbody
  apply offMargin_of_charBefore hlast rfl

end Parts

end Grammar

/-! ### Statements of a document -/

namespace Document

open Grammar Text

/-- A statement with the block of names in its clause. -/
structure HasBlock (n clause block : Node) : Prop where
  clause_eq : n.childOfKind? .importClause = some clause
  block_eq : clause.childOfKind? .namedImports = some block

theorem HasBlock.eq {n clause clause' block block' : Node} (h : HasBlock n clause block)
    (h' : HasBlock n clause' block') :
  clause' = clause ∧ block' = block
  := by
  obtain rfl := Option.some.inj (h'.clause_eq.symm.trans h.clause_eq)
  obtain rfl := Option.some.inj (h'.block_eq.symm.trans h.block_eq)
  exact ⟨rfl, rfl⟩

/-- Where the clause and the block of a statement stand. -/
structure BlockSpan (d : Document) (n clause block : Node) : Prop where
  clause_start : n.start ≤ clause.start
  block_start : clause.start ≤ block.start
  nonempty : block.start < block.stop
  block_stop : block.stop ≤ n.stop
  start_boundary : Boundary d.text block.start
  stop_boundary : Boundary d.text block.stop
  off_margin : OffMargin d.text block.stop
  parts : ∀ part ∈ clause.namedChildren, part.kind ≠ .namedImports →
    clause.start < part.stop ∧ part.stop ≤ block.start ∧ Boundary d.text part.stop

section Statement

variable {d : Document} {dialect : Dialect} {n m clause block : Node}
  (hd : d.WellRead dialect) (hn : n ∈ d.nodes) (hkind : n.kind = .importStatement)

include hd hn hkind

/-- An import statement covers a piece of the text that starts with a keyword and does not end at a
margin. -/
theorem WellRead.statement_span :
  Boundary d.text n.start ∧ Boundary d.text n.stop ∧ n.start < n.stop
    ∧ charAt d.text n.start = some 'i' ∧ OffMargin d.text n.stop
  := by
  obtain ⟨hknown, hspan⟩ := hd.known_node hn (by rw [hkind]; nofun)
  exact ⟨hknown.start, hknown.stop, hspan, hknown.import_ends hkind⟩

variable (hblock : HasBlock n clause block)

include hblock

/-- A block of names is the last part of its clause, which lies within the statement. -/
theorem WellRead.block_span :
  d.BlockSpan n clause block
  := by
  obtain ⟨hclause, hclauseKind⟩ := Node.mem_children_of_childOfKind? hblock.clause_eq
  obtain ⟨hmem, hblockKind⟩ := Node.mem_children_of_childOfKind? hblock.block_eq
  have hclauseListed := Node.mem_of_mem_children hn hclause
  have hnrow := (hd.known_node hn (by rw [hkind]; nofun)).1.row
  obtain ⟨hknown, -⟩ := hd.known_node hclauseListed (by rw [hclauseKind]; nofun)
  have hbknown := hd.known_child hclauseListed (Node.tree_mem_children hmem)
  have hclauseSpan := hnrow.mem (Node.tree_mem_children hclause)
  have hblockSpan := hknown.row.mem (Node.tree_mem_children hmem)
  constructor
  · apply hclauseSpan.1
  · apply hblockSpan.1
  · apply hblockSpan.2.1
  · apply Nat.le_trans hblockSpan.2.2 hclauseSpan.2.2
  · apply hbknown.start
  · apply hbknown.stop
  · apply hbknown.block_ends hblockKind
  · intro part hpart hne
    obtain ⟨u, hu, rfl⟩ := List.mem_map.mp hpart
    have hchild := (List.mem_filter.mp hu).1
    obtain ⟨front, hchildren, -⟩ :=
      hknown.clause_parts hclauseKind (Node.tree_mem_children hmem) hblockKind
    have hrow := hknown.row
    rw [hchildren] at hrow hchild
    rcases List.mem_append.mp hchild with hfront | hlast
    · obtain ⟨-, -, hbefore⟩ := List.pairwise_append.mp hrow.pairwise
      obtain ⟨hstart, hspan, -⟩ := hrow.mem hchild
      have hpknown := hd.known_child hclauseListed (List.mem_filter.mp hu).1
      refine ⟨Nat.lt_of_le_of_lt hstart hspan, ?_, hpknown.stop⟩
      apply hbefore u hfront block.tree (List.mem_singleton_self _)
    · rw [List.mem_singleton.mp hlast] at hne
      cases hne hblockKind

omit hkind in
/-- The specifiers of a block lie within it. -/
theorem WellRead.specifier_span {specifier : Node} (hspec : specifier ∈ Import.specifiers block) :
  block.start ≤ specifier.start ∧ specifier.stop ≤ block.stop
  := by
  obtain ⟨hclause, -⟩ := Node.mem_children_of_childOfKind? hblock.clause_eq
  obtain ⟨hmem, -⟩ := Node.mem_children_of_childOfKind? hblock.block_eq
  have hlisted := Node.mem_of_mem_children (Node.mem_of_mem_children hn hclause) hmem
  obtain ⟨u, hu, rfl⟩ := List.mem_map.mp (List.mem_filter.mp hspec).1
  obtain ⟨hstart, -, hstop⟩ := (hd.nested.part (Node.part_of_mem hlisted)).within
    (.child (List.mem_filter.mp hu).1)
  exact ⟨hstart, hstop⟩

/-- Another statement inside of a statement stands behind the block of names. -/
theorem WellRead.block_before (hm : Tree.Below m.tree n.tree)
    (hmkind : m.kind = .importStatement) :
  block.stop ≤ m.start
  := by
  obtain ⟨hclause, hclauseKind⟩ := Node.mem_children_of_childOfKind? hblock.clause_eq
  obtain ⟨hmem, -⟩ := Node.mem_children_of_childOfKind? hblock.block_eq
  have hclauseListed := Node.mem_of_mem_children hn hclause
  obtain ⟨hknown, -⟩ := hd.known_node hn (by rw [hkind]; nofun)
  have hnested := hd.nested.part (Node.part_of_mem hn)
  have hwithin := (hnested.child (Node.tree_mem_children hclause)).within
    (.child (Node.tree_mem_children hmem))
  obtain ⟨front, attributes, rest, hchildren, hfront, hrest, hno⟩ := hknown.import_parts hkind
  obtain ⟨u, hu, hpart⟩ := hm.exists_child
  have hwithin' := (hnested.child hu).part_within hpart
  have hrow := hknown.row.pairwise
  have hclauseMem := Node.tree_mem_children hclause
  rw [hchildren] at hu hrow hclauseMem
  obtain ⟨-, -, hbefore⟩ := List.pairwise_append.mp hrow
  -- the clause is in the front, and the other statement is behind the front
  rcases List.mem_append.mp hclauseMem with hclauseFront | hclauseMem
  · rcases List.mem_append.mp hu with hu | hu
    · cases hfront u hu m.tree hpart hmkind
    · have := hbefore clause.tree hclauseFront u hu
      change block.tree.stop ≤ m.tree.start
      omega
  · cases hno clause.tree hclauseMem hclauseKind

end Statement

end Document

end Codemod
