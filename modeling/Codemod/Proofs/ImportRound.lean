import Codemod.Proofs.Import
import Codemod.Proofs.Rewrite
import Codemod.Recipe.Unwrap

/-!
# The round on imports

What one round on imports does to the statements that import the component. The edit for a
statement lies on the statement and takes at most its lines along. Two such edits overlap only
when a statement that goes as a whole has another one among its attributes, or when two statements
that go as a whole share the line break before the last line of the text.
-/

namespace Codemod.Unwrap

open Document Text

/-! ### What goes from a statement -/

/-- A specifier stands in the block of names of a statement. -/
def Specifies (statement specifier : Node) : Prop :=
  ∃ clause block, HasBlock statement clause block ∧ specifier ∈ Import.specifiers block

/-- A specifier of a statement goes. -/
def Drops (c : Unwrap) (d : Document) (inUse : List (List Char)) (statement specifier : Node) :
    Prop :=
  Specifies statement specifier ∧ c.keeps d inUse specifier = false

/-- A statement imports names only, and all of them go. -/
def DropsAll (c : Unwrap) (d : Document) (inUse : List (List Char)) (statement : Node) : Prop :=
  ∃ clause block, HasBlock statement clause block ∧ Import.specifiers block ≠ []
    ∧ (∀ specifier ∈ Import.specifiers block, c.keeps d inUse specifier = false)
    ∧ ∀ part ∈ clause.namedChildren, part.kind = .namedImports

variable {c : Unwrap} {d : Document} {dialect : Grammar.Dialect} {inUse : List (List Char)}
  {n m : Node} {e f : Edit}

theorem DropsAll.exists_drops (h : c.DropsAll d inUse n) :
  ∃ specifier, c.Drops d inUse n specifier
  := by
  obtain ⟨clause, block, hblock, hne, hdrop, -⟩ := h
  obtain ⟨specifier, hmem⟩ := List.exists_mem_of_ne_nil _ hne
  exact ⟨specifier, ⟨clause, block, hblock, hmem⟩, hdrop specifier hmem⟩

theorem keeps_eq_false {specifier : Node} :
  c.keeps d inUse specifier = false ↔ Import.exportedName d specifier = c.component
    ∧ Import.localName d specifier ∉ inUse
  := by
  simp [keeps]

/-- A block can be written with any specifiers that stay, if there are some. -/
theorem exists_rebuild (block : Node) {keep : List Node} (h : keep ≠ []) :
  ∃ text, rebuild? d block keep = some text
  := by
  obtain ⟨first, rest, rfl⟩ := List.exists_cons_of_ne_nil h
  simp only [rebuild?]
  split
  · exact ⟨_, rfl⟩
  · exact ⟨_, rfl⟩

section Block

variable {clause block : Node} (hblock : HasBlock n clause block)

include hblock

/-- The specifiers of a statement are those of its block. -/
theorem specifies_iff (specifier : Node) :
  Specifies n specifier ↔ specifier ∈ Import.specifiers block
  := by
  constructor
  · rintro ⟨clause', block', hblock', hmem⟩
    obtain ⟨-, rfl⟩ := hblock.eq hblock'
    exact hmem
  · intro hmem
    exact ⟨clause, block, hblock, hmem⟩

theorem drops_iff (specifier : Node) :
  c.Drops d inUse n specifier
    ↔ specifier ∈ Import.specifiers block ∧ c.keeps d inUse specifier = false
  := by
  rw [Drops, specifies_iff hblock]

theorem dropsAll_iff :
  c.DropsAll d inUse n ↔ Import.specifiers block ≠ []
    ∧ (∀ specifier ∈ Import.specifiers block, c.keeps d inUse specifier = false)
    ∧ ∀ part ∈ clause.namedChildren, part.kind = .namedImports
  := by
  constructor
  · rintro ⟨clause', block', hblock', h⟩
    obtain ⟨rfl, rfl⟩ := hblock'.eq hblock
    apply h
  · intro h
    use clause, block

end Block

/-- Where an edit starts that ends with the block of a clause: with the block, or behind another
part of the clause. -/
def StartsIn (clause block : Node) (s : Nat) : Prop :=
  s = block.start ∨ ∃ part ∈ clause.namedChildren, part.kind ≠ .namedImports ∧ s = part.stop

/-- What becomes of a statement, with the edit for it. -/
inductive Fate (c : Unwrap) (d : Document) (inUse : List (List Char)) (n : Node) :
    Option Edit → Prop where
  /-- Nothing goes. -/
  | stays (h : ∀ specifier, ¬ c.Drops d inUse n specifier) : Fate c d inUse n none
  /-- All goes, and the statement with it. -/
  | goes (h : c.DropsAll d inUse n) : Fate c d inUse n (some (n.removal d.text))
  /-- Something goes, and the edit ends with the block of names. -/
  | shrinks {clause block specifier : Node} {s : Nat} (text : List Char)
      (h : ¬ c.DropsAll d inUse n) (hdrops : c.Drops d inUse n specifier)
      (hblock : HasBlock n clause block) (hs : StartsIn clause block s) :
    Fate c d inUse n (some ⟨s, block.stop, text⟩)

/-- Without a block of names there is nothing to drop. -/
theorem statementEdit?_eq_none (h : ¬ ∃ clause block, HasBlock n clause block) :
  c.statementEdit? d inUse n = none
  := by
  rw [statementEdit?]
  apply Option.eq_none_iff_forall_ne_some.mpr
  intro e he
  obtain ⟨clause, hclause, he⟩ := Option.bind_eq_some_iff.mp he
  obtain ⟨block, hblock, -⟩ := Option.bind_eq_some_iff.mp he
  apply h ⟨clause, block, hclause, hblock⟩

theorem fate_statementEdit? (c : Unwrap) (d : Document) (inUse : List (List Char)) (n : Node) :
  c.Fate d inUse n (c.statementEdit? d inUse n)
  := by
  by_cases hexists : ∃ clause block, HasBlock n clause block
  · obtain ⟨clause, block, hblock⟩ := hexists
    rw [statementEdit?, hblock.clause_eq, Option.bind_some, hblock.block_eq, Option.bind_some]
    simp only
    by_cases hall : ∀ specifier ∈ Import.specifiers block, c.keeps d inUse specifier = true
    · rw [if_pos (List.length_filter_eq_length_iff.mpr hall)]
      apply Fate.stays
      intro specifier hdrops
      obtain ⟨hmem, hgoes⟩ := (drops_iff hblock specifier).mp hdrops
      rw [hall specifier hmem] at hgoes
      cases hgoes
    · rw [if_neg fun h => hall (List.length_filter_eq_length_iff.mp h)]
      push Not at hall
      obtain ⟨specifier, hmem, hgoes⟩ := hall
      have hdrops := (drops_iff hblock specifier).mpr ⟨hmem, Bool.eq_false_iff.mpr hgoes⟩
      by_cases hkeep : (Import.specifiers block).filter (c.keeps d inUse) = []
      · rw [hkeep, if_neg (by simp)]
        cases hlast : (clause.namedChildren.filter (·.kind ≠ .namedImports)).getLast? with
        | none =>
          have hparts := List.filter_eq_nil_iff.mp (List.getLast?_eq_none_iff.mp hlast)
          apply Fate.goes
          apply (dropsAll_iff hblock).mpr
          exact ⟨List.ne_nil_of_mem hmem, by simpa using hkeep, by simpa using hparts⟩
        | some last =>
          obtain ⟨hpart, hother⟩ := List.mem_filter.mp (List.mem_of_getLast? hlast)
          have hother : last.kind ≠ .namedImports := of_decide_eq_true hother
          apply Fate.shrinks [] _ hdrops hblock (.inr ⟨last, hpart, hother, rfl⟩)
          intro hdropsAll
          apply hother (((dropsAll_iff hblock).mp hdropsAll).2.2 last hpart)
      · obtain ⟨text, htext⟩ := exists_rebuild (d := d) block hkeep
        rw [if_pos (by simpa using hkeep), htext]
        apply Fate.shrinks text _ hdrops hblock (.inl rfl)
        intro hdropsAll
        apply hkeep
        simpa using ((dropsAll_iff hblock).mp hdropsAll).2.1
  · rw [statementEdit?_eq_none hexists]
    apply Fate.stays
    rintro specifier ⟨⟨clause, block, hblock, -⟩, -⟩
    apply hexists ⟨clause, block, hblock⟩

/-- A statement has an edit exactly when something goes. -/
theorem exists_statementEdit?_iff :
  (∃ e, c.statementEdit? d inUse n = some e) ↔ ∃ specifier, c.Drops d inUse n specifier
  := by
  have hfate := c.fate_statementEdit? d inUse n
  constructor
  · rintro ⟨e, he⟩
    rw [he] at hfate
    cases hfate with
    | goes h => apply h.exists_drops
    | shrinks _ _ hdrops _ _ => exact ⟨_, hdrops⟩
  · rintro ⟨specifier, hdrops⟩
    generalize c.statementEdit? d inUse n = edit at hfate
    cases hfate with
    | stays h => cases h specifier hdrops
    | goes _ => exact ⟨_, rfl⟩
    | shrinks _ _ _ _ _ => exact ⟨_, rfl⟩

/-! ### Where the edit for a statement lies -/

/-- An edit lies on a statement: it starts before the statement ends and ends behind its start, and
it starts behind all that precedes the statement on other lines. -/
structure LiesOn (d : Document) (n : Node) (e : Edit) : Prop where
  boundaries : e.OnBoundaries d.text
  nonneg : 0 ≤ e.start
  nonempty : e.start < e.stop
  limit : e.stop ≤ byteLength d.text
  start_lt : e.start < n.stop
  lt_stop : n.start < e.stop
  le_start : ∀ p : Nat, Boundary d.text p → OffMargin d.text p → p ≤ n.start → p ≤ e.start

section Statement

variable (hd : d.WellRead dialect) (hn : n ∈ d.nodes) (hkind : n.kind = .importStatement)

include hd hn hkind

theorem liesOn_removal :
  LiesOn d n (n.removal d.text)
  := by
  obtain ⟨hstart, hstop, hspan, -, -⟩ := hd.statement_span hn hkind
  obtain ⟨s, t, heq, hs, ht, hsb, htb⟩ := n.removal_span hstart hstop
  have hlimit := htb.le
  constructor
  case le_start =>
    intro p hp hoff hle
    apply Node.le_start_removal hp hstart hle hoff
  all_goals rw [heq]
  case boundaries => exact ⟨hsb, htb⟩
  all_goals
    simp only
    omega

theorem liesOn_part {clause block : Node} {s : Nat} (hblock : HasBlock n clause block)
    (hs : StartsIn clause block s) (text : List Char) :
  n.start ≤ s ∧ s < block.stop ∧ LiesOn d n ⟨s, block.stop, text⟩
  := by
  have hspan := hd.block_span hn hkind hblock
  have hstart := hspan.clause_start
  have hstart' := hspan.block_start
  have hne := hspan.nonempty
  have hstop := hspan.block_stop
  have hlimit := hspan.stop_boundary.le
  have hs' : n.start ≤ s ∧ s < block.stop ∧ Boundary d.text s := by
    rcases hs with rfl | ⟨part, hpart, hother, rfl⟩
    · exact ⟨by omega, hne, hspan.start_boundary⟩
    · obtain ⟨hbehind, hbefore, hboundary⟩ := hspan.parts part hpart hother
      exact ⟨by omega, by omega, hboundary⟩
  obtain ⟨hle, hlt, hboundary⟩ := hs'
  refine ⟨hle, hlt, ?_⟩
  constructor
  case boundaries => exact ⟨hboundary, hspan.stop_boundary⟩
  case le_start =>
    intro p _ _ hp
    apply Int.ofNat_le.mpr (Nat.le_trans hp hle)
  all_goals
    simp only
    omega

theorem liesOn_statementEdit? (he : c.statementEdit? d inUse n = some e) :
  LiesOn d n e
  := by
  have hfate := c.fate_statementEdit? d inUse n
  rw [he] at hfate
  cases hfate with
  | goes _ => apply liesOn_removal hd hn hkind
  | shrinks text _ _ hblock hs => apply (liesOn_part hd hn hkind hblock hs text).2.2

end Statement

/-! ### Two statements -/

/-- The edits for two statements get into each other's way: the first statement goes as a whole and
has the second one inside, or both go as a whole and share a line break. -/
structure Collide (c : Unwrap) (d : Document) (inUse : List (List Char)) (n m : Node) : Prop where
  whole : c.DropsAll d inUse n
  changed : ∃ specifier, c.Drops d inUse m specifier
  clash : Tree.Below m.tree n.tree ∨ (c.DropsAll d inUse m ∧ Node.SharesBreak d.text n m)

section Pair

variable (hd : d.WellRead dialect) (hn : n ∈ d.nodes) (hkind : n.kind = .importStatement)
  (hm : m ∈ d.nodes) (hmkind : m.kind = .importStatement)
  (he : c.statementEdit? d inUse n = some e) (hf : c.statementEdit? d inUse m = some f)

include hd hn hkind hm hmkind he hf

/-- The edit for a statement inside of another one is apart from the edit for that one, unless that
one goes as a whole. -/
theorem apart_iff_of_below (hbelow : Tree.Below m.tree n.tree) :
  e.Apart f ↔ ¬ c.Collide d inUse n m
  := by
  have hlies := liesOn_statementEdit? hd hm hmkind hf
  have hfate := c.fate_statementEdit? d inUse n
  rw [he] at hfate
  cases hfate with
  | goes hall =>
    have hcollide : c.Collide d inUse n m :=
      ⟨hall, exists_statementEdit?_iff.mp ⟨f, hf⟩, .inl hbelow⟩
    have hoverlap : ¬ (n.removal d.text).Apart f := by
      obtain ⟨hstart, hstop, -, -, -⟩ := hd.statement_span hn hkind
      obtain ⟨s, t, heq, hs, ht, -, -⟩ := n.removal_span hstart hstop
      obtain ⟨h₁, -, h₂⟩ := (hd.nested.part (Node.part_of_mem hn)).within hbelow
      have h₁ : n.start ≤ m.start := h₁
      have h₂ : m.stop ≤ n.stop := h₂
      have hstart := hlies.start_lt
      have hstop := hlies.lt_stop
      rw [heq, Edit.Apart]
      simp only
      omega
    exact iff_of_false hoverlap (not_not_intro hcollide)
  | shrinks text hnot _ hblock _ =>
    have hspan := hd.block_span hn hkind hblock
    have hbefore := hd.block_before hn hkind hblock hbelow hmkind
    apply iff_of_true
    · apply Or.inl (hlies.le_start _ hspan.stop_boundary hspan.off_margin hbefore)
    · intro hcollide
      apply hnot hcollide.whole

/-- The edit for a statement is apart from that for a later one, unless both statements go as a
whole and share a line break. -/
theorem apart_iff_of_le (hle : n.stop ≤ m.start) :
  e.Apart f ↔ ¬ c.Collide d inUse n m
  := by
  have hlies := liesOn_statementEdit? hd hn hkind he
  have hlies' := liesOn_statementEdit? hd hm hmkind hf
  obtain ⟨-, hstop, -, -, hoff⟩ := hd.statement_span hn hkind
  obtain ⟨hstart, -, hspan, hkeyword, -⟩ := hd.statement_span hm hmkind
  have hturn : e.Apart f ↔ e.stop ≤ f.start := by
    have hstart := hlies.start_lt
    have hstop := hlies'.lt_stop
    rw [Edit.Apart]
    omega
  have hclash : ¬ Tree.Below m.tree n.tree := by
    intro hbelow
    obtain ⟨-, -, hwithin⟩ := (hd.nested.part (Node.part_of_mem hn)).within hbelow
    have hwithin : m.stop ≤ n.stop := hwithin
    omega
  have hfate := c.fate_statementEdit? d inUse n
  rw [he] at hfate
  rw [hturn]
  cases hfate with
  | goes hall =>
    have hfate' := c.fate_statementEdit? d inUse m
    rw [hf] at hfate'
    cases hfate' with
    | goes hall' =>
      rw [Node.removal_inTurn_iff hstop hstart hle hkeyword rfl hoff]
      apply not_congr
      constructor
      · intro hshares
        exact ⟨hall, hall'.exists_drops, .inr ⟨hall', hshares⟩⟩
      · intro hcollide
        exact (hcollide.clash.resolve_left hclash).2
    | shrinks text hnot' _ hblock hs =>
      have hbehind := (liesOn_part hd hm hmkind hblock hs text).1
      apply iff_of_true
      · apply Int.le_trans (Node.stop_removal_le hstop hstart hle hkeyword rfl)
        apply Int.ofNat_le.mpr hbehind
      · intro hcollide
        apply hnot' (hcollide.clash.resolve_left hclash).1
  | shrinks text hnot _ hblock _ =>
    have hblockStop := (hd.block_span hn hkind hblock).block_stop
    apply iff_of_true
    · apply Int.le_trans (Int.ofNat_le.mpr hblockStop)
      apply hlies'.le_start _ hstop hoff hle
    · intro hcollide
      apply hnot hcollide.whole

end Pair

/-! ### All statements -/

/-- The statements that import the component are import statements, in document order. -/
theorem statements_sublist (c : Unwrap) (d : Document) :
  (c.names d).statements.Sublist (Import.allStatements d)
  := by
  apply List.Sublist.trans List.filter_sublist
  apply List.filter_sublist

theorem mem_statements (h : n ∈ (c.names d).statements) :
  n ∈ d.nodes ∧ n.kind = .importStatement
  := by
  obtain ⟨hn, hkind⟩ := List.mem_filter.mp ((c.statements_sublist d).subset h)
  exact ⟨hn, of_decide_eq_true hkind⟩

theorem pairwise_statements (hd : d.WellRead dialect) :
  (c.names d).statements.Pairwise fun n m => Tree.Below m.tree n.tree ∨ n.stop ≤ m.start
  := by
  have hsublist : (c.names d).statements.Sublist d.nodes :=
    (c.statements_sublist d).trans List.filter_sublist
  apply (Node.pairwise_inOrder hd.nested).sublist hsublist

theorem apart_iff (hd : d.WellRead dialect) (hn : n ∈ (c.names d).statements)
    (hm : m ∈ (c.names d).statements) (hnm : Tree.Below m.tree n.tree ∨ n.stop ≤ m.start)
    (he : c.statementEdit? d inUse n = some e) (hf : c.statementEdit? d inUse m = some f) :
  e.Apart f ↔ ¬ c.Collide d inUse n m
  := by
  obtain ⟨hmem, hkind⟩ := mem_statements hn
  obtain ⟨hmem', hkind'⟩ := mem_statements hm
  rcases hnm with hbelow | hle
  · apply apart_iff_of_below hd hmem hkind hmem' hkind' he hf hbelow
  · apply apart_iff_of_le hd hmem hkind hmem' hkind' he hf hle

theorem liesOn_of_mem (hd : d.WellRead dialect)
    (he : e ∈ c.importEdits d (c.names d) inUse) :
  ∃ n ∈ (c.names d).statements, LiesOn d n e
  := by
  obtain ⟨n, hn, hedit⟩ := List.mem_filterMap.mp he
  obtain ⟨hmem, hkind⟩ := mem_statements hn
  exact ⟨n, hn, liesOn_statementEdit? hd hmem hkind hedit⟩

/-- The edits of the round are apart exactly when no two statements collide. -/
theorem pairwise_apart_iff (hd : d.WellRead dialect) :
  (c.importEdits d (c.names d) inUse).Pairwise Edit.Apart
    ↔ (c.names d).statements.Pairwise fun n m => ¬ c.Collide d inUse n m
  := by
  have horder := pairwise_statements (c := c) hd
  rw [importEdits, List.pairwise_filterMap]
  constructor
  · intro h
    apply (h.and horder).imp_of_mem
    rintro n m hn hm ⟨hapart, hnm⟩ hcollide
    obtain ⟨e, he⟩ := exists_statementEdit?_iff.mpr hcollide.whole.exists_drops
    obtain ⟨f, hf⟩ := exists_statementEdit?_iff.mpr hcollide.changed
    apply (apart_iff hd hn hm hnm he hf).mp (hapart e he f hf) hcollide
  · intro h
    apply (h.and horder).imp_of_mem
    rintro n m hn hm ⟨hnot, hnm⟩ e he f hf
    apply (apart_iff hd hn hm hnm he hf).mpr hnot

/-- The edits of the round can be committed, or two statements collide and two edits overlap. -/
theorem commit_importEdits (hd : d.WellRead dialect) (c : Unwrap) (inUse : List (List Char)) :
  ((c.names d).statements.Pairwise (fun n m => ¬ c.Collide d inUse n m)
    ∧ ∃ result, Edit.commit d.text (c.importEdits d (c.names d) inUse) = .ok result)
  ∨ (¬ (c.names d).statements.Pairwise (fun n m => ¬ c.Collide d inUse n m)
    ∧ ∃ start stop reached, Edit.commit d.text (c.importEdits d (c.names d) inUse)
      = .error (.overlapping start stop reached))
  := by
  rw [← pairwise_apart_iff hd]
  apply Edit.commit_cases
  · intro e he
    obtain ⟨n, -, hlies⟩ := liesOn_of_mem hd he
    exact ⟨hlies.nonneg, Int.le_of_lt hlies.nonempty, hlies.limit⟩
  · intro e he
    obtain ⟨n, -, hlies⟩ := liesOn_of_mem hd he
    apply hlies.boundaries

/-- The edits of a round on imports have spans within the text and are not empty. They can be
committed exactly when no two statements that import the component collide, and when they cannot,
the error is that two of them overlap. -/
theorem importEdits_commit {text : List Char} {language : String} {filename : Option String}
    {lenient : Bool} {d : Document} (h : Document.parse text language filename lenient = .ok d)
    (c : Unwrap) (inUse : List (List Char)) :
  (∀ e ∈ c.importEdits d (c.names d) inUse,
    0 ≤ e.start ∧ e.start < e.stop ∧ e.stop ≤ byteLength text)
  ∧ ((∃ result, Edit.commit text (c.importEdits d (c.names d) inUse) = .ok result)
    ↔ (c.names d).statements.Pairwise fun n m => ¬ c.Collide d inUse n m)
  ∧ ∀ error, Edit.commit text (c.importEdits d (c.names d) inUse) = .error error →
    ∃ start stop reached, error = .overlapping start stop reached
  := by
  obtain ⟨rfl, dialect, hd⟩ := Document.wellRead_of_parse h
  constructor
  · intro e he
    obtain ⟨n, -, hlies⟩ := liesOn_of_mem hd he
    exact ⟨hlies.nonneg, hlies.nonempty, hlies.limit⟩
  rcases commit_importEdits hd c inUse with
    ⟨hpairwise, result, hok⟩ | ⟨hnot, start, stop, reached, herror⟩
  · rw [hok]
    refine ⟨iff_of_true ⟨result, rfl⟩ hpairwise, ?_⟩
    intro error h
    cases h
  · rw [herror]
    constructor
    · apply iff_of_false _ hnot
      rintro ⟨result, hok⟩
      cases hok
    · intro error h
      cases h
      exact ⟨start, stop, reached, rfl⟩

/-- A statement that imports names from the package of the component. -/
def statementOf (names : String) : List Char :=
  "import \x7b".toList ++ names.toList ++ "\x7d from '@shopify/app-bridge-react';".toList

/-- Two statements that import the component, on lines of their own. -/
def twoStatements : List Char :=
  statementOf "Provider" ++ '\n' :: statementOf "Provider as P"

set_option maxRecDepth 100000 in
/-- Statements on lines that end with a line feed go with these lines. -/
theorem importEdits_commit_lines :
  ∃ (c : Unwrap) (d : Document), c = {}
    ∧ Document.parse (twoStatements ++ ['\n']) "tsx" none false = .ok d
    ∧ Edit.commit (twoStatements ++ ['\n']) (c.importEdits d (c.names d) []) = .ok (some [])
    ∧ (c.names d).statements.Pairwise fun n m => ¬ c.Collide d [] n m
  := by
  have hrun : ((Document.parse (twoStatements ++ ['\n']) "tsx" none false).toOption.map fun d =>
      (Edit.commit (twoStatements ++ ['\n'])
        (({} : Unwrap).importEdits d (({} : Unwrap).names d) [])).toOption)
      = some (some (some [])) := by
    decide +kernel
  cases hparse : Document.parse (twoStatements ++ ['\n']) "tsx" none false with
  | error e =>
    rw [hparse] at hrun
    cases hrun
  | ok d =>
    obtain ⟨-, hiff, -⟩ := importEdits_commit hparse {} []
    rw [hparse] at hrun
    cases hcommit : Edit.commit (twoStatements ++ ['\n'])
        (({} : Unwrap).importEdits d (({} : Unwrap).names d) []) with
    | error e =>
      simp only [Except.toOption, Option.map_some, hcommit] at hrun
      cases hrun
    | ok result =>
      simp only [Except.toOption, Option.map_some, hcommit, Option.some.injEq] at hrun
      subst hrun
      exact ⟨_, d, rfl, rfl, hcommit, hiff.mp ⟨_, hcommit⟩⟩

set_option maxRecDepth 100000 in
/-- Without a line feed at the end of the text, the two statements take the same line break. -/
theorem run_overlapping :
  ((Document.parse twoStatements "tsx" none false).toOption.map fun d =>
      (({} : Unwrap).run d).result)
    = some (.error (.edit (.overlapping 51 108 52)))
  := by
  decide +kernel

/-! ### Names that go are not in use -/

/-- A node is a use of a value under some name outside of the import statements. -/
structure Uses (d : Document) (n : Node) (name : List Char) : Prop where
  listed : n ∈ d.nodes
  kind : n.kind = .identifier ∨ n.kind = .shorthandPropertyIdentifier
  outside : ∀ a ∈ n.ancestors, a.kind ≠ .importStatement
  text : d.textOf n = name

theorem mem_inUse {names : List (List Char)} {name : List Char} :
  name ∈ ImportedNames.inUse d names ↔ name ∈ names ∧ ∃ n, Uses d n name
  := by
  have huse (n : Node) : ImportedNames.isUse n = true
      ↔ (n.kind = .identifier ∨ n.kind = .shorthandPropertyIdentifier)
        ∧ ∀ a ∈ n.ancestors, a.kind ≠ .importStatement := by
    simp [ImportedNames.isUse]
  rw [ImportedNames.inUse, List.mem_eraseDups, List.mem_filter, List.mem_map,
    List.contains_iff_mem, and_comm]
  apply and_congr_right
  intro _
  constructor
  · rintro ⟨n, hn, htext⟩
    obtain ⟨hlisted, hn⟩ := List.mem_filter.mp hn
    obtain ⟨hkind, houtside⟩ := (huse n).mp hn
    exact ⟨n, hlisted, hkind, houtside, htext⟩
  · rintro ⟨n, hlisted, hkind, houtside, htext⟩
    exact ⟨n, List.mem_filter.mpr ⟨hlisted, (huse n).mpr ⟨hkind, houtside⟩⟩, htext⟩

section Specifier

variable {statement specifier : Node} (hs : statement ∈ (c.names d).statements)
  (hspec : Specifies statement specifier)

include hs hspec

/-- The local name of the component in a statement that imports it is a local name in the
document. -/
theorem mem_locals (hexported : Import.exportedName d specifier = c.component) :
  Import.localName d specifier ∈ (c.names d).locals
  := by
  obtain ⟨hmem, hlocals⟩ := List.mem_filter.mp hs
  obtain ⟨clause, block, hblock, hspec⟩ := hspec
  apply List.mem_eraseDups.mpr
  apply List.mem_flatMap.mpr
  refine ⟨statement, hmem, ?_⟩
  -- a statement that imports types only gives no local names
  have hvalue : ImportedNames.valueClause? statement = some clause := by
    rw [ImportedNames.valueClause?]
    split
    · rename_i htype
      simp [ImportedNames.localsOf, ImportedNames.valueClause?, htype] at hlocals
    · apply hblock.clause_eq
  rw [ImportedNames.localsOf, hvalue, Option.bind_some, hblock.block_eq]
  apply List.mem_map_of_mem
  apply List.mem_filter.mpr ⟨hspec, decide_eq_true hexported⟩

/-- A specifier goes exactly when it imports the component under a name that no value has. -/
theorem drops_iff_unused :
  c.Drops d (ImportedNames.inUse d (c.names d).locals) statement specifier
    ↔ Import.exportedName d specifier = c.component
      ∧ ∀ n, ¬ Uses d n (Import.localName d specifier)
  := by
  rw [Drops, keeps_eq_false]
  constructor
  · rintro ⟨-, hexported, hunused⟩
    refine ⟨hexported, ?_⟩
    intro n huses
    apply hunused (mem_inUse.mpr ⟨mem_locals hs hspec hexported, n, huses⟩)
  · rintro ⟨hexported, hunused⟩
    refine ⟨hspec, hexported, ?_⟩
    intro hmem
    obtain ⟨-, n, huses⟩ := mem_inUse.mp hmem
    apply hunused n huses

end Specifier

/-- The edit for a statement covers every specifier that goes. -/
theorem exists_covering (hd : d.WellRead dialect) (hn : n ∈ d.nodes)
    (hkind : n.kind = .importStatement) {specifier : Node}
    (hdrops : c.Drops d inUse n specifier) :
  ∃ e, c.statementEdit? d inUse n = some e ∧ e.start ≤ specifier.start
    ∧ specifier.stop ≤ e.stop
  := by
  obtain ⟨e, he⟩ := exists_statementEdit?_iff.mpr ⟨specifier, hdrops⟩
  refine ⟨e, he, ?_⟩
  obtain ⟨⟨clause, block, hblock, hspec⟩, -⟩ := hdrops
  have hspan := hd.block_span hn hkind hblock
  have hwithin := hd.specifier_span hn hblock hspec
  have hstart := hspan.clause_start
  have hstart' := hspan.block_start
  have hstop := hspan.block_stop
  have hfate := c.fate_statementEdit? d inUse n
  rw [he] at hfate
  cases hfate with
  | goes _ =>
    obtain ⟨hstart, hstop, -, -, -⟩ := hd.statement_span hn hkind
    obtain ⟨s, t, heq, hs, ht, -, -⟩ := n.removal_span hstart hstop
    rw [heq]
    simp only
    omega
  | @shrinks _ _ _ s text _ _ hblock' hs =>
    obtain ⟨rfl, rfl⟩ := hblock'.eq hblock
    have hle : s ≤ block.start := by
      rcases hs with rfl | ⟨part, hpart, hother, rfl⟩
      · apply Nat.le_refl
      · apply (hspan.parts part hpart hother).2.1
    simp only
    omega

/-- A specifier of a statement that imports the component goes exactly when it imports the
component and no value outside of the import statements has its local name. An edit of the round
covers each specifier that goes. -/
theorem importRound_unused {text : List Char} {language : String} {filename : Option String}
    {lenient : Bool} {d : Document} (h : Document.parse text language filename lenient = .ok d)
    (c : Unwrap) {statement specifier : Node} (hs : statement ∈ (c.names d).statements)
    (hspec : Specifies statement specifier) :
  (c.Drops d (ImportedNames.inUse d (c.names d).locals) statement specifier
    ↔ Import.exportedName d specifier = c.component
      ∧ ∀ n, ¬ Uses d n (Import.localName d specifier))
  ∧ (c.Drops d (ImportedNames.inUse d (c.names d).locals) statement specifier →
    ∃ e ∈ c.importRound d, e.start ≤ specifier.start ∧ specifier.stop ≤ e.stop)
  := by
  obtain ⟨-, dialect, hd⟩ := Document.wellRead_of_parse h
  refine ⟨drops_iff_unused hs hspec, ?_⟩
  intro hdrops
  obtain ⟨hn, hkind⟩ := mem_statements hs
  obtain ⟨e, hedit, hcovers⟩ := exists_covering hd hn hkind hdrops
  exact ⟨e, List.mem_filterMap.mpr ⟨statement, hs, hedit⟩, hcovers⟩

/-- A script in which a second name of the component is in use. -/
def secondName : List Char :=
  statementOf "Provider, Provider as P" ++ "\nf(P);\n".toList

set_option maxRecDepth 100000 in
/-- One of two names goes when the other one is in use. -/
theorem importRound_unused_second :
  ∃ (c : Unwrap) (d : Document) (statement specifier : Node), c = {}
    ∧ Document.parse secondName "tsx" none false = .ok d
    ∧ statement ∈ (c.names d).statements ∧ Specifies statement specifier
    ∧ c.Drops d (ImportedNames.inUse d (c.names d).locals) statement specifier
    ∧ (∀ n, ¬ Uses d n (Import.localName d specifier))
    ∧ ∃ e ∈ c.importRound d, e.start ≤ specifier.start ∧ specifier.stop ≤ e.stop
  := by
  have hrun : ((Document.parse secondName "tsx" none false).toOption.map fun d =>
      (({} : Unwrap).names d).statements.any fun s =>
        (({} : Unwrap).statementEdit? d
          (ImportedNames.inUse d (({} : Unwrap).names d).locals) s).isSome) = some true := by
    decide +kernel
  cases hparse : Document.parse secondName "tsx" none false with
  | error e =>
    rw [hparse] at hrun
    cases hrun
  | ok d =>
    rw [hparse] at hrun
    obtain ⟨statement, hs, hsome⟩ := List.any_eq_true.mp (Option.some.inj hrun)
    obtain ⟨specifier, hdrops⟩ := exists_statementEdit?_iff.mp (Option.isSome_iff_exists.mp hsome)
    obtain ⟨hiff, hcovers⟩ := importRound_unused hparse {} hs hdrops.1
    exact ⟨_, d, statement, specifier, rfl, rfl, hs, hdrops.1, hdrops, (hiff.mp hdrops).2,
      hcovers hdrops⟩

/-- A script in which the component is in use as a type. -/
def typeUse : List Char :=
  statementOf "Provider" ++ "\nlet p: Provider;\n".toList

set_option maxRecDepth 100000 in
/-- The use of a name as a type does not keep the name: the statement goes, and the name stays
behind. -/
theorem run_type_use :
  ((Document.parse typeUse "tsx" none false).toOption.map fun d =>
      ((({} : Unwrap).run d).result,
        (({} : Unwrap).importRound d).map fun e => (e.start, e.stop),
        (d.nodes.filter fun n => n.kind = .typeIdentifier
          && !n.ancestors.any (·.kind = .importStatement)).map d.textOf))
    = some (.ok (some "let p: Provider;\n".toList), [(0, 52)], ["Provider".toList])
  := by
  decide +kernel

end Codemod.Unwrap
