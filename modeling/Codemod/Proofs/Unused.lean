import Codemod.Proofs.NamedImports
import Codemod.Proofs.Source

/-!
# Unused specifiers

The round on imports has one edit for each statement from which the component goes under some name,
and none for other statements. What the edit does depends on what is left: a block is written anew
with the specifiers that stay; without any, the block is cut from a clause with a default import;
and a statement that imports nothing else is removed.
-/

namespace Codemod.Unwrap

open Document Grammar Text

/-- A statement imports values, among them the component under a name that is not in use. The
package is named by its source, or by another import or export among its attributes. -/
structure Affected (c : Unwrap) (d : Document) (inUse : List (List Char)) (n : Node) : Prop where
  package : Import.From d c.package n ∨ Import.Mentions d c.package n
  values : Import.isTypeOnly n = false
  unused : ∃ specifier, Specifies n specifier ∧ Import.exportedName d specifier = c.component
    ∧ Import.localName d specifier ∉ inUse

/-- What the edit for a statement does. -/
inductive Rewritten (c : Unwrap) (d : Document) (inUse : List (List Char)) (n : Node) :
    Edit → Prop where
  /-- Some specifiers stay, and the block is written anew with them. -/
  | narrowed {clause block : Node} {inner text : List Char} {kept : List Node}
      (hblock : HasBlock n clause block)
      (hkept : kept = (Import.specifiers block).filter (c.keeps d inUse)) (hne : kept ≠ [])
      (hinner : d.textOf block = '\x7b' :: (inner ++ ['\x7d']))
      (htext : content text = content
        ('\x7b' :: ([','].intercalate (kept.map d.textOf) ++ finalComma inner ++ ['\x7d']))) :
    Rewritten c d inUse n ⟨block.start, block.stop, text⟩
  /-- No specifier stays, and what stands behind the default import, or behind a part that follows
  it, goes up to the end of the block. -/
  | cut {clause block name : Node} {s : Nat} (hblock : HasBlock n clause block)
      (hnone : ∀ specifier ∈ Import.specifiers block, c.keeps d inUse specifier = false)
      (hname : clause.childOfKind? .identifier = some name) (hstart : name.stop ≤ s)
      (hstop : s ≤ block.start) :
    Rewritten c d inUse n ⟨s, block.stop, []⟩
  /-- No specifier stays, there is no default import, and the statement goes. -/
  | removed {clause block : Node} (hblock : HasBlock n clause block)
      (hnone : ∀ specifier ∈ Import.specifiers block, c.keeps d inUse specifier = false)
      (hname : clause.childOfKind? .identifier = none) :
    Rewritten c d inUse n (n.removal d.text)

variable {c : Unwrap} {d : Document} {dialect : Dialect} {inUse : List (List Char)}
  {n clause block : Node} {e : Edit}

/-! ### Which statements are affected -/

theorem exists_drops_iff :
  (∃ specifier, c.Drops d inUse n specifier) ↔ ∃ specifier, Specifies n specifier
    ∧ Import.exportedName d specifier = c.component ∧ Import.localName d specifier ∉ inUse
  := by
  simp only [Drops, keeps_eq_false]

/-- A statement gives local names to an export when it imports values and one of its specifiers
imports the export. -/
theorem localsOf_ne_nil_iff {exported : List Char} :
  ImportedNames.localsOf d exported n ≠ [] ↔ Import.isTypeOnly n = false
    ∧ ∃ specifier, Specifies n specifier ∧ Import.exportedName d specifier = exported
  := by
  cases htype : Import.isTypeOnly n with
  | true => simp [ImportedNames.localsOf, ImportedNames.valueClause?, htype]
  | false =>
    have hvalue : ImportedNames.valueClause? n = n.childOfKind? .importClause := by
      simp [ImportedNames.valueClause?, htype]
    rw [ImportedNames.localsOf, hvalue]
    by_cases hexists : ∃ clause block, HasBlock n clause block
    · obtain ⟨clause, block, hblock⟩ := hexists
      rw [hblock.clause_eq, Option.bind_some, hblock.block_eq]
      simp [specifies_iff hblock]
    · have hnone :
          ((n.childOfKind? .importClause).bind (·.childOfKind? .namedImports)) = none := by
        apply Option.eq_none_iff_forall_ne_some.mpr
        intro block hblock
        obtain ⟨clause, hclause, hblock⟩ := Option.bind_eq_some_iff.mp hblock
        exact hexists ⟨clause, block, hclause, hblock⟩
      rw [hnone]
      simp only [ne_eq, not_true_eq_false, true_and, false_iff]
      rintro ⟨specifier, ⟨clause, block, hblock, -⟩, -⟩
      exact hexists ⟨clause, block, hblock⟩

/-- The statements that import the component and have an edit are those that are affected. -/
theorem affected_iff (hd : d.WellRead dialect) (hn : n ∈ Import.allStatements d) :
  (n ∈ (c.names d).statements ∧ ∃ e, c.statementEdit? d inUse n = some e)
    ↔ c.Affected d inUse n
  := by
  obtain ⟨hlisted, hkind⟩ := List.mem_filter.mp hn
  have hstatements : n ∈ (c.names d).statements
      ↔ n.descendants.any (Import.isSource d c.package) = true
        ∧ ImportedNames.localsOf d c.component n ≠ [] := by
    change n ∈ ((Import.allStatements d).filter _).filter _ ↔ _
    rw [List.mem_filter, List.mem_filter]
    simp only [hn, true_and, Bool.not_eq_true', List.isEmpty_eq_false_iff, ne_eq]
  have hpackage {specifier : Node} (h : Specifies n specifier) :
      n.descendants.any (Import.isSource d c.package) = true
        ↔ Import.From d c.package n ∨ Import.Mentions d c.package n := by
    obtain ⟨clause, block, hblock, -⟩ := h
    exact Import.any_isSource_iff hd hlisted (of_decide_eq_true hkind) hblock.clause_eq
  rw [exists_statementEdit?_iff, exists_drops_iff, hstatements, localsOf_ne_nil_iff]
  constructor
  · rintro ⟨⟨hsource, hvalues, -⟩, specifier, hspecifier, hunused⟩
    exact ⟨(hpackage hspecifier).mp hsource, hvalues, specifier, hspecifier, hunused⟩
  · rintro ⟨hsource, hvalues, specifier, hspecifier, hunused⟩
    exact ⟨⟨(hpackage hspecifier).mpr hsource, hvalues, specifier, hspecifier, hunused.1⟩,
      specifier, hspecifier, hunused⟩

/-! ### What becomes of an affected statement -/

/-- A clause with a block of names has the block as its only part, or it starts with the default
import, and then every other part before the block ends behind that import. -/
theorem default_cases (hd : d.WellRead dialect) (hn : n ∈ d.nodes)
    (hblock : HasBlock n clause block) :
  (clause.childOfKind? .identifier = none
      ∧ clause.namedChildren.filter (·.kind ≠ .namedImports) = [])
    ∨ ∃ name, clause.childOfKind? .identifier = some name
      ∧ name ∈ clause.namedChildren.filter (·.kind ≠ .namedImports)
      ∧ ∀ part ∈ clause.namedChildren, name.stop ≤ part.stop
  := by
  obtain ⟨hclause, hclauseKind⟩ := Node.mem_children_of_childOfKind? hblock.clause_eq
  obtain ⟨hmem, hblockKind⟩ := Node.mem_children_of_childOfKind? hblock.block_eq
  obtain ⟨hknown, -⟩ :=
    hd.known_node (Node.mem_of_mem_children hn hclause) (by rw [hclauseKind]; nofun)
  obtain ⟨u, us, hchildren, hfirst⟩ := hknown.clause_first hclauseKind
  have hrow := hknown.row
  have hblockMem := Node.tree_mem_children hmem
  rw [hchildren] at hrow hblockMem
  rw [Node.childOfKind?, Tree.childOfKind?, Node.namedChildren, Tree.namedChildren, hchildren]
  rcases hfirst with rfl | hidentifier
  · apply Or.inl
    have hu : u.kind = .namedImports := by
      rw [← List.mem_singleton.mp hblockMem]
      exact hblockKind
    simp [hu]
  · apply Or.inr
    have hnamed : u.kind.isNamed = true := by rw [hidentifier]; rfl
    refine ⟨clause.below u, ?_, ?_, ?_⟩
    · simp [hidentifier]
    · apply List.mem_filter.mpr
      use List.mem_map_of_mem (List.mem_filter.mpr ⟨List.mem_cons_self, hnamed⟩)
      simp [hidentifier]
    · intro part hpart
      obtain ⟨v, hv, rfl⟩ := List.mem_map.mp hpart
      rcases List.mem_cons.mp (List.mem_filter.mp hv).1 with rfl | hv
      · apply Nat.le_refl
      · obtain ⟨hstart, hspan, -⟩ := hrow.2.2.mem hv
        exact Nat.le_trans hstart (Nat.le_of_lt hspan)

/-- The edit for a statement does one of the three things. -/
theorem rewritten_statementEdit? (hd : d.WellRead dialect) (hn : n ∈ d.nodes)
    (hkind : n.kind = .importStatement) (he : c.statementEdit? d inUse n = some e) :
  c.Rewritten d inUse n e
  := by
  obtain ⟨clause, hclause, he⟩ := Option.bind_eq_some_iff.mp he
  obtain ⟨block, hblockEq, he⟩ := Option.bind_eq_some_iff.mp he
  have hblock : HasBlock n clause block := ⟨hclause, hblockEq⟩
  simp only at he
  split at he
  · cases he
  split at he
  · rename_i hne
    obtain ⟨text, htext, rfl⟩ := Option.map_eq_some_iff.mp he
    have hkept : (Import.specifiers block).filter (c.keeps d inUse) ≠ [] := by simpa using hne
    obtain ⟨hmem, hblockKind⟩ := Node.mem_children_of_childOfKind? hblockEq
    obtain ⟨hclauseMem, -⟩ := Node.mem_children_of_childOfKind? hclause
    obtain ⟨inner, hinner⟩ := exists_inner hd
      (Node.mem_of_mem_children (Node.mem_of_mem_children hn hclauseMem) hmem) hblockKind
    exact .narrowed hblock rfl hkept hinner (content_rebuild? hinner hkept htext)
  · rename_i hempty
    have hnone : ∀ specifier ∈ Import.specifiers block, c.keeps d inUse specifier = false := by
      simpa using hempty
    rcases default_cases hd hn hblock with ⟨hname, hparts⟩ | ⟨name, hname, hmem, hbehind⟩
    · rw [hparts] at he
      cases he
      exact .removed hblock hnone hname
    · split at he
      · rename_i hlast
        rw [List.getLast?_eq_none_iff.mp hlast] at hmem
        cases hmem
      · rename_i last hlast
        cases he
        obtain ⟨hpart, hother⟩ := List.mem_filter.mp (List.mem_of_getLast? hlast)
        have hspan := hd.block_span hn hkind hblock
        exact .cut hblock hnone hname (hbehind last hpart)
          (hspan.parts last hpart (of_decide_eq_true hother)).2.1

/-! ### The edits of the round -/

theorem forall₂_filterMap {α β : Type} {R : α → β → Prop} {f : α → Option β} {as : List α}
    (h : ∀ a ∈ as, ∀ b, f a = some b → R a b) :
  List.Forall₂ R (as.filter fun a => (f a).isSome) (as.filterMap f)
  := by
  induction as with
  | nil => exact .nil
  | cons a as ih =>
    have hrest := ih fun a' ha' => h a' (List.mem_cons_of_mem _ ha')
    cases hf : f a with
    | none => simpa [hf] using hrest
    | some b => simpa [hf] using ⟨h a List.mem_cons_self b hf, hrest⟩

/-- No import statement is listed twice. -/
theorem nodup_allStatements (hd : d.WellRead dialect) :
  (Import.allStatements d).Nodup
  := by
  apply ((Node.pairwise_inOrder hd.nested).sublist List.filter_sublist).imp_of_mem
  rintro n m hn hm hnm rfl
  obtain ⟨hlisted, hkind⟩ := List.mem_filter.mp hn
  obtain ⟨-, -, hspan, -⟩ := hd.statement_span hlisted (of_decide_eq_true hkind)
  rcases hnm with hbelow | hle
  · cases Nat.lt_irrefl _ hbelow.sizeOf_lt
  · cases Nat.lt_irrefl _ (Nat.lt_of_lt_of_le hspan hle)

/-- The round on imports has one edit for each statement that is affected, in the order of the
statements, and none for other statements. -/
theorem importEdits_exact {text : List Char} {language : String} {filename : Option String}
    {lenient : Bool} {d : Document} (h : Document.parse text language filename lenient = .ok d)
    (c : Unwrap) (inUse : List (List Char)) :
  ∃ changed, changed.Sublist (Import.allStatements d) ∧ changed.Nodup
    ∧ (∀ n, n ∈ changed ↔ n ∈ Import.allStatements d ∧ c.Affected d inUse n)
    ∧ List.Forall₂ (c.Rewritten d inUse) changed (c.importEdits d (c.names d) inUse)
  := by
  obtain ⟨-, dialect, hd⟩ := Document.wellRead_of_parse h
  have hsublist : ((c.names d).statements.filter fun n =>
      (c.statementEdit? d inUse n).isSome).Sublist (Import.allStatements d) :=
    List.filter_sublist.trans (c.statements_sublist d)
  refine ⟨_, hsublist, (nodup_allStatements hd).sublist hsublist, ?_, ?_⟩
  · intro n
    rw [List.mem_filter, Option.isSome_iff_exists]
    constructor
    · rintro ⟨hs, hedit⟩
      have hn := (c.statements_sublist d).subset hs
      exact ⟨hn, (affected_iff hd hn).mp ⟨hs, hedit⟩⟩
    · rintro ⟨hn, haffected⟩
      exact (affected_iff hd hn).mpr haffected
  · apply forall₂_filterMap
    intro n hs e he
    obtain ⟨hn, hkind⟩ := mem_statements hs
    exact rewritten_statementEdit? hd hn hkind he

/-- Statements that import the component beside another name, beside a default import, and alone. -/
def threeShapes : List Char :=
  statementOf "A, Provider" ++ "\nimport D, \x7bProvider as P\x7d from ".toList
    ++ "'@shopify/app-bridge-react';\n".toList ++ statementOf "Provider as Q"

set_option maxRecDepth 100000 in
/-- Each of three statements has its edit: a block is written anew, one is cut from behind the
default import, and one statement goes with the line break before it. -/
theorem importEdits_exact_shapes :
  ∃ (d : Document) (changed : List Node), Document.parse threeShapes "tsx" none false = .ok d
    ∧ changed.length = 3 ∧ (∀ n ∈ changed, ({} : Unwrap).Affected d [] n)
    ∧ List.Forall₂ (({} : Unwrap).Rewritten d []) changed
      [⟨7, 20, "\x7bA\x7d".toList⟩, ⟨63, 80, []⟩, ⟨114, 171, []⟩]
  := by
  have hrun : ((Document.parse threeShapes "tsx" none false).toOption.map fun d =>
      ({} : Unwrap).importEdits d (({} : Unwrap).names d) [])
      = some [⟨7, 20, "\x7bA\x7d".toList⟩, ⟨63, 80, []⟩, ⟨114, 171, []⟩] := by
    decide +kernel
  cases hparse : Document.parse threeShapes "tsx" none false with
  | error e =>
    rw [hparse] at hrun
    cases hrun
  | ok d =>
    rw [hparse] at hrun
    obtain ⟨changed, -, -, hchanged, hedits⟩ := importEdits_exact hparse {} []
    have hrun : ({} : Unwrap).importEdits d (({} : Unwrap).names d) [] = _ := Option.some.inj hrun
    rw [hrun] at hedits
    exact ⟨d, changed, rfl, hedits.length_eq, fun n hn => ((hchanged n).mp hn).2, hedits⟩

/-- A statement that imports from another package and has an import from the package of the
component among its attributes. -/
def foreignSource : List Char :=
  "import \x7bProvider\x7d from 'other' with \x7ba: function () \x7b ".toList ++ statementOf "X"
    ++ " \x7d\x7d;\n".toList

set_option maxRecDepth 100000 in
/-- A statement whose source is another package is removed when the package of the component is
mentioned among its attributes. -/
theorem importEdits_foreign :
  ((Document.parse foreignSource "tsx" none false).toOption.map fun d =>
      ((Import.allStatements d).map fun n => (n.child? .source).map d.textOf,
        ({} : Unwrap).importEdits d (({} : Unwrap).names d) []))
    = some ([some "'other'".toList, some "'@shopify/app-bridge-react'".toList], [⟨0, 103, []⟩])
  := by
  decide +kernel

end Codemod.Unwrap
