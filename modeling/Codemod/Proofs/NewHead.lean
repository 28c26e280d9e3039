import Codemod.Proofs.Discovery
import Codemod.Proofs.Inject
import Codemod.Proofs.Source

/-!
# The name of a new head

A document that imports from the head module and has no head gets a new one. Its name is that of a
default import of the head module if there is one, and otherwise the usual name of the head
component, which nothing needs to introduce in the document: an import for its effects, of named
exports or of the whole module is enough for a new head.
-/

namespace Codemod

open Grammar

namespace Import

variable {d : Document} {dialect : Dialect} {n : Node} {package name : List Char}

/-! ### Default imports -/

/-- A statement introduces a name for the default export of what it imports from. -/
def Defaults (d : Document) (n : Node) (name : List Char) : Prop :=
  ∃ clause part, n.childOfKind? .importClause = some clause ∧ part ∈ clause.namedChildren
    ∧ part.kind = .identifier ∧ d.textOf part = name

/-- A name is introduced by a default import of a package. -/
def BindsDefault (d : Document) (package name : List Char) : Prop :=
  ∃ n ∈ d.nodes, n.kind = .importStatement ∧ From d package n ∧ Defaults d n name

theorem ofPart?_byDefault {statement part : Node} {i : Import} :
  ofPart? d package statement part = some i ∧ i.form = .byDefault
    ↔ part.kind = .identifier ∧ i = ⟨.byDefault, d.textOf part, package, statement⟩
  := by
  rw [ofPart?]
  split
  · rename_i hkind
    simp only [hkind, Option.some.injEq, true_and]
    constructor
    · rintro ⟨rfl, -⟩
      rfl
    · rintro rfl
      exact ⟨rfl, rfl⟩
  · rename_i hkind
    constructor
    · rintro ⟨heq, hform⟩
      cases heq
      cases hform
    · rintro ⟨hidentifier, -⟩
      rw [hkind] at hidentifier
      cases hidentifier
  · rename_i hkind
    constructor
    · rintro ⟨heq, hform⟩
      obtain ⟨_, -, rfl⟩ := Option.map_eq_some_iff.mp heq
      cases hform
    · rintro ⟨hidentifier, -⟩
      rw [hkind] at hidentifier
      cases hidentifier
  · rename_i hkind _ _
    constructor
    · rintro ⟨heq, -⟩
      cases heq
    · rintro ⟨hidentifier, -⟩
      cases hkind hidentifier

theorem mem_ofStatement_byDefault (package : List Char) :
  (∃ i ∈ ofStatement d package n, i.form = .byDefault ∧ i.specifier = name) ↔ Defaults d n name
  := by
  rw [ofStatement, Defaults]
  cases hclause : n.childOfKind? .importClause with
  | none =>
    constructor
    · rintro ⟨i, hi, hform, -⟩
      obtain rfl := List.mem_singleton.mp hi
      cases hform
    · rintro ⟨clause, part, heq, -⟩
      cases heq
  | some clause =>
    constructor
    · rintro ⟨i, hi, hform, rfl⟩
      obtain ⟨part, hpart, heq⟩ := List.mem_filterMap.mp hi
      obtain ⟨hkind, rfl⟩ := ofPart?_byDefault.mp ⟨heq, hform⟩
      exact ⟨clause, part, rfl, hpart, hkind, rfl⟩
    · rintro ⟨_, part, heq, hpart, hkind, rfl⟩
      cases heq
      have himport := ofPart?_byDefault.mpr (⟨hkind, rfl⟩ : part.kind = .identifier
        ∧ _ = Import.mk .byDefault (d.textOf part) package n)
      exact ⟨_, List.mem_filterMap.mpr ⟨part, hpart, himport.1⟩, rfl, rfl⟩

/-- The names taken for default imports of a package come from the statements with this source, and
from those with another import or export from it among their attributes. -/
theorem mem_defaultNames (hd : d.WellRead dialect) :
  name ∈ defaultNames d package ↔
    ∃ n ∈ d.nodes, n.kind = .importStatement ∧ (From d package n ∨ Mentions d package n)
      ∧ Defaults d n name
  := by
  have hnames : name ∈ defaultNames d package ↔
      ∃ n ∈ statements d package, Defaults d n name := by
    simp only [defaultNames, List.mem_eraseDups, List.mem_map, List.mem_filter, all,
      List.mem_flatMap, decide_eq_true_iff, ← mem_ofStatement_byDefault package]
    constructor
    · rintro ⟨i, ⟨⟨n, hn, hi⟩, hform⟩, hname⟩
      exact ⟨n, hn, i, hi, hform, hname⟩
    · rintro ⟨n, hn, i, hi, hform, hname⟩
      exact ⟨i, ⟨⟨n, hn, hi⟩, hform⟩, hname⟩
  rw [hnames]
  constructor
  · rintro ⟨n, hn, clause, part, hclause, hpart⟩
    obtain ⟨hall, hsource⟩ := List.mem_filter.mp hn
    obtain ⟨hlisted, hkind⟩ := List.mem_filter.mp hall
    have hkind := of_decide_eq_true hkind
    refine ⟨n, hlisted, hkind, ?_, clause, part, hclause, hpart⟩
    exact (any_isSource_iff hd hlisted hkind hclause).mp hsource
  · rintro ⟨n, hlisted, hkind, hsource, clause, part, hclause, hpart⟩
    have hall : n ∈ allStatements d := List.mem_filter.mpr ⟨hlisted, decide_eq_true hkind⟩
    refine ⟨n, List.mem_filter.mpr ⟨hall, ?_⟩, clause, part, hclause, hpart⟩
    exact (any_isSource_iff hd hlisted hkind hclause).mpr hsource

/-- Without such attributes, they are the names that default imports of the package introduce. -/
theorem mem_defaultNames_iff_bindsDefault (hd : d.WellRead dialect)
    (h : ∀ n ∈ d.nodes, ¬ Mentions d package n) :
  name ∈ defaultNames d package ↔ BindsDefault d package name
  := by
  rw [mem_defaultNames hd]
  constructor
  · rintro ⟨n, hn, hkind, hfrom | hmentions, hdefault⟩
    · exact ⟨n, hn, hkind, hfrom, hdefault⟩
    · cases h n hn hmentions
  · rintro ⟨n, hn, hkind, hfrom, hdefault⟩
    exact ⟨n, hn, hkind, .inl hfrom, hdefault⟩

end Import

namespace Inject

variable {d : Document} {dialect : Dialect} {c : Inject} {n element : Node} {e : Edit}

/-! ### A new head -/

/-- The name of a new head is one of a default import, if there is one. -/
theorem headName_cases (c : Inject) (d : Document) :
  c.headName d ∈ c.importedHeads d
    ∨ c.importedHeads d = [] ∧ c.headName d = c.headComponent
  := by
  rw [headName]
  cases hhead : (Text.sorted ((c.importedHeads d).filter (· ≠ c.headComponent))).head? with
  | some name =>
    have hmem := (Text.perm_sortBy _ _).mem_iff.mp (List.mem_of_head? hhead)
    exact .inl (List.mem_filter.mp hmem).1
  | none =>
    have hnil : (c.importedHeads d).filter (· ≠ c.headComponent) = [] := by
      have hperm := Text.perm_sortBy id ((c.importedHeads d).filter (· ≠ c.headComponent))
      rw [← Text.sorted, List.head?_eq_none_iff.mp hhead] at hperm
      exact hperm.nil_eq.symm
    cases hnames : c.importedHeads d with
    | nil => exact .inr ⟨rfl, rfl⟩
    | cons name names =>
      have husual : name = c.headComponent := by
        have := List.filter_eq_nil_iff.mp hnil name (by simp [hnames])
        simpa using this
      rw [husual]
      exact .inl List.mem_cons_self

theorem mem_of_mem_namedChildren {m : Node} (hn : n ∈ d.nodes) (h : m ∈ n.namedChildren) :
  m ∈ d.nodes
  := by
  obtain ⟨u, hu, rfl⟩ := List.mem_map.mp h
  exact Node.mem_of_mem_children hn (List.mem_map_of_mem (List.mem_filter.mp hu).1)

theorem mem_unparenthesized (limit : Nat) (hn : n ∈ d.nodes) :
  unparenthesized limit n ∈ d.nodes
  := by
  induction limit generalizing n with
  | zero => exact hn
  | succ limit ih =>
    rw [unparenthesized]
    split
    · rename_i inner rest hchildren
      split
      · exact ih (mem_of_mem_namedChildren hn (by simp [hchildren]))
      · exact hn
    · exact hn

/-- What a statement of a document returns is an element of the document. -/
theorem mem_of_returned? (hn : n ∈ d.nodes) (h : returned? n = some element) :
  element ∈ d.nodes ∧ element.kind = .jsxElement
  := by
  rw [returned?] at h
  split at h
  · obtain ⟨hvalue, hkind⟩ := Option.filter_eq_some_iff.mp h
    obtain ⟨value, hhead, rfl⟩ := Option.map_eq_some_iff.mp hvalue
    have hmem := mem_of_mem_namedChildren hn (List.mem_of_head? hhead)
    exact ⟨mem_unparenthesized _ hmem, of_decide_eq_true hkind⟩
  · cases h

/-- A new head is put behind the opening tag of an element. -/
theorem exists_of_blockEdit? {name : List Char} (h : c.blockEdit? d name = some e) :
  ∃ element opening, element ∈ d.nodes ∧ element.kind = .jsxElement
    ∧ element.childOfKind? .jsxOpeningElement = some opening
    ∧ e = opening.insertAfter (c.block d name element)
  := by
  obtain ⟨n, hn, hinto⟩ := List.exists_of_findSome?_eq_some h
  obtain ⟨element, hreturned, hinto⟩ := Option.bind_eq_some_iff.mp hinto
  obtain ⟨hmem, hkind⟩ := mem_of_returned? hn hreturned
  rw [blockInto?] at hinto
  split at hinto
  · cases hinto
  · obtain ⟨opening, hopening, rfl⟩ := Option.map_eq_some_iff.mp hinto
    exact ⟨element, opening, hmem, hkind, hopening, rfl⟩

theorem edits_of_no_heads (h : heads d (c.headComponent :: c.importedHeads d) = []) :
  c.edits d = if c.imports d then (c.blockEdit? d (c.headName d)).toList else []
  := by
  simp [edits, h]

/-- A single insertion behind a part of a text. -/
theorem commit_insertion {before behind inserted : List Char} {p : Nat}
    (hp : Text.byteLength before = p) :
  Edit.commit (before ++ behind) [⟨p, p, inserted⟩]
    = .ok (some (before ++ (inserted ++ behind)))
  := by
  have hinsertion : ∀ e ∈ [(⟨p, p, inserted⟩ : Edit)], Edit.Insertion (before ++ behind) e := by
    intro e he
    rw [List.mem_singleton.mp he]
    exact ⟨rfl, Int.natCast_nonneg p, before, behind, rfl, hp⟩
  rw [Edit.commit_eq_rewriteFrom (List.cons_ne_nil _ _) (Edit.compatible_of_insertions hinsertion)
    fun e he => (hinsertion e he).onBoundaries]
  have horder : Edit.inOrder [(⟨p, p, inserted⟩ : Edit)] = [⟨p, p, inserted⟩] := rfl
  have hfront : Text.slice (before ++ behind) 0 p = before := by
    rw [← hp]
    exact Text.slice_append [] before behind
  have hback : Text.dropBytes (before ++ behind) p = behind := by
    rw [← hp]
    exact Text.dropBytes_append before behind
  rw [horder, Edit.rewriteFrom, Edit.rewriteFrom, Int.toNat_natCast, hfront, hback,
    List.append_assoc]

/-- When a document without heads is changed, it imports from the head module, and a new head is put
right behind the opening tag of an element. The new head has a name that is taken for one of a
default import of the head module, and the usual name if there is none. So where no import or export
stands among the attributes of an import, the name is introduced by a default import of the head
module exactly if some name is. -/
theorem block_bound_iff {text : List Char} {language : String} {filename : Option String}
    {lenient : Bool} {d : Document}
    (hparse : Document.parse text language filename lenient = .ok d) (c : Inject)
    (hheads : heads d (c.headComponent :: c.importedHeads d) = []) {result : List Char}
    (hrun : (c.run d).result = .ok (some result)) :
  c.imports d = true
    ∧ ∃ name element opening before behind,
      element ∈ d.nodes ∧ element.kind = .jsxElement
      ∧ element.childOfKind? .jsxOpeningElement = some opening
      ∧ text = before ++ behind ∧ Text.byteLength before = opening.stop
      ∧ result = before ++ (c.block d name element ++ behind)
      ∧ (∀ x, x ∈ c.importedHeads d ↔ ∃ n ∈ d.nodes, n.kind = .importStatement
        ∧ (Import.From d c.headModule n ∨ Import.Mentions d c.headModule n)
        ∧ Import.Defaults d n x)
      ∧ (name ∈ c.importedHeads d ∨ c.importedHeads d = [] ∧ name = c.headComponent)
      ∧ ((∀ n ∈ d.nodes, ¬ Import.Mentions d c.headModule n) →
        (Import.BindsDefault d c.headModule name ↔ ∃ x, Import.BindsDefault d c.headModule x))
  := by
  obtain ⟨rfl, dialect, hd⟩ := Document.wellRead_of_parse hparse
  rw [run, Report.ofEdits, edits_of_no_heads hheads] at hrun
  split at hrun
  · rename_i himports
    refine ⟨himports, c.headName d, ?_⟩
    cases hblock : c.blockEdit? d (c.headName d) with
    | none =>
      rw [hblock] at hrun
      cases hrun
    | some e =>
      obtain ⟨element, opening, hmem, hkind, hopening, rfl⟩ := exists_of_blockEdit? hblock
      obtain ⟨_, _, _, htagged⟩ := hd.tagged hmem hkind
      have hboundary : Text.Boundary d.text opening.stop := by
        rw [htagged.opening_eq] at hopening
        cases hopening
        exact htagged.inner_start
      obtain ⟨before, behind, htext, hlength⟩ := hboundary
      have hcommit := @commit_insertion before behind (c.block d (c.headName d) element) _ hlength
      rw [hblock, Option.toList_some, Node.insertAfter, htext, hcommit] at hrun
      cases hrun
      have hchosen := headName_cases c d
      refine ⟨element, opening, before, behind, hmem, hkind, hopening, htext, hlength, rfl,
        fun x => Import.mem_defaultNames hd, hchosen, ?_⟩
      intro hno
      have hbinds (x : List Char) : x ∈ c.importedHeads d ↔ Import.BindsDefault d c.headModule x :=
        Import.mem_defaultNames_iff_bindsDefault hd hno
      refine ⟨fun h => ⟨_, h⟩, ?_⟩
      rintro ⟨x, hx⟩
      rcases hchosen with hname | ⟨hnone, -⟩
      · exact (hbinds _).mp hname
      · rw [← hbinds, hnone] at hx
        cases hx
  · cases hrun

/-- A document in which no import has attributes. -/
theorem not_mentions_of_kinds (package : List Char)
    (h : (d.nodes.all fun n => n.kind ≠ .importAttribute) = true) :
  ∀ n ∈ d.nodes, ¬ Import.Mentions d package n
  := by
  rintro n hn ⟨part, hpart, hkind, -⟩
  have hother := List.all_eq_true.mp h part (Node.mem_of_mem_children hn hpart)
  exact of_decide_eq_true hother hkind

theorem eq_ok_of_toOption {ε α : Type} {r : Except ε α} {a : α} (h : r.toOption = some a) :
  r = .ok a
  := by
  cases r with
  | error e => cases h
  | ok b => exact congrArg Except.ok (Option.some.inj h)

/-- A page with two default imports of the head module. -/
def twiceImported : List Char :=
  "import Head from 'next/head';\nimport Top from \"next/head\";\n".toList ++
    "const P = () => \x7b return (<p>\n</p>) \x7d;\n".toList

/-- The page with a new head. -/
def twiceImportedAfter : List Char :=
  "import Head from 'next/head';\nimport Top from \"next/head\";\n".toList ++
    "const P = () => \x7b return (<p>\n  <Top>\n    <b/>\n    <i/>\n  </Top>\n</p>) \x7d;\n".toList

/-- A configuration with short tags. -/
def shortTags : Inject := { metaTag := "<b/>".toList, scriptTag := "<i/>".toList }

set_option maxRecDepth 100000 in
/-- Of two default imports, the new head has the name that is not the usual one. -/
theorem block_bound_iff_renamed :
  ∃ d, Document.parse twiceImported "tsx" none false = .ok d
    ∧ heads d (shortTags.headComponent :: shortTags.importedHeads d) = []
    ∧ (shortTags.run d).result = .ok (some twiceImportedAfter)
    ∧ ∃ name element before behind,
      twiceImported = before ++ behind
      ∧ twiceImportedAfter = before ++ (shortTags.block d name element ++ behind)
      ∧ Import.BindsDefault d "next/head".toList name
  := by
  have hrun : ((Document.parse twiceImported "tsx" none false).toOption.map fun d =>
      (shortTags.importedHeads d, (heads d ["Head".toList, "Head".toList, "Top".toList]).isEmpty,
        d.nodes.all fun n => n.kind ≠ .importAttribute, (shortTags.run d).result.toOption))
      = some (["Head".toList, "Top".toList], true, true, some (some twiceImportedAfter)) := by
    decide +kernel
  cases hparse : Document.parse twiceImported "tsx" none false with
  | error e =>
    rw [hparse] at hrun
    cases hrun
  | ok d =>
    rw [hparse] at hrun
    change some _ = some _ at hrun
    simp only [Option.some.injEq, Prod.mk.injEq] at hrun
    obtain ⟨hnames, hheads, hkinds, hafter⟩ := hrun
    have hheads : heads d (shortTags.headComponent :: shortTags.importedHeads d) = [] := by
      rw [hnames]
      exact List.isEmpty_iff.mp hheads
    have hresult := eq_ok_of_toOption hafter
    obtain ⟨-, name, element, opening, before, behind, -, -, -, htext, -, hblock, hall, hname,
      hbinds⟩ := block_bound_iff hparse shortTags hheads hresult
    refine ⟨d, rfl, hheads, hresult, name, element, before, behind, htext, hblock, ?_⟩
    have hno := not_mentions_of_kinds "next/head".toList hkinds
    apply (hbinds hno).mpr
    obtain ⟨n, hn, hkind, hfrom | hmentions, hdefault⟩ :=
      (hall "Top".toList).mp (by rw [hnames]; simp)
    · exact ⟨_, n, hn, hkind, hfrom, hdefault⟩
    · cases hno n hn hmentions

/-- A page that imports from the head module, but not its default export. -/
def namedImport : List Char :=
  "import \x7b defaultHead \x7d from \"next/head\";\nfunction Page() \x7b\n".toList ++
    "  return <div></div>;\n\x7d\n".toList

/-- The page with a new head. -/
def namedImportAfter : List Char :=
  "import \x7b defaultHead \x7d from \"next/head\";\nfunction Page() \x7b\n".toList ++
    "  return <div>\n    <Head>\n".toList ++
    "      <meta name=\"shopify-api-key\" content=\"%SHOPIFY_API_KEY%\" />\n".toList ++
    "      <script src=\"https://cdn.shopify.com/shopifycloud/app-bridge.js\"></script>\n".toList ++
    "    </Head></div>;\n\x7d\n".toList

set_option maxRecDepth 100000 in
/-- A page may get a new head whose name no default import introduces. -/
theorem block_unbound :
  ∃ d, Document.parse namedImport "tsx" none false = .ok d
    ∧ heads d (({} : Inject).headComponent :: ({} : Inject).importedHeads d) = []
    ∧ (({} : Inject).run d).result = .ok (some namedImportAfter)
    ∧ "<Head>".toList <:+: namedImportAfter
    ∧ ¬ Import.BindsDefault d "next/head".toList "Head".toList
  := by
  have hrun : ((Document.parse namedImport "tsx" none false).toOption.map fun d =>
      (({} : Inject).importedHeads d, (heads d ["Head".toList]).isEmpty,
        (({} : Inject).run d).result.toOption))
      = some ([], true, some (some namedImportAfter)) := by
    decide +kernel
  cases hparse : Document.parse namedImport "tsx" none false with
  | error e =>
    rw [hparse] at hrun
    cases hrun
  | ok d =>
    rw [hparse] at hrun
    change some _ = some _ at hrun
    simp only [Option.some.injEq, Prod.mk.injEq] at hrun
    obtain ⟨hnames, hheads, hafter⟩ := hrun
    refine ⟨d, rfl, ?_, eq_ok_of_toOption hafter, by decide +kernel, ?_⟩
    · rw [hnames]
      exact List.isEmpty_iff.mp hheads
    · rintro ⟨n, hn, hkind, hfrom, hdefault⟩
      obtain ⟨-, dialect, hd⟩ := Document.wellRead_of_parse hparse
      have hmem := (Import.mem_defaultNames hd).mpr ⟨n, hn, hkind, .inl hfrom, hdefault⟩
      change _ ∈ ({} : Inject).importedHeads d at hmem
      rw [hnames] at hmem
      cases hmem

end Inject

end Codemod
