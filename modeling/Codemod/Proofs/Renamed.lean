import Codemod.Proofs.Carried
import Codemod.Proofs.Moved
import Codemod.Proofs.Respelling
import Codemod.Proofs.Rewritten

/-!
# The document after renaming

What becomes of the nodes of a document when its text is rewritten and the new text has the carried
tree: every node stays in its place, and an entry of a pattern that keeps the old name becomes the
new name, a comma and the old name. The text of a node is respelled, that of a word is replaced or
stays, and calls of the method stay calls of the method.
-/

namespace Codemod

/-! ### Respelled parts of a text -/

/-- A part of a text is respelled when each edit in it respells its span. -/
theorem Edit.respelled_rewriteUpTo {change : List Char → List Char → Prop} {source : List Char}
    {r limit : Nat} {es : List Edit} (hr : Text.Boundary source r)
    (hlimit : Text.Boundary source limit) (hle : r ≤ limit)
    (hb : ∀ e ∈ es, e.OnBoundaries source) (hline : InLine limit r es)
    (h : ∀ e ∈ es, change (Text.slice source e.start.toNat e.stop.toNat) e.text) :
  Respelled change (Text.slice source r limit) (rewriteUpTo source limit r es)
  := by
  induction es generalizing r with
  | nil => apply Respelled.refl
  | cons e es ih =>
    obtain ⟨hbe, hb⟩ := List.forall_mem_cons.mp hb
    obtain ⟨he, h⟩ := List.forall_mem_cons.mp h
    obtain ⟨hre, hee, hel⟩ := hline.reached_le List.mem_cons_self
    obtain ⟨h₁, h₂, -, hline⟩ := inLine_cons.mp hline
    have hnat : (e.stop.toNat : Int) = e.stop := by omega
    rw [rewriteUpTo, hr.slice_eq hbe.start hlimit hre (Nat.le_trans hee hel),
      hbe.start.slice_eq hbe.stop hlimit hee hel, List.append_assoc]
    apply Respelled.append_left
    apply Respelled.changed he
    apply ih hbe.stop hel hb (hnat ▸ hline) h

namespace Document

open Codemod.Tree Grammar

variable {d : Document} {dialect : Dialect} {n w : Node}

/-- A node of a document other than the whole of it. -/
structure Inner (d : Document) (n : Node) : Prop where
  listed : n ∈ d.nodes
  below : Below n.tree d.tree

theorem mem_nodes_of_parent {p : Node} (hn : n ∈ d.nodes) (hparent : n.parent? = some p) :
  p ∈ d.nodes
  := by
  rcases Node.parent_mem hn with rfl | ⟨q, hq, hparent', -⟩
  · cases hparent
  · rw [hparent] at hparent'
    cases hparent'
    apply hq

theorem Inner.of_parent {p : Node} (hn : n ∈ d.nodes) (hparent : n.parent? = some p) :
  d.Inner n
  := by
  use hn
  rcases Node.parent_mem hn with rfl | ⟨q, hq, -, hmem⟩
  · cases hparent
  · apply (Below.child hmem).part (Node.part_of_mem hq)

theorem Inner.of_kind (hd : d.WellRead dialect) (hn : n ∈ d.nodes) (hkind : n.kind ≠ .program) :
  d.Inner n
  := by
  use hn
  rcases Node.part_of_mem hn with heq | hbelow
  · rw [Node.kind, heq] at hkind
    cases hkind hd.program
  · apply hbelow

theorem Word.inner (hd : d.WellRead dialect) (hn : d.Word n) :
  d.Inner n
  := by
  apply Inner.of_kind hd hn.listed
  intro hkind
  have hword := hn.kind
  rw [hkind] at hword
  cases hword

/-- One of two nodes stands below the other one, or they do not overlap. -/
def Placed (n m : Node) : Prop :=
  (Below m.tree n.tree ∨ Below n.tree m.tree) ∨ n.stop ≤ m.start ∨ m.stop ≤ n.start

instance : Std.Symm Placed where
  symm _ _ h := h.imp Or.symm Or.symm

/-- A node lies beside a word or around it. -/
theorem WellRead.beside_word (hd : d.WellRead dialect) (hn : n ∈ d.nodes) (hw : d.Word w)
    (hne : n ≠ w) :
  n.stop ≤ w.start ∨ w.stop ≤ n.start ∨ Below w.tree n.tree
  := by
  have hplaced : d.nodes.Pairwise Placed := by
    apply (Node.pairwise_inOrder hd.nested).imp
    rintro n m (hbelow | hle)
    · exact .inl (.inl hbelow)
    · exact .inr (.inl hle)
  rcases hplaced.forall hn hw.listed hne with (hbelow | hbelow) | hle | hle
  · exact .inr (.inr hbelow)
  · obtain ⟨u, hu, -⟩ := hbelow.exists_child
    rw [hd.children_word hw] at hu
    cases hu
  · exact .inl hle
  · exact .inr (.inl hle)

end Document

namespace Rename

open Grammar Alias Document

variable {c : Rename} {d d' : Document} {dialect : Dialect} {n m : Node}

/-! ### The carried tree -/

/-- The edits in the order of the text. -/
def changes (c : Rename) (d : Document) : List Edit := Edit.inOrder (c.edits d)

/-- What an entry of a pattern becomes when it keeps the old name. -/
def keptText (c : Rename) : List Char := c.replacement ++ ", ".toList ++ c.property

/-- The new name, the comma and the old name in place of a leaf. -/
def keptParts (c : Rename) (move : Nat → Nat) (t : Tree) : List Tree :=
  let comma := move t.start + Text.byteLength c.replacement
  [.node t.kind t.role (move t.start) comma [],
    .node (.token ",") none comma (comma + 1) [],
    .node t.kind t.role (comma + 2) (move t.stop) []]

/-- How renaming carries the tree of a document. -/
def carriage (c : Rename) (d : Document) : Carriage where
  move := Edit.moved (c.changes d)
  parts t :=
    if t.children.isEmpty && (c.edits d).contains ⟨t.start, t.stop, c.keptText⟩ then
      some (c.keptParts (Edit.moved (c.changes d)) t)
    else none

theorem parts_eq_some {t : Tree} {ts : List Tree} (h : (c.carriage d).parts t = some ts) :
  t.children = [] ∧ ⟨t.start, t.stop, c.keptText⟩ ∈ c.edits d
    ∧ ts = c.keptParts (Edit.moved (c.changes d)) t
  := by
  obtain ⟨hfront, hts⟩ := Option.ite_none_right_eq_some.mp h
  rw [Bool.and_eq_true, List.isEmpty_iff, List.contains_iff_mem] at hfront
  exact ⟨hfront.1, hfront.2, (Option.some.inj hts).symm⟩

theorem lawful_carriage (c : Rename) (d : Document) :
  (c.carriage d).Lawful
  := by
  constructor
  · intro t ts h
    apply (parts_eq_some h).1
  · intro t ts h u hu
    rw [(parts_eq_some h).2.2] at hu
    simp only [keptParts, List.mem_cons, List.not_mem_nil, or_false] at hu
    rcases hu with rfl | rfl | rfl <;> rfl
  · intro t ts h
    rw [(parts_eq_some h).2.2]
    refine ⟨_, _, rfl, rfl, ?_⟩
    intro v hv
    simp only [List.mem_cons, List.not_mem_nil, or_false] at hv
    rcases hv with rfl | rfl
    · exact .inr rfl
    · exact .inl rfl

/-- A document is what becomes of another one when the property is renamed in it: its text comes out
of the edits, and it is read as the carried tree. -/
structure Becomes (c : Rename) (d d' : Document) : Prop where
  text : d'.text = Edit.rewriteFrom d.text 0 (c.changes d)
  tree : (c.carriage d).carry d.tree = [d'.tree]

/-- Both names are words of their own that the method does not mention, only the property itself
passes the value through, and what makes a function mention the value is in neither name. -/
structure Plain (c : Rename) : Prop where
  through : c.passThrough = none
  indirections : c.indirections = []
  ne : c.replacement ≠ c.property
  apart : Receiver.Apart c.property c.replacement
  methodOld : ¬ c.property <:+: c.method
  methodNew : ¬ c.replacement <:+: c.method
  mentions : ∀ r : Receiver, r.rootName = some c.rootName → ∀ f g,
    Respelled (Spelling c.property c.replacement) f g → r.mentions g = true → r.mentions f = true

/-! ### Rewritten words -/

theorem keptText_ne (c : Rename) :
  c.replacement ≠ c.keptText
  := by
  intro h
  have hlength := congrArg List.length h
  simp only [keptText, List.length_append] at hlength
  have : ", ".toList.length = 2 := rfl
  omega

theorem boundText_cases (c : Rename) (d : Document) :
  c.boundText d = c.replacement ∨ c.boundText d = c.keptText ∧ c.othersOf d c.property ≠ []
  := by
  rw [boundText]
  split
  · apply Or.inl rfl
  · rename_i hothers
    exact .inr ⟨rfl, by simpa using hothers⟩

theorem Rewritten.text_cases {t : List Char} (h : Rewritten c d n t) :
  t = c.replacement ∨ t = c.keptText
  := by
  cases h with
  | member | call | key => exact .inl rfl
  | bound => exact (boundText_cases c d).imp_right And.left

/-- A word that keeps the old name stands in an object pattern. -/
theorem Rewritten.kept {t : List Char} (hd : d.WellRead dialect) (h : Rewritten c d n t)
    (ht : t = c.keptText) :
  n.kind = .shorthandPropertyIdentifierPattern
    ∧ ∃ p, n.parent? = some p ∧ p.kind = .objectPattern
  := by
  cases h with
  | member | call | key => cases keptText_ne c ht
  | bound h ha =>
    rcases boundText_cases c d with heq | ⟨-, hothers⟩
    · rw [heq] at ht
      cases keptText_ne c ht
    · have hdefault := h.others.resolve_left hothers
      use (shorthand_word hd ha (h.shorthand _ ha)).2
      apply shorthand_parent ha (h.shorthand _ ha) (hdefault _ ha)

/-- The word is not rewritten. -/
def Stays (c : Rename) (d : Document) (n : Node) : Prop := ∀ t, ¬ Rewritten c d n t

/-- The word keeps the old name behind the new one. -/
def Kept (c : Rename) (d : Document) (n : Node) : Prop := Rewritten c d n c.keptText

theorem Stays.not_kept (h : Stays c d n) :
  ¬ Kept c d n
  := h _

theorem not_kept_of_parent {p : Node} (hd : d.WellRead dialect) (hparent : n.parent? = some p)
    (hp : p.kind ≠ .objectPattern) :
  ¬ Kept c d n
  := by
  intro h
  obtain ⟨-, q, hq, hkind⟩ := h.kept hd rfl
  rw [hparent] at hq
  cases hq
  contradiction

theorem not_kept_of_kind (hd : d.WellRead dialect)
    (hkind : n.kind ≠ .shorthandPropertyIdentifierPattern) :
  ¬ Kept c d n
  := fun h => hkind (h.kept hd rfl).1

/-- An identifier through which nothing is accessed stays. -/
theorem stays_of_parent {p : Node} (hd : d.WellRead dialect) (hkind : n.kind = .identifier)
    (hparent : n.parent? = some p) (hp : p.kind ≠ .memberExpression) :
  Stays c d n
  := by
  intro t h
  obtain ⟨-, hcall⟩ := h.identifier hd hkind
  obtain ⟨q, hq, hmember⟩ := parent_of_isMethodCall (mem_callsOf_iff.mp hcall).2.2
  rw [hparent] at hq
  cases hq
  contradiction

/-! ### Which leaves are split -/

theorem parts_of_kept (hd : d.WellRead dialect) (h : Kept c d n) :
  (c.carriage d).parts n.tree = some (c.keptParts (Edit.moved (c.changes d)) n.tree)
  := by
  obtain ⟨hword, -⟩ := Rewritten.word hd h
  have hedit : ⟨n.tree.start, n.tree.stop, c.keptText⟩ ∈ c.edits d :=
    (replace_mem_edits_iff hd hword).mpr h
  change (if _ then _ else _) = _
  rw [if_pos]
  simpa [hd.children_word hword] using hedit

theorem parts_of_not_kept (hd : d.WellRead dialect) (hn : n ∈ d.nodes) (h : ¬ Kept c d n) :
  (c.carriage d).parts n.tree = none
  := by
  apply Option.eq_none_iff_forall_ne_some.mpr
  intro ts hts
  obtain ⟨hleaf, hedit, -⟩ := parts_eq_some hts
  obtain ⟨w, t, hw, heq⟩ := (mem_edits_iff hd).mp hedit
  simp only [Node.replace, Edit.mk.injEq] at heq
  obtain ⟨hstart, hstop, rfl⟩ := heq
  obtain ⟨hword, -⟩ := hw.word hd
  have hspan := (hd.known_word hword).2
  have hne : n ≠ w := by
    rintro rfl
    apply h hw
  have hstart : n.start = w.start := by
    change (n.start : Int) = w.start at hstart
    omega
  have hstop : n.stop = w.stop := by
    change (n.stop : Int) = w.stop at hstop
    omega
  rcases hd.beside_word hn hword hne with hle | hle | hbelow
  · omega
  · omega
  · obtain ⟨u, hu, -⟩ := hbelow.exists_child
    rw [hleaf] at hu
    cases hu

/-! ### Offsets and texts -/

theorem compatible_edits (c : Rename) (hd : d.WellRead dialect) :
  Edit.Compatible (Text.byteLength d.text) (c.edits d)
    ∧ ∀ e ∈ c.edits d, e.OnBoundaries d.text
  := by
  have hfits : ∀ e ∈ c.edits d, e.Fits (Text.byteLength d.text) ∧ e.OnBoundaries d.text := by
    intro e he
    obtain ⟨n, t, h, rfl⟩ := (mem_edits_iff hd).mp he
    apply fits_replace hd (h.word hd).1
  exact ⟨⟨fun e he => (hfits e he).1, pairwise_edits hd⟩, fun e he => (hfits e he).2⟩

theorem mem_changes_iff (hd : d.WellRead dialect) {e : Edit} :
  e ∈ c.changes d ↔ ∃ n t, Rewritten c d n t ∧ e = n.replace t
  := by
  rw [changes, (Edit.perm_inOrder _).mem_iff, mem_edits_iff hd]

/-- Renaming gives the text with the changes made, or nothing when there are none. -/
theorem result_run (c : Rename) (hd : d.WellRead dialect) :
  (c.run d).result
    = .ok (if c.edits d = [] then none else some (Edit.rewriteFrom d.text 0 (c.changes d)))
  := by
  rw [run, Report.ofEdits]
  split
  next hnil =>
    rw [hnil]
    rfl
  next hne =>
    obtain ⟨hcompatible, hbounds⟩ := compatible_edits c hd
    rw [Edit.commit_eq_rewriteFrom hne hcompatible hbounds]
    rfl

/-- A text that comes out, read as the carried tree, is what becomes of the document. -/
theorem becomes_of_run (hd : d.WellRead dialect) {result : List Char}
    (hrun : (c.run d).result = .ok (some result)) (hread : d.reread result = .ok d')
    (htree : (c.carriage d).carry d.tree = [d'.tree]) :
  c.edits d ≠ [] ∧ c.Becomes d d'
  := by
  have hne : c.edits d ≠ [] := by
    intro hnil
    rw [run, hnil] at hrun
    cases hrun
  rw [result_run c hd, if_neg hne] at hrun
  cases hrun
  exact ⟨hne, (wellRead_of_parse hread).1, htree⟩

/-- The edits in order are a batch of words that get new texts. -/
theorem batch_changes (hc : c.Plain) (hd : d.WellRead dialect) :
  Edit.Batch d.text (c.changes d)
  := by
  obtain ⟨hcompatible, hbounds⟩ := compatible_edits c hd
  refine ⟨?_, ?_, ?_⟩
  · apply (Edit.compatible_iff_inLine (Edit.pairwise_inOrder _)).mp
    apply Edit.compatible_inOrder.mpr hcompatible
  · intro e he
    apply hbounds e ((Edit.perm_inOrder _).mem_iff.mp he)
  · intro e he
    obtain ⟨n, t, h, rfl⟩ := (mem_changes_iff hd).mp he
    have hspan := (hd.known_word (h.word hd).1).2
    constructor
    · simp only [Node.replace]
      omega
    · simp only [Node.replace]
      have hne := hc.apart.new_ne
      rcases h.text_cases with rfl | rfl
      · apply hne
      · simp [keptText, hne]

/-- A node starts and ends inside of no rewritten word. -/
theorem mark_span (hd : d.WellRead dialect) (hn : d.Inner n) :
  Edit.Mark d.text (c.changes d) n.start ∧ Edit.Mark d.text (c.changes d) n.stop
    ∧ n.start < n.stop
  := by
  have hknown := hd.known n.tree hn.below
  have hspan : n.start < n.stop := (hd.nested.within hn.below).2.1
  have hout : ∀ e ∈ c.changes d, (e.stop ≤ n.start ∨ (n.start : Int) ≤ e.start)
      ∧ (e.stop ≤ n.stop ∨ (n.stop : Int) ≤ e.start) := by
    intro e he
    obtain ⟨w, t, h, rfl⟩ := (mem_changes_iff hd).mp he
    obtain ⟨hword, -⟩ := h.word hd
    simp only [Node.replace]
    by_cases heq : n = w
    · rw [heq]
      omega
    · rcases hd.beside_word hn.listed hword heq with hle | hle | hbelow
      · omega
      · omega
      · have hwithin := (hd.nested.part (Node.part_of_mem hn.listed)).within hbelow
        change n.start ≤ w.start ∧ w.start < w.stop ∧ w.stop ≤ n.stop at hwithin
        omega
  exact ⟨⟨hknown.start, fun e he => (hout e he).1⟩, ⟨hknown.stop, fun e he => (hout e he).2⟩, hspan⟩

section Texts

variable (hc : c.Plain) (hd : d.WellRead dialect) (h : c.Becomes d d')
include hc hd h

/-- The text of a carried node. -/
theorem textOf_whole (hn : d.Inner n) :
  d'.textOf ((c.carriage d).wholeNode n)
    = Edit.rewriteUpTo d.text n.stop n.start (Edit.between (c.changes d) n.start n.stop)
  := by
  obtain ⟨hstart, hstop, hspan⟩ := mark_span (c := c) hd hn
  rw [← (batch_changes hc hd).slice_moved hstart hstop (Nat.le_of_lt hspan), ← h.text]
  rfl

/-- The text of a carried node is respelled. -/
theorem respelled_textOf_whole (hn : d.Inner n) :
  Respelled (Spelling c.property c.replacement) (d.textOf n)
    (d'.textOf ((c.carriage d).wholeNode n))
  := by
  obtain ⟨hstart, hstop, hspan⟩ := mark_span (c := c) hd hn
  have hbatch := batch_changes hc hd
  rw [textOf_whole hc hd h hn]
  apply Edit.respelled_rewriteUpTo hstart.boundary hstop.boundary (Nat.le_of_lt hspan)
  · intro e he
    apply hbatch.bounds e (List.mem_filter.mp he).1
  · apply hbatch.inLine_between
  · intro e he
    obtain ⟨w, t, hw, rfl⟩ := (mem_changes_iff hd).mp (List.mem_filter.mp he).1
    have htext : Text.slice d.text w.start w.stop = c.property := (hw.word hd).2
    simp only [Node.replace, Int.toNat_natCast, htext]
    rcases hw.text_cases with rfl | rfl
    · apply Spelling.renamed
    · apply Spelling.kept

/-- A rewritten word has the text it is rewritten with. -/
theorem textOf_whole_of_rewritten {t : List Char} (hn : Rewritten c d n t) :
  d'.textOf ((c.carriage d).wholeNode n) = t
  := by
  have hedit : n.replace t ∈ c.changes d := (mem_changes_iff hd).mpr ⟨n, t, hn, rfl⟩
  rw [textOf_whole hc hd h ((hn.word hd).1.inner hd),
    (batch_changes hc hd).between_span hedit rfl rfl]
  simp [Edit.rewriteUpTo, Node.replace, Text.slice_self]

/-- Any other word keeps its text. -/
theorem textOf_whole_of_stays (hn : d.Word n) (hstays : Stays c d n) :
  d'.textOf ((c.carriage d).wholeNode n) = d.textOf n
  := by
  have hnone : Edit.between (c.changes d) n.start n.stop = [] := by
    apply List.eq_nil_iff_forall_not_mem.mpr
    intro e he
    obtain ⟨he, hspan⟩ := List.mem_filter.mp he
    obtain ⟨w, t, hw, rfl⟩ := (mem_changes_iff hd).mp he
    obtain ⟨hword, -⟩ := hw.word hd
    have hne : n ≠ w := by
      rintro rfl
      apply hstays t hw
    have := hd.words_apart hn hword hne
    have := (hd.known_word hword).2
    rw [Bool.and_eq_true, decide_eq_true_iff, decide_eq_true_iff] at hspan
    change (n.start : Int) ≤ w.start ∧ (w.stop : Int) ≤ n.stop at hspan
    omega
  rw [textOf_whole hc hd h (hn.inner hd), hnone]
  rfl

/-- A word that has another text than the new names has kept it. -/
theorem stays_of_textOf (hn : d.Word n) (hkept : ¬ Kept c d n)
    (hne : d'.textOf ((c.carriage d).wholeNode n) ≠ c.replacement) :
  Stays c d n ∧ d.textOf n = d'.textOf ((c.carriage d).wholeNode n)
  := by
  have hstays : Stays c d n := by
    intro t ht
    rw [textOf_whole_of_rewritten hc hd h ht] at hne
    rcases ht.text_cases with rfl | rfl
    · contradiction
    · contradiction
  exact ⟨hstays, (textOf_whole_of_stays hc hd h hn hstays).symm⟩

end Texts

/-! ### Names that are kept -/

/-- The new name in place of an entry of a pattern. -/
def newName (c : Rename) (d : Document) (n : Node) : Node :=
  let start := Edit.moved (c.changes d) n.start
  ⟨.node n.kind n.tree.role start (start + Text.byteLength c.replacement) [],
    n.above.map (c.carriage d).whole⟩

/-- The comma behind the new name. -/
def commaAfter (c : Rename) (d : Document) (n : Node) : Node :=
  let start := Edit.moved (c.changes d) n.start + Text.byteLength c.replacement
  ⟨.node (.token ",") none start (start + 1) [], n.above.map (c.carriage d).whole⟩

/-- The old name behind the comma. -/
def oldName (c : Rename) (d : Document) (n : Node) : Node :=
  let start := Edit.moved (c.changes d) n.start + Text.byteLength c.replacement + 2
  ⟨.node n.kind n.tree.role start (Edit.moved (c.changes d) n.stop) [],
    n.above.map (c.carriage d).whole⟩

theorem images_of_kept (hd : d.WellRead dialect) (h : Kept c d n) :
  (c.carriage d).images n = [c.newName d n, c.commaAfter d n, c.oldName d n]
  := by
  rw [Carriage.images, Carriage.carry_of_some (parts_of_kept hd h)]
  rfl

/-- The texts of the two names. -/
theorem textOf_names (hc : c.Plain) (hd : d.WellRead dialect) (h : c.Becomes d d')
    (hn : Kept c d n) :
  d'.textOf (c.newName d n) = c.replacement ∧ d'.textOf (c.oldName d n) = c.property
  := by
  have hinner := (Rewritten.word hd hn).1.inner hd
  obtain ⟨hstart, hstop, hspan⟩ := mark_span (c := c) hd hinner
  have hbetween : Edit.rewriteUpTo d.text n.stop n.start
      (Edit.between (c.changes d) n.start n.stop) = c.keptText := by
    rw [← textOf_whole hc hd h hinner]
    apply textOf_whole_of_rewritten hc hd h hn
  obtain ⟨front, back, htext, hfront, hboth⟩ :=
    (batch_changes hc hd).exists_parts hstart hstop (Nat.le_of_lt hspan)
  rw [hbetween] at htext hboth
  have hcomma : Text.byteLength ", ".toList = 2 := rfl
  constructor
  · change Text.slice d'.text (Edit.moved (c.changes d) n.start)
      (Edit.moved (c.changes d) n.start + Text.byteLength c.replacement) = _
    have hsplit : d'.text = front ++ c.replacement ++ (", ".toList ++ c.property ++ back) := by
      rw [h.text, htext, keptText]
      simp only [List.append_assoc]
    rw [hsplit, ← hfront, ← Text.byteLength_append, Text.slice_append]
  · change Text.slice d'.text
      (Edit.moved (c.changes d) n.start + Text.byteLength c.replacement + 2)
      (Edit.moved (c.changes d) n.stop) = _
    have hsplit : d'.text = front ++ c.replacement ++ ", ".toList ++ c.property ++ back := by
      rw [h.text, htext, keptText]
      simp only [List.append_assoc]
    have hlow : Edit.moved (c.changes d) n.start + Text.byteLength c.replacement + 2
        = Text.byteLength (front ++ c.replacement ++ ", ".toList) := by
      rw [Text.byteLength_append, Text.byteLength_append, hfront, hcomma]
    have hhigh : Edit.moved (c.changes d) n.stop
        = Text.byteLength (front ++ c.replacement ++ ", ".toList ++ c.property) := by
      rw [← hboth, keptText]
      simp only [List.append_assoc]
    rw [hsplit, hlow, hhigh, Text.slice_append]

/-! ### Nodes, children and calls -/

/-- What comes of a node: itself, or the two names and the comma between them. -/
theorem mem_images_iff (hd : d.WellRead dialect) (hn : n ∈ d.nodes) :
  m ∈ (c.carriage d).images n ↔ (¬ Kept c d n ∧ m = (c.carriage d).wholeNode n)
    ∨ Kept c d n ∧ (m = c.newName d n ∨ m = c.commaAfter d n ∨ m = c.oldName d n)
  := by
  by_cases hkept : Kept c d n
  · simp [images_of_kept hd hkept, hkept]
  · simp [Carriage.images_of_none (parts_of_not_kept hd hn hkept), hkept]

theorem mem_nodes_iff (h : c.Becomes d d') :
  m ∈ d'.nodes ↔ ∃ n ∈ d.nodes, m ∈ (c.carriage d).images n
  := Carriage.mem_inOrder_iff (lawful_carriage c d) h.tree

theorem whole_mem (hd : d.WellRead dialect) (h : c.Becomes d d') (hn : n ∈ d.nodes)
    (hkept : ¬ Kept c d n) :
  (c.carriage d).wholeNode n ∈ d'.nodes
  := (mem_nodes_iff h).mpr ⟨n, hn, (mem_images_iff hd hn).mpr (.inl ⟨hkept, rfl⟩)⟩

/-- A node that is no name in an entry and no comma comes of one node. -/
theorem exists_whole (hd : d.WellRead dialect) (h : c.Becomes d d') (hm : m ∈ d'.nodes)
    (hentry : m.kind ≠ .shorthandPropertyIdentifierPattern) (hcomma : m.kind ≠ .token ",") :
  ∃ n ∈ d.nodes, m = (c.carriage d).wholeNode n
  := by
  obtain ⟨n, hn, himage⟩ := (mem_nodes_iff h).mp hm
  rcases (mem_images_iff hd hn).mp himage with ⟨-, rfl⟩ | ⟨hkept, rfl | rfl | rfl⟩
  · exact ⟨n, hn, rfl⟩
  · cases hentry (hkept.kept hd rfl).1
  · cases hcomma rfl
  · cases hentry (hkept.kept hd rfl).1

/-- The child in a role stays in it, but for the entries of object patterns. -/
theorem child?_whole (hd : d.WellRead dialect) (hn : n ∈ d.nodes) (hkind : n.kind ≠ .objectPattern)
    (r : Role) :
  ((c.carriage d).wholeNode n).child? r = (n.child? r).map (c.carriage d).wholeNode
  := by
  apply Carriage.child?_wholeNode (lawful_carriage c d)
  intro m hm
  have hmem := Node.mem_children_of_child? hm
  apply parts_of_not_kept hd (Node.mem_of_mem_children hn hmem)
  apply not_kept_of_parent hd (Node.parent?_of_mem_children hmem) hkind

theorem sameAs_whole (hc : c.Plain) (hd : d.WellRead dialect) (hn : d.Inner n) (hm : d.Inner m) :
  ((c.carriage d).wholeNode n).sameAs ((c.carriage d).wholeNode m) = n.sameAs m
  := by
  have hbatch := batch_changes hc hd
  obtain ⟨hnstart, hnstop, -⟩ := mark_span (c := c) hd hn
  obtain ⟨hmstart, hmstop, -⟩ := mark_span (c := c) hd hm
  apply Bool.eq_iff_iff.mpr
  simp only [Node.sameAs, Tree.sameAs, Bool.and_eq_true, decide_eq_true_iff]
  change (Edit.moved (c.changes d) n.start = Edit.moved (c.changes d) m.start
    ∧ Edit.moved (c.changes d) n.stop = Edit.moved (c.changes d) m.stop) ∧ _ ↔ _
  rw [hbatch.moved_inj hnstart hmstart, hbatch.moved_inj hnstop hmstop]
  rfl

/-- A carried node is at the place of another one exactly when the two nodes are. -/
theorem any_sameAs_whole (hc : c.Plain) (hd : d.WellRead dialect) {p : Node} {r : Role}
    (hp : p ∈ d.nodes) (hkind : p.kind ≠ .objectPattern) (hn : d.Inner n) :
  (((c.carriage d).wholeNode p).child? r).any (·.sameAs ((c.carriage d).wholeNode n))
    = (p.child? r).any (·.sameAs n)
  := by
  rw [child?_whole hd hp hkind]
  cases hchild : p.child? r with
  | none => rfl
  | some m =>
    have hmem := Node.mem_children_of_child? hchild
    apply sameAs_whole hc hd _ hn
    apply Inner.of_parent (Node.mem_of_mem_children hp hmem) (Node.parent?_of_mem_children hmem)

section Calls

variable (hc : c.Plain) (hd : d.WellRead dialect) (h : c.Becomes d d')
include hc hd h

/-- The text of a carried node is a given one exactly when that of the node is, if neither name is
in it. -/
theorem textOf_whole_eq_iff (hn : d.Inner n) {x : List Char} (hold : ¬ c.property <:+: x)
    (hnew : ¬ c.replacement <:+: x) :
  d'.textOf ((c.carriage d).wholeNode n) = x ↔ d.textOf n = x
  := by
  have hrespelled := respelled_textOf_whole hc hd h hn
  constructor
  · rintro rfl
    apply hrespelled.eq_of_new hnew
  · rintro rfl
    apply (hrespelled.eq_of_old hold).symm

theorem any_method_whole {p : Node} {r : Role} (hp : p ∈ d.nodes)
    (hkind : p.kind ≠ .objectPattern) :
  (((c.carriage d).wholeNode p).child? r).any (d'.textOf · = c.method)
    = (p.child? r).any (d.textOf · = c.method)
  := by
  rw [child?_whole hd hp hkind]
  cases hchild : p.child? r with
  | none => rfl
  | some m =>
    have hmem := Node.mem_children_of_child? hchild
    have hm := Inner.of_parent (Node.mem_of_mem_children hp hmem)
      (Node.parent?_of_mem_children hmem)
    exact decide_eq_decide.mpr (textOf_whole_eq_iff hc hd h hm hc.methodOld hc.methodNew)

/-- Calls of the method stay calls of the method, and no others come up. -/
theorem isMethodCall_whole (hn : d.Inner n) :
  c.isMethodCall d' ((c.carriage d).wholeNode n) = c.isMethodCall d n
  := by
  rw [isMethodCall, isMethodCall, Carriage.parent?_wholeNode]
  cases hparent : n.parent? with
  | none => rfl
  | some outer =>
    have houter := mem_nodes_of_parent hn.listed hparent
    simp only [Option.map_some, Option.any_some, Carriage.kind_wholeNode]
    by_cases hkind : outer.kind = .memberExpression
    · have hpattern : outer.kind ≠ .objectPattern := by
        rw [hkind]
        nofun
      have hinner := Inner.of_kind hd houter (by rw [hkind]; nofun)
      rw [any_sameAs_whole hc hd houter hpattern hn,
        any_method_whole hc hd h houter hpattern, Carriage.parent?_wholeNode]
      cases houtermost : outer.parent? with
      | none => rfl
      | some call =>
        have hcall := mem_nodes_of_parent houter houtermost
        simp only [Option.map_some, Option.any_some, Carriage.kind_wholeNode]
        by_cases hcallKind : call.kind = .callExpression
        · rw [any_sameAs_whole hc hd hcall (by rw [hcallKind]; nofun) hinner]
          rfl
        · simp [hcallKind]
    · simp [hkind]

end Calls

/-! ### The default configuration -/

theorem plain_default :
  ({} : Rename).Plain
  := by
  have hsigns : ".?()\n".toList.all (fun x => !"smartGrid".toList.contains x
      && !"action".toList.contains x && !", ".toList.contains x) = true := by decide
  have happart : Receiver.Apart "smartGrid".toList "action".toList := by
    refine ⟨by decide, by decide, ?_, by decide⟩
    intro x hx
    have hx := List.all_eq_true.mp hsigns x hx
    simp only [Bool.and_eq_true, Bool.not_eq_true', List.contains_eq_mem,
      decide_eq_false_iff_not] at hx
    exact ⟨hx.1.1, hx.1.2, hx.2⟩
  refine ⟨rfl, rfl, by decide, happart, by decide, by decide, ?_⟩
  intro r hroot f g h hmentions
  have htoken : Text.lower (r.rootName.getD Receiver.defaultRootName) = ['a', 'p', 'i'] := by
    rw [hroot]
    decide
  simp only [Receiver.mentions, htoken, Bool.and_eq_true, Receiver.occursIn_iff] at hmentions ⊢
  exact ⟨hmentions.1, (Receiver.finds_lowerAfter h [] []).name hmentions.2⟩

end Rename

end Codemod
