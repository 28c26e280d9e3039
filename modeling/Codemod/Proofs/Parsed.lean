import Codemod.Document
import Codemod.Proofs.Script

/-!
# Documents that have been parsed

What is known of the tree of a document that comes out of `Document.parse`. The children of every
node stand in a row within its span, spans start and end between characters, and every node but the
root has its origin in the script grammar.
-/

namespace Codemod

open Codemod.Tree Grammar

/-- The tree of a document is nested, and the trees below its root come from the script grammar. -/
structure Document.WellRead (d : Document) (dialect : Dialect) : Prop where
  nested : d.tree.Nested
  program : d.tree.kind = .program
  known : ∀ u, Below u d.tree → Known (Script.rules dialect) Script.Lawful d.text u

namespace Grammar

/-- A row of trees as the children of a script. -/
theorem row_programOf {text : List Char} {ts : List Tree}
    (h : Row 0 (Text.byteLength text) ts) :
  Row (programOf text ts).start (programOf text ts).stop ts
  := by
  cases ts with
  | nil => apply Nat.le_refl
  | cons t ts =>
    obtain ⟨-, h₁, h₂⟩ := h
    use Nat.le_refl _, h₁
    apply h₂

/-- The trees of a script that can be read reach from its beginning to its end. -/
theorem passage_of_read {dialect : Dialect} {text : List Char} {t : Tree}
    (h : read dialect text = .ok t) :
  ∃ ts c, t = programOf text ts ∧ c.rest = []
    ∧ Passage (Script.rules dialect) Script.Lawful text (.start text) ts c
  := by
  rw [read] at h
  split at h
  · cases h
  · rename_i trees c reach hrun
    have hreads := (reads_of_run hrun).passage (Script.every_rules dialect)
      (fun _ _ => Script.Lawful.scan_nil) Script.every_program (.refl (.start text))
    generalize 256 * (text.length + 4) = fuel at h
    have hcomments : Passage (Script.rules dialect) Script.Lawful text c (trivia fuel c).1
        (trivia fuel c).2 := trivia_passage fuel hreads.reaches
    simp only at h
    split at h
    · rename_i hrest
      cases h
      exact ⟨_, _, rfl, List.isEmpty_iff.mp hrest, hreads.append hcomments⟩
    · split at h <;> cases h

end Grammar

namespace Document

/-- A script that can be read makes a well read document. -/
theorem wellRead_of_read {dialect : Dialect} {d : Document}
    (h : read dialect d.text = .ok d.tree) :
  d.WellRead dialect
  := by
  obtain ⟨ts, c, htree, hrest, hreaches, hrow, hknown⟩ := passage_of_read h
  have hend : c.pos = Text.byteLength d.text := by
    obtain ⟨s, hs, hpos⟩ := hreaches
    rw [hrest, List.append_nil] at hs
    rw [hpos, ← hs]
    apply Nat.zero_add
  have hbelow : ∀ u, Below u d.tree → Known (Script.rules dialect) Script.Lawful d.text u := by
    intro u hu
    obtain ⟨t, ht, hpart⟩ := hu.exists_child
    rw [htree] at ht
    apply hknown t ht u hpart
  constructor
  · intro u hu
    rcases hu with rfl | hu
    · rw [htree]
      apply row_programOf
      rw [← hend]
      apply hrow
    · apply (hbelow u hu).row
  · rw [htree]
    rfl
  · apply hbelow

theorem bareTree_start_le (text : List Char) :
  (bareTree text).start ≤ (bareTree text).stop
  := by
  have hpassage : Passage (Script.rules .tsx) Script.Lawful text (.start text)
      (trivia text.length (.start text)).1 (trivia text.length (.start text)).2 :=
    trivia_passage text.length (.refl (.start text))
  have hend := (Cursor.At.boundary hpassage.reaches).le
  have hrow := hpassage.row
  simp only [bareTree, Tree.start, Tree.stop]
  cases hcomments : (trivia text.length (.start text)).1 with
  | nil => apply hend
  | cons t ts =>
    rw [hcomments] at hrow
    have := hrow.mem List.mem_cons_self
    apply Nat.le_trans _ hend
    change t.start ≤ _
    omega

/-- The tree of a text that cannot be read has nothing below its root. -/
theorem wellRead_bareTree {dialect : Dialect} {d : Document} (h : d.tree = bareTree d.text) :
  d.WellRead dialect
  := by
  have hchildren : d.tree.children = [] := by
    rw [h]
    rfl
  constructor
  · intro u hu
    rcases hu with rfl | hu
    · rw [hchildren, h]
      apply bareTree_start_le
    · obtain ⟨t, ht, -⟩ := hu.exists_child
      rw [hchildren] at ht
      cases ht
  · rw [h]
    rfl
  · intro u hu
    obtain ⟨t, ht, -⟩ := hu.exists_child
    rw [hchildren] at ht
    cases ht

/-- A document that comes out of parsing a text has this text and is well read. -/
theorem wellRead_of_parse {text : List Char} {language : String} {filename : Option String}
    {lenient : Bool} {d : Document} (h : parse text language filename lenient = .ok d) :
  d.text = text ∧ ∃ dialect, d.WellRead dialect
  := by
  rw [parse] at h
  split at h
  · cases h
  · rename_i dialect hdialect
    split at h
    · rename_i t ht
      cases h
      exact ⟨rfl, dialect, wellRead_of_read ht⟩
    · split at h
      · cases h
        exact ⟨rfl, dialect, wellRead_bareTree rfl⟩
      · cases h

/-! ### The nodes of a well read document -/

section Nodes

variable {d : Document} {dialect : Dialect} {n m : Node}

/-- A node that is not the script as a whole comes from the grammar. -/
theorem WellRead.known_node (h : d.WellRead dialect) (hn : n ∈ d.nodes)
    (hkind : n.kind ≠ .program) :
  Known (Script.rules dialect) Script.Lawful d.text n.tree ∧ n.start < n.stop
  := by
  rcases Node.part_of_mem hn with heq | hbelow
  · rw [Node.kind, heq] at hkind
    cases hkind h.program
  · use h.known n.tree hbelow
    apply (h.nested.within hbelow).2.1

theorem WellRead.known_child (h : d.WellRead dialect) (hn : n ∈ d.nodes) {u : Tree}
    (hu : u ∈ n.tree.children) :
  Known (Script.rules dialect) Script.Lawful d.text u
  := h.known u ((Below.child hu).part (Node.part_of_mem hn))

/-- A node of a document that is a single word. -/
structure Word (d : Document) (n : Node) : Prop where
  listed : n ∈ d.nodes
  kind : Script.isWord n.kind = true

/-- A word comes from the grammar and is not empty. -/
theorem WellRead.known_word (h : d.WellRead dialect) (hn : d.Word n) :
  Known (Script.rules dialect) Script.Lawful d.text n.tree ∧ n.start < n.stop
  := by
  apply h.known_node hn.listed
  intro hkind
  have hword := hn.kind
  rw [hkind] at hword
  cases hword

/-- A word has no children. -/
theorem WellRead.children_word (h : d.WellRead dialect) (hn : d.Word n) :
  n.tree.children = []
  := by
  obtain ⟨-, -, -, horigin⟩ := (h.known_word hn).1
  have hword : Script.isWord n.tree.kind = true := hn.kind
  cases horigin with
  | comment _ _ _ _ _ hchildren => apply hchildren
  | token _ _ _ _ _ hchildren => apply hchildren
  | node hq _ _ _ _ _ _ =>
    rw [hq.1] at hword
    cases hword
  | step hq hmem _ _ _ _ _ _ =>
    rw [(hq _ hmem).1] at hword
    cases hword

/-- A word stays on its line. -/
theorem WellRead.unbroken_word (h : d.WellRead dialect) (hn : d.Word n) :
  '\n' ∉ d.textOf n
  := by
  obtain ⟨-, -, -, horigin⟩ := (h.known_word hn).1
  have hword : Script.isWord n.tree.kind = true := hn.kind
  cases horigin with
  | comment _ _ hkind _ _ _ =>
    rw [hkind] at hword
    cases hword
  | token hq hc hscan hstart hstop _ =>
    rw [Document.textOf, Node.text, Tree.text, hstart, hstop, hc.slice_advance, ← hscan]
    rcases hq with hq | hq <;> apply hq.2.2.2.1 hword
  | node hq _ _ _ _ _ _ =>
    rw [hq.1] at hword
    cases hword
  | step hq hmem _ _ _ _ _ _ =>
    rw [(hq _ hmem).1] at hword
    cases hword

/-- Two nodes do not overlap, provided that both are words. -/
def WordsApart (d : Document) (n m : Node) : Prop :=
  d.Word n → d.Word m → n.stop ≤ m.start ∨ m.stop ≤ n.start

instance : Std.Symm d.WordsApart where
  symm _ _ h hm hn := (h hn hm).symm

theorem WellRead.pairwise_wordsApart (h : d.WellRead dialect) :
  d.nodes.Pairwise d.WordsApart
  := by
  apply (Node.pairwise_inOrder h.nested).imp
  intro n m hnm hn hm
  rcases hnm with hbelow | hle
  · obtain ⟨u, hu, -⟩ := hbelow.exists_child
    rw [h.children_word hn] at hu
    cases hu
  · apply Or.inl hle

/-- Two different words do not overlap. -/
theorem WellRead.words_apart (h : d.WellRead dialect) (hn : d.Word n) (hm : d.Word m)
    (hne : n ≠ m) :
  n.stop ≤ m.start ∨ m.stop ≤ n.start
  := h.pairwise_wordsApart.forall hn.listed hm.listed hne hn hm

/-- Words that start at one place are one node. -/
theorem WellRead.word_eq (h : d.WellRead dialect) (hn : d.Word n) (hm : d.Word m)
    (hstart : n.start = m.start) :
  n = m
  := by
  by_contra hne
  have hapart := h.words_apart hn hm hne
  have hn' := (h.known_word hn).2
  have hm' := (h.known_word hm).2
  omega

/-- Words are listed once. -/
theorem WellRead.nodup_words (h : d.WellRead dialect) {p : Node → Bool}
    (hp : ∀ n ∈ d.nodes, p n = true → Script.isWord n.kind = true) :
  (d.nodes.filter p).Nodup
  := by
  apply (h.pairwise_wordsApart.sublist List.filter_sublist).imp_of_mem
  rintro n m hn hm hapart rfl
  obtain ⟨hlisted, hpn⟩ := List.mem_filter.mp hn
  have hword : d.Word n := ⟨hlisted, hp n hlisted hpn⟩
  have hnonempty := (h.known_word hword).2
  have := hapart hword hword
  omega

/-- A default in an object pattern stands behind the name that is bound. -/
theorem WellRead.left_of_default {left : Node} (h : d.WellRead dialect) (hn : n ∈ d.nodes)
    (hkind : n.kind = .objectAssignmentPattern) (hleft : n.child? .left = some left) :
  left.kind = .shorthandPropertyIdentifierPattern
  := by
  obtain ⟨-, -, -, horigin⟩ := (h.known_node hn (by rw [hkind]; nofun)).1
  cases horigin with
  | comment _ _ hcomment _ _ _ =>
    rw [Node.kind, hcomment] at hkind
    cases hkind
  | token hq _ _ _ _ _ =>
    rcases hq with hq | hq <;> cases hq.2.2.1 hkind
  | node hq _ _ _ _ _ _ => cases hq.2.1 hkind
  | step hq hmem hbase _ _ hchildren _ _ =>
    obtain ⟨-, -, hdefault, -⟩ := hq _ hmem
    obtain ⟨rfl, hname⟩ := hdefault hkind
    obtain ⟨t, ht, rfl⟩ := Option.map_eq_some_iff.mp hleft
    rw [Tree.child?, hchildren, List.find?_cons_of_pos (by simp [grownFrom])] at ht
    cases ht
    rw [Node.kind_below, (sameButRole_grownFrom _ _).kind]
    apply hname _ hbase

end Nodes

end Document

end Codemod
