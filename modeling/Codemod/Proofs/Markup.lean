import Codemod.Markup
import Codemod.Proofs.Parsed

/-!
# The shape of elements

An element of a parsed document starts with an opening bracket and ends with a closing one. One
with two tags has them as its first and its last child, and what stands between them is text, an
element, an expression in braces or a comment.
-/

namespace Codemod

namespace Grammar

open Codemod.Tree

/-! ### Elements -/

section Elements

open Script

variable {dialect : Dialect} {text : List Char} {t : Tree}

theorem Known.signs_opening (h : Known (rules dialect) Lawful text t)
    (hkind : t.kind = .jsxOpeningElement) :
  Text.charAt text t.start = some '<'
  := by
  have hbody : bodyOf? t.kind = some openingTag := by rw [hkind]; rfl
  obtain ⟨hfirst, -⟩ := h.signs hbody
  apply hfirst

theorem Known.signs_closing (h : Known (rules dialect) Lawful text t)
    (hkind : t.kind = .jsxClosingElement) :
  Text.charAt text t.start = some '<' ∧ Text.charBefore text t.stop = some '>'
  := by
  have hbody : bodyOf? t.kind = some closingTag := by rw [hkind]; rfl
  obtain ⟨hfirst, hlast, -⟩ := h.signs hbody
  exact ⟨hfirst, hlast⟩

theorem Known.signs_empty (h : Known (rules dialect) Lawful text t)
    (hkind : t.kind = .jsxSelfClosingElement) :
  Text.charAt text t.start = some '<' ∧ Text.charBefore text t.stop = some '>'
    ∧ ∃ u v us, t.children = u :: v :: us
  := by
  have hbody : bodyOf? t.kind = some emptyTag := by rw [hkind]; rfl
  apply h.signs hbody

/-- Kinds of what stands between two tags. -/
def isBetweenTags (k : Kind) : Bool :=
  k = .comment || k = .jsxText || k = .htmlCharacterReference || k = .jsxElement
    || k = .jsxSelfClosingElement || k = .jsxExpression

theorem isBetweenTags_kinds {k : Kind} (h : isBetweenTags k = true) :
  k.isNamed = true ∧ k ≠ .jsxOpeningElement ∧ k ≠ .jsxClosingElement
  := by
  simp only [isBetweenTags, Bool.or_eq_true, decide_eq_true_iff] at h
  rcases h with ((((rfl | rfl) | rfl) | rfl) | rfl) | rfl <;> exact ⟨rfl, nofun, nofun⟩

theorem isBetweenTags_of_enclose {kind : Kind} {ts : List Tree} {u : Tree}
    (hkind : isBetweenTags kind = true) (h : u ∈ enclose kind ts) :
  isBetweenTags u.kind = true
  := by
  rcases mem_enclose h with hcomment | heq
  · rw [of_decide_eq_true hcomment]
    rfl
  · rw [heq]
    apply hkind

/-- A child of an element is of one of these kinds. -/
theorem isBetweenTags_of_reads_child {c c' : Cursor} {ts : List Tree}
    (h : Reads (rules dialect) elementChild c ts c') (hc : c.At text) {u : Tree} (hu : u ∈ ts) :
  isBetweenTags u.kind = true
  := by
  rw [elementChild] at h
  cases h with
  | alt hp h =>
    simp only [List.mem_cons, List.not_mem_nil, or_false] at hp
    rcases hp with rfl | rfl | rfl | rfl
    · cases h
      rw [List.mem_singleton.mp hu]
      rfl
    · obtain ⟨comments, c₁, n, rfl, hcomments, -, -, -⟩ := reads_leaf h hc
      rcases List.mem_append.mp hu with hu | hu
      · rw [of_decide_eq_true (hcomments u hu)]
        rfl
      · rw [List.mem_singleton.mp hu]
        rfl
    · cases h with
      | rule h =>
        cases h with
        | alt hp h =>
          simp only [List.mem_cons, List.not_mem_nil, or_false] at hp
          rcases hp with rfl | rfl
          · cases h
            apply isBetweenTags_of_enclose rfl hu
          · cases h
            apply isBetweenTags_of_enclose rfl hu
    · cases h with
      | rule h =>
        cases h
        apply isBetweenTags_of_enclose rfl hu

/-- So are all children between two tags. -/
theorem isBetweenTags_of_reads {p : Script} {c c' : Cursor} {ts : List Tree}
    (h : Reads (rules dialect) p c ts c') (hp : p = .many elementChild) (hc : c.At text) :
  ∀ u ∈ ts, isBetweenTags u.kind = true
  := by
  induction h with
  | manyNil => nofun
  | manyCons h _ _ ih =>
    cases hp
    apply List.forall_mem_append.mpr ⟨fun u hu => isBetweenTags_of_reads_child h hc hu, ?_⟩
    apply ih rfl (h.at hc)
  | _ => cases hp

/-- An element with two tags has them as its first and its last child. -/
theorem Known.tags (h : Known (rules dialect) Lawful text t) (hkind : t.kind = .jsxElement) :
  ∃ opening mid closing, t.children = opening :: (mid ++ [closing])
    ∧ opening.kind = .jsxOpeningElement ∧ closing.kind = .jsxClosingElement
    ∧ (∀ u ∈ mid, isBetweenTags u.kind = true)
    ∧ t.start = opening.start ∧ t.stop = closing.stop
  := by
  have hbody : bodyOf? t.kind = some pairedTags := by rw [hkind]; rfl
  obtain ⟨c, c', ts, u, us, hc, hreads, hdrop, hchildren, hstart, hstop⟩ := h.body hbody
  obtain ⟨_, _, _, rfl, h₁, hreads⟩ := reads_seq_cons hreads
  obtain ⟨_, mid, _, rfl, h₂, hreads⟩ := reads_seq_cons hreads
  obtain ⟨_, _, _, rfl, h₃, hreads⟩ := reads_seq_cons hreads
  obtain ⟨rfl, rfl⟩ := reads_seq_nil hreads
  have hc₁ := h₁.at hc
  have hc₂ := h₂.at hc₁
  have hmid := isBetweenTags_of_reads h₂ rfl hc₁
  obtain ⟨comments, opening, rfl, hcomments, hopening⟩ := reads_tag h₁ hc
  obtain ⟨comments', closing, rfl, hcomments', hclosing⟩ := reads_tag h₃ hc₂
  have hfirst : isComment opening = false := by simp [isComment, hopening]
  rw [List.append_assoc, List.singleton_append, List.append_nil, ← List.append_assoc mid,
    dropWhile_isComment hcomments hfirst] at hdrop
  cases hdrop
  rw [stopOf_concat] at hstop
  refine ⟨_, mid ++ comments', closing, hchildren, hopening, hclosing, ?_, hstart, hstop⟩
  apply List.forall_mem_append.mpr ⟨hmid, ?_⟩
  intro v hv
  rw [of_decide_eq_true (hcomments' v hv)]
  rfl

end Elements

end Grammar

namespace Document

open Grammar Codemod.Tree

/-! ### Elements of a document -/

variable {d : Document} {dialect : Dialect} {n : Node}

theorem isElement_ne_program {k : Kind} (h : Markup.isElement k = true) :
  k ≠ .program
  := by
  rintro rfl
  cases h

/-- The two tags of an element, with the rest of its children between them. -/
structure Tagged (d : Document) (n : Node) (opening closing : Tree) (mid : List Tree) : Prop where
  children : n.tree.children = opening :: (mid ++ [closing])
  opening_kind : opening.kind = .jsxOpeningElement
  closing_kind : closing.kind = .jsxClosingElement
  between : ∀ u ∈ mid, isBetweenTags u.kind = true
  start : n.start = opening.start
  stop : n.stop = closing.stop
  row : Row n.start n.stop (opening :: (mid ++ [closing]))
  inner_start : Text.Boundary d.text opening.stop
  inner_stop : Text.Boundary d.text closing.start
  closing_char : Text.charAt d.text closing.start = some '<'

section Tagged

variable {opening closing : Tree} {mid : List Tree}

/-- A child between two tags starts behind the first one and ends before the second one. -/
theorem Tagged.between_tags (h : d.Tagged n opening closing mid) {u : Tree} (hu : u ∈ mid) :
  opening.stop ≤ u.start ∧ u.stop ≤ closing.start
  := by
  obtain ⟨-, -, hrow⟩ := h.row
  have hstart := (hrow.mem (List.mem_append_left [closing] hu)).1
  obtain ⟨-, -, hpairwise⟩ := List.pairwise_append.mp hrow.pairwise
  exact ⟨hstart, hpairwise u hu closing (List.mem_singleton_self closing)⟩

/-- A child between two tags is neither of them. -/
theorem Tagged.not_sameAs (h : d.Tagged n opening closing mid) {u : Tree} (hu : u ∈ mid) :
  u.sameAs opening = false ∧ u.sameAs closing = false
  := by
  obtain ⟨hstart, hstop⟩ := h.between_tags hu
  have hopening := h.row.mem List.mem_cons_self
  have hclosing := h.row.mem (t := closing) (by simp)
  constructor
  · have hne : u.start ≠ opening.start := by omega
    simp [Tree.sameAs, hne]
  · have hne : u.stop ≠ closing.stop := by omega
    simp [Tree.sameAs, hne]

/-- An element that is a child of another one stands between its tags. -/
theorem Tagged.mem_mid (h : d.Tagged n opening closing mid) {u : Tree}
    (hu : u ∈ n.tree.children) (hkind : Markup.isElement u.kind = true) :
  u ∈ mid
  := by
  rw [h.children] at hu
  rcases List.mem_cons.mp hu with rfl | hu
  · rw [h.opening_kind] at hkind
    cases hkind
  · rcases List.mem_append.mp hu with hu | hu
    · apply hu
    · rw [List.mem_singleton.mp hu, h.closing_kind] at hkind
      cases hkind

theorem Tagged.opening_eq (h : d.Tagged n opening closing mid) :
  n.childOfKind? .jsxOpeningElement = some (n.below opening)
  := by
  rw [Node.childOfKind?, Tree.childOfKind?, h.children,
    List.find?_cons_of_pos (by simp [h.opening_kind])]
  rfl

theorem Tagged.closing_eq (h : d.Tagged n opening closing mid) :
  n.childOfKind? .jsxClosingElement = some (n.below closing)
  := by
  have hmid : mid.find? (·.kind = .jsxClosingElement) = none := by
    apply List.find?_eq_none.mpr
    intro u hu hkind
    have hbetween := h.between u hu
    rw [of_decide_eq_true hkind] at hbetween
    cases hbetween
  rw [Node.childOfKind?, Tree.childOfKind?, h.children,
    List.find?_cons_of_neg (by simp [h.opening_kind]), List.find?_append, hmid, Option.none_or,
    List.find?_cons_of_pos (by simp [h.closing_kind])]
  rfl

end Tagged

theorem WellRead.tagged (h : d.WellRead dialect) (hn : n ∈ d.nodes)
    (hkind : n.kind = .jsxElement) :
  ∃ opening closing mid, d.Tagged n opening closing mid
  := by
  obtain ⟨hknown, -⟩ := h.known_node hn (by rw [hkind]; nofun)
  obtain ⟨opening, mid, closing, hchildren, hopening, hclosing, hmid, hstart, hstop⟩ :=
    hknown.tags hkind
  have hopens := h.known_child hn (u := opening) (by simp [hchildren])
  have hcloses := h.known_child hn (u := closing) (by simp [hchildren])
  have hrow := hknown.row
  rw [hchildren] at hrow
  exact ⟨opening, closing, mid, hchildren, hopening, hclosing, hmid, hstart, hstop, hrow,
    hopens.stop, hcloses.start, (hcloses.signs_closing hclosing).1⟩

/-- An element starts and ends with a bracket and has several children. -/
theorem WellRead.element_ends (h : d.WellRead dialect) (hn : n ∈ d.nodes)
    (hkind : Markup.isElement n.kind = true) :
  Text.charAt d.text n.start = some '<' ∧ Text.charBefore d.text n.stop = some '>'
    ∧ ∃ u v us, n.tree.children = u :: v :: us
  := by
  obtain ⟨hknown, -⟩ := h.known_node hn (isElement_ne_program hkind)
  simp only [Markup.isElement, Bool.or_eq_true, decide_eq_true_iff] at hkind
  rcases hkind with hkind | hkind
  · obtain ⟨opening, closing, mid, htagged⟩ := h.tagged hn hkind
    have hopens := h.known_child hn (u := opening) (by simp [htagged.children])
    have hcloses := h.known_child hn (u := closing) (by simp [htagged.children])
    rw [htagged.start, htagged.stop]
    refine ⟨hopens.signs_opening htagged.opening_kind,
      (hcloses.signs_closing htagged.closing_kind).2, ?_⟩
    cases mid with
    | nil => exact ⟨_, _, _, htagged.children⟩
    | cons => exact ⟨_, _, _, htagged.children⟩
  · apply hknown.signs_empty hkind

/-- An element among the children of another one is followed by the closing tag of that one. -/
theorem WellRead.mem_textBehind (h : d.WellRead dialect) (hn : n ∈ d.nodes)
    (hkind : Markup.isElement n.kind = true) (hchild : Markup.isChild n = true) :
  '<' ∈ n.textBehind d.text
  := by
  obtain ⟨p, hparent, hp⟩ := (Option.any_eq_true _ _).mp hchild
  rcases Node.parent_mem hn with rfl | ⟨q, hq, hparent', hmem⟩
  · cases hparent
  · rw [hparent] at hparent'
    cases hparent'
    obtain ⟨opening, closing, mid, htagged⟩ := h.tagged hq (of_decide_eq_true hp)
    obtain ⟨hknown, -⟩ := h.known_node hn (isElement_ne_program hkind)
    have hstop : Text.Boundary d.text n.stop := hknown.stop
    have hle := (htagged.between_tags (htagged.mem_mid hmem hkind)).2
    obtain ⟨rest, hrest⟩ := Text.exists_of_charAt htagged.closing_char
    rw [Node.textBehind, hstop.dropBytes_eq htagged.inner_stop hle, hrest]
    simp

end Document

end Codemod
