import Codemod.Proofs.Markup
import Codemod.Proofs.Reindent
import Codemod.Proofs.Rewrite
import Codemod.Recipe.Unwrap

/-!
# Unwrapping keeps the content

One round on elements replaces every outermost wrapper by what is to stay of it. The batch can
always be committed, what comes out has the content of the text with the wrappers replaced, and
outside of the wrappers only white space on the lines of removed wrappers goes.
-/

namespace Codemod.Unwrap

open Grammar Text

/-! ### What stays of a wrapper -/

/-- The text between the tags of an element. -/
def inner (d : Document) (n : Node) : List Char :=
  match n.childOfKind? .jsxOpeningElement, n.childOfKind? .jsxClosingElement with
  | some opening, some closing => slice d.text opening.stop closing.start
  | _, _ => []

/-- Whether nothing is to stay of an element: it has no closing tag, or nothing between its tags. -/
def isRemoved (d : Document) (n : Node) : Bool :=
  n.kind = .jsxSelfClosingElement || (inner d n).all isSpace

/-- The children of an element between its tags, comments and blank texts apart. -/
def contents (d : Document) (n : Node) : List Node :=
  n.children.filter fun m =>
    m.kind ≠ .jsxOpeningElement && m.kind ≠ .jsxClosingElement && m.kind ≠ .comment &&
      !(m.kind = .jsxText && (d.textOf m).all isSpace)

/-- Whether an element has exactly one element between its tags. -/
def isOneElement (d : Document) (n : Node) : Bool :=
  match contents d n with
  | [m] => Markup.isElement m.kind
  | _ => false

/-- What is to stand in place of a wrapper. -/
def outline (d : Document) (n : Node) : List Char :=
  if isRemoved d n then
    if Markup.isChild n then [] else "null".toList
  else if Markup.isChild n || isOneElement d n then inner d n
  else "<>".toList ++ inner d n ++ "</>".toList

/-- The edits for a wrapper as a single one. -/
def change (d : Document) (n : Node) : Edit :=
  let kept := Reindent.reindent (inner d n) (n.lineIndent d.text)
  if isRemoved d n then dropElement d n
  else if Markup.isChild n then n.replace kept
  else if isOneElement d n then n.replace (trim isSpace kept)
  else n.replace ("<>".toList ++ inner d n ++ "</>".toList)

variable {d : Document} {dialect : Dialect} {n m : Node}

section Tagged

variable {opening closing : Tree} {mid : List Tree}

theorem inner_eq (h : d.Tagged n opening closing mid) :
  inner d n = slice d.text opening.stop closing.start
  := by
  rw [inner, h.opening_eq, h.closing_eq]
  rfl

/-- What counts as the content of an element stands between its tags. -/
theorem contents_eq (h : d.Tagged n opening closing mid) :
  n.namedChildren.filter (isContent d (n.below opening) (n.below closing)) = contents d n
  := by
  rw [Node.namedChildren, Tree.namedChildren, contents, Node.children, List.filter_map,
    List.filter_map, List.filter_filter]
  apply congrArg
  apply List.filter_congr
  intro u hu
  rw [h.children] at hu
  rcases List.mem_cons.mp hu with rfl | hu
  · have hsame : (n.below u).sameAs (n.below u) = true := by simp [Node.sameAs, Tree.sameAs]
    simp [isContent, hsame, h.opening_kind]
  · rcases List.mem_append.mp hu with hu | hu
    · obtain ⟨hopening, hclosing⟩ := h.not_sameAs hu
      obtain ⟨hnamed, hkind, hkind'⟩ := isBetweenTags_kinds (h.between u hu)
      have hopening' : (n.below u).sameAs (n.below opening) = false := hopening
      have hclosing' : (n.below u).sameAs (n.below closing) = false := hclosing
      by_cases hcomment : u.kind = .comment
      · simp [isContent, hcomment]
      · simp [isContent, hopening', hclosing', hnamed, hkind, hkind', hcomment, isBlank]
    · obtain rfl := List.mem_singleton.mp hu
      have hsame : (n.below u).sameAs (n.below u) = true := by simp [Node.sameAs, Tree.sameAs]
      simp [isContent, hsame, h.closing_kind]

theorem isSingle_eq (h : d.Tagged n opening closing mid) :
  isSingle d (n.below opening) (n.below closing) n = isOneElement d n
  := by
  rw [isSingle, contents_eq h]
  rfl

end Tagged

/-! ### Edits that take white space along -/

/-- An edit does what another one does and takes only white space around it along. -/
structure Widens (source : List Char) (e f : Edit) : Prop where
  outer : e.OnBoundaries source
  middle : f.OnBoundaries source
  start : e.start ≤ f.start
  stop : f.stop ≤ e.stop
  front : content (slice source e.start.toNat f.start.toNat) = []
  back : content (slice source f.stop.toNat e.stop.toNat) = []
  text : content e.text = content f.text

/-- White space that edits take along does not count for the content. -/
theorem content_rewriteFrom {source : List Char} {es fs : List Edit} {size r s : Nat}
    (h : List.Forall₂ (Widens source) es fs) (hr : Boundary source r) (hs : Boundary source s)
    (hsr : s ≤ r) (hblank : content (slice source s r) = []) (hline : Edit.InLine size r es) :
  content (Edit.rewriteFrom source r es) = content (Edit.rewriteFrom source s fs)
  := by
  induction h generalizing r s with
  | nil => rw [Edit.rewriteFrom, Edit.rewriteFrom, hs.dropBytes_eq hr hsr, content_append, hblank,
      List.nil_append]
  | @cons e f _ _ hef _ ih =>
    obtain ⟨h₁, h₂, -, h₄⟩ := Edit.inLine_cons.mp hline
    have hstart := hef.start
    have hstop := hef.stop
    have hreached : (e.stop.toNat : Int) = e.stop := by omega
    rw [← hreached] at h₄
    have hrest := ih hef.outer.stop hef.middle.stop (by omega) hef.back h₄
    -- what comes before the inner edit is cut where the pass stands and where the outer one starts
    rw [Edit.rewriteFrom, Edit.rewriteFrom,
      hs.slice_eq hr hef.middle.start hsr (by omega),
      hr.slice_eq hef.outer.start hef.middle.start (by omega) (by omega)]
    simp only [content_append, hblank, hef.front, hef.text, hrest, List.nil_append, List.append_nil]

/-- What an edit for a wrapper takes from the text: the wrapper itself, or for a removed child of
another element also the white space on its lines. -/
inductive Covers (d : Document) (n : Node) : Edit → Prop where
  | itself (text : List Char) : Covers d n (n.replace text)
  | lines {front back : List Char} (hremoved : isRemoved d n = true)
      (hchild : Markup.isChild n = true) (hlines : n.OnItsLines d.text front back) :
      Covers d n ⟨(n.start - byteLength front : Nat), n.stop + byteLength back + 1, []⟩

/-! ### One wrapper -/

section Wrapper

variable (hd : d.WellRead dialect) (hn : n ∈ d.nodes)
  (hkind : Markup.isElement n.kind = true)

include hd hn hkind

theorem element_span :
  Boundary d.text n.start ∧ Boundary d.text n.stop ∧ n.start < n.stop
  := by
  obtain ⟨hknown, hspan⟩ := hd.known_node hn (Document.isElement_ne_program hkind)
  exact ⟨hknown.start, hknown.stop, hspan⟩

/-- The edits for an element are its change, or replace the two tags of a fragment. -/
theorem elementEdits_cases :
  elementEdits d n = [change d n]
  ∨ ∃ opening closing mid, d.Tagged n opening closing mid
    ∧ change d n = n.replace ("<>".toList ++ inner d n ++ "</>".toList)
    ∧ elementEdits d n
      = [⟨opening.start, opening.stop, "<>".toList⟩, ⟨closing.start, closing.stop, "</>".toList⟩]
  := by
  rw [elementEdits, change, isRemoved]
  by_cases hempty : n.kind = .jsxSelfClosingElement
  · apply Or.inl
    simp [hempty]
  · simp only [Markup.isElement, hempty, Bool.or_eq_true, decide_eq_true_iff, or_false] at hkind
    obtain ⟨opening, closing, mid, htagged⟩ := hd.tagged hn hkind
    rw [if_neg hempty, unwrapElement, htagged.opening_eq, htagged.closing_eq]
    have hinner : slice d.text (n.below opening).stop (n.below closing).start = inner d n :=
      (inner_eq htagged).symm
    simp only [hinner, isSingle_eq htagged, hempty, isBlank, decide_false, Bool.false_or]
    split
    · apply Or.inl rfl
    · split
      · apply Or.inl rfl
      · split
        · apply Or.inl rfl
        · apply Or.inr
          exact ⟨opening, closing, mid, htagged, rfl, rfl⟩

/-- What the change of a wrapper is: the wrapper gives way to the content of what is to stay of it,
or a removed one goes with its lines. -/
theorem change_cases :
  (∃ text, change d n = n.replace text ∧ content text = content (outline d n))
  ∨ isRemoved d n = true ∧ Markup.isChild n = true
    ∧ ∃ front back, n.OnItsLines d.text front back
      ∧ change d n = ⟨(n.start - byteLength front : Nat), n.stop + byteLength back + 1, []⟩
  := by
  have hkept : content (Reindent.reindent (inner d n) (n.lineIndent d.text))
      = content (inner d n) := Reindent.content_reindent _ List.all_takeWhile
  rw [change, outline]
  by_cases hremoved : isRemoved d n = true
  · rw [if_pos hremoved, if_pos hremoved, dropElement]
    by_cases hchild : Markup.isChild n = true
    · rw [if_pos hchild, if_pos hchild]
      rcases Node.removal_cases (hd.mem_textBehind hn hkind hchild) rfl
        with heq | ⟨front, back, hlines, heq⟩
      · exact .inl ⟨[], heq, rfl⟩
      · exact .inr ⟨hremoved, hchild, front, back, hlines, heq⟩
    · rw [if_neg hchild, if_neg hchild]
      exact .inl ⟨_, rfl, rfl⟩
  · rw [if_neg hremoved, if_neg hremoved]
    apply Or.inl
    by_cases hchild : Markup.isChild n = true
    · rw [if_pos hchild, if_pos (by simp [hchild])]
      exact ⟨_, rfl, hkept⟩
    · rw [if_neg hchild]
      by_cases hone : isOneElement d n = true
      · rw [if_pos hone, if_pos (by simp [hone])]
        refine ⟨_, rfl, ?_⟩
        rw [content_trim (fun _ h => h), hkept]
      · rw [if_neg hone, if_neg (by simp [hchild, hone])]
        exact ⟨_, rfl, rfl⟩

/-- The edits for a wrapper do what its change does. -/
theorem rewriteFrom_elementEdits (r : Nat) (es : List Edit) :
  Edit.rewriteFrom d.text r (elementEdits d n ++ es)
    = Edit.rewriteFrom d.text r (change d n :: es)
  := by
  rcases elementEdits_cases hd hn hkind with heq | ⟨opening, closing, mid, htagged, hchange, heq⟩
  · rw [heq]
    rfl
  · rw [heq, hchange, inner_eq htagged]
    simp only [List.cons_append, List.nil_append, Edit.rewriteFrom, Node.replace, htagged.start,
      htagged.stop, Int.toNat_natCast, List.append_assoc]

theorem inLine_elementEdits {size : Nat} {r : Int} {es : List Edit}
    (h : Edit.InLine size r (change d n :: es)) :
  Edit.InLine size r (elementEdits d n ++ es)
  := by
  rcases elementEdits_cases hd hn hkind with heq | ⟨opening, closing, mid, htagged, hchange, heq⟩
  · rw [heq]
    apply h
  · rw [hchange] at h
    obtain ⟨h₁, -, h₃, h₄⟩ := Edit.inLine_cons.mp h
    obtain ⟨-, h₅, h₆⟩ := htagged.row
    have hclosing := h₆.mem (t := closing) (by simp)
    simp only [Node.replace, htagged.start, htagged.stop] at h₁ h₃ h₄
    have hopening : (opening.start : Int) ≤ opening.stop := by omega
    have hbetween : (opening.stop : Int) ≤ closing.start := by omega
    have hclosed : (closing.start : Int) ≤ closing.stop := by omega
    have hlimit : (opening.stop : Int) ≤ size := by omega
    rw [heq]
    apply Edit.inLine_cons.mpr
    exact ⟨h₁, hopening, hlimit, Edit.inLine_cons.mpr ⟨hbetween, hclosed, h₃, h₄⟩⟩

/-- The change of a wrapper replaces the wrapper by what is to stay of it. -/
theorem change_widens :
  Widens d.text (change d n) (n.replace (outline d n))
  := by
  obtain ⟨hstart, hstop, -⟩ := element_span hd hn hkind
  rcases change_cases hd hn hkind with
    ⟨text, heq, htext⟩ | ⟨hremoved, hchild, front, back, hlines, heq⟩
  · have hnil (k : Nat) : content (slice d.text k k) = [] := by rw [slice_self, content_nil]
    rw [heq]
    exact ⟨⟨hstart, hstop⟩, ⟨hstart, hstop⟩, Int.le_refl _, Int.le_refl _, hnil _, hnil _, htext⟩
  · obtain ⟨hfront, hfrontSlice⟩ := hlines.front_edge hstart
    obtain ⟨hback, hbackSlice⟩ := hlines.back_edge hstop
    have houtline : outline d n = [] := by rw [outline, if_pos hremoved, if_pos hchild]
    rw [heq, houtline]
    refine ⟨⟨hfront, hback⟩, ⟨hstart, hstop⟩, ?_, ?_, ?_, ?_, rfl⟩
    · simp only [Node.replace]
      omega
    · simp only [Node.replace]
      omega
    · have hslice : slice d.text (n.start - byteLength front : Nat) n.start = front := hfrontSlice
      simp only [Node.replace, Int.toNat_natCast, hslice]
      apply content_of_all (fun _ => isSpace_of_isAsciiSpace) hlines.front_blank
    · have hspan : ((n.stop : Int) + byteLength back + 1).toNat = n.stop + byteLength back + 1 := by
        omega
      simp only [Node.replace, Int.toNat_natCast, hspan, hbackSlice, content_append]
      rw [content_of_all (fun _ => isSpace_of_isAsciiSpace) hlines.back_blank]
      rfl

theorem change_start_nonneg :
  0 ≤ (change d n).start
  := by
  rcases change_cases hd hn hkind with ⟨_, heq, -⟩ | ⟨-, -, _, _, -, heq⟩
  · rw [heq]
    apply Int.natCast_nonneg
  · rw [heq]
    apply Int.natCast_nonneg

theorem covers_change :
  Covers d n (change d n)
  := by
  rcases change_cases hd hn hkind with ⟨text, heq, -⟩ | ⟨hremoved, hchild, _, _, hlines, heq⟩
  · rw [heq]
    apply Covers.itself
  · rw [heq]
    apply Covers.lines hremoved hchild hlines

/-- The edits for an element start and end between characters, and there are some. -/
theorem onBoundaries_elementEdits :
  elementEdits d n ≠ [] ∧ ∀ e ∈ elementEdits d n, e.OnBoundaries d.text
  := by
  have hwidens := change_widens hd hn hkind
  rcases elementEdits_cases hd hn hkind with heq | ⟨opening, closing, mid, htagged, -, heq⟩
  · rw [heq]
    use List.cons_ne_nil _ _
    intro e he
    rw [List.mem_singleton.mp he]
    apply hwidens.outer
  · obtain ⟨hstart, hstop⟩ := hwidens.middle
    simp only [Node.replace, Int.toNat_natCast, htagged.start, htagged.stop] at hstart hstop
    rw [heq]
    use List.cons_ne_nil _ _
    intro e he
    rcases List.mem_cons.mp he with rfl | he
    · exact ⟨hstart, htagged.inner_start⟩
    · rw [List.mem_singleton.mp he]
      exact ⟨htagged.inner_stop, hstop⟩

/-- The lines that removed wrappers take along do not reach into each other. -/
theorem change_inTurn (hm : m ∈ d.nodes)
    (hkind' : Markup.isElement m.kind = true) (hle : n.stop ≤ m.start) :
  (change d n).stop ≤ (change d m).start
  := by
  obtain ⟨-, hstop, -⟩ := element_span hd hn hkind
  obtain ⟨hstart, -, -⟩ := element_span hd hm hkind'
  obtain ⟨-, hbefore, -⟩ := hd.element_ends hn hkind
  obtain ⟨hbehind, -, -⟩ := hd.element_ends hm hkind'
  have hgap := hstop.byteLength_slice hstart hle
  rcases change_cases hd hn hkind with ⟨_, heq, -⟩ | ⟨-, -, _, back, hlines, heq⟩
  · rcases change_cases hd hm hkind' with ⟨_, heq', -⟩ | ⟨-, -, front, _, hlines', heq'⟩
    · rw [heq, heq']
      simp only [Node.replace]
      omega
    · obtain ⟨w, hw⟩ := hlines'.exists_gap_before hstop hstart hle rfl hbefore
      rw [hw, byteLength_append] at hgap
      rw [heq, heq']
      simp only [Node.replace]
      omega
  · obtain ⟨w, hw⟩ := hlines.exists_gap_behind hstop hstart hle rfl hbehind
    have hbreak : ('\n').utf8Size = 1 := rfl
    rcases change_cases hd hm hkind' with ⟨_, heq', -⟩ | ⟨-, -, front, _, hlines', heq'⟩
    · rw [hw, byteLength_append, byteLength_cons, hbreak] at hgap
      rw [heq, heq']
      simp only [Node.replace]
      omega
    · -- the line break behind the first wrapper is not among the white space before the second
      obtain ⟨w', hw'⟩ := hlines'.exists_gap_before hstop hstart hle rfl hbefore
      obtain ⟨v, rfl⟩ := Node.exists_of_not_mem_back (hw.symm.trans hw') hlines'.front_line
      rw [hw, byteLength_append, byteLength_cons, byteLength_append, hbreak] at hgap
      rw [heq, heq']
      simp only
      omega

end Wrapper

/-! ### Wrappers in document order -/

theorem mem_wrappers {tags : List (List Char)} (h : n ∈ Node.outermost (elements d tags)) :
  n ∈ d.nodes ∧ Markup.isElement n.kind = true
  := by
  obtain ⟨hn, htagged⟩ := List.mem_filter.mp (List.mem_filter.mp h).1
  use hn
  apply (Bool.and_eq_true_iff.mp htagged).1

/-- An outermost wrapper ends before the next one starts. -/
theorem pairwise_wrappers (hd : d.WellRead dialect) (tags : List (List Char)) :
  (Node.outermost (elements d tags)).Pairwise fun n m => n.stop ≤ m.start
  := by
  have hsublist : (elements d tags).Sublist d.nodes := List.filter_sublist
  apply Node.pairwise_outermost hd.nested hsublist
  intro n hn
  obtain ⟨hmem, htagged⟩ := List.mem_filter.mp hn
  obtain ⟨-, -, hseveral⟩ := hd.element_ends hmem (Bool.and_eq_true_iff.mp htagged).1
  apply hseveral

/-- The changes of the outermost wrappers can be made one after the other. -/
theorem inLine_changes (hd : d.WellRead dialect) (tags : List (List Char)) :
  Edit.InLine (byteLength d.text) 0 ((Node.outermost (elements d tags)).map (change d))
  := by
  constructor
  · intro e he
    obtain ⟨n, hn, rfl⟩ := List.mem_map.mp he
    obtain ⟨hmem, hkind⟩ := mem_wrappers hn
    have hwidens := change_widens hd hmem hkind
    obtain ⟨-, -, hspan⟩ := element_span hd hmem hkind
    have hstart := hwidens.start
    have hstop := hwidens.stop
    have hlimit := hwidens.outer.stop.le
    have hzero := change_start_nonneg hd hmem hkind
    simp only [Node.replace] at hstart hstop
    omega
  · apply List.pairwise_map.mpr
    apply (pairwise_wrappers hd tags).imp_of_mem
    intro n m hn hm hle
    obtain ⟨hmem, hkind⟩ := mem_wrappers hn
    obtain ⟨hmem', hkind'⟩ := mem_wrappers hm
    apply change_inTurn hd hmem hkind hmem' hkind' hle

/-- The rounds of edits and of changes for some wrappers do the same. -/
theorem rewriteFrom_flatMap {ns : List Node} (hd : d.WellRead dialect)
    (hns : ∀ n ∈ ns, n ∈ d.nodes ∧ Markup.isElement n.kind = true) (r : Nat) :
  Edit.rewriteFrom d.text r (ns.flatMap (elementEdits d))
    = Edit.rewriteFrom d.text r (ns.map (change d))
  := by
  induction ns generalizing r with
  | nil => rfl
  | cons n ns ih =>
    obtain ⟨hn, hkind⟩ := hns n List.mem_cons_self
    rw [List.flatMap_cons, rewriteFrom_elementEdits hd hn hkind, List.map_cons, Edit.rewriteFrom,
      Edit.rewriteFrom, ih fun m hm => hns m (List.mem_cons_of_mem n hm)]

theorem inLine_flatMap {ns : List Node} (hd : d.WellRead dialect)
    (hns : ∀ n ∈ ns, n ∈ d.nodes ∧ Markup.isElement n.kind = true) {size : Nat} {r : Int}
    (h : Edit.InLine size r (ns.map (change d))) :
  Edit.InLine size r (ns.flatMap (elementEdits d))
  := by
  induction ns generalizing r with
  | nil => apply Edit.inLine_nil
  | cons n ns ih =>
    obtain ⟨hn, hkind⟩ := hns n List.mem_cons_self
    obtain ⟨h₁, h₂, h₃, h₄⟩ := Edit.inLine_cons.mp h
    apply inLine_elementEdits hd hn hkind
    apply Edit.inLine_cons.mpr
    exact ⟨h₁, h₂, h₃, ih (fun m hm => hns m (List.mem_cons_of_mem n hm)) h₄⟩

/-! ### One round -/

/-- The edits of a round can be made one after the other. -/
theorem inLine_markupEdits (hd : d.WellRead dialect) (tags : List (List Char)) :
  Edit.InLine (byteLength d.text) 0 (markupEdits d tags)
  := inLine_flatMap hd (fun _ hn => mem_wrappers hn) (inLine_changes hd tags)

/-- One round makes the changes of the outermost wrappers. -/
theorem commit_markupEdits (hd : d.WellRead dialect) (tags : List (List Char)) :
  ∃ result, Edit.commit d.text (markupEdits d tags) = .ok result
    ∧ result.getD d.text
      = Edit.rewriteFrom d.text 0 ((Node.outermost (elements d tags)).map (change d))
  := by
  have hwrappers : ∀ n ∈ Node.outermost (elements d tags),
      n ∈ d.nodes ∧ Markup.isElement n.kind = true := fun n hn => mem_wrappers hn
  have hline := inLine_markupEdits hd tags
  by_cases hempty : markupEdits d tags = []
  · have hnone : Node.outermost (elements d tags) = [] := by
      apply List.eq_nil_iff_forall_not_mem.mpr
      intro n hn
      obtain ⟨hmem, hkind⟩ := mem_wrappers hn
      apply (onBoundaries_elementEdits hd hmem hkind).1
      apply List.flatMap_eq_nil_iff.mp hempty n hn
    refine ⟨none, by rw [hempty]; rfl, ?_⟩
    rw [hnone]
    apply (dropBytes_append [] d.text).symm
  · have hcompatible : Edit.Compatible (byteLength d.text) (markupEdits d tags) := by
      apply (Edit.compatible_iff_inLine _).mpr hline
      have hordered := Edit.pairwise_inOrder (markupEdits d tags)
      rw [hline.inOrder_eq] at hordered
      apply hordered
    have hb : ∀ e ∈ markupEdits d tags, e.OnBoundaries d.text := by
      intro e he
      obtain ⟨n, hn, he⟩ := List.mem_flatMap.mp he
      obtain ⟨hmem, hkind⟩ := mem_wrappers hn
      apply (onBoundaries_elementEdits hd hmem hkind).2 e he
    refine ⟨_, Edit.commit_eq_rewriteFrom hempty hcompatible hb, ?_⟩
    rw [Option.getD_some, hline.inOrder_eq, markupEdits, rewriteFrom_flatMap hd hwrappers]

/-- A round on elements can always be committed. What comes out has the content of the text with
each outermost wrapper replaced by what is to stay of it, and of the text outside of the wrappers
only white space on the lines of removed ones is gone. -/
theorem markup_content {text : List Char} {language : String} {filename : Option String}
    {lenient : Bool} {d : Document} (h : Document.parse text language filename lenient = .ok d)
    (tags : List (List Char)) :
  ∃ result, Edit.commit text (markupEdits d tags) = .ok result
    ∧ (Node.outermost (elements d tags)).Pairwise (fun n m => n.stop ≤ m.start)
    ∧ content (result.getD text) = content (Edit.rewriteFrom text 0
      ((Node.outermost (elements d tags)).map fun n => n.replace (outline d n)))
    ∧ ∃ changes : List Edit, List.Forall₂ (Covers d) (Node.outermost (elements d tags)) changes
      ∧ changes.Pairwise (fun e f => e.stop ≤ f.start)
      ∧ result.getD text = Edit.rewriteFrom text 0 changes
  := by
  obtain ⟨rfl, dialect, hd⟩ := Document.wellRead_of_parse h
  obtain ⟨result, hcommit, hresult⟩ := commit_markupEdits hd tags
  have hline := inLine_changes hd tags
  refine ⟨result, hcommit, pairwise_wrappers hd tags, ?_, _, ?_, hline.inTurn, hresult⟩
  · rw [hresult]
    apply content_rewriteFrom _ (boundary_zero d.text) (boundary_zero d.text) (Nat.le_refl 0)
      (by rw [slice_self, content_nil]) hline
    apply List.forall₂_map_left_iff.mpr
    apply List.forall₂_map_right_iff.mpr
    apply List.forall₂_same.mpr
    intro n hn
    obtain ⟨hmem, hkind⟩ := mem_wrappers hn
    apply change_widens hd hmem hkind
  · apply List.forall₂_map_right_iff.mpr
    apply List.forall₂_same.mpr
    intro n hn
    obtain ⟨hmem, hkind⟩ := mem_wrappers hn
    apply covers_change hd hmem hkind

set_option maxRecDepth 100000 in
/-- A single element, several children, no children, a line that goes and a wrapper in a wrapper. -/
theorem markup_content_shapes :
  ∃ text d after,
    text =
      "a = <P>\n <b/>\n</P>, <P>x<i/></P>, <P/>;\n<d>\n <P />\n <P>\n  <P>é</P>\n </P>\n</d>".toList
    ∧ after = "a = <b/>, <>x<i/></>, null;\n<d>\n <P>é</P>\n</d>".toList
    ∧ Document.parse text "tsx" none false = .ok d
    ∧ Edit.commit text (markupEdits d ["P".toList]) = .ok (some after)
    ∧ content after = content (Edit.rewriteFrom text 0
      ((Node.outermost (elements d ["P".toList])).map fun n => n.replace (outline d n)))
    ∧ ∃ changes : List Edit,
      List.Forall₂ (Covers d) (Node.outermost (elements d ["P".toList])) changes
      ∧ changes.Pairwise (fun e f => e.stop ≤ f.start)
      ∧ after = Edit.rewriteFrom text 0 changes
  := by
  have hrun : ((Document.parse
      "a = <P>\n <b/>\n</P>, <P>x<i/></P>, <P/>;\n<d>\n <P />\n <P>\n  <P>é</P>\n </P>\n</d>".toList
      "tsx" none false).toOption.map fun d => (Edit.commit
      "a = <P>\n <b/>\n</P>, <P>x<i/></P>, <P/>;\n<d>\n <P />\n <P>\n  <P>é</P>\n </P>\n</d>".toList
        (markupEdits d ["P".toList])).toOption)
      = some (some (some "a = <b/>, <>x<i/></>, null;\n<d>\n <P>é</P>\n</d>".toList)) := by
    decide +kernel
  cases hparse : Document.parse
      "a = <P>\n <b/>\n</P>, <P>x<i/></P>, <P/>;\n<d>\n <P />\n <P>\n  <P>é</P>\n </P>\n</d>".toList
      "tsx" none false with
  | error e =>
    rw [hparse] at hrun
    cases hrun
  | ok d =>
    obtain ⟨result, hcommit, -, hcontent, changes, hcovers, hturn, hresult⟩ :=
      markup_content hparse ["P".toList]
    rw [hparse] at hrun
    simp only [Except.toOption, Option.map_some, hcommit, Option.some.injEq] at hrun
    subst hrun
    exact ⟨_, d, _, rfl, rfl, hparse, hcommit, hcontent, changes, hcovers, hturn, hresult⟩

end Codemod.Unwrap
