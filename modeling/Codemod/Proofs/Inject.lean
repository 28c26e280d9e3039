import Codemod.Proofs.Marker
import Codemod.Proofs.Markup
import Codemod.Proofs.Stretch
import Codemod.Recipe.Inject

/-!
# Every head carries the tags

The injection into a document with head elements only puts text in: the missing tags right behind
the opening tag of each head, and the import of the head component behind the directives. All these
places stand behind a closing bracket or a line feed, and so does the end of each inserted text.
Neither is part of a word or of what a tag is recognised by, so that a tag recognised in a head is
also recognised in the head together with what was put into it.
-/

namespace Codemod.Inject

open Grammar Text

variable {d : Document} {dialect : Dialect} {c : Inject} {n m : Node}

/-! ### Places for the tags -/

theorem mem_heads {names : List (List Char)} (h : n ∈ heads d names) :
  n ∈ d.nodes ∧ n.kind = .jsxElement
  := by
  obtain ⟨hn, htag⟩ := List.mem_filter.mp h
  simp only [Bool.and_eq_true, decide_eq_true_iff] at htag
  exact ⟨hn, htag.1⟩

/-- The lines of tags that are put in. -/
def tagLines (indent : List Char) (tags : List (List Char)) : List Char :=
  tags.flatMap fun tag => '\n' :: indent ++ tag

/-- The indentation of the tags in a head. -/
def tagIndent (c : Inject) (d : Document) (n : Node) : List Char :=
  n.lineIndent d.text ++ c.indentUnit

section Tagged

variable {opening closing opening' closing' : Tree} {mid mid' : List Tree}

theorem headEdit?_eq (h : d.Tagged n opening closing mid) :
  c.headEdit? d n = if c.missing (d.textOf n) = [] then none else
    some ⟨opening.stop, opening.stop, tagLines (c.tagIndent d n) (c.missing (d.textOf n))⟩
  := by
  rw [headEdit?, h.opening_eq]
  simp only [List.isEmpty_iff]
  rfl

/-- The place behind the opening tag lies inside of the element. -/
theorem place_within (h : d.Tagged n opening closing mid) :
  n.start < opening.stop ∧ opening.stop < n.stop
  := by
  have hopening := h.row.mem List.mem_cons_self
  obtain ⟨-, -, hrow⟩ := h.row
  have hclosing := hrow.mem (t := closing) (by simp)
  omega

/-- Different elements have their opening tags end at different places. -/
theorem place_ne (h : d.Tagged n opening closing mid) (h' : d.Tagged m opening' closing' mid')
    (hnested : n.tree.Nested) (hnm : Tree.Below m.tree n.tree ∨ n.stop ≤ m.start) :
  opening.stop ≠ opening'.stop
  := by
  have hplace := place_within h
  have hplace' := place_within h'
  rcases hnm with hbelow | hle
  · obtain ⟨u, hu, hpart⟩ := hbelow.exists_child
    have hwithin : u.start ≤ m.start ∧ m.stop ≤ u.stop := (hnested.child hu).part_within hpart
    -- The inner element stands within the opening tag, or behind it.
    rw [h.children] at hu
    rcases List.mem_cons.mp hu with rfl | hu
    · omega
    · obtain ⟨-, -, hrow⟩ := h.row
      have := hrow.mem hu
      omega
  · omega

theorem charBefore_place (hd : d.WellRead dialect) (hn : n ∈ d.nodes)
    (h : d.Tagged n opening closing mid) :
  charBefore d.text opening.stop = some '>'
  := by
  have hknown := hd.known_child hn (u := opening) (by simp [h.children])
  have hbody : Script.bodyOf? opening.kind = some Script.openingTag := by
    rw [h.opening_kind]
    rfl
  obtain ⟨-, hlast, -⟩ := hknown.signs hbody
  apply hlast

end Tagged

/-! ### The place for the import -/

/-- A place at the front of a line, or at the end of the text. -/
structure AtLine (text : List Char) (p : Nat) : Prop where
  boundary : Boundary text p
  cases : p = 0 ∨ charBefore text p = some '\n' ∨ p = byteLength text

theorem atLine_lineAfter (h : Boundary d.text n.stop) :
  AtLine d.text (lineAfter d n)
  := by
  obtain ⟨front, behind, htext, hfront⟩ := h
  have hbehind : n.textBehind d.text = behind := by
    rw [Node.textBehind, htext, ← hfront, dropBytes_append]
  obtain ⟨hnone, hline | ⟨rest, hline⟩⟩ := lineBack_cases behind
  · have hcontains : behind.contains '\n' = false := by
      rw [← hline] at hnone
      simpa using hnone
    have hend : lineAfter d n = byteLength d.text := by
      simp only [lineAfter, hbehind, hcontains, ← hline]
      rw [htext, byteLength_append, hfront]
      rfl
    exact ⟨⟨d.text, [], by simp, hend.symm⟩, .inr (.inr hend)⟩
  · have hcontains : behind.contains '\n' = true := by
      rw [hline]
      simp
    have hplace : lineAfter d n = byteLength (front ++ lineBack behind ++ ['\n']) := by
      simp only [lineAfter, hbehind, hcontains, if_true, byteLength_append, hfront]
      rfl
    have hsplit : d.text = front ++ lineBack behind ++ ['\n'] ++ rest := by
      rw [htext]
      conv_lhs => rw [hline]
      simp
    refine ⟨⟨_, rest, hsplit, hplace.symm⟩, .inr (.inl ?_)⟩
    rw [charBefore, hplace, hsplit, takeBytes_append, List.getLast?_concat]

/-- The directives end at the front of a line, or with the text. -/
theorem atLine_prologueEnd {ns : List Node} {p : Nat} (hns : ∀ n ∈ ns, Boundary d.text n.stop)
    (hp : AtLine d.text p) :
  AtLine d.text (prologueEnd d p ns)
  := by
  induction ns generalizing p with
  | nil => apply hp
  | cons n ns ih =>
    obtain ⟨hn, hns⟩ := List.forall_mem_cons.mp hns
    rw [prologueEnd]
    split
    · apply ih hns hp
    · split
      · apply ih hns (atLine_lineAfter hn)
      · apply hp

/-- The place for the import. -/
def importPlace (d : Document) : Nat :=
  prologueEnd d 0 d.root.namedChildren

theorem atLine_importPlace (hd : d.WellRead dialect) :
  AtLine d.text (importPlace d)
  := by
  apply atLine_prologueEnd _ ⟨boundary_zero d.text, .inl rfl⟩
  intro n hn
  obtain ⟨u, hu, rfl⟩ := List.mem_map.mp hn
  have hroot : d.root ∈ d.nodes := Node.mem_inOrder.mpr (.inl rfl)
  apply (hd.known_child hroot (List.mem_filter.mp hu).1).stop

/-! ### What is put in -/

/-- The heads of a document. -/
def found (c : Inject) (d : Document) : List Node :=
  heads d (c.headComponent :: c.importedHeads d)

/-- What is put into a document with heads: tags into a head that lacks them, or the import. -/
inductive Inserted (c : Inject) (d : Document) : Edit → Prop where
  | tags {n : Node} {opening closing : Tree} {mid : List Tree} (hn : n ∈ c.found d)
      (h : d.Tagged n opening closing mid) (hmissing : c.missing (d.textOf n) ≠ []) :
    Inserted c d
      ⟨opening.stop, opening.stop, tagLines (c.tagIndent d n) (c.missing (d.textOf n))⟩
  | statement : Inserted c d (c.importEdit d)

/-- The edits of a document with heads are those for the heads, maybe with the import. -/
theorem edits_eq (h : c.found d ≠ []) :
  ∃ extra, (extra = [] ∨ extra = [c.importEdit d])
    ∧ c.edits d = (c.found d).filterMap (c.headEdit? d) ++ extra
  := by
  have hfound : (heads d (c.headComponent :: c.importedHeads d)).isEmpty = false := by
    simpa [found] using h
  simp only [edits, hfound]
  split
  · rename_i hfalse
    cases hfalse
  · split
    · exact ⟨[], .inl rfl, (List.append_nil _).symm⟩
    · exact ⟨_, .inr rfl, rfl⟩

theorem inserted_of_mem (hd : d.WellRead dialect) (h : c.found d ≠ []) {e : Edit}
    (he : e ∈ c.edits d) :
  Inserted c d e
  := by
  obtain ⟨extra, hextra, hedits⟩ := edits_eq h
  rw [hedits] at he
  rcases List.mem_append.mp he with he | he
  · obtain ⟨n, hn, hedit⟩ := List.mem_filterMap.mp he
    obtain ⟨hlisted, hkind⟩ := mem_heads hn
    obtain ⟨opening, closing, mid, htagged⟩ := hd.tagged hlisted hkind
    rw [headEdit?_eq htagged] at hedit
    split at hedit
    · cases hedit
    · rename_i hmissing
      cases hedit
      apply Inserted.tags hn htagged hmissing
  · rcases hextra with rfl | rfl
    · cases he
    · rw [List.mem_singleton.mp he]
      apply Inserted.statement

theorem Inserted.insertion (hd : d.WellRead dialect) {e : Edit} (h : Inserted c d e) :
  Edit.Insertion d.text e
  := by
  cases h with
  | tags _ htagged _ => exact ⟨rfl, Int.natCast_nonneg _, htagged.inner_start⟩
  | statement => exact ⟨rfl, Int.natCast_nonneg _, (atLine_importPlace hd).boundary⟩

/-- What is put in strictly within the text stands behind a closing bracket or a line feed. -/
theorem Inserted.charBefore (hd : d.WellRead dialect) {e : Edit} (h : Inserted c d e)
    (hstart : 0 < e.start) (hend : e.start < byteLength d.text) :
  Text.charBefore d.text e.start.toNat = some '>' ∨ Text.charBefore d.text e.start.toNat = some '\n'
  := by
  cases h with
  | tags hn htagged _ => exact .inl (charBefore_place hd (mem_heads hn).1 htagged)
  | statement =>
    have hplace : (c.importEdit d).start = importPlace d := rfl
    rw [hplace] at hstart hend ⊢
    rcases (atLine_importPlace hd).cases with hzero | hline | hlast
    · omega
    · exact .inr hline
    · omega

/-! ### Tags that stay recognised -/

/-- The tags of a configuration are not recognised by anything with a closing bracket or a line feed
in it, and end apart from words. -/
structure Plain (c : Inject) : Prop where
  forms : ∀ tag ∈ c.tags, ∀ w, (Marker.ofTag tag).Written w → '>' ∉ w ∧ '\n' ∉ w
  ends : ∀ tag ∈ c.tags, Marker.EndsApart tag
  indent : c.indentUnit.all isSpace = true

theorem plain_default :
  Plain {}
  := by
  have hmeta : Marker.ofTag ({} : Inject).metaTag
      = .byAttribute "name".toList "shopify-api-key".toList := by
    decide +kernel
  have hscript : Marker.ofTag ({} : Inject).scriptTag = .byAttribute "src".toList
      "https://cdn.shopify.com/shopifycloud/app-bridge.js".toList := by
    decide +kernel
  have hquote {q : Char} (hq : Marker.isQuote q = true) : '>' ≠ q ∧ '\n' ≠ q := by
    rcases Marker.isQuote_iff.mp hq with rfl | rfl <;> decide
  constructor
  · intro tag htag w hw
    simp only [tags, List.mem_cons, List.not_mem_nil, or_false] at htag
    rcases htag with rfl | rfl
    · rw [hmeta] at hw
      cases hw with
      | quoted hq hq' => simp [hquote hq, hquote hq']
    · rw [hscript] at hw
      cases hw with
      | quoted hq hq' => simp [hquote hq, hquote hq']
  · intro tag htag
    simp only [tags, List.mem_cons, List.not_mem_nil, or_false] at htag
    rcases htag with rfl | rfl <;> exact ⟨'>', rfl, by decide⟩
  · rfl

theorem endsApart_append {t : List Char} (s : List Char) (h : Marker.EndsApart t) :
  Marker.EndsApart (s ++ t)
  := by
  obtain ⟨x, hlast, hx⟩ := h
  exact ⟨x, by simp [List.getLast?_append, hlast], hx⟩

theorem endsApart_tagLines {tags : List (List Char)} {indent : List Char} (hne : tags ≠ [])
    (h : ∀ tag ∈ tags, Marker.EndsApart tag) :
  Marker.EndsApart (tagLines indent tags)
  := by
  rw [tagLines, ← List.dropLast_append_getLast hne, List.flatMap_append, List.flatMap_singleton]
  apply endsApart_append
  apply endsApart_append
  apply h _ (List.getLast_mem hne)

theorem Inserted.endsApart (hc : c.Plain) {e : Edit} (h : Inserted c d e) :
  Marker.EndsApart e.text
  := by
  cases h with
  | tags hn htagged hmissing =>
    apply endsApart_tagLines hmissing
    intro tag htag
    apply hc.ends tag (List.mem_filter.mp htag).1
  | statement =>
    have hbreak : Marker.EndsApart "\";\n".toList := ⟨'\n', rfl, by decide⟩
    simp only [importEdit]
    split
    · rw [← List.singleton_append]
      apply endsApart_append _ (endsApart_append _ hbreak)
    · apply endsApart_append _ hbreak

/-- A tag that is recognised in a stretch of a text is so in what insertions make of it, when each
of them stands behind a character that no written form of the tag has. -/
theorem occursIn_rewriteUpTo {k : Marker} {source : List Char} {a r b : Nat} {es : List Edit}
    (ha : Boundary source a) (hr : Boundary source r) (hb : Boundary source b) (har : a ≤ r)
    (hrb : r ≤ b) (hline : Edit.InLine b r es)
    (hes : ∀ e ∈ es, Edit.Insertion source e ∧ a < e.start ∧ Marker.EndsApart e.text
      ∧ ∃ x, charBefore source e.start.toNat = some x ∧ isWordChar x = false
        ∧ ∀ w, k.Written w → x ∉ w)
    (h : k.occursIn (slice source a b) = true) :
  k.occursIn (slice source a r ++ Edit.rewriteUpTo source b r es) = true
  := by
  induction es generalizing r with
  | nil =>
    rw [Edit.rewriteUpTo, ← ha.slice_eq hr hb har hrb]
    apply h
  | cons e es ih =>
    obtain ⟨⟨hinsertion, hstart, hends, x, hx, hword, hforms⟩, hes⟩ := List.forall_mem_cons.mp hes
    obtain ⟨hre, -, hle⟩ := hline.reached_le List.mem_cons_self
    obtain ⟨-, -, -, hline⟩ := Edit.inLine_cons.mp hline
    have hstop : e.stop.toNat = e.start.toNat := by rw [hinsertion.empty]
    have hnat : (e.start.toNat : Int) = e.stop := by
      have := hinsertion.empty
      have := hinsertion.nonneg
      omega
    have hplace := hinsertion.boundary
    have hrest := ih hplace (by omega) (by omega) (hnat ▸ hline) hes
    have hlast := getLast?_slice ha hplace (by omega) hx
    have hinserted := Marker.occursIn_insert hlast hword hforms hends hrest
    rw [Edit.rewriteUpTo, hstop, ← List.append_assoc, ← List.append_assoc,
      ← ha.slice_eq hr hplace har hre]
    apply hinserted

/-! ### All heads -/

/-- Heads whose opening tags end elsewhere put nothing in at a place. -/
theorem filter_hasSpan_eq_nil {p : Nat} {ns : List Node}
    (h : ∀ n ∈ ns, ∃ opening closing mid, d.Tagged n opening closing mid ∧ opening.stop ≠ p) :
  (ns.filterMap (c.headEdit? d)).filter (Edit.hasSpan p p) = []
  := by
  apply List.filter_eq_nil_iff.mpr
  intro e he
  obtain ⟨n, hn, hedit⟩ := List.mem_filterMap.mp he
  obtain ⟨opening, closing, mid, htagged, hne⟩ := h n hn
  rw [headEdit?_eq htagged] at hedit
  split at hedit
  · cases hedit
  · cases hedit
    simp only [Edit.hasSpan, Bool.and_eq_true, decide_eq_true_iff]
    omega

/-- Nor does the import. -/
theorem hasSpan_importEdit (hd : d.WellRead dialect) (hn : n ∈ d.nodes)
    (hkind : n.kind = .jsxElement) {opening closing : Tree} {mid : List Tree}
    (h : d.Tagged n opening closing mid) :
  Edit.hasSpan opening.stop opening.stop (c.importEdit d) = false
  := by
  have hplace := place_within h
  have hend : n.stop ≤ byteLength d.text :=
    (hd.known_node hn (by rw [hkind]; nofun)).1.stop.le
  have hne : importPlace d ≠ opening.stop := by
    rcases (atLine_importPlace hd).cases with hzero | hline | hlast
    · omega
    · intro heq
      rw [heq, charBefore_place hd hn h] at hline
      cases hline
    · omega
  have hstart : (c.importEdit d).start = importPlace d := rfl
  simp only [Edit.hasSpan, hstart, Bool.and_eq_false_iff, decide_eq_false_iff_not]
  omega

/-- What is put in behind the opening tag of a head is put in for this head. -/
theorem filter_hasSpan_edits (hd : d.WellRead dialect) (hn : n ∈ c.found d) {opening closing : Tree}
    {mid : List Tree} (h : d.Tagged n opening closing mid) :
  (c.edits d).filter (Edit.hasSpan opening.stop opening.stop) = (c.headEdit? d n).toList
  := by
  have hpairwise : (c.found d).Pairwise fun n m => Tree.Below m.tree n.tree ∨ n.stop ≤ m.start :=
    (Node.pairwise_inOrder hd.nested).sublist List.filter_sublist
  have hlisted : ∀ m ∈ c.found d, m ∈ d.nodes ∧ m.kind = .jsxElement := fun m => mem_heads
  have hnested {m : Node} (hm : m ∈ d.nodes) : m.tree.Nested := hd.nested.part (Node.part_of_mem hm)
  obtain ⟨hmem, hkind⟩ := hlisted n hn
  obtain ⟨extra, hextra, hedits⟩ := edits_eq (List.ne_nil_of_mem hn)
  obtain ⟨front, back, hfound⟩ := List.append_of_mem hn
  rw [hfound] at hpairwise hlisted
  obtain ⟨-, hback, hfront⟩ := List.pairwise_append.mp hpairwise
  have hextraNone : extra.filter (Edit.hasSpan opening.stop opening.stop) = [] := by
    rcases hextra with rfl | rfl
    · rfl
    · simp [hasSpan_importEdit hd hmem hkind h]
  have hfrontNone : (front.filterMap (c.headEdit? d)).filter
      (Edit.hasSpan opening.stop opening.stop) = [] := by
    apply filter_hasSpan_eq_nil
    intro m hm
    obtain ⟨hm', hkind'⟩ := hlisted m (List.mem_append_left _ hm)
    obtain ⟨opening', closing', mid', h'⟩ := hd.tagged hm' hkind'
    exact ⟨_, _, _, h', place_ne h' h (hnested hm') (hfront m hm n List.mem_cons_self)⟩
  have hbackNone : (back.filterMap (c.headEdit? d)).filter
      (Edit.hasSpan opening.stop opening.stop) = [] := by
    apply filter_hasSpan_eq_nil
    intro m hm
    obtain ⟨hm', hkind'⟩ := hlisted m (List.mem_append_right _ (List.mem_cons_of_mem n hm))
    obtain ⟨opening', closing', mid', h'⟩ := hd.tagged hm' hkind'
    exact ⟨_, _, _, h', (place_ne h h' (hnested hmem) ((List.pairwise_cons.mp hback).1 m hm)).symm⟩
  have hown : (c.headEdit? d n).toList.filter (Edit.hasSpan opening.stop opening.stop)
      = (c.headEdit? d n).toList := by
    rw [headEdit?_eq h]
    split
    · rfl
    · simp [Edit.hasSpan]
  have hsplit : (n :: back).filterMap (c.headEdit? d)
      = (c.headEdit? d n).toList ++ back.filterMap (c.headEdit? d) := by
    rw [List.filterMap_cons]
    cases c.headEdit? d n <;> rfl
  rw [hedits, List.filter_append, hextraNone, List.append_nil, hfound, List.filterMap_append,
    List.filter_append, hfrontNone, List.nil_append, hsplit, List.filter_append, hbackNone,
    List.append_nil, hown]

/-- The texts that are put in behind the opening tag of a head are the lines of the tags that are
not recognised in it. -/
theorem flatMap_text_place (hd : d.WellRead dialect) (hn : n ∈ c.found d) {opening closing : Tree}
    {mid : List Tree} (h : d.Tagged n opening closing mid) :
  ((Edit.inOrder (c.edits d)).filter (Edit.hasSpan opening.stop opening.stop)).flatMap Edit.text
    = tagLines (c.tagIndent d n) (c.missing (d.textOf n))
  := by
  rw [Edit.filter_inOrder, filter_hasSpan_edits hd hn h, headEdit?_eq h]
  split
  · rename_i hmissing
    rw [hmissing]
    rfl
  · simp

theorem all_tagIndent (hc : c.Plain) :
  (c.tagIndent d n).all isSpace = true
  := by
  rw [tagIndent, List.all_append, hc.indent, Bool.and_true, Node.lineIndent]
  apply List.all_eq_true.mpr
  intro x hx
  apply isSpace_of_isIndent (List.mem_takeWhile_imp hx)

/-- Every tag is recognised in a head together with what is put into it. -/
theorem occursIn_head (hd : d.WellRead dialect) (hc : c.Plain) (hn : n ∈ c.found d)
    {es : List Edit} (hline : Edit.InLine n.stop n.start es)
    (hes : ∀ e ∈ es, e ∈ c.edits d ∧ n.start < e.start ∧ e.start < n.stop)
    (hall : ∀ e ∈ c.edits d, n.start < e.start → e.start < n.stop → e ∈ es) {tag : List Char}
    (htag : tag ∈ c.tags) :
  (Marker.ofTag tag).occursIn (Edit.rewriteUpTo d.text n.stop n.start es) = true
  := by
  obtain ⟨hmem, hkind⟩ := mem_heads hn
  obtain ⟨opening, closing, mid, htagged⟩ := hd.tagged hmem hkind
  obtain ⟨hknown, hlt⟩ := hd.known_node hmem (by rw [hkind]; nofun)
  have hstart : Boundary d.text n.start := hknown.start
  have hstop : Boundary d.text n.stop := hknown.stop
  have hend := hstop.le
  by_cases hfound : (Marker.ofTag tag).occursIn (d.textOf n) = true
  · -- The tag was there: nothing that is put in goes into the middle of it.
    have hsurvives := occursIn_rewriteUpTo hstart hstart hstop (Nat.le_refl _) (Nat.le_of_lt hlt)
      hline ?_ hfound
    · rw [slice_self, List.nil_append] at hsurvives
      apply hsurvives
    · intro e he
      obtain ⟨hedit, hafter, hbefore⟩ := hes e he
      have hinserted := inserted_of_mem hd (List.ne_nil_of_mem hn) hedit
      refine ⟨hinserted.insertion hd, hafter, hinserted.endsApart hc, ?_⟩
      rcases hinserted.charBefore hd (by omega) (by omega) with hx | hx
      · exact ⟨'>', hx, by decide, fun w hw => (hc.forms tag htag w hw).1⟩
      · exact ⟨'\n', hx, by decide, fun w hw => (hc.forms tag htag w hw).2⟩
  · -- The tag was missing: it is on one of the lines behind the opening tag.
    have hmissing : tag ∈ c.missing (d.textOf n) :=
      List.mem_filter.mpr ⟨htag, by simpa using hfound⟩
    have hne := List.ne_nil_of_mem hmissing
    have hplace := place_within htagged
    have hedit : c.headEdit? d n = some ⟨opening.stop, opening.stop,
        tagLines (c.tagIndent d n) (c.missing (d.textOf n))⟩ := by
      rw [headEdit?_eq htagged, if_neg hne]
    have hlisted : (⟨opening.stop, opening.stop,
        tagLines (c.tagIndent d n) (c.missing (d.textOf n))⟩ : Edit) ∈ c.edits d := by
      obtain ⟨extra, -, hedits⟩ := edits_eq (List.ne_nil_of_mem hn)
      rw [hedits]
      apply List.mem_append_left extra (List.mem_filterMap.mpr ⟨n, hn, hedit⟩)
    have hinside := hall _ hlisted (by simp only; omega) (by simp only; omega)
    obtain ⟨front, back, hresult⟩ :=
      @Edit.exists_rewriteUpTo_eq d.text _ _ n.start n.stop hinside
    obtain ⟨before, behind, hsplit⟩ := List.append_of_mem hmissing
    rw [hresult, hsplit]
    have hline := Marker.occursIn_line tag (front ++ tagLines (c.tagIndent d n) before)
      (tagLines (c.tagIndent d n) behind ++ back) (all_tagIndent (d := d) (n := n) hc)
    simpa [tagLines] using hline

/-- With the default configuration, a document with heads only gets text put in: the result is the
text with the insertions between its parts, each of them the missing tags of a head behind its
opening tag, or the import. Every head together with what is put into it is recognised to have both
tags, and behind its opening tag are put exactly the lines of those that were not recognised in it.
Moreover a tag on a line of its own is recognised in every text. -/
theorem heads_carry_tags :
  (∀ tag x y indent : List Char, indent.all isSpace = true →
    (Marker.ofTag tag).occursIn (x ++ '\n' :: (indent ++ tag) ++ y) = true)
  ∧ ∀ {text : List Char} {language : String} {filename : Option String} {lenient : Bool}
    {d : Document}, Document.parse text language filename lenient = .ok d →
    let c : Inject := {}
    let found := heads d (c.headComponent :: c.importedHeads d)
    found ≠ [] →
    ∃ (result : Option (List Char)) (insertions : List Edit),
      (c.run d).result = .ok result
      ∧ insertions.Perm (c.edits d) ∧ (∀ e ∈ insertions, e.stop = e.start)
      ∧ (∃ (pieces : List (List Char × List Char)) (rest : List Char),
        pieces.map Prod.snd = insertions.map Edit.text
        ∧ text = pieces.flatMap Prod.fst ++ rest
        ∧ result.getD text = pieces.flatMap (fun piece => piece.1 ++ piece.2) ++ rest)
      ∧ ∀ n ∈ found, ∃ before inside behind opening,
        (∃ front mid back, insertions = front ++ (mid ++ back)
          ∧ (∀ e ∈ front, e.start ≤ n.start)
          ∧ (∀ e ∈ mid, n.start < e.start ∧ e.start < n.stop)
          ∧ (∀ e ∈ back, n.stop ≤ e.start)
          ∧ before = Edit.rewriteUpTo text n.start 0 front
          ∧ inside = Edit.rewriteUpTo text n.stop n.start mid
          ∧ behind = Edit.rewriteFrom text n.stop back)
        ∧ result.getD text = before ++ (inside ++ behind)
        ∧ (Marker.ofTag c.metaTag).occursIn inside = true
        ∧ (Marker.ofTag c.scriptTag).occursIn inside = true
        ∧ n.childOfKind? .jsxOpeningElement = some opening
        ∧ ∃ indent, indent.all isSpace = true
          ∧ (insertions.filter (Edit.hasSpan opening.stop opening.stop)).flatMap Edit.text
            = (c.tags.filter fun tag => !(Marker.ofTag tag).occursIn (d.textOf n)).flatMap
              fun tag => '\n' :: indent ++ tag
  := by
  constructor
  · intro tag x y indent hindent
    apply Marker.occursIn_line tag x y hindent
  · intro text language filename lenient d hparse c found hfound
    obtain ⟨rfl, dialect, hd⟩ := Document.wellRead_of_parse hparse
    have hc : c.Plain := plain_default
    have hinsertions : ∀ e ∈ c.edits d, Edit.Insertion d.text e :=
      fun e he => (inserted_of_mem hd hfound he).insertion hd
    have hperm := Edit.perm_inOrder (c.edits d)
    have hordered : ∀ e ∈ Edit.inOrder (c.edits d), Edit.Insertion d.text e :=
      fun e he => hinsertions e (hperm.mem_iff.mp he)
    have hline : Edit.InLine (byteLength d.text) 0 (Edit.inOrder (c.edits d)) :=
      (Edit.compatible_iff_inLine (Edit.pairwise_inOrder _)).mp
        (Edit.compatible_of_insertions hordered)
    obtain ⟨result, hcommit, hresult⟩ := Edit.commit_insertions hinsertions
    refine ⟨result, Edit.inOrder (c.edits d), ?_, hperm, fun e he => (hordered e he).empty, ?_, ?_⟩
    · rw [run, Report.ofEdits, hcommit]
      rfl
    · have hpieces := Edit.exists_pieces (boundary_zero d.text) hordered hline
      have hwhole : dropBytes d.text 0 = d.text := dropBytes_append [] d.text
      rw [hwhole, ← hresult] at hpieces
      apply hpieces
    · intro n hn
      obtain ⟨hmem, hkind⟩ := mem_heads hn
      obtain ⟨opening, closing, mid, htagged⟩ := hd.tagged hmem hkind
      obtain ⟨hknown, hlt⟩ := hd.known_node hmem (by rw [hkind]; nofun)
      have hstart : Boundary d.text n.start := hknown.start
      have hstop : Boundary d.text n.stop := hknown.stop
      obtain ⟨front, inner, back, hsplit, hfront, hinner, hback, hinnerLine, hstretch⟩ :=
        Edit.exists_stretch hstart hstop hlt hordered hline
      have hes : ∀ e ∈ inner, e ∈ c.edits d ∧ n.start < e.start ∧ e.start < n.stop := by
        intro e he
        refine ⟨hperm.mem_iff.mp ?_, hinner e he⟩
        rw [hsplit]
        simp [he]
      have hall : ∀ e ∈ c.edits d, n.start < e.start → e.start < n.stop → e ∈ inner := by
        intro e he hafter hbefore
        have hlisted := hperm.mem_iff.mpr he
        simp only [hsplit, List.mem_append] at hlisted
        rcases hlisted with he | he | he
        · have := hfront e he
          omega
        · apply he
        · have := hback e he
          omega
      have hoccurs {tag : List Char} (htag : tag ∈ c.tags) :=
        occursIn_head hd hc hn hinnerLine hes hall htag
      refine ⟨_, _, _, n.below opening,
        ⟨front, inner, back, hsplit, hfront, hinner, hback, rfl, rfl, rfl⟩, hresult.trans hstretch,
        hoccurs (by simp [tags]), hoccurs (by simp [tags]),
        htagged.opening_eq, c.tagIndent d n, all_tagIndent hc, ?_⟩
      apply flatMap_text_place hd hn htagged

set_option maxRecDepth 100000 in
/-- A head in a head, with the import put in on the line of the outer opening tag. -/
theorem heads_carry_tags_nested :
  ∃ text d after,
    text = "'use client'; a = <Head>\n<meta name='shopify-api-key' />\n <Head></Head>\n</Head>;\n".toList
    ∧ after = ("'use client'; a = <Head>\n  <script src=\"https://cdn.shopify.com/shopifycloud/app-bridge.js\">".toList ++
      "</script>\nimport Head from \"next/head\";\n<meta name='shopify-api-key' />\n <Head>\n".toList ++
      "   <meta name=\"shopify-api-key\" content=\"%SHOPIFY_API_KEY%\" />\n".toList ++
      "   <script src=\"https://cdn.shopify.com/shopifycloud/app-bridge.js\"></script></Head>\n".toList ++
      "</Head>;\n".toList)
    ∧ Document.parse text "tsx" none false = .ok d
    ∧ heads d ["Head".toList] ≠ []
    ∧ (({} : Inject).run d).result = .ok (some after)
    ∧ ∀ n ∈ heads d ["Head".toList], ∃ before inside behind, after = before ++ (inside ++ behind)
      ∧ (Marker.ofTag ({} : Inject).metaTag).occursIn inside = true
      ∧ (Marker.ofTag ({} : Inject).scriptTag).occursIn inside = true
  := by
  have hrun : ((Document.parse
      "'use client'; a = <Head>\n<meta name='shopify-api-key' />\n <Head></Head>\n</Head>;\n".toList
      "tsx" none false).toOption.map fun d => (({} : Inject).importedHeads d,
        (heads d ["Head".toList]).isEmpty, (({} : Inject).run d).result.toOption))
      = some ([], false, some (some ("'use client'; a = <Head>\n  <script src=\"https://cdn.shopify.com/shopifycloud/app-bridge.js\">".toList ++
      "</script>\nimport Head from \"next/head\";\n<meta name='shopify-api-key' />\n <Head>\n".toList ++
      "   <meta name=\"shopify-api-key\" content=\"%SHOPIFY_API_KEY%\" />\n".toList ++
      "   <script src=\"https://cdn.shopify.com/shopifycloud/app-bridge.js\"></script></Head>\n".toList ++
      "</Head>;\n".toList))) := by
    decide +kernel
  cases hparse : Document.parse
      "'use client'; a = <Head>\n<meta name='shopify-api-key' />\n <Head></Head>\n</Head>;\n".toList
      "tsx" none false with
  | error e =>
    rw [hparse] at hrun
    cases hrun
  | ok d =>
    rw [hparse] at hrun
    simp only [Except.toOption, Option.map_some, Option.some.injEq, Prod.mk.injEq] at hrun
    obtain ⟨hnames, hheads, hafter⟩ := hrun
    have hcarry := heads_carry_tags.2 hparse
    simp only [hnames] at hcarry
    obtain ⟨result, insertions, hresult, -, -, -, hall⟩ := hcarry (by simpa using hheads)
    rw [hresult] at hafter
    cases hafter
    refine ⟨_, d, _, rfl, rfl, hparse, by simpa using hheads, hresult, ?_⟩
    intro n hn
    obtain ⟨before, inside, behind, opening, -, hsplit, hmeta, hscript, -⟩ := hall n hn
    exact ⟨before, inside, behind, hsplit, hmeta, hscript⟩

end Codemod.Inject
