import Codemod.Proofs.Renamed

/-!
# The names that patterns bind

An object pattern binds the names in its entries, down to the patterns inside of it. When a document
is renamed, the words that a pattern binds are those that come of the words it bound before. So its
names stay distinct exactly when it does not bind the new name next to an entry that is renamed.
-/

namespace Codemod

/-! ### Bound words -/

namespace Node

/-- Kinds of words that are bound where a pattern has them. -/
def isBindable (k : Kind) : Bool := k = .identifier || k = .shorthandPropertyIdentifierPattern

/-- Whether a child in a role binds names for a node of a kind: each part of an object pattern, of
an array pattern and of a rest, what has a default, and the value behind a key. -/
def bindsThrough (k : Kind) (r : Option Role) : Bool :=
  match k with
  | .objectPattern | .arrayPattern | .restPattern => true
  | .assignmentPattern | .objectAssignmentPattern => r = some .left
  | .pairPattern => r = some .value
  | _ => false

mutual

/-- The words that a tree in its place binds as a pattern. -/
def boundIn (above : List Tree) : Tree → List Node
  | .node k r s e cs =>
    if isBindable k then [⟨.node k r s e cs, above⟩]
    else boundInAll k (.node k r s e cs :: above) cs

/-- The words that the children of a node of a kind bind for it. -/
def boundInAll (k : Kind) (above : List Tree) : List Tree → List Node
  | [] => []
  | t :: ts => (if bindsThrough k t.role then boundIn above t else []) ++ boundInAll k above ts

end

/-- The words that a node binds as a pattern. -/
def boundWords (n : Node) : List Node := boundIn n.above n.tree

/-- What a child contributes to the words that a node of a kind binds. -/
def boundFor (k : Kind) (m : Node) : List Node :=
  if bindsThrough k m.tree.role then m.boundWords else []

variable {n w : Node}

theorem boundInAll_eq (k : Kind) (above ts : List Tree) :
  boundInAll k above ts = ts.flatMap fun t => boundFor k ⟨t, above⟩
  := by
  induction ts with
  | nil => rfl
  | cons t ts ih =>
    rw [boundInAll, ih, List.flatMap_cons]
    rfl

theorem boundWords_of_bindable (h : isBindable n.kind = true) :
  n.boundWords = [n]
  := by
  obtain ⟨⟨k, r, s, e, cs⟩, above⟩ := n
  change isBindable k = true at h
  rw [boundWords, boundIn, if_pos h]

theorem boundWords_of_not_bindable (h : isBindable n.kind = false) :
  n.boundWords = n.children.flatMap (boundFor n.kind)
  := by
  obtain ⟨⟨k, r, s, e, cs⟩, above⟩ := n
  change isBindable k = false at h
  rw [boundWords, boundIn, if_neg (by simp [h]), boundInAll_eq, children, List.flatMap_map]
  rfl

end Node

namespace Document

/-- The names that a node binds as a pattern. -/
def boundNames (d : Document) (n : Node) : List (List Char) := n.boundWords.map d.textOf

variable {d : Document} {n w : Node}

/-- Bound words are words of the document. -/
theorem word_of_mem_boundWords (hn : n ∈ d.nodes) (hw : w ∈ n.boundWords) :
  d.Word w ∧ Node.isBindable w.kind = true
  := by
  obtain ⟨t, above⟩ := n
  induction t using Tree.induct generalizing above with
  | h t ih =>
    cases hbindable : Node.isBindable (Node.kind ⟨t, above⟩) with
    | true =>
      rw [Node.boundWords_of_bindable hbindable, List.mem_singleton] at hw
      rw [hw]
      refine ⟨⟨hn, ?_⟩, hbindable⟩
      simp only [Node.isBindable, Bool.or_eq_true, decide_eq_true_iff] at hbindable
      rcases hbindable with hkind | hkind <;> rw [hkind] <;> rfl
    | false =>
      rw [Node.boundWords_of_not_bindable hbindable] at hw
      obtain ⟨m, hm, hw⟩ := List.mem_flatMap.mp hw
      rw [Node.boundFor] at hw
      split at hw
      · obtain ⟨u, hu, rfl⟩ := List.mem_map.mp hm
        apply ih u hu _ (Node.below_mem hn hu) hw
      · cases hw

end Document

namespace Rename

open Grammar Document

variable {c : Rename} {d d' : Document} {dialect dialect' : Dialect} {n w : Node}

/-! ### Bound words after renaming -/

/-- The words that come of a bound word. -/
def boundImages (c : Rename) (d : Document) (w : Node) : List Node :=
  ((c.carriage d).images w).filter fun m => Node.isBindable m.kind

theorem boundImages_of_kept (hd : d.WellRead dialect) (h : Kept c d w) :
  c.boundImages d w = [c.newName d w, c.oldName d w]
  := by
  have hkind : w.kind = .shorthandPropertyIdentifierPattern := (h.kept hd rfl).1
  have hnew : Node.isBindable (c.newName d w).kind = true := by
    change Node.isBindable w.kind = true
    rw [hkind]
    rfl
  have hcomma : Node.isBindable (c.commaAfter d w).kind = false := rfl
  have hold : Node.isBindable (c.oldName d w).kind = true := hnew
  rw [boundImages, images_of_kept hd h]
  simp [hnew, hcomma, hold]

theorem boundImages_of_not_kept (hd : d.WellRead dialect) (hw : w ∈ d.nodes) (h : ¬ Kept c d w)
    (hkind : Node.isBindable w.kind = true) :
  c.boundImages d w = [(c.carriage d).wholeNode w]
  := by
  rw [boundImages, Carriage.images_of_none (parts_of_not_kept hd hw h)]
  simp [hkind]

/-- What comes of a child contributes what comes of its words. -/
theorem flatMap_boundFor (hd : d.WellRead dialect) {p m : Node} (hm : m ∈ d.nodes)
    (hparent : m.parent? = some p)
    (h : ¬ Kept c d m →
      ((c.carriage d).wholeNode m).boundWords = m.boundWords.flatMap (c.boundImages d)) :
  ((c.carriage d).images m).flatMap (Node.boundFor p.kind)
    = (Node.boundFor p.kind m).flatMap (c.boundImages d)
  := by
  by_cases hkept : Kept c d m
  · obtain ⟨hkind, q, hq, hpattern⟩ := hkept.kept hd rfl
    rw [hparent] at hq
    cases hq
    have hbindable : Node.isBindable m.kind = true := by
      rw [hkind]
      rfl
    have hfor (u : Node) : Node.boundFor p.kind u = u.boundWords := by
      rw [Node.boundFor, hpattern]
      rfl
    have hnew : (c.newName d m).boundWords = [c.newName d m] :=
      Node.boundWords_of_bindable hbindable
    have hold : (c.oldName d m).boundWords = [c.oldName d m] :=
      Node.boundWords_of_bindable hbindable
    have hcomma : (c.commaAfter d m).boundWords = [] := rfl
    rw [images_of_kept hd hkept, hfor, Node.boundWords_of_bindable hbindable,
      List.flatMap_singleton, boundImages_of_kept hd hkept]
    simp only [List.flatMap_cons, List.flatMap_nil, hfor, hnew, hold, hcomma, List.nil_append,
      List.cons_append]
  · rw [Carriage.images_of_none (parts_of_not_kept hd hm hkept), List.flatMap_singleton,
      Node.boundFor, Node.boundFor]
    change (if Node.bindsThrough p.kind m.tree.role = true then _ else _) = _
    split
    · apply h hkept
    · rfl

/-- The words that a carried pattern binds. -/
theorem boundWords_whole (hd : d.WellRead dialect) (hn : n ∈ d.nodes) (hkept : ¬ Kept c d n) :
  ((c.carriage d).wholeNode n).boundWords = n.boundWords.flatMap (c.boundImages d)
  := by
  obtain ⟨t, above⟩ := n
  induction t using Tree.induct generalizing above with
  | h t ih =>
    have hkind := Carriage.kind_wholeNode (c.carriage d) ⟨t, above⟩
    cases hbindable : Node.isBindable (Node.kind ⟨t, above⟩) with
    | true =>
      rw [Node.boundWords_of_bindable (hkind ▸ hbindable), Node.boundWords_of_bindable hbindable,
        List.flatMap_singleton, boundImages_of_not_kept hd hn hkept hbindable]
    | false =>
      rw [Node.boundWords_of_not_bindable (hkind ▸ hbindable),
        Node.boundWords_of_not_bindable hbindable, Carriage.children_wholeNode,
        List.flatMap_assoc, List.flatMap_assoc]
      apply List.flatMap_congr
      intro m hm
      obtain ⟨u, hu, rfl⟩ := List.mem_map.mp hm
      have hlisted := Node.mem_of_mem_children hn hm
      apply flatMap_boundFor hd hlisted (Node.parent?_of_mem_children hm)
      intro hkept'
      apply ih u hu _ hlisted hkept'

/-! ### Names -/

/-- The names that come of a bound word. -/
def boundNamesOf (c : Rename) (d d' : Document) (w : Node) : List (List Char) :=
  (c.boundImages d w).map d'.textOf

theorem boundNames_whole (hd : d.WellRead dialect) (hn : n ∈ d.nodes) (hkept : ¬ Kept c d n) :
  d'.boundNames ((c.carriage d).wholeNode n) = n.boundWords.flatMap (c.boundNamesOf d d')
  := by
  rw [boundNames, boundWords_whole hd hn hkept, List.map_flatMap]
  rfl

section Names

variable (hc : c.Plain) (hd : d.WellRead dialect) (h : c.Becomes d d')
include hc hd h

/-- The name of a word stays, or the word had the name of the property and gets the new name, with
the old one behind it if that is kept. -/
theorem boundNamesOf_cases (hn : n ∈ d.nodes) (hw : w ∈ n.boundWords) :
  (Stays c d w ∧ c.boundNamesOf d d' w = [d.textOf w])
  ∨ (¬ Stays c d w ∧ d.textOf w = c.property ∧ (c.boundNamesOf d d' w = [c.replacement]
    ∨ c.boundNamesOf d d' w = [c.replacement, c.property]))
  := by
  obtain ⟨hword, hbindable⟩ := word_of_mem_boundWords hn hw
  by_cases hstays : Stays c d w
  · apply Or.inl
    use hstays
    rw [boundNamesOf, boundImages_of_not_kept hd hword.listed hstays.not_kept hbindable,
      List.map_singleton, textOf_whole_of_stays hc hd h hword hstays]
  · obtain ⟨t, ht⟩ := not_forall_not.mp hstays
    refine .inr ⟨hstays, (ht.word hd).2, ?_⟩
    by_cases hkept : Kept c d w
    · obtain ⟨hnew, hold⟩ := textOf_names hc hd h hkept
      apply Or.inr
      rw [boundNamesOf, boundImages_of_kept hd hkept]
      simp only [List.map_cons, List.map_nil, hnew, hold]
    · apply Or.inl
      rw [boundNamesOf, boundImages_of_not_kept hd hword.listed hkept hbindable,
        List.map_singleton, textOf_whole_of_rewritten hc hd h ht]
      rcases ht.text_cases with rfl | rfl
      · rfl
      · contradiction

/-- The names that come of a rewritten word and of another word are different, unless the other one
is the new name. -/
theorem disjoint_of_rewritten (hn : n ∈ d.nodes) {u : Node} (hw : w ∈ n.boundWords)
    (hu : u ∈ n.boundWords) (hne : d.textOf w ≠ d.textOf u) (hrewritten : ¬ Stays c d w)
    (hnew : c.replacement ∉ d.boundNames n) :
  List.Disjoint (c.boundNamesOf d d' w) (c.boundNamesOf d d' u)
  := by
  obtain ⟨-, hproperty, hwnames⟩ :=
    (boundNamesOf_cases hc hd h hn hw).resolve_left fun hstays => hrewritten hstays.1
  rcases boundNamesOf_cases hc hd h hn hu with ⟨-, hunames⟩ | ⟨-, hproperty', -⟩
  · have hreplacement : d.textOf u ≠ c.replacement := by
      intro heq
      apply hnew
      rw [← heq]
      apply List.mem_map_of_mem hu
    rw [hproperty] at hne
    rw [hunames]
    rcases hwnames with hwnames | hwnames
    · simpa [hwnames] using hreplacement
    · simpa [hwnames] using ⟨hreplacement, hne.symm⟩
  · rw [hproperty, hproperty'] at hne
    contradiction

/-- The names of a pattern stay distinct exactly when it does not bind the new name next to a word
that is rewritten. -/
theorem nodup_boundNames_iff (hn : n ∈ d.nodes) (hkept : ¬ Kept c d n)
    (hnodup : (d.boundNames n).Nodup) :
  (d'.boundNames ((c.carriage d).wholeNode n)).Nodup ↔
    ((∃ w ∈ n.boundWords, ¬ Stays c d w) → c.replacement ∉ d.boundNames n)
  := by
  have hcases {w : Node} (hw : w ∈ n.boundWords) := boundNamesOf_cases hc hd h hn hw
  rw [boundNames_whole hd hn hkept, List.nodup_flatMap]
  constructor
  · rintro ⟨-, hdisjoint⟩ ⟨w, hw, hrewritten⟩ hmem
    obtain ⟨u, hu, htext⟩ := List.mem_map.mp hmem
    obtain ⟨-, hproperty, hnames⟩ := (hcases hw).resolve_left fun hstays => hrewritten hstays.1
    have hsame : c.boundNamesOf d d' u = [d.textOf u] := by
      rcases hcases hu with ⟨-, hsame⟩ | ⟨-, hproperty', -⟩
      · apply hsame
      · cases hc.ne (htext.symm.trans hproperty')
    have hne : w ≠ u := by
      rintro rfl
      apply hc.ne (htext.symm.trans hproperty)
    have : Std.Symm (Function.onFun List.Disjoint (c.boundNamesOf d d')) :=
      ⟨fun _ _ hxy => List.disjoint_symm hxy⟩
    apply hdisjoint.forall hw hu hne
    · show c.replacement ∈ c.boundNamesOf d d' w
      rcases hnames with hnames | hnames <;> simp [hnames]
    · rw [hsame, htext]
      apply List.mem_singleton_self
  · intro hcondition
    constructor
    · intro w hw
      rcases hcases hw with ⟨-, hnames⟩ | ⟨-, -, hnames | hnames⟩
      · simp [hnames]
      · simp [hnames]
      · simp [hnames, hc.ne]
    · have hapart : n.boundWords.Pairwise fun w u => d.textOf w ≠ d.textOf u :=
        List.pairwise_map.mp hnodup
      apply hapart.imp_of_mem
      intro w u hw hu hne
      rcases hcases hw with ⟨-, hwnames⟩ | ⟨hrewritten, -⟩
      · rcases hcases hu with ⟨-, hunames⟩ | ⟨hrewritten, -⟩
        · show List.Disjoint (c.boundNamesOf d d' w) (c.boundNamesOf d d' u)
          rw [hwnames, hunames]
          simpa using hne.symm
        · apply List.disjoint_symm
          apply disjoint_of_rewritten hc hd h hn hu hw hne.symm hrewritten
          apply hcondition ⟨u, hu, hrewritten⟩
      · apply disjoint_of_rewritten hc hd h hn hw hu hne hrewritten
        apply hcondition ⟨w, hw, hrewritten⟩

end Names

/-- With the default configuration, take a document in which each object pattern binds distinct
names, and the document that is read from the text that comes out, as the carried tree. There each
object pattern binds distinct names exactly when no pattern with a rewritten word binds the new name
already. -/
theorem nodup_patterns_iff {text result : List Char} {language : String}
    {filename : Option String} {lenient : Bool} {d d' : Document}
    (h : Document.parse text language filename lenient = .ok d)
    (hrun : (({} : Rename).run d).result = .ok (some result))
    (hread : d.reread result = .ok d') (htree : (({} : Rename).carriage d).carry d.tree = [d'.tree])
    (hdistinct : ∀ p ∈ d.nodes, p.kind = .objectPattern → (d.boundNames p).Nodup) :
  (∀ p ∈ d'.nodes, p.kind = .objectPattern → (d'.boundNames p).Nodup) ↔
    ∀ p ∈ d.nodes, p.kind = .objectPattern →
      (∃ w ∈ p.boundWords, ∃ t, w.replace t ∈ ({} : Rename).edits d) →
      "action".toList ∉ d.boundNames p
  := by
  obtain ⟨rfl, dialect, hd⟩ := wellRead_of_parse h
  obtain ⟨-, hbecomes⟩ := becomes_of_run hd hrun hread htree
  have hkept {p : Node} (hkind : p.kind = .objectPattern) : ¬ Kept {} d p :=
    not_kept_of_kind hd (hkind.trans_ne nofun)
  have hrewritten {p w : Node} (hp : p ∈ d.nodes) (hw : w ∈ p.boundWords) :
      ¬ Stays {} d w ↔ ∃ t, w.replace t ∈ ({} : Rename).edits d := by
    simp only [replace_mem_edits_iff hd (word_of_mem_boundWords hp hw).1]
    apply not_forall_not
  have hiff {p : Node} (hp : p ∈ d.nodes) (hkind : p.kind = .objectPattern) :=
    nodup_boundNames_iff plain_default hd hbecomes hp (hkept hkind) (hdistinct p hp hkind)
  constructor
  · intro hall p hp hkind ⟨w, hw, hedit⟩
    have hwhole := hall _ (whole_mem hd hbecomes hp (hkept hkind)) hkind
    apply (hiff hp hkind).mp hwhole ⟨w, hw, (hrewritten hp hw).mpr hedit⟩
  · intro hall p' hp' hkind
    obtain ⟨p, hp, rfl⟩ := exists_whole hd hbecomes hp' (hkind.trans_ne nofun)
      (hkind.trans_ne nofun)
    apply (hiff hp hkind).mpr
    rintro ⟨w, hw, hstays⟩
    apply hall p hp hkind ⟨w, hw, (hrewritten hp hw).mp hstays⟩

set_option maxRecDepth 100000 in
/-- A pattern that keeps the old name binds distinct names, one of them in an inner pattern. -/
theorem nodup_patterns_kept :
  ∃ d d', Document.parse
      "const { smartGrid, b: [a] } = api; smartGrid.presentModal(smartGrid);".toList "tsx" none
        false = .ok d
    ∧ (({} : Rename).run d).result = .ok (some
      "const { action, smartGrid, b: [a] } = api; action.presentModal(smartGrid);".toList)
    ∧ d.reread "const { action, smartGrid, b: [a] } = api; action.presentModal(smartGrid);".toList
      = .ok d'
    ∧ (∀ p ∈ d.nodes, p.kind = .objectPattern → (d.boundNames p).Nodup)
    ∧ ∀ p ∈ d'.nodes, p.kind = .objectPattern → (d'.boundNames p).Nodup
  := by
  have hrun : ((Document.parse
      "const { smartGrid, b: [a] } = api; smartGrid.presentModal(smartGrid);".toList "tsx" none
        false).toOption.bind fun d =>
      (d.reread "const { action, smartGrid, b: [a] } = api; action.presentModal(smartGrid);".toList
        ).toOption.map fun d' => ((({} : Rename).run d).result,
          decide ((({} : Rename).carriage d).carry d.tree = [d'.tree]),
          decide (∀ p ∈ d.nodes, p.kind = .objectPattern →
            (d.boundNames p).Nodup ∧ "action".toList ∉ d.boundNames p)))
      = some (.ok (some
        "const { action, smartGrid, b: [a] } = api; action.presentModal(smartGrid);".toList),
        true, true) := by
    decide +kernel
  cases hparse : Document.parse
      "const { smartGrid, b: [a] } = api; smartGrid.presentModal(smartGrid);".toList "tsx" none
        false with
  | error e =>
    rw [hparse] at hrun
    cases hrun
  | ok d =>
    rw [hparse] at hrun
    simp only [Except.toOption, Option.bind_some] at hrun
    cases hread : d.reread
        "const { action, smartGrid, b: [a] } = api; action.presentModal(smartGrid);".toList with
    | error e =>
      rw [hread] at hrun
      cases hrun
    | ok d' =>
      rw [hread] at hrun
      simp only [Option.map_some, Option.some.injEq, Prod.mk.injEq, decide_eq_true_iff] at hrun
      obtain ⟨hresult, htree, hnames⟩ := hrun
      have hdistinct : ∀ p ∈ d.nodes, p.kind = .objectPattern → (d.boundNames p).Nodup :=
        fun p hp hkind => (hnames p hp hkind).1
      refine ⟨d, d', rfl, hresult, hread, hdistinct, ?_⟩
      apply (nodup_patterns_iff hparse hresult hread htree hdistinct).mpr
      intro p hp hkind _
      apply (hnames p hp hkind).2

set_option maxRecDepth 100000 in
/-- A pattern that takes off both the old name and the new one binds the new one twice. -/
theorem boundNames_twice :
  ((Document.parse "const { smartGrid, action } = api;\nsmartGrid.presentModal();\n".toList "tsx"
      none false).toOption.bind fun d =>
    (d.reread "const { action, action } = api;\naction.presentModal();\n".toList).toOption.map
      fun d' => ((({} : Rename).run d).result,
        (d.nodes.filter (·.kind = .objectPattern)).map d.boundNames,
        (d'.nodes.filter (·.kind = .objectPattern)).map d'.boundNames))
    = some (.ok (some "const { action, action } = api;\naction.presentModal();\n".toList),
      [["smartGrid".toList, "action".toList]], [["action".toList, "action".toList]])
  := by
  decide +kernel

end Rename

end Codemod
