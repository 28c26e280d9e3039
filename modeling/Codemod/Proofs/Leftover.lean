import Codemod.Proofs.Fixpoint
import Codemod.Proofs.Rounds

/-!
# What the rounds leave

A round on elements has no edits exactly when there is no wrapper anywhere in the tree, and a round
on calls exactly when there is no call that creates one. So nothing of the kind is left by rounds
that are repeated until one of them has no edits.
-/

namespace Codemod

/-- In a tree and in all trees below it, an element with an opening tag has a closing one too. -/
def Tree.Closed (t : Tree) : Prop :=
  ∀ u, Part u t → u.kind = .jsxElement → (u.childOfKind? .jsxOpeningElement).isSome →
    (u.childOfKind? .jsxClosingElement).isSome

/-- The tree of a document that has been parsed is closed. -/
theorem Document.WellRead.closed {d : Document} {dialect : Grammar.Dialect}
    (h : d.WellRead dialect) :
  d.tree.Closed
  := by
  intro u hu hkind _
  rcases hu with rfl | hu
  · rw [h.program] at hkind
    cases hkind
  · obtain ⟨opening, mid, closing, hchildren, -, hclosing, -⟩ := (h.known u hu).tags hkind
    rw [Tree.childOfKind?, List.find?_isSome]
    use closing
    simp [hchildren, hclosing]

namespace Unwrap

variable {c : Unwrap} {d : Document} {tags : List (List Char)} {n : Node}

/-! ### Wrappers -/

/-- A node is an element whose tag name is one of some names. -/
def IsWrapper (d : Document) (tags : List (List Char)) (n : Node) : Prop :=
  (n.kind = .jsxElement ∨ n.kind = .jsxSelfClosingElement)
    ∧ ∃ name ∈ tags, Markup.tagName? d n = some name

theorem mem_elements :
  n ∈ elements d tags ↔ n ∈ d.nodes ∧ IsWrapper d tags n
  := by
  simp only [elements, List.mem_filter, Bool.and_eq_true, Markup.isElement, Bool.or_eq_true,
    decide_eq_true_iff, Markup.isTagged, Option.any_eq_true, List.contains_iff_mem, IsWrapper,
    and_comm (a := _ ∈ tags)]

/-- Every wrapper has an edit. -/
theorem elementEdits_ne_nil (hclosed : d.tree.Closed) (hn : n ∈ d.nodes)
    (h : IsWrapper d tags n) :
  elementEdits d n ≠ []
  := by
  obtain ⟨hkind, name, -, hname⟩ := h
  rw [elementEdits]
  split
  · apply List.cons_ne_nil
  · rename_i hpaired
    have hkind := hkind.resolve_right hpaired
    obtain ⟨tag, htag, -⟩ := Option.map_eq_some_iff.mp hname
    rw [Markup.tagNode?, hkind] at htag
    obtain ⟨opening, hopening, -⟩ := Option.bind_eq_some_iff.mp htag
    have hopens : (n.tree.childOfKind? .jsxOpeningElement).isSome := by
      rw [Node.childOfKind?] at hopening
      rw [← Option.isSome_map, hopening]
      rfl
    obtain ⟨closing, hclosing⟩ := Option.isSome_iff_exists.mp
      (hclosed n.tree (Node.part_of_mem hn) hkind hopens)
    have hclosing : n.childOfKind? .jsxClosingElement = some (n.below closing) := by
      rw [Node.childOfKind?, hclosing]
      rfl
    rw [unwrapElement, hopening, hclosing]
    simp only
    split
    · apply List.cons_ne_nil
    · split
      · apply List.cons_ne_nil
      · split <;> apply List.cons_ne_nil

/-- A round on elements has no edits exactly when there is no wrapper. -/
theorem markupEdits_eq_nil (hclosed : d.tree.Closed) :
  markupEdits d tags = [] ↔ ∀ n ∈ d.nodes, ¬ IsWrapper d tags n
  := by
  have hedits : markupEdits d tags = [] ↔ Node.outermost (elements d tags) = [] := by
    rw [markupEdits, List.flatMap_eq_nil_iff, List.eq_nil_iff_forall_not_mem]
    apply forall_congr'
    intro n
    constructor
    · intro h hn
      obtain ⟨hmem, hwrapper⟩ := mem_elements.mp (List.mem_filter.mp hn).1
      exact elementEdits_ne_nil hclosed hmem hwrapper (h hn)
    · intro h hn
      cases h hn
  rw [hedits, Node.outermost_eq_nil, List.eq_nil_iff_forall_not_mem]
  simp only [mem_elements, not_and]

/-! ### Calls that create wrappers -/

/-- A node is a call of a factory with one to three arguments, comments apart, the first of which is
one of some names. -/
def Creates (c : Unwrap) (d : Document) (tags : List (List Char)) (n : Node) : Prop :=
  n.kind = .callExpression
    ∧ (∃ callee, n.child? .callee = some callee ∧ d.textOf callee ∈ c.factories)
    ∧ ∃ arguments first rest, n.child? .arguments = some arguments
      ∧ arguments.namedChildren.filter (·.kind ≠ .comment) = first :: rest
      ∧ rest.length ≤ 2 ∧ d.textOf first ∈ tags

theorem factoryArguments?_eq_some {values : List Node} :
  c.factoryArguments? d n = some values
    ↔ n.kind = .callExpression
      ∧ (∃ callee, n.child? .callee = some callee ∧ d.textOf callee ∈ c.factories)
      ∧ ∃ arguments, n.child? .arguments = some arguments
        ∧ arguments.namedChildren.filter (·.kind ≠ .comment) = values
  := by
  simp only [factoryArguments?, Option.ite_none_right_eq_some, Bool.and_eq_true,
    decide_eq_true_iff, Option.any_eq_true, List.contains_iff_mem, Option.map_eq_some_iff, and_assoc]

/-- Something takes the place of a call exactly when it creates a wrapper. -/
theorem exists_factoryChild? :
  (∃ child, c.factoryChild? d tags n = some child) ↔ c.Creates d tags n
  := by
  rw [factoryChild?, Creates]
  constructor
  · rintro ⟨child, h⟩
    split at h
    · rename_i first rest hvalues
      obtain ⟨hkind, hcallee, arguments, harguments, hvalues⟩ := factoryArguments?_eq_some.mp hvalues
      rw [Option.ite_none_right_eq_some] at h
      obtain ⟨htag, h⟩ := h
      refine ⟨hkind, hcallee, arguments, first, rest, harguments, hvalues, ?_, by simpa using htag⟩
      split at h
      · apply Nat.zero_le
      · apply Nat.le_succ
      · apply Nat.le_refl
      · cases h
    · cases h
  · rintro ⟨hkind, hcallee, arguments, first, rest, harguments, hvalues, hlength, htag⟩
    rw [factoryArguments?_eq_some.mpr ⟨hkind, hcallee, arguments, harguments, hvalues⟩]
    simp only [List.contains_iff_mem, htag, if_true]
    rcases rest with _ | ⟨props, _ | ⟨child, _ | ⟨more, rest⟩⟩⟩
    · exact ⟨_, rfl⟩
    · exact ⟨_, rfl⟩
    · exact ⟨_, rfl⟩
    · simp only [List.length_cons] at hlength
      omega

/-- A round on calls has no edits exactly when no call creates a wrapper. -/
theorem factoryEdits_eq_nil :
  c.factoryEdits d tags = [] ↔ ∀ n ∈ d.nodes, ¬ c.Creates d tags n
  := by
  have houter : c.factoryEdits d tags = []
      ↔ Node.outermost ((c.calls d tags).map Prod.fst) = [] := by
    rw [factoryEdits_eq, List.map_eq_nil_iff, Node.outermost, List.filter_map, List.map_eq_nil_iff]
    rfl
  rw [houter, Node.outermost_eq_nil, List.map_eq_nil_iff, calls, List.filterMap_eq_nil_iff]
  apply forall₂_congr
  intro n _
  rw [Option.map_eq_none_iff, ← exists_factoryChild?, Option.eq_none_iff_forall_ne_some, not_exists]

/-! ### Repeated rounds -/

/-- The rounds on elements that a document goes through with some tag names, and then the rounds on
calls: the sessions that they leave, and what they come to. -/
structure Repetitions (c : Unwrap) (tags : List (List Char)) (d : Document) (s₁ s₂ : Session)
    (first second : Session.Settled) : Prop where
  elements : (Session.start d).applyUntilStable (fun d => .ok (markupEdits d tags))
    = (s₁, .ok first)
  calls : s₁.applyUntilStable (fun d => .ok (c.factoryEdits d tags)) = (s₂, .ok second)

section Repetitions

variable {s₁ s₂ : Session} {first second : Session.Settled}

/-- The rounds of a run are repeated with the local names of the component. -/
theorem Repetitions.run_eq (h : c.Repetitions (c.names d).qualified d s₁ s₂ first second)
    (hbound : (c.names d).isBound = true) :
  c.run d = c.finish (first.notices ++ second.notices) s₂
  := by
  simp only [run, hbound, if_true, runRounds, h.elements, h.calls]

theorem Repetitions.closed (h : c.Repetitions tags d s₁ s₂ first second)
    (h₀ : d.reread d.text = .ok d) :
  s₁.document.tree.Closed
  := by
  have hstart : Reached c tags d .elements (Session.start d).document := .start
  have hreached := (hstart.applyUntilStable h₀).1
  simp only [Stage.edits, h.elements] at hreached
  obtain ⟨dialect, hread⟩ := hreached.wellRead h₀
  exact hread.closed

theorem Repetitions.no_wrapper (h : c.Repetitions tags d s₁ s₂ first second)
    (h₀ : d.reread d.text = .ok d) (hlt : first.committed < Session.maxRounds) :
  ∀ n ∈ s₁.document.nodes, ¬ IsWrapper s₁.document tags n
  := by
  have hidle := Session.idle_of_settled h.elements hlt
  exact (markupEdits_eq_nil (h.closed h₀)).mp (Except.ok.inj hidle)

theorem Repetitions.no_call (h : c.Repetitions tags d s₁ s₂ first second)
    (hlt : second.committed < Session.maxRounds) :
  ∀ n ∈ s₂.document.nodes, ¬ c.Creates s₂.document tags n
  := by
  have hidle := Session.idle_of_settled h.calls hlt
  exact factoryEdits_eq_nil.mp (Except.ok.inj hidle)

end Repetitions

/-- A round on elements of a closed tree has no edits exactly when there is no wrapper in it, and a
round on calls has none exactly when no call creates a wrapper. So a document that has been parsed,
whose tree is closed, has no wrapper left after rounds on elements that end below the limit, and
after rounds on calls that do so, no call that creates one. These are the rounds of a run. -/
theorem rounds_exhaustive (c : Unwrap) (tags : List (List Char)) :
  (∀ d : Document, d.tree.Closed →
    (markupEdits d tags = [] ↔ ∀ n ∈ d.nodes, ¬ IsWrapper d tags n))
  ∧ (∀ d : Document, c.factoryEdits d tags = [] ↔ ∀ n ∈ d.nodes, ¬ c.Creates d tags n)
  ∧ ∀ text language filename lenient d, Document.parse text language filename lenient = .ok d →
    d.tree.Closed
    ∧ ∀ s₁ s₂ first second, c.Repetitions tags d s₁ s₂ first second →
      (first.committed < 100 → ∀ n ∈ s₁.document.nodes, ¬ IsWrapper s₁.document tags n)
      ∧ (second.committed < 100 → ∀ n ∈ s₂.document.nodes, ¬ c.Creates s₂.document tags n)
      ∧ (tags = (c.names d).qualified → (c.names d).isBound = true →
        c.run d = c.finish (first.notices ++ second.notices) s₂)
  := by
  refine ⟨fun _ => markupEdits_eq_nil, fun _ => factoryEdits_eq_nil, ?_⟩
  intro text language filename lenient d hparse
  obtain ⟨rfl, rfl, rfl, rfl⟩ := Document.eq_of_parse hparse
  obtain ⟨-, dialect, hread⟩ := Document.wellRead_of_parse hparse
  refine ⟨hread.closed, ?_⟩
  intro s₁ s₂ first second hrounds
  refine ⟨hrounds.no_wrapper hparse, hrounds.no_call, ?_⟩
  rintro rfl
  exact hrounds.run_eq

/-- A wrapper in a wrapper, and a call in a call. -/
def nestedTwice : List Char :=
  "import \x7bP\x7d from 'p';\n<P><P/></P>;\nh(P, 0, h(P));".toList

set_option maxRecDepth 100000 in
/-- Two rounds on elements and two on calls leave nothing. -/
theorem rounds_exhaustive_nested :
  ∃ (c : Unwrap) (d : Document) (s₁ s₂ : Session),
    c = ⟨"p".toList, "P".toList, ["h".toList]⟩
    ∧ Document.parse nestedTwice "tsx" none false = .ok d
    ∧ markupEdits d ["P".toList] ≠ [] ∧ c.factoryEdits d ["P".toList] ≠ []
    ∧ c.Repetitions ["P".toList] d s₁ s₂ ⟨2, true⟩ ⟨2, true⟩
    ∧ (∀ n ∈ s₁.document.nodes, ¬ IsWrapper s₁.document ["P".toList] n)
    ∧ (∀ n ∈ s₂.document.nodes, ¬ c.Creates s₂.document ["P".toList] n)
    ∧ c.run d = c.finish [] s₂
  := by
  have hnames : ((Document.parse nestedTwice "tsx" none false).toOption.map fun d =>
      ((markupEdits d ["P".toList]).length,
        (factoryEdits ⟨"p".toList, "P".toList, ["h".toList]⟩ d ["P".toList]).length,
        (names ⟨"p".toList, "P".toList, ["h".toList]⟩ d).qualified,
        (names ⟨"p".toList, "P".toList, ["h".toList]⟩ d).isBound))
      = some (1, 1, ["P".toList], true) := by
    decide +kernel
  have hrun : ((Document.parse nestedTwice "tsx" none false).toOption.map fun d =>
      (((Session.start d).applyUntilStable fun d => .ok (markupEdits d ["P".toList])).2,
        (((Session.start d).applyUntilStable fun d =>
          .ok (markupEdits d ["P".toList])).1.applyUntilStable fun d =>
            .ok (factoryEdits ⟨"p".toList, "P".toList, ["h".toList]⟩ d ["P".toList])).2))
      = some (.ok ⟨2, true⟩, .ok ⟨2, true⟩) := by
    decide +kernel
  cases hparse : Document.parse nestedTwice "tsx" none false with
  | error e =>
    rw [hparse] at hrun
    cases hrun
  | ok d =>
    rw [hparse] at hnames hrun
    simp only [Except.toOption, Option.map_some, Option.some.injEq, Prod.mk.injEq] at hnames
    obtain ⟨hmarkup, hfactory, hqualified, hbound⟩ := hnames
    obtain ⟨hfirst, hsecond⟩ := Prod.mk.inj (Option.some.inj hrun)
    obtain ⟨-, -, hleft⟩ := rounds_exhaustive ⟨"p".toList, "P".toList, ["h".toList]⟩ ["P".toList]
    have hrounds : Repetitions ⟨"p".toList, "P".toList, ["h".toList]⟩ ["P".toList] d _ _ _ _ :=
      ⟨Prod.ext rfl hfirst, Prod.ext rfl hsecond⟩
    obtain ⟨-, hleft⟩ := hleft _ _ _ _ d hparse
    obtain ⟨hwrapper, hcall, hrun⟩ := hleft _ _ _ _ hrounds
    refine ⟨_, d, _, _, rfl, rfl, ?_, ?_, hrounds, hwrapper (by decide), hcall (by decide),
      hrun hqualified.symm hbound⟩
    · apply List.ne_nil_of_length_pos
      omega
    · apply List.ne_nil_of_length_pos
      omega

end Unwrap

end Codemod
