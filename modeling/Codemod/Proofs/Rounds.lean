import Codemod.Proofs.ImportRound
import Codemod.Proofs.Session
import Codemod.Proofs.Unwrap

/-!
# The rounds of a run

A run goes through rounds on elements, on calls and on imports. The edits of a round on elements or
on calls can always be committed. So a run fails only where the text that comes out of a round
cannot be read, or where import statements collide, and a text that it returns can be read.
-/

namespace Codemod.Unwrap

open Text

variable {c : Unwrap} {d d' d₀ : Document} {dialect : Grammar.Dialect} {tags : List (List Char)}
  {n m : Node}

/-! ### Calls -/

/-- A tree with children in two roles has several children. -/
theorem several_of_roles {t u v : Tree} {r r' : Role} (hne : r ≠ r') (hu : t.child? r = some u)
    (hv : t.child? r' = some v) :
  ∃ a b ts, t.children = a :: b :: ts
  := by
  rw [Tree.child?] at hu hv
  cases hchildren : t.children with
  | nil =>
    rw [hchildren] at hu
    cases hu
  | cons a ts =>
    cases ts with
    | nil =>
      rw [hchildren] at hu hv
      obtain rfl := List.mem_singleton.mp (List.mem_of_find?_eq_some hu)
      obtain rfl := List.mem_singleton.mp (List.mem_of_find?_eq_some hv)
      have hrole := List.find?_some hu
      have hrole' := List.find?_some hv
      simp only [decide_eq_true_iff] at hrole hrole'
      cases hne (Option.some.inj (hrole.symm.trans hrole'))
    | cons b ts => exact ⟨a, b, ts, rfl⟩

/-- A call that is replaced has a callee and arguments. -/
theorem several_of_factoryChild? {text : List Char} (h : c.factoryChild? d tags n = some text) :
  n.kind = .callExpression ∧ ∃ u v us, n.tree.children = u :: v :: us
  := by
  have hsome : ∃ args, c.factoryArguments? d n = some args := by
    rw [factoryChild?] at h
    split at h
    · rename_i hargs
      exact ⟨_, hargs⟩
    · cases h
  obtain ⟨args, hargs⟩ := hsome
  rw [factoryArguments?] at hargs
  split at hargs
  · rename_i hcall
    obtain ⟨hkind, hcallee⟩ := Bool.and_eq_true_iff.mp hcall
    refine ⟨of_decide_eq_true hkind, ?_⟩
    obtain ⟨callee, hcallee, -⟩ := (Option.any_eq_true _ _).mp hcallee
    obtain ⟨arguments, harguments, -⟩ := Option.map_eq_some_iff.mp hargs
    obtain ⟨u, hu, -⟩ := Option.map_eq_some_iff.mp hcallee
    obtain ⟨v, hv, -⟩ := Option.map_eq_some_iff.mp harguments
    apply several_of_roles _ hu hv
    nofun
  · cases hargs

/-- The calls that are replaced, each with what takes its place. -/
def calls (c : Unwrap) (d : Document) (tags : List (List Char)) : List (Node × List Char) :=
  d.nodes.filterMap fun n => (c.factoryChild? d tags n).map fun text => (n, text)

theorem mem_calls {call : Node × List Char} (h : call ∈ c.calls d tags) :
  call.1 ∈ d.nodes ∧ c.factoryChild? d tags call.1 = some call.2
  := by
  obtain ⟨n, hn, hcall⟩ := List.mem_filterMap.mp h
  obtain ⟨text, htext, rfl⟩ := Option.map_eq_some_iff.mp hcall
  exact ⟨hn, htext⟩

theorem calls_sublist (c : Unwrap) (d : Document) (tags : List (List Char)) :
  ((c.calls d tags).map Prod.fst).Sublist d.nodes
  := by
  have hguard : (fun n => ((c.factoryChild? d tags n).map fun text => (n, text)).map Prod.fst)
      = Option.guard fun n => (c.factoryChild? d tags n).isSome := by
    funext n
    cases h : c.factoryChild? d tags n <;> simp [Option.guard, h]
  rw [calls, List.map_filterMap, hguard, List.filterMap_eq_filter]
  apply List.filter_sublist

/-- The outermost calls are replaced. -/
theorem factoryEdits_eq (c : Unwrap) (d : Document) (tags : List (List Char)) :
  c.factoryEdits d tags
    = ((c.calls d tags).filter fun call =>
        !((c.calls d tags).map Prod.fst).any call.1.isInside).map fun call =>
          call.1.replace call.2
  := by
  rw [factoryEdits]
  apply congrArg
  apply List.filter_congr
  intro call hcall
  apply Node.any_sameAs_outermost (List.mem_map_of_mem hcall)

/-- A call that is replaced ends before the next one starts. -/
theorem pairwise_calls (hd : d.WellRead dialect) (c : Unwrap) (tags : List (List Char)) :
  ((c.calls d tags).filter fun call =>
      !((c.calls d tags).map Prod.fst).any call.1.isInside).Pairwise fun a b =>
    a.1.stop ≤ b.1.start
  := by
  have houter : (Node.outermost ((c.calls d tags).map Prod.fst)).Pairwise fun n m =>
      n.stop ≤ m.start := by
    apply Node.pairwise_outermost hd.nested (c.calls_sublist d tags)
    intro n hn
    obtain ⟨call, hcall, rfl⟩ := List.mem_map.mp hn
    obtain ⟨-, hchild⟩ := mem_calls hcall
    apply (several_of_factoryChild? hchild).2
  rw [Node.outermost, List.filter_map] at houter
  apply List.pairwise_map.mp houter

/-- The edits of a round on calls replace calls. -/
theorem fits_of_mem_factoryEdits (hd : d.WellRead dialect) {e : Edit}
    (he : e ∈ c.factoryEdits d tags) :
  e.Fits (byteLength d.text) ∧ e.OnBoundaries d.text ∧ e.start < e.stop
  := by
  rw [factoryEdits_eq] at he
  obtain ⟨call, hcall, rfl⟩ := List.mem_map.mp he
  obtain ⟨hn, hchild⟩ := mem_calls (List.mem_filter.mp hcall).1
  have hkind := (several_of_factoryChild? hchild).1
  obtain ⟨hknown, hspan⟩ := hd.known_node hn (by rw [hkind]; nofun)
  obtain ⟨hfits, hb⟩ := Edit.fits_replace hknown.start hknown.stop (Nat.le_of_lt hspan) call.2
  exact ⟨hfits, hb, Int.ofNat_lt.mpr hspan⟩

theorem inTurn_factoryEdits (hd : d.WellRead dialect) (c : Unwrap) (tags : List (List Char)) :
  (c.factoryEdits d tags).Pairwise fun e f => e.stop ≤ f.start
  := by
  rw [factoryEdits_eq]
  apply List.pairwise_map.mpr
  apply (pairwise_calls hd c tags).imp
  intro a b hle
  apply Int.ofNat_le.mpr hle

/-- A round on calls can always be committed. -/
theorem commit_factoryEdits (hd : d.WellRead dialect) (c : Unwrap) (tags : List (List Char)) :
  ∃ result, Edit.commit d.text (c.factoryEdits d tags) = .ok result
  := by
  have hapart : (c.factoryEdits d tags).Pairwise Edit.Apart :=
    (inTurn_factoryEdits hd c tags).imp .inl
  rcases Edit.commit_cases (fun e he => (fits_of_mem_factoryEdits hd he).1)
      (fun e he => (fits_of_mem_factoryEdits hd he).2.1) with ⟨-, hok⟩ | ⟨hnot, -⟩
  · apply hok
  · cases hnot hapart

/-! ### Stages -/

/-- The stages of a run. -/
inductive Stage where
  | elements | calls | imports
  deriving DecidableEq, Repr

/-- The edits of a round in a stage. -/
def Stage.edits (c : Unwrap) (tags : List (List Char)) (d : Document) : Stage → List Edit
  | .elements => markupEdits d tags
  | .calls => c.factoryEdits d tags
  | .imports => c.importRound d

/-- No two statements of a document that import the component collide. -/
def Separate (c : Unwrap) (d : Document) : Prop :=
  (c.names d).statements.Pairwise fun n m =>
    ¬ c.Collide d (ImportedNames.inUse d (c.names d).locals) n m

/-- A round can be committed, or it is one on imports with statements that collide. -/
theorem Stage.commit_cases (hd : d.WellRead dialect) (c : Unwrap) (tags : List (List Char))
    (stage : Stage) :
  (∃ result, Edit.commit d.text (stage.edits c tags d) = .ok result)
  ∨ (stage = .imports ∧ ¬ c.Separate d
    ∧ ∃ start stop reached, Edit.commit d.text (stage.edits c tags d)
      = .error (.overlapping start stop reached))
  := by
  cases stage with
  | elements =>
    obtain ⟨result, hcommit, -⟩ := commit_markupEdits hd tags
    exact .inl ⟨result, hcommit⟩
  | calls => exact .inl (commit_factoryEdits hd c tags)
  | imports =>
    rcases commit_importEdits hd c (ImportedNames.inUse d (c.names d).locals) with
      ⟨-, hok⟩ | ⟨hnot, herror⟩
    · exact .inl hok
    · exact .inr ⟨rfl, hnot, herror⟩

/-- The documents that a run comes to, with the stage it is in: rounds on elements, then rounds on
calls, then one on imports. -/
inductive Reached (c : Unwrap) (tags : List (List Char)) (d₀ : Document) :
    Stage → Document → Prop where
  | start : Reached c tags d₀ .elements d₀
  | round {stage : Stage} {d d' : Document} (h : Reached c tags d₀ stage d)
      (hlead : Session.LeadsTo d (stage.edits c tags d) d') : Reached c tags d₀ stage d'
  | calls {d : Document} (h : Reached c tags d₀ .elements d) : Reached c tags d₀ .calls d
  | imports {d : Document} (h : Reached c tags d₀ .calls d) : Reached c tags d₀ .imports d

/-- Every document that a run comes to has been read from its own text, in the way of the first
one. -/
theorem Reached.reads {stage : Stage} (h : Reached c tags d₀ stage d)
    (h₀ : d₀.reread d₀.text = .ok d₀) :
  d₀.reread d.text = .ok d ∧ d.reread = d₀.reread
  := by
  induction h with
  | start => exact ⟨h₀, rfl⟩
  | round _ hlead ih =>
    obtain ⟨hlanguage, hfilename, hlenient, hread⟩ := hlead.reads
    rw [ih.2] at hread
    refine ⟨hread, ?_⟩
    rw [← ih.2]
    funext text
    rw [Document.reread, Document.reread, hlanguage, hfilename, hlenient]
  | calls _ ih => apply ih
  | imports _ ih => apply ih

/-- How a round on a document fails: the text that comes out cannot be read, or it is a round on
imports with statements that collide. -/
inductive RoundFails (c : Unwrap) (tags : List (List Char)) (stage : Stage) (d : Document) :
    ChangeError → Prop where
  | unread {text : List Char} {e : ParseError}
      (hcommit : Edit.commit d.text (stage.edits c tags d) = .ok (some text))
      (hread : d.reread text = .error e) : RoundFails c tags stage d (.parse e)
  | collision {start stop reached : Int} (hstage : stage = .imports) (h : ¬ c.Separate d) :
    RoundFails c tags stage d (.edit (.overlapping start stop reached))

theorem roundFails_of_revise {stage : Stage} {e : ChangeError} (hd : d.WellRead dialect)
    (hne : stage.edits c tags d ≠ [])
    (h : Session.revise d (stage.edits c tags d) = .error e) :
  RoundFails c tags stage d e
  := by
  have hcommit : Edit.commit d.text (stage.edits c tags d)
      = (Edit.apply d.text (stage.edits c tags d)).map some := by
    rw [Edit.commit, if_neg (by simpa using hne)]
  rw [Session.revise] at h
  cases happly : Edit.apply d.text (stage.edits c tags d) with
  | error error =>
    rw [happly] at h hcommit
    cases h
    rcases stage.commit_cases hd c tags with ⟨result, hok⟩ | ⟨hstage, hnot, _, _, _, herror⟩
    · cases hcommit.symm.trans hok
    · cases hcommit.symm.trans herror
      apply RoundFails.collision hstage hnot
  | ok text =>
    rw [happly] at h hcommit
    simp only at h
    cases hread : d.reread text with
    | error error =>
      rw [hread] at h
      cases h
      apply RoundFails.unread hcommit hread
    | ok d' =>
      rw [hread] at h
      cases h

/-! ### Runs -/

section Runs

variable (h₀ : d₀.reread d₀.text = .ok d₀) {s : Session}

include h₀

theorem Reached.wellRead {stage : Stage} (h : Reached c tags d₀ stage d) :
  ∃ dialect, d.WellRead dialect
  := (Document.wellRead_of_parse (h.reads h₀).1).2

/-- The rounds of a stage come to a document, and when they fail, the next round fails there. -/
theorem Reached.applyUntilStable (stage : Stage) (hs : Reached c tags d₀ stage s.document) :
  Reached c tags d₀ stage
      (s.applyUntilStable fun d => .ok (stage.edits c tags d)).1.document
    ∧ ∀ e, (s.applyUntilStable fun d => .ok (stage.edits c tags d)).2 = .error e →
      RoundFails c tags stage
        (s.applyUntilStable fun d => .ok (stage.edits c tags d)).1.document e
  := by
  have hstep : ∀ {d d' : Document} {edits : List Edit}, Reached c tags d₀ stage d →
      (.ok (stage.edits c tags d) : Except ChangeError (List Edit)) = .ok edits →
      Session.LeadsTo d edits d' → Reached c tags d₀ stage d' := by
    intro d d' edits hd hedits hlead
    cases hedits
    apply hd.round hlead
  obtain ⟨hreached, hfails⟩ := Session.repeatUpTo_invariant
    (fun d => .ok (stage.edits c tags d)) hstep Session.maxRounds 0 hs
  refine ⟨hreached, ?_⟩
  intro e he
  obtain ⟨dialect, hd⟩ := hreached.wellRead h₀
  rcases hfails e he with herror | ⟨edits, hne, hedits, hrevise⟩
  · cases herror
  · cases hedits
    apply roundFails_of_revise hd hne hrevise

end Runs

/-! ### Rounds on elements and on calls -/

/-- The edits for an element are not empty, and one of them takes the front of the element. -/
theorem elementEdits_span (hd : d.WellRead dialect) (hn : n ∈ d.nodes)
    (hkind : Markup.isElement n.kind = true) :
  (∀ e ∈ elementEdits d n, e.start < e.stop)
    ∧ ∃ e ∈ elementEdits d n, e.start ≤ n.start ∧ n.start < e.stop
  := by
  have hwidens := change_widens hd hn hkind
  have hstart : (change d n).start ≤ n.start := hwidens.start
  have hstop : n.stop ≤ (change d n).stop := hwidens.stop
  obtain ⟨-, -, hspan⟩ := element_span hd hn hkind
  rcases elementEdits_cases hd hn hkind with heq | ⟨opening, closing, mid, htagged, -, heq⟩
  · rw [heq]
    constructor
    · intro e he
      rw [List.mem_singleton.mp he]
      omega
    · exact ⟨change d n, List.mem_singleton_self _, hstart, by omega⟩
  · -- the two tags of a fragment
    obtain ⟨-, hopening, hrow⟩ := htagged.row
    obtain ⟨-, hclosing, -⟩ := hrow.mem (t := closing) (by simp)
    have hfront := htagged.start
    rw [heq]
    constructor
    · intro e he
      rcases List.mem_cons.mp he with rfl | he
      · apply Int.ofNat_lt.mpr hopening
      · rw [List.mem_singleton.mp he]
        apply Int.ofNat_lt.mpr hclosing
    · exact ⟨_, List.mem_cons_self, Int.ofNat_le.mpr (by omega), Int.ofNat_lt.mpr (by omega)⟩

/-- Rounds on elements and on calls fail only when the text that comes out cannot be read. -/
theorem RoundFails.unread_of_ne {stage : Stage} {e : ChangeError} (h : RoundFails c tags stage d e)
    (hstage : stage ≠ .imports) :
  ∃ error, e = .parse error
  := by
  cases h with
  | unread => exact ⟨_, rfl⟩
  | collision heq => cases hstage heq

/-- The batches of rounds on elements and on calls can always be committed: their spans lie within
the text, none of them is empty, and each one ends before the next one starts. Every outermost
wrapper has an edit that takes its front, and every outermost call of a factory is replaced. So
these rounds, repeated, fail only when the text that comes out cannot be read. -/
theorem rounds_compatible {text : List Char} {language : String} {filename : Option String}
    {lenient : Bool} {d : Document} (h : Document.parse text language filename lenient = .ok d)
    (c : Unwrap) (tags : List (List Char)) :
  (∀ edits ∈ [markupEdits d tags, c.factoryEdits d tags],
    (∀ e ∈ edits, 0 ≤ e.start ∧ e.start < e.stop ∧ e.stop ≤ byteLength text)
    ∧ edits.Pairwise (fun e f => e.stop ≤ f.start)
    ∧ ∃ result, Edit.commit text edits = .ok result)
  ∧ (∀ n ∈ Node.outermost (elements d tags),
    ∃ e ∈ markupEdits d tags, e.start ≤ n.start ∧ n.start < e.stop)
  ∧ (∀ n ∈ d.nodes, ∀ child, c.factoryChild? d tags n = some child →
    (∀ m ∈ d.nodes, (c.factoryChild? d tags m).isSome = true → n.isInside m = false) →
    n.replace child ∈ c.factoryEdits d tags)
  ∧ ∀ e, ((Session.start d).applyUntilStable fun d => .ok (markupEdits d tags)).2 = .error e
      ∨ ((Session.start d).applyUntilStable fun d => .ok (c.factoryEdits d tags)).2 = .error e →
    ∃ error, e = .parse error
  := by
  obtain ⟨rfl, rfl, rfl, rfl⟩ := Document.eq_of_parse h
  obtain ⟨-, dialect, hd⟩ := Document.wellRead_of_parse h
  refine ⟨?_, ?_, ?_, ?_⟩
  · intro edits hedits
    simp only [List.mem_cons, List.not_mem_nil, or_false] at hedits
    rcases hedits with rfl | rfl
    · have hline := inLine_markupEdits hd tags
      obtain ⟨result, hcommit, -⟩ := commit_markupEdits hd tags
      refine ⟨?_, hline.inTurn, result, hcommit⟩
      intro e he
      obtain ⟨hstart, -, hstop⟩ := hline.fits e he
      obtain ⟨n, hn, he⟩ := List.mem_flatMap.mp he
      obtain ⟨hmem, hkind⟩ := mem_wrappers hn
      exact ⟨hstart, (elementEdits_span hd hmem hkind).1 e he, hstop⟩
    · refine ⟨?_, inTurn_factoryEdits hd c tags, commit_factoryEdits hd c tags⟩
      intro e he
      obtain ⟨hfits, -, hspan⟩ := fits_of_mem_factoryEdits hd he
      exact ⟨hfits.1, hspan, hfits.2.2⟩
  · intro n hn
    obtain ⟨hmem, hkind⟩ := mem_wrappers hn
    obtain ⟨-, e, he, hspan⟩ := elementEdits_span hd hmem hkind
    exact ⟨e, List.mem_flatMap.mpr ⟨n, hn, he⟩, hspan⟩
  · intro n hn child hchild houter
    rw [factoryEdits_eq]
    have hcall : (n, child) ∈ c.calls d tags :=
      List.mem_filterMap.mpr ⟨n, hn, by rw [hchild]; rfl⟩
    apply List.mem_map.mpr
    refine ⟨(n, child), List.mem_filter.mpr ⟨hcall, ?_⟩, rfl⟩
    simp only [Bool.not_eq_true', List.any_eq_false, Bool.not_eq_true]
    intro m hm
    obtain ⟨call, hcall', rfl⟩ := List.mem_map.mp hm
    obtain ⟨hm', hchild'⟩ := mem_calls hcall'
    apply houter call.1 hm'
    rw [hchild']
    rfl
  · have hstart : Reached c tags d .elements (Session.start d).document := .start
    rintro e (he | he)
    · apply ((hstart.applyUntilStable h).2 e he).unread_of_ne nofun
    · apply (((Reached.calls hstart).applyUntilStable h).2 e he).unread_of_ne nofun

/-- Wrappers on neighbouring lines, a wrapper in an attribute of a wrapper, and a call in a call. -/
def neighbours : List Char :=
  "a = <d>\n <P/>\n <P>\n </P>\n</d>, <P i=<P/>><b/></P>;\nh(P, 0, h(P, 0, x));".toList

set_option maxRecDepth 100000 in
/-- Two lines that go, one below the other, and only the outer wrapper and the outer call. -/
theorem rounds_compatible_neighbours :
  ∃ (c : Unwrap) (d : Document),
    c = ⟨"p".toList, "P".toList, ["h".toList]⟩
    ∧ Document.parse neighbours "tsx" none false = .ok d
    ∧ markupEdits d ["P".toList] = [⟨8, 14, []⟩, ⟨14, 25, []⟩, ⟨31, 49, "<b/>".toList⟩]
    ∧ c.factoryEdits d ["P".toList] = [⟨51, 70, "h(P, 0, x)".toList⟩]
    ∧ (∃ result, Edit.commit neighbours (markupEdits d ["P".toList]) = .ok result)
    ∧ ∃ result, Edit.commit neighbours (c.factoryEdits d ["P".toList]) = .ok result
  := by
  have hrun : ((Document.parse neighbours "tsx" none false).toOption.map fun d =>
      (markupEdits d ["P".toList],
        factoryEdits ⟨"p".toList, "P".toList, ["h".toList]⟩ d ["P".toList]))
      = some ([⟨8, 14, []⟩, ⟨14, 25, []⟩, ⟨31, 49, "<b/>".toList⟩],
        [⟨51, 70, "h(P, 0, x)".toList⟩]) := by
    decide +kernel
  cases hparse : Document.parse neighbours "tsx" none false with
  | error e =>
    rw [hparse] at hrun
    cases hrun
  | ok d =>
    rw [hparse] at hrun
    simp only [Except.toOption, Option.map_some, Option.some.injEq, Prod.mk.injEq] at hrun
    obtain ⟨hbatches, -⟩ := rounds_compatible hparse ⟨"p".toList, "P".toList, ["h".toList]⟩
      ["P".toList]
    obtain ⟨-, -, hmarkup⟩ := hbatches _ List.mem_cons_self
    obtain ⟨-, -, hcalls⟩ := hbatches _ (List.mem_cons_of_mem _ List.mem_cons_self)
    exact ⟨_, d, rfl, rfl, hrun.1, hrun.2, hmarkup, hcalls⟩

end Codemod.Unwrap
