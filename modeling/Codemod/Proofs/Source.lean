import Codemod.Proofs.Import
import Codemod.Proofs.Marker

/-!
# The source of an import statement

A statement counts among the imports from a package when a string below it names the package as a
source. For a statement with a clause, this string is the source of the statement itself, or it
stands among the attributes of the statement.
-/

namespace Codemod

namespace Grammar

open Codemod.Tree

/-! ### Roles that an expression does not give -/

section Roles

variable {σ : Type}

mutual

/-- An expression grows no trees, gives a role to none of them, and refers to some rules only. -/
def Peg.Spares (r : Role) (S : σ → Prop) : Peg σ → Prop
  | .leaf _ _ => True
  | .rawLeaf _ _ => True
  | .skip _ => True
  | .check _ => True
  | .within _ p => p.Spares r S
  | .seq ps => Peg.SparesOf r S ps
  | .alt ps => Peg.SparesOf r S ps
  | .many p => p.Spares r S
  | .absent _ => True
  | .node _ p => p.Spares r S
  | .role r' p => r' ≠ r ∧ p.Spares r S
  | .grow _ _ => False
  | .rule name => S name

/-- The same for some expressions. -/
def Peg.SparesOf (r : Role) (S : σ → Prop) : List (Peg σ) → Prop
  | [] => True
  | p :: ps => p.Spares r S ∧ Peg.SparesOf r S ps

end

variable {rules : σ → Peg σ} {r : Role} {S : σ → Prop}

theorem Peg.SparesOf.mem {ps : List (Peg σ)} (h : Peg.SparesOf r S ps) {p : Peg σ}
    (hp : p ∈ ps) :
  p.Spares r S
  := by
  induction ps with
  | nil => cases hp
  | cons q qs ih =>
    rcases List.mem_cons.mp hp with rfl | hp
    · apply h.1
    · apply ih h.2 hp

/-- No tree in some trees plays a role. -/
def Unplayed (r : Role) (ts : List Tree) : Prop :=
  ∀ t ∈ ts, ∀ u, Part u t → u.role ≠ some r

theorem unplayed_nil :
  Unplayed r []
  := by
  intro t ht
  cases ht

theorem Unplayed.append {ts us : List Tree} (ht : Unplayed r ts) (hu : Unplayed r us) :
  Unplayed r (ts ++ us)
  := List.forall_mem_append.mpr ⟨ht, hu⟩

theorem Unplayed.subset {ts us : List Tree} (h : Unplayed r ts) (hs : us ⊆ ts) :
  Unplayed r us
  := fun t ht => h t (hs ht)

theorem Unplayed.over {ts : List Tree} (h : Unplayed r ts) (kind : Kind) (start stop : Nat) :
  Unplayed r [.node kind none start stop ts]
  := by
  intro u hu
  rw [List.mem_singleton.mp hu]
  exact forall_part (Option.some_ne_none r).symm h

theorem Unplayed.enclose {ts : List Tree} (h : Unplayed r ts) (kind : Kind) :
  Unplayed r (enclose kind ts)
  := forall_mem_enclose h fun _ _ hinner => forall_part (Option.some_ne_none r).symm hinner

theorem Unplayed.assign {ts : List Tree} (h : Unplayed r ts) {r' : Role} (hr : r' ≠ r) :
  Unplayed r (assign r' ts)
  := by
  intro u hu v hv
  obtain ⟨t, ht, rfl⟩ := List.mem_map.mp hu
  rcases hv with rfl | hv
  · split
    · apply h t ht t (.refl t)
    · rw [role_withRole]
      simpa using hr
  · apply h t ht v (.inr ((sameButRole_assign r' t).below hv))

theorem unplayed_trivia (limit : Nat) (c : Cursor) :
  Unplayed r (trivia limit c).1
  := by
  apply forall_mem_trivia
  intro c n
  exact forall_part (t := c.leaf .comment n) (Option.some_ne_none r).symm unplayed_nil

/-- No tree that an expression yields plays a role that the expression does not give. -/
theorem Reads.unplayed (hrules : ∀ name, S name → (rules name).Spares r S) {p : Peg σ}
    {c c' : Cursor} {ts : List Tree} (h : Reads rules p c ts c') (hp : p.Spares r S) :
  Unplayed r ts
  := by
  induction h with
  | @leaf _ _ c c' comments limit n ht _ =>
    have htrivia : Unplayed r (trivia limit c).1 := unplayed_trivia limit c
    rw [ht] at htrivia
    exact htrivia.append (unplayed_nil.over _ _ _)
  | rawLeaf _ => exact unplayed_nil.over _ _ _
  | within _ ih =>
    rw [Peg.Spares] at hp
    exact ih hp
  | seqCons _ _ ih ihs =>
    simp only [Peg.Spares, Peg.SparesOf] at hp ihs
    exact (ih hp.1).append (ihs hp.2)
  | alt hmem _ ih =>
    rw [Peg.Spares] at hp
    exact ih (hp.mem hmem)
  | manyCons _ _ ih ihs =>
    simp only [Peg.Spares] at hp ihs
    exact (ih hp).append (ihs hp)
  | node _ ih =>
    rw [Peg.Spares] at hp
    exact (ih hp).enclose _
  | role _ ih =>
    rw [Peg.Spares] at hp
    exact (ih hp.2).assign hp.1
  | growHead _ _ =>
    rw [Peg.Spares] at hp
    cases hp
  | growStep _ _ _ _ _ _ =>
    rw [Peg.Spares] at hp
    cases hp
  | rule _ ih =>
    rw [Peg.Spares] at hp
    exact ih (hrules _ hp)
  | _ => exact unplayed_nil

end Roles

/-! ### The source of a statement -/

section Statement

open Script

variable {dialect : Dialect} {text : List Char} {t : Tree}

/-- A string in quotes that plays the role of a source, with no source inside. -/
structure SourceString (text : List Char) (t : Tree) : Prop where
  kind : t.kind = .stringLiteral
  role : t.role = some .source
  inner : Unplayed .source t.children
  quotes : ∃ q, (q = '"' ∨ q = '\'') ∧ Text.charAt text t.start = some q
    ∧ Text.charBefore text t.stop = some q

/-- A part that refers to strings only and is given no source has none. -/
theorem Reads.no_source {p : Script} {c c' : Cursor} {ts : List Tree}
    (h : Reads (rules dialect) p c ts c') (hp : p.Spares .source (· = .string)) :
  Unplayed .source ts
  := by
  apply h.unplayed _ hp
  rintro name rfl
  simp [rules, value, Script.quoted, sym, Peg.Spares, Peg.SparesOf]

/-- What a string between two signs starts and ends with. -/
theorem reads_quoted {q : Char} {c c' : Cursor} {ts : List Tree}
    (h : Reads (rules dialect) (Script.quoted q) c ts c') (hc : c.At text) :
  ∃ comments s, ts = comments ++ [s] ∧ (∀ u ∈ comments, isComment u = true)
    ∧ s.kind = .stringLiteral ∧ Text.charAt text s.start = some q
    ∧ Text.charBefore text s.stop = some q
  := by
  cases h with
  | @node _ _ _ _ us h =>
    rcases enclose_cases .stringLiteral us with ⟨hdrop, -⟩ | ⟨u, vs, hdrop, heq⟩
    · obtain ⟨_, _, _, rfl, hopen, -⟩ := reads_seq_cons h
      obtain ⟨comments, c₁, n, rfl, hcomments, -, -, -⟩ := reads_leaf hopen hc
      rw [List.append_assoc, List.singleton_append, dropWhile_isComment hcomments rfl] at hdrop
      cases hdrop
    · obtain ⟨hfirst, mid, v, rfl, hlast⟩ := reads_signs h hc hdrop
      have hmark : (String.singleton q).toList = [q] := String.toList_singleton q
      rw [hmark] at hfirst hlast
      refine ⟨_, _, heq, fun w hw => List.mem_takeWhile_imp hw, rfl, hfirst, ?_⟩
      rw [← stopOf_concat u.stop mid v] at hlast
      exact hlast

theorem assign_behind_comments (r : Role) {comments : List Tree} {s : Tree}
    (hcomments : ∀ u ∈ comments, isComment u = true) (hs : s.kind ≠ .comment) :
  assign r (comments ++ [s]) = comments ++ [s.withRole r]
  := by
  rw [assign, List.map_append, List.map_singleton, if_neg hs]
  congr 1
  nth_rewrite 2 [← List.map_id comments]
  apply List.map_congr_left
  intro u hu
  apply if_pos (of_decide_eq_true (hcomments u hu))

/-- A string is one tree in quotes behind the comments before it. -/
theorem reads_string {c c' : Cursor} {ts : List Tree}
    (h : Reads (rules dialect) (.rule .string) c ts c') (hc : c.At text) :
  ∃ comments s, ts = comments ++ [s] ∧ (∀ u ∈ comments, isComment u = true)
    ∧ s.kind = .stringLiteral ∧ ∃ q, (q = '"' ∨ q = '\'')
      ∧ Text.charAt text s.start = some q ∧ Text.charBefore text s.stop = some q
  := by
  cases h with
  | rule h =>
    cases h with
    | alt hp h =>
      rcases List.mem_cons.mp hp with rfl | hp
      · obtain ⟨comments, s, heq, hcomments, hkind, hquotes⟩ := reads_quoted h hc
        exact ⟨comments, s, heq, hcomments, hkind, _, .inl rfl, hquotes⟩
      · rw [List.mem_singleton.mp hp] at h
        obtain ⟨comments, s, heq, hcomments, hkind, hquotes⟩ := reads_quoted h hc
        exact ⟨comments, s, heq, hcomments, hkind, _, .inr rfl, hquotes⟩

/-- A source is one string behind the comments before it. -/
theorem reads_importSource {c c' : Cursor} {ts : List Tree}
    (h : Reads (rules dialect) importSource c ts c') (hc : c.At text) :
  ∃ comments s, ts = comments ++ [s] ∧ (∀ u ∈ comments, isComment u = true)
    ∧ Unplayed .source comments ∧ SourceString text s
  := by
  cases h with
  | @role _ _ _ _ us h =>
    have hunplayed : Unplayed .source us := h.no_source rfl
    obtain ⟨comments, s, rfl, hcomments, hkind, hquotes⟩ := reads_string h hc
    have hsame : SameButRole (s.withRole .source) s := sameButRole_withRole _ _
    refine ⟨comments, s.withRole .source, ?_, hcomments, ?_, ?_⟩
    · apply assign_behind_comments _ hcomments
      rw [hkind]
      decide
    · apply hunplayed.subset (List.subset_append_left _ _)
    · constructor
      case kind => rw [hsame.kind, hkind]
      case role => rw [role_withRole]
      case inner =>
        intro u hu v hv
        rw [hsame.children] at hu
        apply hunplayed s (by simp) v (.inr (hv.of_child hu))
      case quotes => rwa [hsame.start, hsame.stop]

/-- What is imported has no clause, or it ends with the only source in it. -/
theorem reads_importTaken {c c' : Cursor} {ts : List Tree}
    (h : Reads (rules dialect) importTaken c ts c') (hc : c.At text) :
  (∀ u ∈ ts, u.kind ≠ .importClause)
    ∨ ∃ front s, ts = front ++ [s] ∧ Unplayed .source front ∧ SourceString text s
  := by
  cases h with
  | alt hp h =>
    simp only [List.mem_cons, List.not_mem_nil, or_false] at hp
    rcases hp with rfl | rfl | rfl
    · apply Or.inr
      obtain ⟨c₁, clause, _, rfl, h₁, h⟩ := reads_seq_cons h
      obtain ⟨_, _, _, rfl, h₂, h⟩ := reads_seq_cons h
      obtain ⟨rfl, -⟩ := reads_seq_nil h
      obtain ⟨_, word, _, rfl, h₃, h₂⟩ := reads_seq_cons h₂
      obtain ⟨_, _, _, rfl, h₄, h₂⟩ := reads_seq_cons h₂
      obtain ⟨rfl, -⟩ := reads_seq_nil h₂
      obtain ⟨comments, s, rfl, -, hcomments, hs⟩ := reads_importSource h₄ (h₃.at (h₁.at hc))
      have hclause : Unplayed .source clause := by
        apply h₁.no_source
        simp [importClause, importBindings, importTargets, importNames, inBraces,
          listedLoosely, listed, specifier, exported, anyWord, declared,
          openBrace, closeBrace, Peg.opt, Peg.ahead, kw, sym, Peg.Spares, Peg.SparesOf]
      have hword : Unplayed .source word := h₃.no_source trivial
      refine ⟨clause ++ (word ++ comments), s, by simp, ?_, hs⟩
      exact hclause.append (hword.append hcomments)
    · apply Or.inl
      intro u hu
      cases h with
      | node _ =>
        rcases mem_enclose hu with hcomment | hkind
        · apply kind_ne_of_isComment hcomment (by decide)
        · rw [hkind]
          decide
    · apply Or.inl
      obtain ⟨comments, s, rfl, hcomments, -, hs⟩ := reads_importSource h hc
      intro u hu
      rcases List.mem_append.mp hu with hu | hu
      · apply kind_ne_of_isComment (hcomments u hu) (by decide)
      · rw [List.mem_singleton.mp hu, hs.kind]
        decide

/-- The same for an import that may be one of types. -/
theorem reads_taken {c c' : Cursor} {ts : List Tree}
    (h : Reads (rules dialect) (.alt [.seq [kw "type", importTaken], importTaken]) c ts c')
    (hc : c.At text) :
  (∀ u ∈ ts, u.kind ≠ .importClause)
    ∨ ∃ front s, ts = front ++ [s] ∧ Unplayed .source front ∧ SourceString text s
  := by
  cases h with
  | alt hp h =>
    simp only [List.mem_cons, List.not_mem_nil, or_false] at hp
    rcases hp with rfl | rfl
    · obtain ⟨_, word, taken, rfl, h₁, h⟩ := reads_seq_cons h
      obtain ⟨_, taken, _, rfl, h₂, h⟩ := reads_seq_cons h
      obtain ⟨rfl, -⟩ := reads_seq_nil h
      rw [List.append_nil]
      have hword : Unplayed .source word := h₁.no_source trivial
      rcases reads_importTaken h₂ (h₁.at hc) with hno | ⟨front, s, rfl, hfront, hs⟩
      · obtain ⟨comments, _, _, rfl, hcomments, -⟩ := reads_leaf h₁ hc
        apply Or.inl
        simp only [List.forall_mem_append, List.forall_mem_singleton]
        refine ⟨⟨?_, Kind.noConfusion⟩, hno⟩
        intro u hu
        apply kind_ne_of_isComment (hcomments u hu) (by decide)
      · apply Or.inr
        exact ⟨word ++ front, s, by simp, hword.append hfront, hs⟩
    · apply reads_importTaken h hc

/-- A source below some trees is below the attributes of an import. -/
def OnlyInAttributes (ts : List Tree) : Prop :=
  ∀ u ∈ ts, u.role ≠ some .source
    ∧ ∀ v, Below v u → v.role = some .source → u.kind = .importAttribute

theorem OnlyInAttributes.append {ts us : List Tree} (ht : OnlyInAttributes ts)
    (hu : OnlyInAttributes us) :
  OnlyInAttributes (ts ++ us)
  := List.forall_mem_append.mpr ⟨ht, hu⟩

theorem Unplayed.onlyInAttributes {ts : List Tree} (h : Unplayed .source ts) :
  OnlyInAttributes ts
  := by
  intro u hu
  refine ⟨h u hu u (.refl u), ?_⟩
  intro v hv hrole
  cases h u hu v (.inr hv) hrole

theorem reads_importAttributes {c c' : Cursor} {ts : List Tree}
    (h : Reads (rules dialect) importAttributes c ts c') (hc : c.At text) :
  OnlyInAttributes ts
  := by
  rcases reads_opt h with ⟨rfl, -⟩ | h
  · intro u hu
    cases hu
  · cases h with
    | @node _ _ _ _ us h =>
      obtain ⟨_, word, rest, rfl, h₁, -⟩ := reads_seq_cons h
      have hword : Unplayed .source word := by
        apply h₁.no_source
        simp [kw, Peg.Spares, Peg.SparesOf]
      have hleaf : ∃ comments leaf, word = comments ++ [leaf] ∧ isComment leaf = false
          ∧ ∀ u ∈ comments, isComment u = true := by
        cases h₁ with
        | alt hp h₁ =>
          simp only [List.mem_cons, List.not_mem_nil, or_false] at hp
          rcases hp with rfl | rfl
          · obtain ⟨comments, _, _, heq, hcomments, -⟩ := reads_leaf h₁ hc
            exact ⟨comments, _, heq, rfl, hcomments⟩
          · obtain ⟨comments, _, _, heq, hcomments, -⟩ := reads_leaf h₁ hc
            exact ⟨comments, _, heq, rfl, hcomments⟩
      obtain ⟨comments, leaf, rfl, hleaf, hcomments⟩ := hleaf
      rw [List.append_assoc, List.singleton_append]
      rcases enclose_cases .importAttribute (comments ++ leaf :: rest)
        with ⟨hdrop, -⟩ | ⟨u, us, -, heq⟩
      · rw [dropWhile_isComment hcomments hleaf] at hdrop
        cases hdrop
      · rw [heq, List.takeWhile_append_of_pos hcomments,
          List.takeWhile_cons_of_neg (by simp [hleaf]), List.append_nil]
        have hfront : Unplayed .source comments := hword.subset (List.subset_append_left _ _)
        intro v hv
        rcases List.mem_append.mp hv with hv | hv
        · exact hfront.onlyInAttributes v hv
        · rw [List.mem_singleton.mp hv]
          refine ⟨?_, fun _ _ _ => rfl⟩
          intro hrole
          cases hrole

/-- A statement with its source. Any other source in it is below its attributes. -/
structure HasSource (text : List Char) (t source : Tree) : Prop where
  mem : source ∈ t.children
  string : SourceString text source
  only : ∀ u ∈ t.children, u.role = some .source → u = source
  inside : ∀ u ∈ t.children, ∀ v, Below v u → v.role = some .source → u.kind = .importAttribute

theorem hasSource_of_children {front back : List Tree} {source : Tree}
    (hchildren : t.children = front ++ source :: back) (hsource : SourceString text source)
    (hfront : OnlyInAttributes front) (hback : OnlyInAttributes back) :
  HasSource text t source
  := by
  have hothers := hfront.append hback
  have hcases (u : Tree) (hu : u ∈ t.children) : u = source ∨ u ∈ front ++ back := by
    rw [hchildren] at hu
    simpa [or_left_comm] using hu
  constructor
  · rw [hchildren]
    simp
  · apply hsource
  · intro u hu hrole
    rcases hcases u hu with heq | hu
    · apply heq
    · cases (hothers u hu).1 hrole
  · intro u hu v hv hrole
    rcases hcases u hu with rfl | hu
    · obtain ⟨w, hw, hpart⟩ := hv.exists_child
      cases hsource.inner w hw v hpart hrole
    · apply (hothers u hu).2 v hv hrole

/-- An import statement with a clause has a source of its own. -/
theorem Known.import_source (h : Known (rules dialect) Lawful text t)
    (hkind : t.kind = .importStatement) {clause : Tree} (hclause : clause ∈ t.children)
    (hclauseKind : clause.kind = .importClause) :
  ∃ source, HasSource text t source
  := by
  have hbody : bodyOf? t.kind = some importParts := by rw [hkind]; rfl
  obtain ⟨c, c', ts, u, us, hc, hreads, hdrop, hchildren, -, -⟩ := h.body hbody
  obtain ⟨c₁, _, _, rfl, h₁, hreads⟩ := reads_seq_cons hreads
  obtain ⟨c₂, taken, _, rfl, h₂, hreads⟩ := reads_seq_cons hreads
  obtain ⟨_, attributes, _, rfl, h₃, hreads⟩ := reads_seq_cons hreads
  obtain ⟨_, rest, _, rfl, h₄, hreads⟩ := reads_seq_cons hreads
  obtain ⟨rfl, -⟩ := reads_seq_nil hreads
  have hbehind : OnlyInAttributes (attributes ++ rest) := by
    have hrest : Unplayed .source rest := by
      apply h₄.no_source
      simp [ending, lineEnd, sym, Peg.Spares, Peg.SparesOf]
    exact (reads_importAttributes h₃ (h₂.at (h₁.at hc))).append hrest.onlyInAttributes
  obtain ⟨comments, c₁, n, rfl, hcomments, -, -, -⟩ := reads_leaf h₁ hc
  rw [List.append_assoc, List.singleton_append, dropWhile_isComment hcomments rfl,
    List.append_nil] at hdrop
  rw [← hdrop] at hchildren
  rcases reads_taken h₂ (h₁.at hc) with hno | ⟨front, source, rfl, hfront, hsource⟩
  · rw [hchildren] at hclause
    simp only [List.mem_cons, List.mem_append] at hclause
    rcases hclause with rfl | hmem | hmem | hmem
    · cases hclauseKind
    · cases hno clause hmem hclauseKind
    · cases h₃.no_clause clause hmem hclauseKind
    · cases (h₄.allOfKind_ending clause hmem clause (.refl clause)).2 hclauseKind
  · use source
    have hword : Unplayed .source [c₁.leaf (.token "import") (n + 1)] :=
      unplayed_nil.over _ _ _
    apply hasSource_of_children _ hsource (hword.append hfront).onlyInAttributes hbehind
    rw [hchildren]
    simp

end Statement

end Grammar

/-! ### Imports from a package -/

namespace Pattern

theorem mem_ends_cat {p q : Pattern} {s e : Spot} :
  e ∈ (cat p q).ends s ↔ ∃ s', s' ∈ p.ends s ∧ e ∈ q.ends s'
  := by
  rw [ends, List.mem_flatMap]

theorem mem_ends_atStart {s e : Spot} :
  e ∈ atStart.ends s ↔ s.before = none ∧ e = s
  := by
  rw [ends]
  split <;> simp_all

theorem mem_ends_atEnd {s e : Spot} :
  e ∈ atEnd.ends s ↔ (s.rest = [] ∨ s.rest = ['\n']) ∧ e = s
  := by
  rw [ends]
  split <;> simp_all

end Pattern

namespace Import

open Grammar Text

/-- The pattern of a module matches its name in quotes of either sort, and it allows for a line feed
at the end. -/
theorem occursIn_modulePattern {module text : List Char} :
  (Rule.modulePattern module).occursIn text = true
    ↔ ∃ q q' rest, (q = '"' ∨ q = '\'') ∧ (q' = '"' ∨ q' = '\'') ∧ (rest = [] ∨ rest = ['\n'])
      ∧ text = q :: (module ++ q' :: rest)
  := by
  simp only [Pattern.occursIn_iff, Rule.modulePattern, Pattern.mem_ends_cat,
    Pattern.mem_ends_atStart, Pattern.mem_ends_atEnd, Pattern.mem_ends_quote,
    Pattern.mem_ends_literal]
  constructor
  · rintro ⟨front, cs, rfl, _, _, ⟨hfront, rfl⟩, s₁, ⟨q, hq, h₁, -⟩, s₂, ⟨h₂, -⟩, s₃,
      ⟨q', hq', h₃, -⟩, hrest, -⟩
    obtain rfl := List.getLast?_eq_none_iff.mp hfront
    refine ⟨q, q', s₃.rest, hq, hq', hrest, ?_⟩
    rw [← h₃, ← h₂]
    exact h₁
  · rintro ⟨q, q', rest, hq, hq', hrest, rfl⟩
    refine ⟨[], _, rfl, ⟨some q', rest⟩, _, ⟨rfl, rfl⟩, ⟨some q, module ++ q' :: rest⟩,
      ⟨q, hq, rfl, rfl⟩, ⟨_, q' :: rest⟩, ⟨rfl, rfl⟩, ⟨some q', rest⟩, ⟨q', hq', rfl, rfl⟩,
      hrest, rfl⟩

/-- The source of a statement is the name of a package in quotes. -/
def From (d : Document) (package : List Char) (n : Node) : Prop :=
  ∃ source q, n.child? .source = some source ∧ (q = '"' ∨ q = '\'')
    ∧ d.textOf source = q :: (package ++ [q])

/-- Below the attributes of a statement stands an import or export from a package. -/
def Mentions (d : Document) (package : List Char) (n : Node) : Prop :=
  ∃ part ∈ n.children, part.kind = .importAttribute
    ∧ ∃ m ∈ part.descendants, isSource d package m = true

variable {d : Document} {dialect : Dialect} {n m : Node} {source : Tree} {package : List Char}

theorem child?_source (h : HasSource d.text n.tree source) :
  n.child? .source = some (n.below source)
  := by
  rw [Node.child?, Tree.child?]
  cases hfind : n.tree.children.find? (·.role = some .source) with
  | none =>
    have hno := List.find?_eq_none.mp hfind source h.mem
    simp [h.string.role] at hno
  | some u =>
    have hrole := List.find?_some hfind
    obtain rfl := h.only u (List.mem_of_find?_eq_some hfind) (of_decide_eq_true hrole)
    rfl

/-- A string in quotes matches the pattern of a package only if it is the name of the package in
the same quotes. -/
theorem occursIn_textOf (hstart : Boundary d.text m.start) (hstop : Boundary d.text m.stop)
    (hspan : m.start < m.stop) (hm : SourceString d.text m.tree) :
  (Rule.modulePattern package).occursIn (d.textOf m) = true
    ↔ ∃ q, (q = '"' ∨ q = '\'') ∧ d.textOf m = q :: (package ++ [q])
  := by
  rw [occursIn_modulePattern]
  constructor
  · rintro ⟨q₁, q₂, rest, hq₁, hq₂, hrest, htext⟩
    obtain ⟨q, hq, hfirst, hlast⟩ := hm.quotes
    have hfirst : (d.textOf m).head? = some q := head?_slice hstart hstop hspan hfirst
    have hlast : (d.textOf m).getLast? = some q := getLast?_slice hstart hstop hspan hlast
    rw [htext] at hfirst hlast
    cases hfirst
    refine ⟨q₁, hq₁, ?_⟩
    rcases hrest with rfl | rfl
    · rw [← List.cons_append, List.getLast?_concat] at hlast
      cases hlast
      exact htext
    · rw [List.append_cons, ← List.cons_append, List.getLast?_concat] at hlast
      cases hlast
      rcases hq₁ with heq | heq <;> cases heq
  · rintro ⟨q, hq, htext⟩
    exact ⟨q, q, [], hq, hq, .inl rfl, htext⟩

section Own

variable (hd : d.WellRead dialect) (hn : n ∈ d.nodes) (hsource : HasSource d.text n.tree source)

include hd hn hsource

/-- The source of a statement names a package exactly if the statement imports from it. -/
theorem isSource_own :
  isSource d package (n.below source) = true ↔ From d package n
  := by
  have hrow := hd.nested n.tree (Node.part_of_mem hn)
  have hknown := hd.known_child hn hsource.mem
  have hkind : (n.below source).kind = .stringLiteral := hsource.string.kind
  have hrole : (n.below source).role? = some .source := by
    rw [Node.role?_below hrow hsource.mem, hsource.string.role]
  have htext : (Rule.modulePattern package).occursIn (d.textOf (n.below source)) = true
      ↔ ∃ q, (q = '"' ∨ q = '\'') ∧ d.textOf (n.below source) = q :: (package ++ [q]) :=
    occursIn_textOf hknown.start hknown.stop (hrow.mem hsource.mem).2.1 hsource.string
  rw [isSource, decide_eq_true hkind, decide_eq_true hrole, Bool.true_and, Bool.true_and, htext,
    From, child?_source hsource]
  constructor
  · rintro ⟨q, hq, heq⟩
    exact ⟨_, q, rfl, hq, heq⟩
  · rintro ⟨_, q, hchild, hq, heq⟩
    cases hchild
    exact ⟨q, hq, heq⟩

/-- A string below a statement that names a package as a source is the source of the statement, or
it is below the attributes. -/
theorem own_or_mentions (hm : m ∈ n.descendants) (h : isSource d package m = true) :
  m = n.below source ∨ Mentions d package n
  := by
  obtain ⟨u, hu, hmem⟩ := Node.mem_descendants.mp hm
  have hrole : m.role? = some .source := by
    simp only [isSource, Bool.and_eq_true, decide_eq_true_iff] at h
    exact h.1.2
  have hnested := hd.nested.part (Node.part_of_mem hn)
  rcases Node.mem_preorder.mp hmem with rfl | hdeeper
  · apply Or.inl
    rw [Node.role?_below (hnested _ (.refl _)) hu] at hrole
    rw [hsource.only u hu hrole]
  · apply Or.inr
    obtain ⟨p, hp, v, hv, rfl⟩ := Node.parent_of_mem_descendants hdeeper
    have hpart : Tree.Part p.tree u := Node.part_of_mem hp
    rw [Node.role?_below ((hnested.child hu) _ hpart) hv] at hrole
    have hattribute := hsource.inside u hu v ((Tree.Below.child hv).part hpart) hrole
    exact ⟨n.below u, List.mem_map_of_mem hu, hattribute, _, hdeeper, h⟩

end Own

/-- Among the imports from a package are, of the statements with a clause, those that have it as
their source and those that have another import or export from it among their attributes. -/
theorem any_isSource_iff (hd : d.WellRead dialect) (hn : n ∈ d.nodes)
    (hkind : n.kind = .importStatement) {clause : Node}
    (hclause : n.childOfKind? .importClause = some clause) :
  n.descendants.any (isSource d package) = true ↔ From d package n ∨ Mentions d package n
  := by
  obtain ⟨hmem, hclauseKind⟩ := Node.mem_children_of_childOfKind? hclause
  obtain ⟨hknown, -⟩ := hd.known_node hn (by rw [hkind]; nofun)
  obtain ⟨source, hsource⟩ :=
    hknown.import_source hkind (Node.tree_mem_children hmem) hclauseKind
  rw [List.any_eq_true]
  constructor
  · rintro ⟨m, hm, h⟩
    rcases own_or_mentions hd hn hsource hm h with rfl | hmentions
    · apply Or.inl ((isSource_own hd hn hsource).mp h)
    · apply Or.inr hmentions
  · rintro (hfrom | ⟨part, hpart, -, m, hm, h⟩)
    · refine ⟨n.below source, ?_, (isSource_own hd hn hsource).mpr hfrom⟩
      apply Node.mem_descendants.mpr ⟨source, hsource.mem, Node.mem_preorder.mpr (.inl rfl)⟩
    · obtain ⟨u, hu, rfl⟩ := List.mem_map.mp hpart
      exact ⟨m, Node.mem_descendants.mpr ⟨u, hu, Node.mem_preorder.mpr (.inr hm)⟩, h⟩

end Import

end Codemod
