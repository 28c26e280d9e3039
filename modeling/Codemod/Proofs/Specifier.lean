import Codemod.Proofs.Giving
import Codemod.Proofs.Source

/-!
# Where specifiers start and end

A specifier of a named import starts and ends with a word or with a string. So the first one of a
block starts at the first place behind the opening brace at which neither white space nor a comment
stands.
-/

namespace Codemod

namespace Grammar

open Text

/-! ### Where a reading starts -/

section Opening

variable {σ : Type} {rules : σ → Peg σ} {B : List Char → Prop} {c : Cursor} {ts : List Tree}

theorem Passes.isComment {c' : Cursor} (h : Passes c ts c') :
  ∀ t ∈ ts, isComment t = true
  := by
  induction h with
  | refl => simp
  | blank _ _ _ ih => exact ih
  | comment _ _ ih => exact List.forall_mem_cons.mpr ⟨rfl, ih⟩

/-- The first of some trees that is no comment starts behind white space and the comments before
it, and a condition holds of the text from there on. -/
def StartsAt (B : List Char → Prop) (c : Cursor) (ts : List Tree) : Prop :=
  ∃ comments c₁ t us, ts = comments ++ t :: us ∧ Passes c comments c₁ ∧ isComment t = false
    ∧ t.start = c₁.pos ∧ B c₁.rest

variable (rules B) in
/-- Each reading of an expression starts with a tree at a token of which a condition holds. -/
def Opens (p : Peg σ) : Prop :=
  ∀ ⦃c c' : Cursor⦄ ⦃ts : List Tree⦄, Reads rules p c ts c' → StartsAt B c ts

theorem StartsAt.append (h : StartsAt B c ts) (us : List Tree) :
  StartsAt B c (ts ++ us)
  := by
  obtain ⟨comments, c₁, t, vs, rfl, hrest⟩ := h
  exact ⟨comments, c₁, t, vs ++ us, by simp, hrest⟩

/-- A node around some trees is one tree behind the comments before it. -/
theorem StartsAt.enclose {kind : Kind} (h : StartsAt B c ts) :
  ∃ comments c₁ t, enclose kind ts = comments ++ [t] ∧ t.kind = kind ∧ Passes c comments c₁
    ∧ t.start = c₁.pos ∧ B c₁.rest
  := by
  obtain ⟨comments, c₁, t, us, rfl, hpasses, ht, hstart, hB⟩ := h
  have hdrop : (comments ++ t :: us).dropWhile isComment = t :: us :=
    dropWhile_isComment hpasses.isComment ht
  have htake : (comments ++ t :: us).takeWhile isComment = comments := by
    rw [List.takeWhile_append_of_pos hpasses.isComment, List.takeWhile_cons_of_neg (by simp [ht]),
      List.append_nil]
  obtain ⟨hnil, -⟩ | ⟨t', us', hcons, heq⟩ := enclose_cases kind (comments ++ t :: us)
  · rw [hdrop] at hnil
    cases hnil
  · rw [hdrop] at hcons
    obtain ⟨rfl, rfl⟩ := List.cons.inj hcons
    rw [heq, htake]
    exact ⟨comments, c₁, _, rfl, rfl, hpasses, hstart, hB⟩

theorem StartsAt.assign (r : Role) (h : StartsAt B c ts) :
  StartsAt B c (assign r ts)
  := by
  obtain ⟨comments, c₁, t, us, rfl, hpasses, ht, hrest⟩ := h
  have hkind : t.kind ≠ .comment := of_decide_eq_false ht
  have hassign : assign r (comments ++ t :: us) = comments ++ t.withRole r :: assign r us := by
    rw [List.append_cons, assign, List.map_append, ← assign, ← assign,
      assign_behind_comments r hpasses.isComment hkind, ← List.append_cons]
  rw [hassign]
  refine ⟨comments, c₁, _, _, rfl, hpasses, ?_, ?_⟩
  · rw [← ht]
    cases t
    rfl
  · cases t
    exact hrest

variable {p : Peg σ} {ps : List (Peg σ)}

theorem opens_leaf {kind : Kind} {scan : List Char → Nat} (hkind : kind ≠ .comment)
    (h : ∀ cs n, scan cs = n + 1 → B cs) :
  Opens rules B (.leaf kind scan)
  := by
  intro c c' ts hreads
  cases hreads with
  | @leaf _ _ _ c₁ comments limit n ht hs =>
    have hpasses := passes_trivia limit c
    rw [ht] at hpasses
    exact ⟨comments, c₁, _, [], rfl, hpasses, decide_eq_false hkind, rfl, h _ _ hs⟩

/-- A node is one tree behind the comments before it, and starts where its first part starts. -/
theorem Opens.reads_node (h : Opens rules B p) {kind : Kind} {c' : Cursor}
    (hreads : Reads rules (.node kind p) c ts c') :
  ∃ comments c₁ t, ts = comments ++ [t] ∧ t.kind = kind ∧ Passes c comments c₁
    ∧ t.start = c₁.pos ∧ B c₁.rest
  := by
  cases hreads with
  | node hreads => exact (h hreads).enclose

theorem Opens.node (h : Opens rules B p) {kind : Kind} (hkind : kind ≠ .comment) :
  Opens rules B (.node kind p)
  := by
  intro c c' ts hreads
  obtain ⟨comments, c₁, t, rfl, ht, hpasses, hrest⟩ := h.reads_node hreads
  refine ⟨comments, c₁, t, [], rfl, hpasses, ?_, hrest⟩
  rw [isComment, ht]
  exact decide_eq_false hkind

theorem Opens.role (h : Opens rules B p) (r : Role) :
  Opens rules B (.role r p)
  := by
  intro c c' ts hreads
  cases hreads with
  | role hreads => exact (h hreads).assign r

theorem Opens.rule {name : σ} (h : Opens rules B (rules name)) :
  Opens rules B (.rule name)
  := by
  intro c c' ts hreads
  cases hreads with
  | rule hreads => exact h hreads

theorem opens_alt (h : ∀ p ∈ ps, Opens rules B p) :
  Opens rules B (.alt ps)
  := by
  intro c c' ts hreads
  cases hreads with
  | alt hp hreads => exact h _ hp hreads

/-- What comes first decides where all parts together start. -/
theorem Opens.seq (h : Opens rules B p) (ps : List (Peg σ)) :
  Opens rules B (.seq (p :: ps))
  := by
  intro c c' ts hreads
  cases hreads with
  | seqCons hp _ => exact (h hp).append _

end Opening

/-! ### All trees of a reading -/

section Yielding

variable {σ : Type} {rules : σ → Peg σ} {text : List Char} {P : Tree → Prop} {p : Peg σ}
  {ps : List (Peg σ)}

variable (rules text P) in
/-- Each tree of each reading of an expression has a property. -/
def Yields (p : Peg σ) : Prop :=
  ∀ ⦃c c' : Cursor⦄ ⦃ts : List Tree⦄, c.At text → Reads rules p c ts c' → ∀ t ∈ ts, P t

theorem yields_leaf {kind : Kind} {scan : List Char → Nat}
    (hP : ∀ t : Tree, t.kind = .comment ∨ t.kind = kind → P t) :
  Yields rules text P (.leaf kind scan)
  := by
  intro c c' ts hc hreads
  obtain ⟨comments, c₁, n, rfl, hcomments, -⟩ := reads_leaf hreads hc
  refine List.forall_mem_append.mpr ⟨?_, ?_⟩
  · intro t ht
    exact hP t (.inl (of_decide_eq_true (hcomments t ht)))
  · intro t ht
    rw [List.mem_singleton.mp ht]
    exact hP _ (.inr rfl)

theorem yields_seq_nil :
  Yields rules text P (.seq [])
  := by
  intro c c' ts _ hreads
  obtain ⟨rfl, -⟩ := reads_seq_nil hreads
  simp

theorem Yields.seq (h : Yields rules text P p) (hs : Yields rules text P (.seq ps)) :
  Yields rules text P (.seq (p :: ps))
  := by
  intro c c' ts hc hreads
  obtain ⟨c₁, us, vs, rfl, hp, hps⟩ := reads_seq_cons hreads
  exact List.forall_mem_append.mpr ⟨h hc hp, hs (hp.at hc) hps⟩

theorem Yields.opt (h : Yields rules text P p) :
  Yields rules text P (.opt p)
  := by
  intro c c' ts hc hreads
  rcases reads_opt hreads with ⟨rfl, -⟩ | hreads
  · simp
  · exact h hc hreads

theorem Yields.many (h : Yields rules text P p) :
  Yields rules text P (.many p)
  := by
  intro c c' ts hc hreads
  generalize hq : Peg.many p = q at hreads
  induction hreads with
  | manyNil => simp
  | manyCons hone _ _ ih =>
    cases hq
    exact List.forall_mem_append.mpr ⟨h hc hone, ih (hone.at hc) rfl⟩
  | _ => cases hq

theorem Yields.within (h : Yields rules text P p) (enclosed : Bool) :
  Yields rules text P (.within enclosed p)
  := by
  intro c c' ts hc hreads
  cases hreads with
  | within hreads =>
    refine h ?_ hreads
    exact hc

end Yielding

/-! ### The edges of names -/

namespace Lexeme

variable {x : Char}

/-- The characters that the name of an export starts and ends with: those of words, and quotes. -/
def isEdge (x : Char) : Bool :=
  isNamePart x || x = '"' || x = '\''

/-- The code points of letters and digits. -/
theorem toNat_of_isAlphanum (h : x.isAlphanum = true) :
  (65 ≤ x.toNat ∧ x.toNat ≤ 90) ∨ (97 ≤ x.toNat ∧ x.toNat ≤ 122)
    ∨ (48 ≤ x.toNat ∧ x.toNat ≤ 57)
  := by
  have hranges : (decide (x.val ≥ 65 ∧ x.val ≤ 90)
      || decide (x.val ≥ 97) && decide (x.val ≤ 122)
      || decide (x.val ≥ 48) && decide (x.val ≤ 57)) = true := h
  simp only [Bool.or_eq_true, Bool.and_eq_true, decide_eq_true_iff, ge_iff_le,
    UInt32.le_iff_toNat_le, or_assoc] at hranges
  exact hranges

theorem isTokenSpace_of_isAlphanum (h : x.isAlphanum = true) :
  isTokenSpace x = false
  := by
  have hranges := toNat_of_isAlphanum h
  simp only [isTokenSpace, isAsciiSpace, isSpaceSeparator, Bool.or_eq_false_iff,
    Bool.and_eq_false_iff, decide_eq_false_iff_not, UInt32.le_iff_toNat_le, ← UInt32.toNat_inj,
    Char.ext_iff]
  simp
  omega

theorem isTokenSpace_of_isEdge (h : isEdge x = true) :
  isTokenSpace x = false
  := by
  simp only [isEdge, isNamePart, Bool.or_eq_true, decide_eq_true_iff, Bool.and_eq_true,
    Bool.not_eq_true'] at h
  rcases h with ((((halnum | rfl) | rfl) | ⟨-, hspace⟩) | rfl) | rfl
  · exact isTokenSpace_of_isAlphanum halnum
  · rfl
  · rfl
  · exact hspace
  · rfl
  · rfl

theorem ne_of_isEdge {y : Char} (h : isEdge x = true) (hy : isEdge y = false) :
  x ≠ y
  := by
  rintro rfl
  rw [h] at hy
  cases hy

theorem toNat_of_isSpace (h : isSpace x = true) (htoken : isTokenSpace x = false) :
  x.toNat ≤ 0x1F ∨ x.toNat = 0x85
  := by
  simp only [isSpace, isTokenSpace, isAsciiSpace, isSpaceSeparator, Bool.or_eq_false_iff,
    Bool.or_eq_true, Bool.and_eq_true, decide_eq_true_iff, Bool.and_eq_false_iff,
    decide_eq_false_iff_not, UInt32.le_iff_toNat_le, ← UInt32.toNat_inj, Char.ext_iff] at h htoken
  simp at h htoken
  omega

theorem lt_toNat_of_isEdge (h : isEdge x = true) :
  0x1F < x.toNat
  := by
  simp only [isEdge, isNamePart, Bool.or_eq_true, decide_eq_true_iff, Bool.and_eq_true,
    UInt32.le_iff_toNat_le] at h
  rcases h with ((((halnum | rfl) | rfl) | ⟨hfar, -⟩) | rfl) | rfl
  · have hranges := toNat_of_isAlphanum halnum
    omega
  · decide
  · decide
  · change 0x7F ≤ x.toNat at hfar
    omega
  · decide
  · decide

/-- One character of names is white space: the one for the next line, which separates no tokens. -/
theorem eq_of_isEdge_of_isSpace (h : isEdge x = true) (hspace : isSpace x = true) :
  x = '\u0085'
  := by
  have hfar := lt_toNat_of_isEdge h
  rcases toNat_of_isSpace hspace (isTokenSpace_of_isEdge h) with hnear | hnext
  · omega
  · exact Char.toNat_inj.mp hnext

theorem all_take_countWhile (p : Char → Bool) (cs : List Char) :
  ∀ x ∈ cs.take (countWhile p cs), p x = true
  := by
  induction cs with
  | nil => simp
  | cons c cs ih =>
    rw [countWhile]
    split
    next hc => exact List.forall_mem_cons.mpr ⟨hc, ih⟩
    next => simp

/-- A word consists of characters of names. -/
theorem all_take_word (cs : List Char) :
  ∀ x ∈ cs.take (word cs), isNamePart x = true
  := by
  cases cs with
  | nil => simp
  | cons c cs =>
    rw [word]
    split
    next hc =>
      exact List.forall_mem_cons.mpr ⟨(Bool.and_eq_true_iff.mp hc).1, all_take_countWhile _ cs⟩
    next => simp

/-- A word starts with a character of names. -/
theorem exists_of_word {cs : List Char} {n : Nat} (h : word cs = n + 1) :
  ∃ x xs, cs = x :: xs ∧ isNamePart x = true
  := by
  cases cs with
  | nil => cases h
  | cons x xs =>
    refine ⟨x, xs, rfl, ?_⟩
    apply all_take_word (x :: xs)
    rw [h]
    exact List.mem_cons_self

end Lexeme

/-! ### The edges of specifiers -/

section Specifiers

open Script Lexeme

variable {dialect : Dialect} {text : List Char}

/-- A text starts with an edge of a name. -/
def EdgeAhead (cs : List Char) : Prop :=
  ∃ x, cs.head? = some x ∧ isEdge x = true

/-- A text has an edge of a name before an offset. -/
def EdgeBefore (text : List Char) (n : Nat) : Prop :=
  ∃ x, charBefore text n = some x ∧ isEdge x = true

theorem EdgeAhead.append {cs : List Char} (h : EdgeAhead cs) (more : List Char) :
  EdgeAhead (cs ++ more)
  := by
  obtain ⟨x, hx, hedge⟩ := h
  refine ⟨x, ?_, hedge⟩
  rw [List.head?_append, hx]
  rfl

theorem EdgeAhead.settled {c : Cursor} (h : EdgeAhead c.rest) :
  c.Settled
  := by
  obtain ⟨x, hx, hedge⟩ := h
  obtain ⟨xs, hrest⟩ := List.head?_eq_some_iff.mp hx
  constructor
  case noComment =>
    rw [hrest]
    exact commentLength_of_ne (ne_of_isEdge hedge rfl) xs
  case noBlank =>
    intro y hy
    rw [hx] at hy
    obtain rfl := Option.some.inj hy
    exact isTokenSpace_of_isEdge hedge

section Spelling

variable {w : List Char} {scan : List Char → Nat} {x : Char} {k : String}
  (hscan : Spells w scan)

include hscan

theorem opens_token (hw : w.head? = some x) (hx : isEdge x = true) :
  Opens (rules dialect) EdgeAhead (.leaf (.token k) scan)
  := by
  apply opens_leaf (by simp)
  intro cs n hn
  obtain ⟨-, rest, rfl⟩ := hscan cs n hn
  obtain ⟨ws, rfl⟩ := List.head?_eq_some_iff.mp hw
  exact ⟨x, rfl, hx⟩

theorem lands_token (hw : w.getLast? = some x) (hx : isEdge x = true) :
  Lands (rules dialect) text (EdgeBefore text) (.leaf (.token k) scan)
  := by
  apply lands_leaf
  intro c n hc hn
  have hbefore := hc.charBefore_eq hscan hn
  rw [hw] at hbefore
  exact ⟨x, hbefore, hx⟩

end Spelling

theorem opens_exported :
  Opens (rules dialect) EdgeAhead exported
  := by
  apply opens_alt
  intro p hp
  simp only [List.mem_cons, List.not_mem_nil, or_false] at hp
  rcases hp with rfl | rfl
  · apply opens_leaf (by decide)
    intro cs n hn
    obtain ⟨x, xs, rfl, hx⟩ := exists_of_word hn
    refine ⟨x, rfl, ?_⟩
    rw [isEdge, hx]
    rfl
  · apply Opens.rule
    apply opens_alt
    intro p hp
    simp only [List.mem_cons, List.not_mem_nil, or_false] at hp
    rcases hp with rfl | rfl
    · exact ((opens_token (spells_sign _ _) rfl rfl).seq _).node (by decide)
    · exact ((opens_token (spells_sign _ _) rfl rfl).seq _).node (by decide)

theorem lands_exported :
  Lands (rules dialect) text (EdgeBefore text) exported
  := by
  apply lands_alt
  intro p hp
  simp only [List.mem_cons, List.not_mem_nil, or_false] at hp
  rcases hp with rfl | rfl
  · apply lands_leaf
    intro c n hc hn
    obtain ⟨front, hfront⟩ := hc.takeBytes_advance (n + 1)
    obtain ⟨x, xs, hrest, -⟩ := exists_of_word hn
    rcases List.eq_nil_or_concat (c.rest.take (n + 1)) with hnil | ⟨w, last, hword⟩
    · simp [hrest] at hnil
    · have hlast : isNamePart last = true := by
        apply all_take_word c.rest
        rw [hn, hword]
        simp
      refine ⟨last, ?_, ?_⟩
      · rw [charBefore, hfront, hword]
        simp
      · rw [isEdge, hlast]
        rfl
  · apply Lands.rule
    apply lands_alt
    intro p hp
    simp only [List.mem_cons, List.not_mem_nil, or_false] at hp
    have hclose (q : Char) (hq : isEdge q = true) (p₁ p₂ : Script) :
        Lands (rules dialect) text (EdgeBefore text)
          (.seq [p₁, p₂, sym (String.singleton q)]) := by
      have hmark : (String.singleton q).toList.getLast? = some q := by
        rw [String.toList_singleton]
        rfl
      apply Lands.seq
      apply Lands.seq
      exact (lands_token (spells_sign _ _) hmark hq).seq_mayLand mayLand_seq_nil
    rcases hp with rfl | rfl
    · exact (hclose _ rfl _ _).node _
    · exact (hclose _ rfl _ _).node _

/-- Some trees are one tree of a kind behind the comments before it, with edges of names at both
ends. -/
def OneEdged (text : List Char) (kind : Kind) (c : Cursor) (ts : List Tree) : Prop :=
  ∃ comments c₁ t, ts = comments ++ [t] ∧ t.kind = kind ∧ Passes c comments c₁
    ∧ t.start = c₁.pos ∧ EdgeAhead c₁.rest ∧ EdgeBefore text t.stop

theorem oneEdged_of_reads {kind : Kind} {p : Script} {c c' : Cursor} {ts : List Tree}
    (hopens : Opens (rules dialect) EdgeAhead p)
    (hlands : Lands (rules dialect) text (EdgeBefore text) p) (hc : c.At text)
    (h : Reads (rules dialect) (.node kind p) c ts c') :
  OneEdged text kind c ts
  := by
  obtain ⟨comments, c₁, t, rfl, hkind, hpasses, hstart, hahead⟩ := hopens.reads_node h
  obtain ⟨front, u, heq, hstop, hbefore⟩ := (hlands.node kind) hc h
  obtain ⟨-, hlast⟩ := List.append_inj' heq rfl
  obtain rfl := List.singleton_inj.mp hlast
  rw [← hstop] at hbefore
  exact ⟨comments, c₁, t, rfl, hkind, hpasses, hstart, hahead, hbefore⟩

theorem lands_renamed :
  Lands (rules dialect) text (EdgeBefore text)
    (.seq [.role .name exported, .opt (.seq [kw "as", .role .localName exported])])
  := by
  have hname (r : Role) : Lands (rules dialect) text (EdgeBefore text) (.role r exported) :=
    lands_exported.role r
  have hother := ((hname .localName).seq_mayLand mayLand_seq_nil).seq (kw "as")
  exact (hname .name).seq_mayLand (hother.opt.seq mayLand_seq_nil)

theorem oneEdged_specifier {kind : Kind} {c c' : Cursor} {ts : List Tree} (hc : c.At text)
    (h : Reads (rules dialect) (specifier kind) c ts c') :
  OneEdged text kind c ts
  := by
  -- a look at what follows reads nothing
  have hclosed : MayLand (rules dialect) text (EdgeBefore text)
      (.seq [.ahead (.alt [sym ",", closeBrace])]) := by
    refine MayLand.seq ?_ mayLand_seq_nil
    intro c c' ts _ hreads
    cases hreads
    exact .inl ⟨rfl, rfl⟩
  cases h with
  | alt hp h =>
    simp only [List.mem_cons, List.not_mem_nil, or_false] at hp
    rcases hp with rfl | rfl
    · refine oneEdged_of_reads ?_ ?_ hc h
      · exact (opens_token (spells_keyword _) rfl rfl).seq _
      · exact (lands_renamed.seq_mayLand hclosed).seq _
    · refine oneEdged_of_reads ?_ ?_ hc h
      · exact ((opens_exported.role .name).seq _).seq _
      · exact lands_renamed.seq_mayLand hclosed

/-- A tree has edges of names at both ends. -/
def Edged (text : List Char) (t : Tree) : Prop :=
  EdgeAhead (dropBytes text t.start) ∧ EdgeBefore text t.stop

theorem yields_specifier {kind : Kind} (hkind : kind ≠ .comment) :
  Yields (rules dialect) text (fun t => t.kind = kind → Edged text t) (specifier kind)
  := by
  intro c c' ts hc hreads
  obtain ⟨comments, c₁, t, rfl, -, hpasses, hstart, hahead, hbefore⟩ :=
    oneEdged_specifier hc hreads
  have hc₁ : c₁.At text := hc.trans hpasses.reaches
  refine List.forall_mem_append.mpr ⟨?_, ?_⟩
  · intro u hu hkind'
    exact absurd hkind' (kind_ne_of_isComment (hpasses.isComment u hu) hkind)
  · intro u hu _
    rw [List.mem_singleton.mp hu]
    refine ⟨?_, hbefore⟩
    rwa [hstart, hc₁.dropBytes]

variable {t : Tree}

/-- The specifiers of a block have edges of names at both ends. -/
theorem Known.edged_of_namedImports (h : Known (rules dialect) Lawful text t)
    (hkind : t.kind = .namedImports) :
  ∀ u ∈ t.children, u.kind = .importSpecifier → Edged text u
  := by
  have hbody : bodyOf? t.kind = some importNames := by
    rw [hkind]
    rfl
  obtain ⟨c, c', ts, u, us, hc, hreads, hdrop, hchildren, -⟩ := h.body hbody
  have hsign (w : String) :
      Yields (rules dialect) text (fun t => t.kind = .importSpecifier → Edged text t) (sym w) := by
    apply yields_leaf
    rintro t (ht | ht) hspecifier
    · rw [ht] at hspecifier
      cases hspecifier
    · rw [ht] at hspecifier
      cases hspecifier
  have hone : Yields (rules dialect) text (fun t => t.kind = .importSpecifier → Edged text t)
      (specifier .importSpecifier) := yields_specifier (by decide)
  have hmore := ((hsign ",").seq (hone.seq yields_seq_nil)).many
  have hlisted := hone.seq (hmore.seq yields_seq_nil)
  have hlistedLoosely := (hlisted.seq ((hsign ",").opt.seq yields_seq_nil)).opt
  have hall := (hsign "\x7b").seq ((hlistedLoosely.within true).seq
    ((hsign "\x7d").seq yields_seq_nil)) hc hreads
  intro v hv
  apply hall v
  rw [hchildren, ← hdrop] at hv
  exact (List.dropWhile_suffix _).subset hv

theorem filter_comments {comments : List Tree} (h : ∀ u ∈ comments, isComment u = true) :
  comments.filter (·.kind = .importSpecifier) = []
  := by
  apply List.filter_eq_nil_iff.mpr
  intro u hu
  simp [of_decide_eq_true (h u hu)]

theorem filter_sign {w : String} {c c' : Cursor} {ts : List Tree} (hc : c.At text)
    (h : Reads (rules dialect) (sym w) c ts c') :
  ts.filter (·.kind = .importSpecifier) = []
  := by
  obtain ⟨comments, c₁, n, rfl, hcomments, -⟩ := reads_leaf h hc
  rw [List.filter_append, filter_comments hcomments]
  rfl

/-- The specifiers of a list start with one at the next token. -/
theorem first_of_listed {c c' : Cursor} {ts us : List Tree} {u : Tree} (hc : c.At text)
    (h : Reads (rules dialect) (listedLoosely (specifier .importSpecifier)) c ts c')
    (hfirst : ts.filter (·.kind = .importSpecifier) = u :: us) :
  ∃ comments c₁, Passes c comments c₁ ∧ u.start = c₁.pos ∧ EdgeAhead c₁.rest
  := by
  rcases reads_opt h with ⟨rfl, -⟩ | h
  · cases hfirst
  · obtain ⟨_, _, _, rfl, h, -⟩ := reads_seq_cons h
    obtain ⟨_, _, _, rfl, h, -⟩ := reads_seq_cons h
    obtain ⟨comments, c₁, t, rfl, hkind, hpasses, hstart, hahead, -⟩ := oneEdged_specifier hc h
    rw [List.append_assoc, List.append_assoc, List.filter_append,
      filter_comments hpasses.isComment, List.nil_append, List.singleton_append,
      List.filter_cons_of_pos (by simp [hkind])] at hfirst
    obtain ⟨rfl, -⟩ := List.cons.inj hfirst
    exact ⟨comments, c₁, hpasses, hstart, hahead⟩

/-- The first specifier of a block stands at the next token behind the brace. -/
theorem Known.first_of_namedImports (h : Known (rules dialect) Lawful text t)
    (hkind : t.kind = .namedImports) {u : Tree} {us : List Tree}
    (hfirst : t.children.filter (·.kind = .importSpecifier) = u :: us) :
  ∃ comments c c₁, c.At text ∧ c.pos = t.start + 1 ∧ Passes c comments c₁ ∧ u.start = c₁.pos
    ∧ EdgeAhead c₁.rest
  := by
  have hbody : bodyOf? t.kind = some importNames := by
    rw [hkind]
    rfl
  obtain ⟨c, c', ts, v, vs, hc, hreads, hdrop, hchildren, hstart, -⟩ := h.body hbody
  obtain ⟨_, _, _, rfl, hopen, hreads⟩ := reads_seq_cons hreads
  obtain ⟨_, inner, _, rfl, hinner, hreads⟩ := reads_seq_cons hreads
  obtain ⟨_, close, _, rfl, hclose, hreads⟩ := reads_seq_cons hreads
  obtain ⟨rfl, -⟩ := reads_seq_nil hreads
  obtain ⟨before, c₁, n, rfl, hbefore, hc₁, hn, rfl⟩ := reads_leaf hopen hc
  have hc₂ : (c₁.advance (n + 1)).At text := hc₁.trans (c₁.reaches_advance _)
  have hbehind : (c₁.advance (n + 1)).pos = c₁.pos + 1 := by
    obtain ⟨hlength, rest, hrest⟩ := spells_sign _ _ _ _ hn
    change c₁.pos + byteLength (c₁.rest.take (n + 1)) = _
    rw [hrest, ← hlength, List.take_left]
    rfl
  rw [List.append_assoc, List.singleton_append, dropWhile_isComment hbefore rfl] at hdrop
  obtain ⟨rfl, rfl⟩ := List.cons.inj hdrop
  have hlist : inner.filter (·.kind = .importSpecifier) = u :: us := by
    rw [hchildren, List.append_nil, ← List.singleton_append, List.filter_append,
      List.filter_append, filter_sign (hinner.at hc₂) hclose, List.append_nil] at hfirst
    exact hfirst
  cases hinner with
  | within hinner =>
    obtain ⟨comments, c₂, hpasses, hu, hahead⟩ := first_of_listed (by exact hc₂) hinner hlist
    refine ⟨comments, _, c₂, ?_, ?_, hpasses, hu, hahead⟩
    · exact hc₂
    · rw [hstart]
      exact hbehind

end Specifiers

end Grammar

end Codemod
