import Codemod.Grammar.Lexeme
import Codemod.Proofs.Reading
import Mathlib.Data.List.TakeWhile

/-!
# Tokens at the ends of what is read

What the first and the last token of a reading say about the text. A token with a fixed spelling
stands at its offset. An expression lands when each of its readings ends with a tree, right where
the reading stops, so that what is known of the last token holds at the end of the whole. And the
kinds of the trees in a reading are among those that the expression names.
-/

namespace Codemod

namespace Grammar

open Codemod.Tree

/-! ### Tokens with a fixed spelling -/

/-- A scanner that finds one spelling only. -/
def Lexeme.Spells (w : List Char) (scan : List Char → Nat) : Prop :=
  ∀ cs n, scan cs = n + 1 → w.length = n + 1 ∧ ∃ rest, cs = w ++ rest

/-- A scanner that finds one spelling, where a test allows it. -/
theorem Lexeme.spells_of_test (w : List Char) (test : List Char → Bool) :
  Spells w fun cs => if w.isPrefixOf cs && test cs then w.length else 0
  := by
  intro cs n h
  dsimp only at h
  split at h
  · rename_i hfront
    obtain ⟨rest, hrest⟩ := List.isPrefixOf_iff_prefix.mp (Bool.and_eq_true_iff.mp hfront).1
    exact ⟨h, rest, hrest.symm⟩
  · cases h

theorem Lexeme.spells_sign (w without : List Char) :
  Spells w (sign w without)
  := spells_of_test w fun cs => !((cs.drop w.length).head?.any without.contains)

theorem Lexeme.spells_keyword (w : List Char) :
  Spells w (keyword w)
  := spells_of_test w fun cs => !((cs.drop w.length).head?.any isNamePart)

theorem Cursor.At.dropBytes {text : List Char} {c : Cursor} (h : c.At text) :
  Text.dropBytes text c.pos = c.rest
  := by
  obtain ⟨passed, htext, hpos⟩ := h
  change text = passed ++ c.rest at htext
  change c.pos = 0 + _ at hpos
  rw [htext, hpos, Nat.zero_add, Text.dropBytes_append]

/-- A text cut at a place and at a later one. -/
theorem Cursor.At.exists_cut {text : List Char} {c : Cursor} (h : c.At text) (n : Nat) :
  ∃ passed, text = passed ++ c.rest.take n ++ c.rest.drop n ∧ c.pos = Text.byteLength passed
    ∧ (c.advance n).pos = Text.byteLength (passed ++ c.rest.take n)
  := by
  obtain ⟨passed, htext, hpos⟩ := h
  change text = passed ++ c.rest at htext
  change c.pos = 0 + _ at hpos
  rw [Nat.zero_add] at hpos
  refine ⟨passed, ?_, hpos, ?_⟩
  · rw [htext, List.append_assoc, List.take_append_drop]
  · change c.pos + _ = _
    rw [hpos, Text.byteLength_append]

theorem Cursor.At.takeBytes_advance {text : List Char} {c : Cursor} (h : c.At text) (n : Nat) :
  ∃ front, Text.takeBytes text (c.advance n).pos = front ++ c.rest.take n
  := by
  obtain ⟨passed, htext, -, hend⟩ := h.exists_cut n
  use passed
  rw [hend, htext]
  apply Text.takeBytes_append

theorem Cursor.At.slice_advance {text : List Char} {c : Cursor} (h : c.At text) (n : Nat) :
  Text.slice text c.pos (c.advance n).pos = c.rest.take n
  := by
  obtain ⟨passed, htext, hpos, hend⟩ := h.exists_cut n
  rw [hend, hpos, htext]
  apply Text.slice_append

section Spelling

variable {text w : List Char} {scan : List Char → Nat} {c : Cursor} {n : Nat} (h : c.At text)
  (hscan : Lexeme.Spells w scan) (hn : scan c.rest = n + 1)

include h hscan hn

/-- A token with a fixed spelling stands at its offset. -/
theorem Cursor.At.charAt_eq :
  Text.charAt text c.pos = w.head?
  := by
  obtain ⟨hlength, rest, hrest⟩ := hscan _ _ hn
  rw [Text.charAt, h.dropBytes, hrest]
  cases w with
  | nil => cases hlength
  | cons x xs => rfl

/-- A token with a fixed spelling stands before the offset behind it. -/
theorem Cursor.At.charBefore_eq :
  Text.charBefore text (c.advance (n + 1)).pos = w.getLast?
  := by
  obtain ⟨hlength, rest, hrest⟩ := hscan _ _ hn
  obtain ⟨front, hfront⟩ := h.takeBytes_advance (n + 1)
  rw [Text.charBefore, hfront, hrest, ← hlength, List.take_left, List.getLast?_append]
  cases w with
  | nil => cases hlength
  | cons x xs => simp [List.getLast?_cons]

end Spelling

/-! ### Trees of tokens and nodes -/

section Tokens

variable {σ : Type} {rules : σ → Peg σ} {text : List Char}

/-- Reading leads from one place in a text to another one. -/
theorem Reads.at {p : Peg σ} {c c' : Cursor} {ts : List Tree} (h : Reads rules p c ts c')
    (hc : c.At text) :
  c'.At text
  := by
  induction h with
  | @leaf _ _ c c' comments limit n ht _ =>
    have hpassage : Passage rules (fun _ => True) text c (trivia limit c).1 (trivia limit c).2 :=
      trivia_passage limit hc
    rw [ht] at hpassage
    apply (hc.trans hpassage.reaches).trans (c'.reaches_advance _)
  | rawLeaf _ => apply hc.trans (Cursor.reaches_advance _ _)
  | skip => apply hc.trans (Cursor.reaches_advance _ _)
  | check _ => apply hc
  | within _ ih => apply ih hc
  | seqNil => apply hc
  | seqCons _ _ ih ihs => apply ihs (ih hc)
  | alt _ _ ih => apply ih hc
  | manyNil => apply hc
  | manyCons _ _ ih ihs => apply ihs (ih hc)
  | absent => apply hc
  | node _ ih => apply ih hc
  | role _ ih => apply ih hc
  | growHead _ ih => apply ih hc
  | growStep _ _ _ _ ih iht => apply iht (ih hc)
  | rule _ ih => apply ih hc

theorem reads_seq_cons {p : Peg σ} {ps : List (Peg σ)} {c c' : Cursor} {ts : List Tree}
    (h : Reads rules (.seq (p :: ps)) c ts c') :
  ∃ c₁ us vs, ts = us ++ vs ∧ Reads rules p c us c₁ ∧ Reads rules (.seq ps) c₁ vs c'
  := by
  cases h with
  | seqCons hp hps => exact ⟨_, _, _, rfl, hp, hps⟩

theorem reads_seq_nil {c c' : Cursor} {ts : List Tree} (h : Reads rules (.seq []) c ts c') :
  ts = [] ∧ c' = c
  := by
  cases h
  exact ⟨rfl, rfl⟩

/-- What an expression that may be left out reads, if anything. -/
theorem reads_opt {p : Peg σ} {c c' : Cursor} {ts : List Tree}
    (h : Reads rules (.opt p) c ts c') :
  (ts = [] ∧ c' = c) ∨ Reads rules p c ts c'
  := by
  cases h with
  | alt hp h =>
    rcases List.mem_cons.mp hp with rfl | hp
    · apply Or.inr h
    · rw [List.mem_singleton.mp hp] at h
      apply Or.inl (reads_seq_nil h)

/-- A token that is read stands behind the comments before it. -/
theorem reads_leaf {kind : Kind} {scan : List Char → Nat} {c c' : Cursor} {ts : List Tree}
    (h : Reads rules (.leaf kind scan) c ts c') (hc : c.At text) :
  ∃ (comments : List Tree) (c₁ : Cursor) (n : Nat), ts = comments ++ [c₁.leaf kind (n + 1)]
    ∧ (∀ t ∈ comments, isComment t = true) ∧ c₁.At text ∧ scan c₁.rest = n + 1
    ∧ c' = c₁.advance (n + 1)
  := by
  cases h with
  | @leaf _ _ _ c₁ comments limit n ht hs =>
    have hpassage : Passage rules (fun _ => True) text c (trivia limit c).1 (trivia limit c).2 :=
      trivia_passage limit hc
    have hcomments : ∀ t ∈ (trivia limit c).1, isComment t = true :=
      forall_mem_trivia (fun _ _ => rfl) limit c
    rw [ht] at hpassage hcomments
    exact ⟨comments, c₁, n, rfl, hcomments, hc.trans hpassage.reaches, hs, rfl⟩

theorem kind_ne_of_isComment {t : Tree} {k : Kind} (h : isComment t = true) (hk : k ≠ .comment) :
  t.kind ≠ k
  := by
  rw [of_decide_eq_true h]
  exact hk.symm

theorem dropWhile_isComment {comments ts : List Tree} {t : Tree}
    (hcomments : ∀ u ∈ comments, isComment u = true) (ht : isComment t = false) :
  (comments ++ t :: ts).dropWhile isComment = t :: ts
  := by
  rw [List.dropWhile_append_of_pos hcomments, List.dropWhile_cons_of_neg (by simp [ht])]

theorem stopOf_concat (n : Nat) (ts : List Tree) (t : Tree) :
  stopOf n (ts ++ [t]) = t.stop
  := by
  rw [stopOf, List.foldl_append]
  rfl

/-- What a node around some trees consists of: comments, and the node itself. -/
theorem mem_enclose {kind : Kind} {ts : List Tree} {t : Tree} (h : t ∈ enclose kind ts) :
  isComment t = true ∨ t.kind = kind
  := by
  rcases enclose_cases kind ts with ⟨hdrop, heq⟩ | ⟨u, us, -, heq⟩
  · rw [heq] at h
    apply Or.inl (List.dropWhile_eq_nil_iff.mp hdrop t h)
  · rw [heq] at h
    rcases List.mem_append.mp h with h | h
    · apply Or.inl (List.mem_takeWhile_imp h)
    · rw [List.mem_singleton.mp h]
      apply Or.inr rfl

/-- A node that starts with a token is one tree behind the comments before it. -/
theorem reads_node {kind : Kind} {k : String} {scan : List Char → Nat} {ps : List (Peg σ)}
    {c c' : Cursor} {ts : List Tree}
    (h : Reads rules (.node kind (.seq (.leaf (.token k) scan :: ps))) c ts c')
    (hc : c.At text) :
  ∃ comments t, ts = comments ++ [t] ∧ (∀ u ∈ comments, isComment u = true) ∧ t.kind = kind
  := by
  cases h with
  | @node _ _ _ _ us h =>
    cases h with
    | @seqCons _ _ _ _ _ _ vs h₁ _ =>
      obtain ⟨comments, c₁, n, rfl, hcomments, -, -, -⟩ := reads_leaf h₁ hc
      have hleaf : isComment (c₁.leaf (.token k) (n + 1)) = false := rfl
      rw [List.append_assoc, List.singleton_append]
      rcases enclose_cases kind (comments ++ c₁.leaf (.token k) (n + 1) :: vs)
        with ⟨hdrop, -⟩ | ⟨t, us, -, heq⟩
      · rw [dropWhile_isComment hcomments hleaf] at hdrop
        cases hdrop
      · rw [heq]
        refine ⟨_, _, rfl, ?_, rfl⟩
        intro u hu
        apply List.mem_takeWhile_imp hu

/-- A tag that is read in a role is one node behind the comments before it. -/
theorem reads_tag {r : Role} {kind : Kind} {k : String} {scan : List Char → Nat}
    {ps : List (Peg σ)} {c c' : Cursor} {ts : List Tree}
    (h : Reads rules (.role r (.node kind (.seq (.leaf (.token k) scan :: ps)))) c ts c')
    (hc : c.At text) :
  ∃ comments t, ts = comments ++ [t] ∧ (∀ u ∈ comments, isComment u = true) ∧ t.kind = kind
  := by
  cases h with
  | role h =>
    obtain ⟨comments, t, rfl, hcomments, hkind⟩ := reads_node h hc
    rw [assign, List.map_append]
    refine ⟨_, _, rfl, ?_, ((sameButRole_assign r t).kind).trans hkind⟩
    intro u hu
    obtain ⟨v, hv, rfl⟩ := List.mem_map.mp hu
    rw [isComment, (sameButRole_assign r v).kind]
    apply hcomments v hv

/-- What is read between two signs starts and ends with them. -/
theorem reads_signs {k₁ k₂ : String} {w₁ v₁ w₂ v₂ : List Char} {p : Peg σ} {c c' : Cursor}
    {u : Tree} {ts us : List Tree}
    (h : Reads rules (.seq [.leaf (.token k₁) (Lexeme.sign w₁ v₁), p,
      .leaf (.token k₂) (Lexeme.sign w₂ v₂)]) c ts c')
    (hc : c.At text) (hdrop : ts.dropWhile isComment = u :: us) :
  Text.charAt text u.start = w₁.head?
    ∧ ∃ mid v, us = mid ++ [v] ∧ Text.charBefore text v.stop = w₂.getLast?
  := by
  obtain ⟨_, _, _, rfl, h₁, h⟩ := reads_seq_cons h
  obtain ⟨_, mid, _, rfl, h₂, h⟩ := reads_seq_cons h
  obtain ⟨_, _, _, rfl, h₃, h⟩ := reads_seq_cons h
  obtain ⟨rfl, rfl⟩ := reads_seq_nil h
  obtain ⟨comments, c₁, n, rfl, hcomments, hc₁, hn, rfl⟩ := reads_leaf h₁ hc
  have hc₂ := h₂.at (hc₁.trans (c₁.reaches_advance _))
  obtain ⟨comments', c₃, m, rfl, -, hc₃, hm, rfl⟩ := reads_leaf h₃ hc₂
  rw [List.append_assoc, List.singleton_append, dropWhile_isComment hcomments rfl] at hdrop
  cases hdrop
  use hc₁.charAt_eq (Lexeme.spells_sign w₁ v₁) hn
  use mid ++ comments', c₃.leaf (.token k₂) (m + 1), by simp
  apply hc₃.charBefore_eq (Lexeme.spells_sign w₂ v₂) hm

end Tokens

/-! ### Where a reading ends -/

section Landing

variable {σ : Type} {rules : σ → Peg σ} {text : List Char} {E : Nat → Prop}

/-- The last of some trees ends at an offset of which a condition holds. -/
def EndsAt (E : Nat → Prop) (ts : List Tree) (n : Nat) : Prop :=
  ∃ front t, ts = front ++ [t] ∧ t.stop = n ∧ E n

variable (rules text E) in
/-- Each reading of an expression ends with a tree, and a condition holds where it ends. -/
def Lands (p : Peg σ) : Prop :=
  ∀ ⦃c c' : Cursor⦄ ⦃ts : List Tree⦄, c.At text → Reads rules p c ts c' → EndsAt E ts c'.pos

variable (rules text E) in
/-- Each reading of an expression that yields any trees ends with one, and a condition holds where
it ends. A reading that yields none stays where it is. -/
def MayLand (p : Peg σ) : Prop :=
  ∀ ⦃c c' : Cursor⦄ ⦃ts : List Tree⦄, c.At text → Reads rules p c ts c' →
    (ts = [] ∧ c'.pos = c.pos) ∨ EndsAt E ts c'.pos

theorem EndsAt.append {ts : List Tree} {n : Nat} (h : EndsAt E ts n) (us : List Tree) :
  EndsAt E (us ++ ts) n
  := by
  obtain ⟨front, t, rfl, hstop, hend⟩ := h
  use us ++ front, t, (List.append_assoc us front [t]).symm

/-- A node that leaves out the comments at the front ends where the last tree ends. -/
theorem EndsAt.stopOf_eq {ts us : List Tree} {u : Tree} {n : Nat} (h : EndsAt E ts n)
    (hdrop : ts.dropWhile isComment = u :: us) :
  stopOf u.stop us = n
  := by
  obtain ⟨front, t, rfl, hstop, -⟩ := h
  obtain ⟨first, hsplit⟩ := List.dropWhile_suffix (l := front ++ [t]) isComment
  rw [hdrop] at hsplit
  have hlast := congrArg List.getLast? hsplit
  rcases List.eq_nil_or_concat us with rfl | ⟨us, v, rfl⟩
  · simp only [List.getLast?_append, List.getLast?_singleton, Option.some_or,
      Option.some.injEq] at hlast
    rw [hlast]
    apply hstop
  · rw [List.concat_eq_append, ← List.cons_append, ← List.append_assoc] at hlast
    simp only [List.getLast?_append, List.getLast?_singleton, Option.some_or,
      Option.some.injEq] at hlast
    rw [List.concat_eq_append, stopOf_concat, hlast]
    apply hstop

theorem EndsAt.enclose {ts : List Tree} {n : Nat} (h : EndsAt E ts n) (kind : Kind) :
  EndsAt E (enclose kind ts) n
  := by
  rcases enclose_cases kind ts with ⟨-, heq⟩ | ⟨u, us, hdrop, heq⟩
  · rw [heq]
    apply h
  · rw [heq]
    obtain ⟨-, -, -, -, hend⟩ := id h
    exact ⟨_, _, rfl, h.stopOf_eq hdrop, hend⟩

theorem EndsAt.assign {ts : List Tree} {n : Nat} (h : EndsAt E ts n) (r : Role) :
  EndsAt E (assign r ts) n
  := by
  obtain ⟨front, t, rfl, hstop, hend⟩ := h
  rw [Grammar.assign, List.map_append]
  refine ⟨_, _, rfl, ?_, hend⟩
  rw [(sameButRole_assign r t).stop]
  apply hstop

theorem lands_leaf {kind : Kind} {scan : List Char → Nat}
    (h : ∀ (c : Cursor) (n : Nat), c.At text → scan c.rest = n + 1 → E (c.advance (n + 1)).pos) :
  Lands rules text E (.leaf kind scan)
  := by
  intro c c' ts hc hreads
  obtain ⟨comments, c₁, n, rfl, -, hc₁, hn, rfl⟩ := reads_leaf hreads hc
  exact ⟨comments, _, rfl, rfl, h c₁ n hc₁ hn⟩

theorem lands_rawLeaf {kind : Kind} {scan : List Char → Nat}
    (h : ∀ (c : Cursor) (n : Nat), c.At text → scan c.rest = n + 1 → E (c.advance (n + 1)).pos) :
  Lands rules text E (.rawLeaf kind scan)
  := by
  intro c c' ts hc hreads
  cases hreads with
  | rawLeaf hn => exact ⟨[], _, rfl, rfl, h c _ hc hn⟩

variable {p : Peg σ} {ps : List (Peg σ)}

theorem Lands.node (h : Lands rules text E p) (kind : Kind) :
  Lands rules text E (.node kind p)
  := by
  intro c c' ts hc hreads
  cases hreads with
  | node hreads => apply (h hc hreads).enclose

theorem Lands.role (h : Lands rules text E p) (r : Role) :
  Lands rules text E (.role r p)
  := by
  intro c c' ts hc hreads
  cases hreads with
  | role hreads => apply (h hc hreads).assign

theorem Lands.rule {name : σ} (h : Lands rules text E (rules name)) :
  Lands rules text E (.rule name)
  := by
  intro c c' ts hc hreads
  cases hreads with
  | rule hreads => apply h hc hreads

theorem lands_alt (h : ∀ p ∈ ps, Lands rules text E p) :
  Lands rules text E (.alt ps)
  := by
  intro c c' ts hc hreads
  cases hreads with
  | alt hp hreads => apply h _ hp hc hreads

/-- What comes last decides where all parts together end. -/
theorem Lands.seq (h : Lands rules text E (.seq ps)) (p : Peg σ) :
  Lands rules text E (.seq (p :: ps))
  := by
  intro c c' ts hc hreads
  cases hreads with
  | seqCons hp hps => apply (h (hp.at hc) hps).append

/-- Behind a part that lands, the others may stay. -/
theorem Lands.seq_mayLand (h : Lands rules text E p) (hs : MayLand rules text E (.seq ps)) :
  Lands rules text E (.seq (p :: ps))
  := by
  intro c c' ts hc hreads
  cases hreads with
  | seqCons hp hps =>
    rcases hs (hp.at hc) hps with ⟨rfl, hpos⟩ | hends
    · rw [List.append_nil, hpos]
      apply h hc hp
    · apply hends.append

theorem mayLand_seq_nil :
  MayLand rules text E (.seq [])
  := by
  intro c c' ts _ hreads
  cases hreads
  apply Or.inl ⟨rfl, rfl⟩

theorem MayLand.seq (h : MayLand rules text E p) (hs : MayLand rules text E (.seq ps)) :
  MayLand rules text E (.seq (p :: ps))
  := by
  intro c c' ts hc hreads
  cases hreads with
  | seqCons hp hps =>
    rcases hs (hp.at hc) hps with ⟨rfl, hpos⟩ | hends
    · rw [List.append_nil, hpos]
      apply h hc hp
    · apply Or.inr (hends.append _)

theorem Lands.mayLand (h : Lands rules text E p) :
  MayLand rules text E p
  := fun _ _ _ hc hreads => .inr (h hc hreads)

theorem mayLand_alt (h : ∀ p ∈ ps, MayLand rules text E p) :
  MayLand rules text E (.alt ps)
  := by
  intro c c' ts hc hreads
  cases hreads with
  | alt hp hreads => apply h _ hp hc hreads

theorem mayLand_check (test : Bool → List Char → Bool) :
  MayLand rules text E (.check test)
  := by
  intro c c' ts _ hreads
  cases hreads
  apply Or.inl ⟨rfl, rfl⟩

theorem Lands.opt (h : Lands rules text E p) :
  MayLand rules text E (.opt p)
  := by
  apply mayLand_alt
  intro q hq
  rcases List.mem_cons.mp hq with rfl | hq
  · exact h.mayLand
  · rw [List.mem_singleton.mp hq]
    exact mayLand_seq_nil

theorem Lands.many (h : Lands rules text E p) :
  MayLand rules text E (.many p)
  := by
  intro c c' ts hc hreads
  generalize hq : Peg.many p = q at hreads
  induction hreads with
  | manyNil => apply Or.inl ⟨rfl, rfl⟩
  | manyCons hone hrest _ ih =>
    cases hq
    rcases ih (hone.at hc) rfl with ⟨rfl, hpos⟩ | hends
    · rw [List.append_nil, hpos]
      apply Or.inr (h hc hone)
    · apply Or.inr (hends.append _)
  | _ => cases hq

end Landing

/-! ### Which trees a reading has -/

section Kinds

variable {σ : Type}

mutual

/-- The kinds of the trees that an expression builds are among some kinds, and it refers to some
rules only. -/
def Peg.Makes (K : Kind → Prop) (S : σ → Prop) : Peg σ → Prop
  | .leaf kind _ => K kind
  | .rawLeaf kind _ => K kind
  | .skip _ => True
  | .check _ => True
  | .within _ p => p.Makes K S
  | .seq ps => Peg.MakesOf K S ps
  | .alt ps => Peg.MakesOf K S ps
  | .many p => p.Makes K S
  | .absent _ => True
  | .node kind p => K kind ∧ p.Makes K S
  | .role _ p => p.Makes K S
  | .grow head steps => head.Makes K S ∧ Step.MakesOf K S steps
  | .rule name => S name

/-- The same for some expressions. -/
def Peg.MakesOf (K : Kind → Prop) (S : σ → Prop) : List (Peg σ) → Prop
  | [] => True
  | p :: ps => p.Makes K S ∧ Peg.MakesOf K S ps

/-- The same for the kinds and the tails of some steps. -/
def Step.MakesOf (K : Kind → Prop) (S : σ → Prop) : List (Step σ) → Prop
  | [] => True
  | .mk _ kind _ tail :: steps => (K kind ∧ tail.Makes K S) ∧ Step.MakesOf K S steps

end

variable {rules : σ → Peg σ} {K : Kind → Prop} {S : σ → Prop}

theorem Peg.MakesOf.mem {ps : List (Peg σ)} (h : Peg.MakesOf K S ps) {p : Peg σ} (hp : p ∈ ps) :
  p.Makes K S
  := by
  induction ps with
  | nil => cases hp
  | cons q qs ih =>
    rcases List.mem_cons.mp hp with rfl | hp
    · apply h.1
    · apply ih h.2 hp

theorem Step.MakesOf.mem {steps : List (Step σ)} (h : Step.MakesOf K S steps)
    {base : Kind → Bool} {kind : Kind} {role : Option Role} {tail : Peg σ}
    (hmem : .mk base kind role tail ∈ steps) :
  K kind ∧ tail.Makes K S
  := by
  induction steps with
  | nil => cases hmem
  | cons step steps ih =>
    obtain ⟨base', kind', role', tail'⟩ := step
    rcases List.mem_cons.mp hmem with heq | hmem
    · cases heq
      apply h.1
    · apply ih h.2 hmem

/-- All trees in some trees are of some kinds. -/
def AllOfKind (K : Kind → Prop) (ts : List Tree) : Prop :=
  ∀ t ∈ ts, ∀ u, Part u t → K u.kind

theorem AllOfKind.append {ts us : List Tree} (ht : AllOfKind K ts) (hu : AllOfKind K us) :
  AllOfKind K (ts ++ us)
  := List.forall_mem_append.mpr ⟨ht, hu⟩

theorem allOfKind_nil :
  AllOfKind K []
  := by
  intro t ht
  cases ht

/-- A tree over trees of some kinds. -/
theorem AllOfKind.over {ts : List Tree} (h : AllOfKind K ts) {kind : Kind} (hkind : K kind)
    (role : Option Role) (start stop : Nat) :
  AllOfKind K [.node kind role start stop ts]
  := by
  intro u hu
  rw [List.mem_singleton.mp hu]
  exact forall_part hkind h

theorem AllOfKind.sameButRole {u t : Tree} (hsame : SameButRole u t) (h : AllOfKind K [t]) :
  AllOfKind K [u]
  := by
  have ht := h t (List.mem_singleton_self t)
  intro v hv w hw
  obtain rfl := List.mem_singleton.mp hv
  rcases hw with rfl | hw
  · rw [hsame.kind]
    apply ht t (.refl t)
  · apply ht w (.inr (hsame.below hw))

theorem AllOfKind.enclose {ts : List Tree} {kind : Kind} (h : AllOfKind K ts) (hkind : K kind) :
  AllOfKind K (enclose kind ts)
  := forall_mem_enclose h fun _ _ hinner => forall_part hkind hinner

theorem allOfKind_trivia (hcomment : K .comment) (limit : Nat) (c : Cursor) :
  AllOfKind K (trivia limit c).1
  := by
  apply forall_mem_trivia
  intro c n
  exact forall_part (t := c.leaf .comment n) hcomment allOfKind_nil

/-- The trees that an expression yields are of the kinds that it builds, or comments. -/
theorem Reads.allOfKind (hcomment : K .comment)
    (hrules : ∀ name, S name → (rules name).Makes K S) {p : Peg σ} {c c' : Cursor}
    {ts : List Tree} (h : Reads rules p c ts c') (hp : p.Makes K S) :
  AllOfKind K ts
  := by
  induction h with
  | @leaf _ _ c c' comments limit n ht _ =>
    have htrivia := allOfKind_trivia hcomment limit c
    rw [ht] at htrivia
    rw [Peg.Makes] at hp
    exact htrivia.append (allOfKind_nil.over hp none _ _)
  | rawLeaf _ =>
    rw [Peg.Makes] at hp
    exact allOfKind_nil.over hp none _ _
  | within _ ih =>
    rw [Peg.Makes] at hp
    exact ih hp
  | seqCons _ _ ih ihs =>
    simp only [Peg.Makes, Peg.MakesOf] at hp ihs
    exact (ih hp.1).append (ihs hp.2)
  | alt hmem _ ih =>
    rw [Peg.Makes] at hp
    exact ih (hp.mem hmem)
  | manyCons _ _ ih ihs =>
    simp only [Peg.Makes] at hp ihs
    exact (ih hp).append (ihs hp)
  | node _ ih =>
    rw [Peg.Makes] at hp
    exact (ih hp.2).enclose hp.1
  | role _ ih =>
    rw [Peg.Makes] at hp
    intro u hu
    obtain ⟨t, ht, rfl⟩ := List.mem_map.mp hu
    have hone : AllOfKind K [t] := by
      intro v hv
      rw [List.mem_singleton.mp hv]
      apply ih hp t ht
    apply hone.sameButRole (sameButRole_assign _ t) _ (List.mem_singleton_self _)
  | growHead _ ih =>
    rw [Peg.Makes] at hp
    exact ih hp.1
  | @growStep _ _ _ _ _ role _ _ _ t ts us _ hstep _ _ ih iht =>
    have hhead := ih hp
    rw [Peg.Makes] at hp
    obtain ⟨hkind, htail⟩ := hp.2.mem hstep
    have hfront : AllOfKind K ts := fun v hv => hhead v (List.mem_append_left [t] hv)
    have hlast : AllOfKind K [t] := fun v hv => hhead v (List.mem_append_right ts hv)
    have hgrown := (hlast.sameButRole (sameButRole_grownFrom t role)).append (iht htail)
    exact hfront.append (hgrown.over hkind none _ _)
  | rule _ ih =>
    rw [Peg.Makes] at hp
    exact ih (hrules _ hp)
  | _ => exact allOfKind_nil

end Kinds

end Grammar

end Codemod
