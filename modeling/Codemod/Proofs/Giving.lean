import Codemod.Proofs.Reading

/-!
# What an expression gives

The relation `Gives` says what comes of an expression at a place: some trees and the place behind
them, or nothing. In distinction to `Reads` it also says when an expression is refused, so one thing
only comes of an expression, and in distinction to a run it knows no fuel.
-/

namespace Codemod.Grammar

/-! ### The next token -/

/-- White space and some comments stand between two places. -/
inductive Passes : Cursor → List Tree → Cursor → Prop where
  | refl (c : Cursor) : Passes c [] c
  | blank {c c' : Cursor} {x : Char} {xs : List Char} {ts : List Tree} (hrest : c.rest = x :: xs)
      (hx : Text.isTokenSpace x = true) (h : Passes (c.advance 1) ts c') :
    Passes c ts c'
  | comment {c c' : Cursor} {n : Nat} {ts : List Tree} (hn : commentLength c.rest = n + 1)
      (h : Passes (c.advance (n + 1)) ts c') :
    Passes c (c.leaf .comment (n + 1) :: ts) c'

/-- A place at which neither white space nor a comment stands. -/
structure Cursor.Settled (c : Cursor) : Prop where
  noComment : commentLength c.rest = 0
  noBlank : ∀ x ∈ c.rest.head?, Text.isTokenSpace x = false

theorem commentLength_of_ne {x : Char} (h : x ≠ '/') (xs : List Char) :
  commentLength (x :: xs) = 0
  := by
  rw [commentLength.eq_def]
  split
  · rename_i heq
    cases heq
    exact absurd rfl h
  · rename_i heq
    cases heq
    exact absurd rfl h
  · rfl

/-- A comment starts with a slash, which is no white space. -/
theorem exists_of_commentLength {cs : List Char} {n : Nat} (h : commentLength cs = n + 1) :
  ∃ xs, cs = '/' :: xs
  := by
  cases cs with
  | nil => cases h
  | cons x xs =>
    by_cases hx : x = '/'
    · exact ⟨xs, by rw [hx]⟩
    · rw [commentLength_of_ne hx] at h
      cases h

theorem passes_trivia (limit : Nat) (c : Cursor) :
  Passes c (trivia limit c).1 (trivia limit c).2
  := by
  induction limit generalizing c with
  | zero => apply Passes.refl
  | succ limit ih =>
    rw [trivia]
    split
    · apply Passes.refl
    · rename_i x xs hrest
      split
      next hx => apply Passes.blank hrest hx (ih _)
      next =>
        split
        · split
          · apply Passes.refl
          · rename_i n hn
            apply Passes.comment hn (ih _)
        · apply Passes.refl

theorem length_advance_lt {c : Cursor} (h : c.rest ≠ []) (n : Nat) :
  (c.advance (n + 1)).rest.length < c.rest.length
  := by
  have := List.length_pos_of_ne_nil h
  simp only [Cursor.advance, List.length_drop]
  omega

/-- All white space and comments are passed when as many steps are allowed as there are
characters. -/
theorem settled_trivia {limit : Nat} {c : Cursor} (h : c.rest.length ≤ limit) :
  (trivia limit c).2.Settled
  := by
  induction limit generalizing c with
  | zero =>
    have hrest := List.eq_nil_of_length_eq_zero (Nat.le_zero.mp h)
    constructor <;> simp [trivia, hrest, commentLength]
  | succ limit ih =>
    rw [trivia]
    split
    · rename_i hrest
      constructor <;> simp [hrest, commentLength]
    · rename_i x xs hrest
      have hne : c.rest ≠ [] := by simp [hrest]
      split
      next hx =>
        apply ih
        have : (c.advance 1).rest.length < c.rest.length := length_advance_lt hne 0
        omega
      next hx =>
        have hblank : ∀ y ∈ c.rest.head?, Text.isTokenSpace y = false := by
          simpa [hrest] using hx
        split
        · split
          next hn => exact ⟨hn, hblank⟩
          next n hn =>
            apply ih
            have := length_advance_lt hne n
            omega
        next hslash =>
          refine ⟨?_, hblank⟩
          rw [hrest]
          apply commentLength_of_ne hslash

/-- What stands before the next token is determined. -/
theorem Passes.unique {c d d' : Cursor} {ts ts' : List Tree} (h : Passes c ts d)
    (h' : Passes c ts' d') (hd : d.Settled) (hd' : d'.Settled) :
  ts = ts' ∧ d = d'
  := by
  induction h generalizing ts' with
  | refl c =>
    cases h' with
    | refl => exact ⟨rfl, rfl⟩
    | blank hrest hx _ =>
      have := hd.noBlank _ (by rw [hrest]; rfl)
      simp [hx] at this
    | comment hn _ =>
      rw [hd.noComment] at hn
      cases hn
  | blank hrest hx h ih =>
    cases h' with
    | refl =>
      have := hd'.noBlank _ (by rw [hrest]; rfl)
      simp [hx] at this
    | blank _ _ h' => apply ih h' hd
    | comment hn _ =>
      obtain ⟨ys, hys⟩ := exists_of_commentLength hn
      cases hrest.symm.trans hys
      cases hx
  | comment hn h ih =>
    cases h' with
    | refl =>
      rw [hd'.noComment] at hn
      cases hn
    | blank hrest hx _ =>
      obtain ⟨ys, hys⟩ := exists_of_commentLength hn
      cases hrest.symm.trans hys
      cases hx
    | comment hn' h' =>
      cases hn.symm.trans hn'
      obtain ⟨rfl, rfl⟩ := ih h' hd
      exact ⟨rfl, rfl⟩

theorem Passes.reaches {c d : Cursor} {ts : List Tree} (h : Passes c ts d) :
  c.Reaches d
  := by
  induction h with
  | refl c => apply Cursor.Reaches.refl
  | blank _ _ _ ih => apply (Cursor.reaches_advance _ _).trans ih
  | comment _ _ ih => apply (Cursor.reaches_advance _ _).trans ih

namespace Cursor

variable {c d : Cursor} {ts : List Tree}

/-- The place of the next token, behind white space and comments. -/
def next (c : Cursor) : Cursor := (trivia c.rest.length c).2

/-- The comments that stand before the next token. -/
def comments (c : Cursor) : List Tree := (trivia c.rest.length c).1

theorem passes_next (c : Cursor) :
  Passes c c.comments c.next
  := passes_trivia _ c

theorem settled_next (c : Cursor) :
  c.next.Settled
  := settled_trivia (Nat.le_refl _)

theorem next_eq (h : Passes c ts d) (hd : d.Settled) :
  c.comments = ts ∧ c.next = d
  := c.passes_next.unique h c.settled_next hd

theorem trivia_of_le {limit : Nat} (h : c.rest.length ≤ limit) :
  trivia limit c = (c.comments, c.next)
  := by
  obtain ⟨hcomments, hnext⟩ := next_eq (passes_trivia limit c) (settled_trivia h)
  rw [hcomments, hnext]

theorem Reaches.length_le (h : c.Reaches d) :
  d.rest.length ≤ c.rest.length
  := by
  obtain ⟨s, hs, -⟩ := h
  simp [hs]

end Cursor

/-! ### The relation -/

/-- What is asked of a grammar at a place. -/
inductive Task (σ : Type) where
  /-- To read an expression. -/
  | read (p : Peg σ)
  /-- To grow a tree by the first step that applies. -/
  | first (t : Tree) (steps : List (Step σ))
  /-- To grow the last of some trees as long as a step applies. -/
  | on (ts : List Tree) (steps : List (Step σ))

/-- What comes of a task at a place: trees and the place behind them, or nothing. -/
inductive Gives {σ : Type} (rules : σ → Peg σ) :
    Task σ → Cursor → Option (List Tree × Cursor) → Prop where
  | leaf {kind : Kind} {scan : List Char → Nat} {c : Cursor} {n : Nat}
      (hs : scan c.next.rest = n + 1) :
    Gives rules (.read (.leaf kind scan)) c
      (some (c.comments ++ [c.next.leaf kind (n + 1)], c.next.advance (n + 1)))
  | noLeaf {kind : Kind} {scan : List Char → Nat} {c : Cursor} (hs : scan c.next.rest = 0) :
    Gives rules (.read (.leaf kind scan)) c none
  | rawLeaf {kind : Kind} {scan : List Char → Nat} {c : Cursor} {n : Nat}
      (hs : scan c.rest = n + 1) :
    Gives rules (.read (.rawLeaf kind scan)) c (some ([c.leaf kind (n + 1)], c.advance (n + 1)))
  | noRawLeaf {kind : Kind} {scan : List Char → Nat} {c : Cursor} (hs : scan c.rest = 0) :
    Gives rules (.read (.rawLeaf kind scan)) c none
  | skip {scan : List Char → Nat} {c : Cursor} :
    Gives rules (.read (.skip scan)) c (some ([], c.advance (scan c.rest)))
  | check {test : Bool → List Char → Bool} {c : Cursor} (h : test c.enclosed c.rest = true) :
    Gives rules (.read (.check test)) c (some ([], c))
  | noCheck {test : Bool → List Char → Bool} {c : Cursor} (h : test c.enclosed c.rest = false) :
    Gives rules (.read (.check test)) c none
  | within {enclosed : Bool} {p : Peg σ} {c c' : Cursor} {ts : List Tree}
      (h : Gives rules (.read p) { c with enclosed } (some (ts, c'))) :
    Gives rules (.read (.within enclosed p)) c (some (ts, { c' with enclosed := c.enclosed }))
  | noWithin {enclosed : Bool} {p : Peg σ} {c : Cursor}
      (h : Gives rules (.read p) { c with enclosed } none) :
    Gives rules (.read (.within enclosed p)) c none
  | seqNil {c : Cursor} :
    Gives rules (.read (.seq [])) c (some ([], c))
  | seqCons {p : Peg σ} {ps : List (Peg σ)} {c c' c'' : Cursor} {ts us : List Tree}
      (h : Gives rules (.read p) c (some (ts, c')))
      (hs : Gives rules (.read (.seq ps)) c' (some (us, c''))) :
    Gives rules (.read (.seq (p :: ps))) c (some (ts ++ us, c''))
  | noSeq {p : Peg σ} {ps : List (Peg σ)} {c : Cursor} (h : Gives rules (.read p) c none) :
    Gives rules (.read (.seq (p :: ps))) c none
  | noSeqTail {p : Peg σ} {ps : List (Peg σ)} {c c' : Cursor} {ts : List Tree}
      (h : Gives rules (.read p) c (some (ts, c'))) (hs : Gives rules (.read (.seq ps)) c' none) :
    Gives rules (.read (.seq (p :: ps))) c none
  | altNil {c : Cursor} :
    Gives rules (.read (.alt [])) c none
  | altHead {p : Peg σ} {ps : List (Peg σ)} {c c' : Cursor} {ts : List Tree}
      (h : Gives rules (.read p) c (some (ts, c'))) :
    Gives rules (.read (.alt (p :: ps))) c (some (ts, c'))
  | altTail {p : Peg σ} {ps : List (Peg σ)} {c : Cursor} {o : Option (List Tree × Cursor)}
      (h : Gives rules (.read p) c none) (hs : Gives rules (.read (.alt ps)) c o) :
    Gives rules (.read (.alt (p :: ps))) c o
  | manyStop {p : Peg σ} {c : Cursor} (h : Gives rules (.read p) c none) :
    Gives rules (.read (.many p)) c (some ([], c))
  | manyStay {p : Peg σ} {c c' : Cursor} {ts : List Tree}
      (h : Gives rules (.read p) c (some (ts, c'))) (hpos : c'.pos = c.pos) :
    Gives rules (.read (.many p)) c (some (ts, c'))
  | manyMore {p : Peg σ} {c c' c'' : Cursor} {ts us : List Tree}
      (h : Gives rules (.read p) c (some (ts, c'))) (hpos : c'.pos ≠ c.pos)
      (hs : Gives rules (.read (.many p)) c' (some (us, c''))) :
    Gives rules (.read (.many p)) c (some (ts ++ us, c''))
  | absent {p : Peg σ} {c : Cursor} (h : Gives rules (.read p) c none) :
    Gives rules (.read (.absent p)) c (some ([], c))
  | noAbsent {p : Peg σ} {c c' : Cursor} {ts : List Tree}
      (h : Gives rules (.read p) c (some (ts, c'))) :
    Gives rules (.read (.absent p)) c none
  | node {kind : Kind} {p : Peg σ} {c c' : Cursor} {ts : List Tree}
      (h : Gives rules (.read p) c (some (ts, c'))) :
    Gives rules (.read (.node kind p)) c (some (enclose kind ts, c'))
  | noNode {kind : Kind} {p : Peg σ} {c : Cursor} (h : Gives rules (.read p) c none) :
    Gives rules (.read (.node kind p)) c none
  | role {role : Role} {p : Peg σ} {c c' : Cursor} {ts : List Tree}
      (h : Gives rules (.read p) c (some (ts, c'))) :
    Gives rules (.read (.role role p)) c (some (assign role ts, c'))
  | noRole {role : Role} {p : Peg σ} {c : Cursor} (h : Gives rules (.read p) c none) :
    Gives rules (.read (.role role p)) c none
  | grow {head : Peg σ} {steps : List (Step σ)} {c c' : Cursor} {ts : List Tree}
      {o : Option (List Tree × Cursor)} (h : Gives rules (.read head) c (some (ts, c')))
      (hs : Gives rules (.on ts steps) c' o) :
    Gives rules (.read (.grow head steps)) c o
  | noGrow {head : Peg σ} {steps : List (Step σ)} {c : Cursor}
      (h : Gives rules (.read head) c none) :
    Gives rules (.read (.grow head steps)) c none
  | rule {name : σ} {c : Cursor} {o : Option (List Tree × Cursor)}
      (h : Gives rules (.read (rules name)) c o) :
    Gives rules (.read (.rule name)) c o
  | firstNil {t : Tree} {c : Cursor} :
    Gives rules (.first t []) c none
  | firstOther {base : Kind → Bool} {kind : Kind} {role : Option Role} {tail : Peg σ}
      {steps : List (Step σ)} {t : Tree} {c : Cursor} {o : Option (List Tree × Cursor)}
      (hbase : base t.kind = false) (h : Gives rules (.first t steps) c o) :
    Gives rules (.first t (.mk base kind role tail :: steps)) c o
  | firstRefused {base : Kind → Bool} {kind : Kind} {role : Option Role} {tail : Peg σ}
      {steps : List (Step σ)} {t : Tree} {c : Cursor} {o : Option (List Tree × Cursor)}
      (hbase : base t.kind = true) (ht : Gives rules (.read tail) c none)
      (h : Gives rules (.first t steps) c o) :
    Gives rules (.first t (.mk base kind role tail :: steps)) c o
  | firstTaken {base : Kind → Bool} {kind : Kind} {role : Option Role} {tail : Peg σ}
      {steps : List (Step σ)} {t : Tree} {c c' : Cursor} {us : List Tree}
      (hbase : base t.kind = true) (ht : Gives rules (.read tail) c (some (us, c'))) :
    Gives rules (.first t (.mk base kind role tail :: steps)) c
      (some ([grown kind role t us], c'))
  | onNil {steps : List (Step σ)} {c : Cursor} :
    Gives rules (.on [] steps) c (some ([], c))
  | onStop {steps : List (Step σ)} {c : Cursor} {t : Tree} {ts : List Tree}
      (hlast : ts.getLast? = some t) (h : Gives rules (.first t steps) c none) :
    Gives rules (.on ts steps) c (some (ts, c))
  | onStep {steps : List (Step σ)} {c c' : Cursor} {t : Tree} {ts us : List Tree}
      {o : Option (List Tree × Cursor)} (hlast : ts.getLast? = some t)
      (h : Gives rules (.first t steps) c (some (us, c')))
      (hs : Gives rules (.on (ts.dropLast ++ us) steps) c' o) :
    Gives rules (.on ts steps) c o

variable {σ : Type} {rules : σ → Peg σ}

/-- One thing only comes of a task at a place. -/
theorem Gives.unique {task : Task σ} {c : Cursor} {o o' : Option (List Tree × Cursor)}
    (h : Gives rules task c o) (h' : Gives rules task c o') :
  o = o'
  := by
  induction h generalizing o' with
  | leaf hs => cases h' <;> simp_all
  | noLeaf hs => cases h' <;> simp_all
  | rawLeaf hs => cases h' <;> simp_all
  | noRawLeaf hs => cases h' <;> simp_all
  | skip => cases h'; rfl
  | check h => cases h' <;> simp_all
  | noCheck h => cases h' <;> simp_all
  | within h ih =>
    cases h' with
    | within h' => cases ih h'; rfl
    | noWithin h' => cases ih h'
  | noWithin h ih =>
    cases h' with
    | within h' => cases ih h'
    | noWithin h' => rfl
  | seqNil => cases h'; rfl
  | seqCons h hs ih ihs =>
    cases h' with
    | seqCons h' hs' => cases ih h'; cases ihs hs'; rfl
    | noSeq h' => cases ih h'
    | noSeqTail h' hs' => cases ih h'; cases ihs hs'
  | noSeq h ih =>
    cases h' with
    | seqCons h' hs' => cases ih h'
    | noSeq h' => rfl
    | noSeqTail h' hs' => rfl
  | noSeqTail h hs ih ihs =>
    cases h' with
    | seqCons h' hs' => cases ih h'; cases ihs hs'
    | noSeq h' => rfl
    | noSeqTail h' hs' => rfl
  | altNil => cases h'; rfl
  | altHead h ih =>
    cases h' with
    | altHead h' => apply ih h'
    | altTail h' hs' => cases ih h'
  | altTail h hs ih ihs =>
    cases h' with
    | altHead h' => cases ih h'
    | altTail h' hs' => apply ihs hs'
  | manyStop h ih =>
    cases h' with
    | manyStop h' => rfl
    | manyStay h' hpos' => cases ih h'
    | manyMore h' hpos' hs' => cases ih h'
  | manyStay h hpos ih =>
    cases h' with
    | manyStop h' => cases ih h'
    | manyStay h' hpos' => apply ih h'
    | manyMore h' hpos' hs' => cases ih h'; exact absurd hpos hpos'
  | manyMore h hpos hs ih ihs =>
    cases h' with
    | manyStop h' => cases ih h'
    | manyStay h' hpos' => cases ih h'; exact absurd hpos' hpos
    | manyMore h' hpos' hs' => cases ih h'; cases ihs hs'; rfl
  | absent h ih =>
    cases h' with
    | absent h' => rfl
    | noAbsent h' => cases ih h'
  | noAbsent h ih =>
    cases h' with
    | absent h' => cases ih h'
    | noAbsent h' => rfl
  | node h ih =>
    cases h' with
    | node h' => cases ih h'; rfl
    | noNode h' => cases ih h'
  | noNode h ih =>
    cases h' with
    | node h' => cases ih h'
    | noNode h' => rfl
  | role h ih =>
    cases h' with
    | role h' => cases ih h'; rfl
    | noRole h' => cases ih h'
  | noRole h ih =>
    cases h' with
    | role h' => cases ih h'
    | noRole h' => rfl
  | grow h hs ih ihs =>
    cases h' with
    | grow h' hs' => cases ih h'; apply ihs hs'
    | noGrow h' => cases ih h'
  | noGrow h ih =>
    cases h' with
    | grow h' hs' => cases ih h'
    | noGrow h' => rfl
  | rule h ih => cases h' with | rule h' => apply ih h'
  | firstNil => cases h'; rfl
  | firstOther hbase h ih =>
    cases h' with
    | firstOther hbase' h' => apply ih h'
    | firstRefused hbase' ht' h' => simp_all
    | firstTaken hbase' ht' => simp_all
  | firstRefused hbase ht h iht ih =>
    cases h' with
    | firstOther hbase' h' => simp_all
    | firstRefused hbase' ht' h' => apply ih h'
    | firstTaken hbase' ht' => cases iht ht'
  | firstTaken hbase ht iht =>
    cases h' with
    | firstOther hbase' h' => simp_all
    | firstRefused hbase' ht' h' => cases iht ht'
    | firstTaken hbase' ht' => cases iht ht'; rfl
  | onNil => cases h' <;> simp_all
  | onStop hlast h ih =>
    cases h' with
    | onNil => cases hlast
    | onStop hlast' h' => rfl
    | onStep hlast' h' hs' =>
      obtain rfl := Option.some.inj (hlast.symm.trans hlast')
      cases ih h'
  | onStep hlast h hs ih ihs =>
    cases h' with
    | onNil => cases hlast
    | onStop hlast' h' =>
      obtain rfl := Option.some.inj (hlast.symm.trans hlast')
      cases ih h'
    | onStep hlast' h' hs' =>
      obtain rfl := Option.some.inj (hlast.symm.trans hlast')
      cases ih h'
      apply ihs hs'

end Codemod.Grammar
