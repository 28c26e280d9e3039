import Codemod.Text.Blank
import Codemod.Tree.Basic

/-!
# Parsing expression grammars that build trees

A grammar gives an expression for each of its names. An expression reads a beginning of what is
left of a text and yields the trees of what it has read, or refuses. White space and comments may
stand before every token. A comment becomes a child of the innermost node that has begun before it
and ends after it, so a node never starts or ends with a comment that an expression has skipped.

Left recursion is written with `Peg.grow`: a head is read first, and then, as long as one of the
steps applies, the tree read so far becomes the first child of a larger one.
-/

namespace Codemod.Grammar

/-- A place in a text: what is left to read, and the number of bytes already read. -/
structure Cursor where
  rest : List Char
  pos : Nat
  /-- Whether a bracket is open since the innermost statement began. -/
  enclosed : Bool

/-- The first place in a text. -/
def Cursor.start (text : List Char) : Cursor := ⟨text, 0, false⟩

/-- The place `n` characters further on. -/
def Cursor.advance (c : Cursor) (n : Nat) : Cursor :=
  ⟨c.rest.drop n, c.pos + Text.byteLength (c.rest.take n), c.enclosed⟩

mutual

/-- Expressions over the rule names `σ`. A `scan` gives the number of characters that a token
takes, where zero means that there is no such token. -/
inductive Peg (σ : Type) where
  /-- A token, after white space and comments. -/
  | leaf (kind : Kind) (scan : List Char → Nat)
  /-- A token that has to stand right here. -/
  | rawLeaf (kind : Kind) (scan : List Char → Nat)
  /-- Characters that leave no trace in the tree. -/
  | skip (scan : List Char → Nat)
  /-- A condition on whether a bracket is open here and on what is left. -/
  | check (test : Bool → List Char → Bool)
  /-- The body, read as enclosed in brackets or not. -/
  | within (enclosed : Bool) (body : Peg σ)
  /-- All parts, one after the other. -/
  | seq (parts : List (Peg σ))
  /-- The first of the choices that can be read. -/
  | alt (choices : List (Peg σ))
  /-- The body as often as it can be read. -/
  | many (body : Peg σ)
  /-- Nothing, provided that the body cannot be read here. -/
  | absent (body : Peg σ)
  /-- The trees of the body as the children of a new node. -/
  | node (kind : Kind) (body : Peg σ)
  /-- The trees of the body in a role. -/
  | role (role : Role) (body : Peg σ)
  /-- A head that grows to the left of the steps. -/
  | grow (head : Peg σ) (steps : List (Step σ))
  /-- The expression of a rule. -/
  | rule (name : σ)

/-- A way to grow a tree whose kind is admitted: the tree takes its role and the trees of the tail
follow it in a new node. -/
inductive Step (σ : Type) where
  | mk (base : Kind → Bool) (kind : Kind) (role : Option Role) (tail : Peg σ)

end

/-- What comes of reading an expression. The reach is the furthest offset at which a token was
refused on the way. -/
inductive Outcome where
  | fail (reach : Nat)
  | done (trees : List Tree) (cursor : Cursor) (reach : Nat)

/-! ### Comments -/

/-- The number of characters up to the end of a line. -/
def lineLength : List Char → Nat
  | [] => 0
  | c :: cs =>
    if c = '\n' || c = '\r' || c.val = 0x2028 || c.val = 0x2029 then 0 else lineLength cs + 1

/-- The number of characters up to and including the end mark of a block comment. -/
def blockLength? : List Char → Option Nat
  | [] => none
  | c :: cs =>
    if c = '*' && cs.head? = some '/' then some 2 else (blockLength? cs).map (· + 1)

/-- The number of characters of the comment that a text starts with. -/
def commentLength : List Char → Nat
  | '/' :: '/' :: cs => lineLength cs + 2
  | '/' :: '*' :: cs => ((blockLength? cs).map (· + 2)).getD 0
  | _ => 0

/-- The leaf of the next `n` characters. -/
def Cursor.leaf (c : Cursor) (kind : Kind) (n : Nat) : Tree :=
  .node kind none c.pos (c.advance n).pos []

/-- The comments that stand before the next token, and the place of that token. At most `limit`
blanks and comments are passed. -/
def trivia : (limit : Nat) → Cursor → List Tree × Cursor
  | 0, c => ([], c)
  | limit + 1, c =>
    match c.rest with
    | [] => ([], c)
    | x :: _ =>
      if Text.isTokenSpace x then
        trivia limit (c.advance 1)
      else if x = '/' then
        match commentLength c.rest with
        | 0 => ([], c)
        | n + 1 =>
          let (comments, c') := trivia limit (c.advance (n + 1))
          (c.leaf .comment (n + 1) :: comments, c')
      else ([], c)

/-! ### Running an expression -/

/-- A token right at a place. -/
def Cursor.token (c : Cursor) (kind : Kind) (scan : List Char → Nat) : Outcome :=
  match scan c.rest with
  | 0 => .fail c.pos
  | n + 1 => .done [c.leaf kind (n + 1)] (c.advance (n + 1)) 0

/-- An outcome with further trees in front. -/
def Outcome.after (trees : List Tree) (reach : Nat) : Outcome → Outcome
  | .fail r => .fail (max reach r)
  | .done ts c r => .done (trees ++ ts) c (max reach r)

/-- The offset at which a row of trees ends. -/
def stopOf (default : Nat) (ts : List Tree) : Nat :=
  ts.foldl (fun _ t => t.stop) default

/-- A node around a row of trees. Comments at the front stay outside. -/
def enclose (kind : Kind) (ts : List Tree) : List Tree :=
  let isComment : Tree → Bool := fun t => t.kind = .comment
  match ts.dropWhile isComment with
  | [] => ts
  | t :: inner =>
    ts.takeWhile isComment ++ [.node kind none t.start (stopOf t.stop inner) (t :: inner)]

/-- A row of trees in a role, comments apart. -/
def assign (role : Role) (ts : List Tree) : List Tree :=
  ts.map fun t => if t.kind = .comment then t else t.withRole role

/-- All parts, one after the other. -/
def inTurn {σ : Type} (read : Peg σ → Cursor → Outcome) : List (Peg σ) → Cursor → Outcome
  | [], c => .done [] c 0
  | p :: ps, c =>
    match read p c with
    | .fail r => .fail r
    | .done ts c' r => (inTurn read ps c').after ts r

/-- The first choice that can be read. -/
def firstOf {σ : Type} (read : Peg σ → Cursor → Outcome) : List (Peg σ) → Cursor → Outcome
  | [], c => .fail c.pos
  | p :: ps, c =>
    match read p c with
    | .done ts c' r => .done ts c' r
    | .fail r =>
      match firstOf read ps c with
      | .fail r' => .fail (max r r')
      | .done ts c' r' => .done ts c' (max r r')

/-- One expression as often as it can be read, at most `limit` times. -/
def repeated (read : Cursor → Outcome) : (limit : Nat) → Cursor → Outcome
  | 0, c => .done [] c 0
  | limit + 1, c =>
    match read c with
    | .fail r => .done [] c r
    | .done ts c' r =>
      if c'.pos = c.pos then .done ts c' r else (repeated read limit c').after ts r

/-- A tree grown by one step. -/
def growBy {σ : Type} (read : Peg σ → Cursor → Outcome) (t : Tree) : Step σ → Cursor → Outcome
  | .mk base kind role tail, c =>
    if base t.kind then
      match read tail c with
      | .fail r => .fail r
      | .done ts c' r =>
        let t' := (role.map fun r => t.withRole r).getD t
        .done [.node kind none t.start (stopOf t.stop ts) (t' :: ts)] c' r
    else .fail c.pos

/-- A tree grown by the first step that applies to it. -/
def growByFirst {σ : Type} (read : Peg σ → Cursor → Outcome) (t : Tree) :
    List (Step σ) → Cursor → Outcome
  | [], c => .fail c.pos
  | step :: steps, c =>
    match growBy read t step c with
    | .done ts c' r => .done ts c' r
    | .fail r =>
      match growByFirst read t steps c with
      | .fail r' => .fail (max r r')
      | .done ts c' r' => .done ts c' (max r r')

/-- The last of some trees grown by the steps as long as one of them applies, at most `limit`
times. -/
def growing {σ : Type} (read : Peg σ → Cursor → Outcome) (steps : List (Step σ)) :
    (limit : Nat) → List Tree → Cursor → Nat → Outcome
  | 0, ts, c, r => .done ts c r
  | limit + 1, ts, c, r =>
    match ts.getLast? with
    | none => .done ts c r
    | some t =>
      match growByFirst read t steps c with
      | .fail r' => .done ts c (max r r')
      | .done ts' c' r' => growing read steps limit (ts.dropLast ++ ts') c' (max r r')

/-- Reads an expression with the rules of a grammar. The fuel bounds how deep expressions nest. -/
def run {σ : Type} (rules : σ → Peg σ) : (fuel : Nat) → Peg σ → Cursor → Outcome
  | 0, _, c => .fail c.pos
  | fuel + 1, p, c =>
    match p with
    | .leaf kind scan =>
      let (comments, c') := trivia fuel c
      (c'.token kind scan).after comments 0
    | .rawLeaf kind scan => c.token kind scan
    | .skip scan => .done [] (c.advance (scan c.rest)) 0
    | .check test => if test c.enclosed c.rest then .done [] c 0 else .fail c.pos
    | .within enclosed p =>
      match run rules fuel p { c with enclosed } with
      | .fail r => .fail r
      | .done ts c' r => .done ts { c' with enclosed := c.enclosed } r
    | .seq ps => inTurn (run rules fuel) ps c
    | .alt ps => firstOf (run rules fuel) ps c
    | .many p => repeated (run rules fuel p) fuel c
    | .absent p =>
      match run rules fuel p c with
      | .fail _ => .done [] c 0
      | .done _ _ _ => .fail c.pos
    | .node kind p =>
      match run rules fuel p c with
      | .fail r => .fail r
      | .done ts c' r => .done (enclose kind ts) c' r
    | .role role p =>
      match run rules fuel p c with
      | .fail r => .fail r
      | .done ts c' r => .done (assign role ts) c' r
    | .grow head steps =>
      match run rules fuel head c with
      | .fail r => .fail r
      | .done ts c' r => growing (run rules fuel) steps fuel ts c' r
    | .rule name => run rules fuel (rules name) c

namespace Peg

variable {σ : Type}

/-- The body, or nothing. -/
def opt (p : Peg σ) : Peg σ := .alt [p, .seq []]

/-- Nothing, provided that the body can be read here. -/
def ahead (p : Peg σ) : Peg σ := .absent (.absent p)

end Peg

end Codemod.Grammar
