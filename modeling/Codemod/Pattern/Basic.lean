import Codemod.Text.Blank
import Codemod.Text.Word

/-!
# Patterns

A pattern is a regular expression with anchors and word edges. What a pattern can read at a spot of
a text is given as the list of the spots where a match can end, the preferred end first: choices
are tried from left to right, and a greedy repetition tries more rounds before fewer.
-/

namespace Codemod

/-- A regular expression. -/
inductive Pattern where
  /-- The empty text. -/
  | empty
  /-- One character of a set. -/
  | one (test : Char → Bool)
  /-- One pattern after the other. -/
  | cat (first second : Pattern)
  /-- One pattern or the other. -/
  | alt (first second : Pattern)
  /-- A pattern several times, without an upper limit when `most` is absent. -/
  | times (body : Pattern) (least : Nat) (most : Option Nat) (greedy : Bool)
  /-- The beginning of the text. -/
  | atStart
  /-- The end of the text, or the place before a line break that ends it. -/
  | atEnd
  /-- The very end of the text. -/
  | atVeryEnd
  /-- A place with a word character on one side only, or a place that is none. -/
  | wordEdge (present : Bool)

namespace Pattern

/-- A place in a text: the character before it, and what follows it. -/
structure Spot where
  before : Option Char
  rest : List Char

/-- The ends of several rounds of a pattern. A round that reads nothing ends the repetition. -/
def rounds (step : Spot → List Spot) (greedy : Bool) :
    (limit least : Nat) → (most : Option Nat) → Spot → List Spot
  | 0, least, _, s => if least = 0 then [s] else []
  | limit + 1, least, most, s =>
    let more := if most = some 0 then [] else
      (step s).flatMap fun s' =>
        if least = 0 && s'.rest.length = s.rest.length then []
        else rounds step greedy limit (least - 1) (most.map (· - 1)) s'
    let enough := if least = 0 then [s] else []
    if greedy then more ++ enough else enough ++ more

/-- The spots where a match that starts at a spot can end, the preferred one first. -/
def ends : Pattern → Spot → List Spot
  | empty, s => [s]
  | one test, s =>
    match s.rest with
    | [] => []
    | c :: cs => if test c then [⟨some c, cs⟩] else []
  | cat p q, s => (p.ends s).flatMap q.ends
  | alt p q, s => p.ends s ++ q.ends s
  | times p least most greedy, s =>
    rounds p.ends greedy (s.rest.length + least + 1) least most s
  | atStart, s => if s.before = none then [s] else []
  | atEnd, s => if s.rest = [] || s.rest = ['\n'] then [s] else []
  | atVeryEnd, s => if s.rest = [] then [s] else []
  | wordEdge present, s =>
    if Text.isWordEdge s.before s.rest.head? = present then [s] else []

/-- All spots of a text from left to right, its end included. -/
def spots (before : Option Char) : List Char → List Spot
  | [] => [⟨before, []⟩]
  | c :: cs => ⟨before, c :: cs⟩ :: spots (some c) cs

/-- The characters before and up to the end of the leftmost match in a text. -/
def search (p : Pattern) (text : List Char) : Option (Nat × Nat) :=
  (spots none text).findSome? fun s =>
    (p.ends s).head?.map fun e => (text.length - s.rest.length, text.length - e.rest.length)

/-- Whether a pattern matches somewhere in a text. -/
def occursIn (p : Pattern) (text : List Char) : Bool :=
  (p.search text).isSome

/-! ### Building patterns -/

/-- A given character. -/
def char (c : Char) : Pattern := one (· = c)

/-- A given text, character by character. -/
def literal : List Char → Pattern
  | [] => empty
  | c :: cs => cat (char c) (literal cs)

/-- A quote of either sort. -/
def quote : Pattern := one fun c => c = '"' || c = '\''

end Pattern

end Codemod
