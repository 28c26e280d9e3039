/-!
# The text of a YAML document while it is read

A stream is what is left of a text, with the place that has been reached.
-/

namespace Codemod.Yaml

/-- What is left of a text, and the place that has been reached. -/
structure Stream where
  rest : List Char
  /-- The number of characters that have been read. -/
  index : Nat
  line : Nat
  column : Nat

/-- Characters that end a line. -/
def isBreak (c : Char) : Bool :=
  c = '\n' || c = '\r' || c.val = 0x85 || c.val = 0x2028 || c.val = 0x2029

/-- Whether the end, white space or the end of a line is at a place. -/
def isGap (c : Option Char) : Bool := c.all fun c => c = ' ' || c = '\t' || isBreak c

/-- Characters that a document may have. -/
def isAllowed (c : Char) : Bool :=
  let n := c.toNat
  n = 9 || n = 10 || n = 13 || (0x20 ≤ n && n ≤ 0x7E) || n = 0x85 || (0xA0 ≤ n && n ≤ 0xFFFD) ||
    0x10000 ≤ n

namespace Stream

/-- A text before any of it is read. -/
def start (cs : List Char) : Stream := ⟨cs, 0, 0, 0⟩

/-- The character that some others precede. -/
def peek (s : Stream) (n : Nat) : Option Char := s.rest[n]?

/-- The next character. -/
def next? (s : Stream) : Option Char := s.rest.head?

/-- Whether the next character is a given one. -/
def sees (s : Stream) (c : Char) : Bool := s.next? = some c

/-- The stream behind its next character. -/
def step (s : Stream) : Stream :=
  match s.rest with
  | [] => s
  | c :: cs =>
    if c = '\n' || c.val = 0x85 || c.val = 0x2028 || c.val = 0x2029 ||
        (c = '\r' && cs.head? ≠ some '\n') then
      ⟨cs, s.index + 1, s.line + 1, 0⟩
    else if c.val = 0xFEFF then ⟨cs, s.index + 1, s.line, s.column⟩
    else ⟨cs, s.index + 1, s.line, s.column + 1⟩

/-- The stream behind some characters. -/
def forward : (n : Nat) → Stream → Stream
  | 0, s => s
  | n + 1, s => forward n s.step

/-- The line break at the front of a stream as it counts in a text, and what follows it. -/
def lineBreak? (s : Stream) : Option (Char × Stream) :=
  s.next?.bind fun c =>
    if c = '\r' && s.peek 1 = some '\n' then some ('\n', s.forward 2)
    else if c = '\n' || c = '\r' || c.val = 0x85 then some ('\n', s.step)
    else if c.val = 0x2028 || c.val = 0x2029 then some (c, s.step)
    else none

/-- Whether three characters stand for themselves at the front of a stream. -/
def isMark (s : Stream) (mark : String) : Bool :=
  mark.toList.isPrefixOf s.rest && isGap (s.peek 3)

/-- Whether a line at the front of a stream separates documents. -/
def isSeparator (s : Stream) : Bool := s.isMark "---" || s.isMark "..."

end Stream

end Codemod.Yaml
