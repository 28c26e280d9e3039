import Codemod.Pattern.Basic

/-!
# Reading patterns

The written form of patterns: literals, the dot, anchors, classes in brackets, escapes, groups,
choices and repetitions. A text that is not a pattern is refused.
-/

namespace Codemod.Pattern

/-! ### Escapes and classes -/

/-- The set of an escape for a class of characters. -/
def classEscape? (c : Char) : Option (Char → Bool) :=
  match c with
  | 'd' => some Text.isDecimal
  | 'D' => some fun x => !Text.isDecimal x
  | 'w' => some Text.isWordChar
  | 'W' => some fun x => !Text.isWordChar x
  | 's' => some Text.isSpace
  | 'S' => some fun x => !Text.isSpace x
  | _ => none

/-- The value of a hexadecimal number of an exact width, and what follows it. -/
def hexValue? (width : Nat) (cs : List Char) : Option (Char × List Char) :=
  let digit? (c : Char) : Option Nat :=
    if c.isDigit then some (c.toNat - '0'.toNat)
    else if 'a' ≤ c && c ≤ 'f' then some (c.toNat - 'a'.toNat + 10)
    else if 'A' ≤ c && c ≤ 'F' then some (c.toNat - 'A'.toNat + 10)
    else none
  if (cs.take width).length = width then
    ((cs.take width).mapM digit?).map fun ds =>
      (Char.ofNat (ds.foldl (fun n d => 16 * n + d) 0), cs.drop width)
  else none

/-- The character of an escape for a single character, and what follows it. -/
def charEscape? (c : Char) (cs : List Char) : Option (Char × List Char) :=
  match c with
  | 'n' => some ('\n', cs)
  | 'r' => some ('\r', cs)
  | 't' => some ('\t', cs)
  | 'a' => some (Char.ofNat 7, cs)
  | 'f' => some (Char.ofNat 12, cs)
  | 'v' => some (Char.ofNat 11, cs)
  | 'x' => hexValue? 2 cs
  | 'u' => hexValue? 4 cs
  | 'U' => hexValue? 8 cs
  | '0' => some (Char.ofNat 0, cs)
  | _ => if c.isAlphanum then none else some (c, cs)

/-- A member of a class in brackets: a character, or a set that cannot bound a range. -/
inductive ClassItem where
  | char (c : Char)
  | set (test : Char → Bool)

/-- One member of a class in brackets. -/
def classItem? : List Char → Option (ClassItem × List Char)
  | [] => none
  | '\\' :: cs =>
    match cs with
    | [] => none
    | 'b' :: cs => some (.char (Char.ofNat 8), cs)
    | c :: cs =>
      match classEscape? c with
      | some test => some (.set test, cs)
      | none => (charEscape? c cs).map fun (c, cs) => (.char c, cs)
  | c :: cs => some (.char c, cs)

/-- The set of the rest of a class in brackets, and what follows the closing bracket. The first
member may be a closing bracket itself. -/
def classRest? : (limit : Nat) → (first : Bool) → List Char →
    Option ((Char → Bool) × List Char)
  | 0, _, _ => none
  | limit + 1, first, cs =>
    if cs.head? = some ']' && !first then some (fun _ => false, cs.drop 1)
    else
      match classItem? cs with
      | none => none
      | some (item, cs) =>
        let single : (Char → Bool) := match item with
          | .char a => fun x => x = a
          | .set test => test
        let withRest (test : Char → Bool) (cs : List Char) :
            Option ((Char → Bool) × List Char) :=
          (classRest? limit false cs).map fun (more, cs) => (fun x => test x || more x, cs)
        match cs with
        | '-' :: ']' :: _ => withRest single cs
        | '-' :: cs' =>
          match item, classItem? cs' with
          | .char a, some (.char b, cs) =>
            if a ≤ b then withRest (fun x => a ≤ x && x ≤ b) cs else none
          | _, _ => none
        | _ => withRest single cs

/-- A class in brackets after its opening bracket. -/
def bracketed? (cs : List Char) : Option (Pattern × List Char) :=
  match cs with
  | '^' :: cs =>
    (classRest? (cs.length + 1) true cs).map fun (test, cs) => (one fun x => !test x, cs)
  | _ => (classRest? (cs.length + 1) true cs).map fun (test, cs) => (one test, cs)

/-! ### Repetitions -/

/-- The bounds of a repetition in braces, after the opening brace. -/
def bounds? (cs : List Char) : Option (Nat × Option Nat × List Char) :=
  let number (ds : List Char) : Nat := ds.foldl (fun n d => 10 * n + (d.toNat - '0'.toNat)) 0
  let lo := cs.takeWhile Char.isDigit
  let cs := cs.dropWhile Char.isDigit
  match cs with
  | '}' :: cs => if lo.isEmpty then none else some (number lo, some (number lo), cs)
  | ',' :: cs =>
    let hi := cs.takeWhile Char.isDigit
    match cs.dropWhile Char.isDigit with
    | '}' :: cs =>
      some (number lo, if hi.isEmpty then none else some (number hi), cs)
    | _ => none
  | _ => none

/-- What a mark of repetition asks for, and what follows it. -/
def repetition? : List Char → Option (Nat × Option Nat × List Char)
  | '*' :: cs => some (0, none, cs)
  | '+' :: cs => some (1, none, cs)
  | '?' :: cs => some (0, some 1, cs)
  | '{' :: cs => bounds? cs
  | _ => none

/-- Patterns that stand for a place and cannot be repeated. -/
def isPlace : Pattern → Bool
  | atStart | atEnd | atVeryEnd | wordEdge _ => true
  | _ => false

/-- A pattern with the mark of repetition that may follow it. -/
def repeated? (p : Pattern) (cs : List Char) : Option (Pattern × List Char) :=
  match repetition? cs with
  | none => some (p, cs)
  | some (least, most, cs) =>
    if isPlace p || most.any (· < least) then none
    else
      let (greedy, cs) := match cs with
        | '?' :: cs => (false, cs)
        | _ => (true, cs)
      if (repetition? cs).isSome then none else some (times p least most greedy, cs)

/-! ### The reader -/

mutual

/-- A choice of branches, up to a closing parenthesis or the end. -/
def choice? : (limit : Nat) → List Char → Option (Pattern × List Char)
  | 0, _ => none
  | limit + 1, cs =>
    match branch? limit cs with
    | some (p, '|' :: cs) =>
      match choice? limit cs with
      | some (q, cs) => some (alt p q, cs)
      | none => none
    | other => other

/-- A row of items, up to a bar, a closing parenthesis or the end. -/
def branch? : (limit : Nat) → List Char → Option (Pattern × List Char)
  | 0, _ => none
  | limit + 1, cs =>
    match cs with
    | [] => some (empty, [])
    | '|' :: _ => some (empty, cs)
    | ')' :: _ => some (empty, cs)
    | _ =>
      match item? limit cs with
      | none => none
      | some (p, cs) =>
        match repeated? p cs with
        | none => none
        | some (p, cs) =>
          match branch? limit cs with
          | none => none
          | some (q, cs) => some (cat p q, cs)

/-- One item without its mark of repetition. -/
def item? : (limit : Nat) → List Char → Option (Pattern × List Char)
  | 0, _ => none
  | limit + 1, cs =>
    match cs with
    | [] => none
    | c :: cs =>
      match c with
      | '(' =>
        let inner := match cs with
          | '?' :: ':' :: cs => some cs
          | '?' :: _ => none
          | _ => some cs
        match inner.bind (choice? limit) with
        | some (p, ')' :: cs) => some (p, cs)
        | _ => none
      | '[' => bracketed? cs
      | '.' => some (one (· ≠ '\n'), cs)
      | '^' => some (atStart, cs)
      | '$' => some (atEnd, cs)
      | '*' | '+' | '?' => none
      | '{' => if (bounds? cs).isSome then none else some (char c, cs)
      | '\\' =>
        match cs with
        | [] => none
        | 'b' :: cs => some (wordEdge true, cs)
        | 'B' :: cs => some (wordEdge false, cs)
        | 'A' :: cs => some (atStart, cs)
        | 'Z' :: cs => some (atVeryEnd, cs)
        | c :: cs =>
          match classEscape? c with
          | some test => some (one test, cs)
          | none => (charEscape? c cs).map fun (c, cs) => (char c, cs)
      | _ => some (char c, cs)

end

/-- Why a text is not a pattern. -/
inductive Fault where
  | malformed (written : List Char)
  deriving DecidableEq, Repr

/-- Reads a pattern. -/
def parse (cs : List Char) : Except Fault Pattern :=
  match choice? (4 * cs.length + 8) cs with
  | some (p, []) => .ok p
  | _ => .error (.malformed cs)

end Codemod.Pattern
