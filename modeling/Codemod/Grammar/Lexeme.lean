import Codemod.Grammar.Peg

/-!
# Tokens of scripts

Each scanner gives the number of characters of a token at the front of a text, and zero when the
text does not start with such a token.
-/

namespace Codemod.Grammar.Lexeme

/-- The number of characters of a set at the front of a text. -/
def countWhile (p : Char → Bool) : List Char → Nat
  | [] => 0
  | c :: cs => if p c then countWhile p cs + 1 else 0

/-! ### Names -/

/-- Characters of names: in ASCII the letters, the digits, the dollar sign and the underscore, and
beyond ASCII everything that does not separate tokens. -/
def isNamePart (c : Char) : Bool :=
  c.isAlphanum || c = '$' || c = '_' || (0x7F ≤ c.val && !Text.isTokenSpace c)

/-- Any word, reserved or not. -/
def word : List Char → Nat
  | [] => 0
  | c :: cs => if isNamePart c && !c.isDigit then countWhile isNamePart cs + 1 else 0

/-- The words that cannot be names of variables. -/
def reserved : List (List Char) :=
  ["break", "case", "catch", "class", "const", "continue", "debugger", "default", "delete", "do",
    "else", "enum", "export", "extends", "false", "finally", "for", "function", "if", "import",
    "in", "instanceof", "new", "null", "return", "super", "switch", "this", "throw", "true", "try",
    "typeof", "var", "void", "while", "with", "yield", "await"].map String.toList

/-- A word that can be declared as a name. -/
def name (cs : List Char) : Nat :=
  let n := word cs
  if reserved.contains (cs.take n) then 0 else n

/-- A word that stands for a variable. The word `undefined` is a value of its own. -/
def variableName (cs : List Char) : Nat :=
  let n := name cs
  if cs.take n = "undefined".toList then 0 else n

/-- A name with a hash sign in front. -/
def privateName : List Char → Nat
  | '#' :: cs => match word cs with
    | 0 => 0
    | n + 1 => n + 2
  | _ => 0

/-- The name of a tag or of an attribute, which may have hyphens after its first part. -/
def tagName (cs : List Char) : Nat :=
  match word cs with
  | 0 => 0
  | n + 1 =>
    let tail := cs.drop (n + 1)
    if tail.head? = some '-' then
      n + 1 + countWhile (fun c => c.isAlphanum || c = '_' || c = '$' || c = '-') tail
    else n + 1

/-- A given word that does not go on. -/
def keyword (w cs : List Char) : Nat :=
  if w.isPrefixOf cs && !((cs.drop w.length).head?.any isNamePart) then w.length else 0

/-- A given sign that is not followed by one of some characters. -/
def sign (w without cs : List Char) : Nat :=
  if w.isPrefixOf cs && !((cs.drop w.length).head?.any without.contains) then w.length else 0

/-! ### Literals -/

/-- The digits of a number, with underscores between them. -/
def digits (cs : List Char) : Nat :=
  countWhile (fun c => c.isDigit || c = '_') cs

/-- The exponent of a number. -/
def exponent : List Char → Nat
  | e :: cs =>
    if e = 'e' || e = 'E' then
      match cs with
      | s :: ds => if s = '+' || s = '-' then
          (if digits ds = 0 then 0 else digits ds + 2)
        else (if digits cs = 0 then 0 else digits cs + 1)
      | [] => 0
    else 0
  | [] => 0

/-- The part of a number after its whole digits: a fraction, an exponent, or the mark of a big
number. -/
def numberTail (cs : List Char) : Nat :=
  match cs with
  | '.' :: ds => 1 + digits ds + exponent (ds.drop (digits ds))
  | 'n' :: _ => 1
  | _ => exponent cs

/-- A digit of a number in base sixteen or below, or an underscore. -/
def isHexPart (c : Char) : Bool :=
  c.isDigit || ('a' ≤ c && c ≤ 'f') || ('A' ≤ c && c ≤ 'F') || c = '_'

/-- A number: decimal, or with a base mark. -/
def number (cs : List Char) : Nat :=
  match cs with
  | '.' :: ds => if digits ds = 0 then 0 else numberTail cs
  | '0' :: b :: ds =>
    if "xXoObB".toList.contains b then
      let n := countWhile isHexPart ds
      n + 2 + (if (ds.drop n).head? = some 'n' then 1 else 0)
    else digits cs + numberTail (cs.drop (digits cs))
  | c :: _ => if c.isDigit then digits cs + numberTail (cs.drop (digits cs)) else 0
  | [] => 0

/-- The plain part of a string between two quotes. -/
def stringPart (quote : Char) (cs : List Char) : Nat :=
  countWhile (fun c => c ≠ quote && c ≠ '\\' && c ≠ '\n' && c ≠ '\r') cs

/-- A hexadecimal digit. -/
def isHexDigit (c : Char) : Bool := isHexPart c && c ≠ '_'

/-- A character written with a backslash. -/
def escapeSequence : List Char → Nat
  | '\\' :: c :: cs =>
    if c = 'x' then
      if countWhile isHexDigit (cs.take 2) = 2 then 4 else 0
    else if c = 'u' then
      match cs with
      | '{' :: ds =>
        let n := countWhile isHexDigit ds
        if n ≠ 0 && (ds.drop n).head? = some '}' then n + 4 else 0
      | _ => if countWhile isHexDigit (cs.take 4) = 4 then 6 else 0
    else if '0' ≤ c && c ≤ '7' then
      1 + countWhile (fun d => '0' ≤ d && d ≤ '7') ((c :: cs).take 3)
    else if c = '\r' && cs.head? = some '\n' then 3
    else 2
  | _ => 0

/-- The plain part of a template: up to a back quote, a backslash or a substitution. -/
def templatePart : List Char → Nat
  | [] => 0
  | c :: cs =>
    if c.val = 0x60 || c = '\\' || (c = '$' && cs.head? = some '{') then 0
    else templatePart cs + 1

/-- The pattern of a regular expression: up to a slash outside of brackets. -/
def regexPart (bracketed : Bool) : List Char → Nat
  | [] => 0
  | c :: cs =>
    if c = '\n' then 0
    else if c = '\\' then
      match cs with
      | [] => 0
      | d :: ds => if d = '\n' then 0 else regexPart bracketed ds + 2
    else if c = '[' then regexPart true cs + 1
    else if c = ']' then regexPart false cs + 1
    else if c = '/' && !bracketed then 0
    else regexPart bracketed cs + 1

/-- The flags of a regular expression. -/
def regexFlags (cs : List Char) : Nat :=
  countWhile (fun c => 'a' ≤ c && c ≤ 'z') cs

/-- The line that names an interpreter. -/
def hashBang : List Char → Nat
  | '#' :: '!' :: cs => countWhile (· ≠ '\n') cs + 2
  | _ => 0

/-! ### Markup -/

/-- Whether a run of text between tags is more than line breaks with the indentation after them. -/
def hasContent (afterBreak : Bool) : List Char → Bool
  | [] => false
  | c :: cs =>
    if c = '\n' then hasContent true cs
    else if afterBreak && Text.isLocaleSpace c then hasContent true cs
    else true

/-- Text between tags: up to a bracket, a brace or an ampersand. -/
def markupText (cs : List Char) : Nat :=
  let n := countWhile (fun c => !(c = '<' || c = '>' || c = '{' || c = '}' || c = '&')) cs
  if hasContent false (cs.take n) then n else 0

/-- A character given by name or by number, such as `&amp;`. -/
def characterReference : List Char → Nat
  | '&' :: '#' :: x :: cs =>
    let hex := x = 'x' || x = 'X'
    let n := if hex then countWhile isHexDigit cs else countWhile Char.isDigit (x :: cs)
    let limit := if hex then 6 else 5
    let tail := if hex then cs.drop n else (x :: cs).drop n
    if n ≠ 0 && n ≤ limit && tail.head? = some ';' then n + 3 + (if hex then 1 else 0) else 0
  | '&' :: cs =>
    let n := countWhile Char.isAlpha cs
    if n ≠ 0 && n ≤ 30 && (cs.drop n).head? = some ';' then n + 2 else 0
  | _ => 0

/-- The plain part of an attribute's string: up to the quote or a character reference. -/
def attributePart (quote : Char) : List Char → Nat
  | [] => 0
  | c :: cs =>
    if c = quote then 0
    else if c = '&' then
      match cs with
      | [] => 0
      | d :: ds => if d = '#' || d.isAlpha then 0 else attributePart quote ds + 2
    else attributePart quote cs + 1

/-! ### Where a statement ends without a semicolon -/

/-- The blanks on one line. -/
def inlineBlanks (cs : List Char) : Nat :=
  countWhile (fun c => Text.isLocaleSpace c && c ≠ '\n') cs

/-- What follows white space and comments, unless there is a slash that starts no comment. At most
`limit` blanks and comments are passed. -/
def passTrivia : (limit : Nat) → List Char → Option (List Char)
  | 0, cs => some cs
  | limit + 1, cs =>
    match cs with
    | [] => some []
    | c :: cs' =>
      if Text.isLocaleSpace c then passTrivia limit cs'
      else if c = '/' then
        match commentLength cs with
        | 0 => none
        | n + 1 => passTrivia limit (cs.drop (n + 1))
      else some cs

/-- Whether a line that starts like this begins a new statement. After an operand, a bracket goes
on with the expression. -/
def startsStatement (afterOperand : Bool) (cs : List Char) : Bool :=
  match cs with
  | [] => true
  | c :: rest =>
    if c.val = 0x60 || ",.;*%><=?^|&/:".toList.contains c then false
    else if c = '(' || c = '[' then !afterOperand
    else if c = '+' then rest.head? = some '+'
    else if c = '-' then rest.head? = some '-'
    else if c = '!' then rest.head? ≠ some '='
    else if c = 'i' then keyword "in".toList cs = 0 && keyword "instanceof".toList cs = 0
    else true

/-- Whether a statement may end here without a semicolon: at the end of the text, before a closing
brace, or at the end of a line when the next line begins a new statement. -/
def endsStatement (afterOperand : Bool) (cs : List Char) : Bool :=
  match cs.drop (inlineBlanks cs) with
  | [] => true
  | '}' :: rest =>
    if (rest.dropWhile Text.isLocaleSpace).head? = some ':' then afterOperand else true
  | '\n' :: rest =>
    match passTrivia rest.length rest with
    | none => false
    | some next => startsStatement afterOperand next
  | _ => false

/-- Whether the next token stands on the same line. -/
def sameLine (cs : List Char) : Bool :=
  match passTrivia cs.length cs with
  | none => true
  | some next => !((cs.take (cs.length - next.length)).contains '\n')

end Codemod.Grammar.Lexeme
