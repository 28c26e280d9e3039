import Codemod.Grammar.Expression
import Codemod.Grammar.Statement
import Codemod.Grammar.Typing

/-!
# Reading a script

The grammar of scripts puts the rules for values, types and statements together. A script is a row
of statements; the tree of a script is a `program` that covers the text from its first token or
comment to its end.
-/

namespace Codemod.Grammar

/-- The expression of every phrase. -/
def Script.rules (dialect : Dialect) : Phrase → Script
  | .statement => Script.performed .statement
  | .block => Script.performed .block
  | .declaration => Script.performed .declaration
  | .classTail => Script.performed .classTail
  | .typed => Script.typed .typed
  | .unionType => Script.typed .unionType
  | .intersectionType => Script.typed .intersectionType
  | .arrayType => Script.typed .arrayType
  | .primaryType => Script.typed .primaryType
  | .typeArguments => Script.typed .typeArguments
  | .typeParameters => Script.typed .typeParameters
  | .typeMembers => Script.typed .typeMembers
  | phrase => Script.value dialect phrase

/-- What a script consists of. -/
def Script.program : Script :=
  .seq [Peg.opt (.leaf .hashBangLine Lexeme.hashBang), .many (.rule .statement)]

/-- The number of line breaks before an offset, counted from one. -/
def lineOf (text : List Char) (offset : Nat) : Nat :=
  ((Text.takeBytes text offset).filter (· = '\n')).length + 1

/-- The tree of a script over some trees of statements and comments. -/
def programOf (text : List Char) (trees : List Tree) : Tree :=
  let stop := Text.byteLength text
  .node .program none ((trees.head?.map Tree.start).getD stop) stop trees

/-- Reads a script. A script that is not well formed gives the line of the first token that does
not fit, or the line of the statement that is still open at the end of the text. -/
def read (dialect : Dialect) (text : List Char) : Except Nat Tree :=
  let fuel := 256 * (text.length + 4)
  match run (Script.rules dialect) fuel Script.program (.start text) with
  | .fail reach => .error (lineOf text reach)
  | .done trees c reach =>
    let (comments, c') := trivia fuel c
    if c'.rest.isEmpty then
      .ok (programOf text (trees ++ comments))
    else if Text.byteLength text ≤ reach then
      .error (lineOf text c'.pos)
    else
      .error (lineOf text (max reach c'.pos))

end Codemod.Grammar
