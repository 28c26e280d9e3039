import Codemod.Grammar.Script
import Codemod.Text.Case
import Codemod.Tree.Node

/-!
# Documents

A document is a text together with the tree that its language gives it. A text that is not well
formed has no document, unless the document is lenient: then its tree is a bare program.
-/

namespace Codemod

/-- Why there is no document. -/
inductive ParseError where
  /-- The language is not known. -/
  | unknownLanguage (name : String)
  /-- The text is not well formed. -/
  | malformed (filename : Option String) (line : Nat)
  /-- Files of this type have no language. -/
  | unsupportedFile (suffix : String)
  deriving DecidableEq, Repr

namespace ParseError

/-- An error in words. -/
def message : ParseError → String
  | unknownLanguage name => s!"No tree-sitter grammar available for {name}"
  | malformed none line => s!"Syntax error at line {line}"
  | malformed (some filename) line => s!"Syntax error at {filename}:{line}"
  | unsupportedFile suffix => s!"Unsupported file type: {suffix}"

/-- The line that an error names. -/
def line? : ParseError → Option Nat
  | malformed _ line => some line
  | _ => none

end ParseError

namespace Grammar.Dialect

/-- The names of the dialects in order. -/
def names : List String := ["tsx", "typescript"]

/-- A description of the dialects for a reader. -/
def describe : String :=
  let shown := ", ".intercalate names
  s!"GrammarRegistry({names.length} grammars: {shown})"

/-- The dialect of a name in any letter case. -/
def ofName? (name : String) : Option Dialect :=
  let lowered := Text.lower name.toList
  if lowered = "tsx".toList then some .tsx
  else if lowered = "typescript".toList then some .typescript
  else none

end Grammar.Dialect

/-- A text with its tree. -/
structure Document where
  text : List Char
  language : String
  filename : Option String
  lenient : Bool
  tree : Tree

namespace Document

/-- The tree of a text that is not well formed: a program without children, from the first token
or comment to the end. -/
def bareTree (text : List Char) : Tree :=
  let (comments, c) := Grammar.trivia text.length (.start text)
  .node .program none ((comments.head?.map Tree.start).getD c.pos) (Text.byteLength text) []

/-- Reads a text in a language. -/
def parse (text : List Char) (language : String) (filename : Option String) (lenient : Bool) :
    Except ParseError Document :=
  match Grammar.Dialect.ofName? language with
  | none => .error (.unknownLanguage language)
  | some dialect =>
    match Grammar.read dialect text with
    | .ok tree => .ok ⟨text, language, filename, lenient, tree⟩
    | .error line =>
      if lenient then .ok ⟨text, language, filename, lenient, bareTree text⟩
      else .error (.malformed (filename.filter (· ≠ "")) line)

/-- Reads another text in the way this document was read. -/
def reread (d : Document) (text : List Char) : Except ParseError Document :=
  parse text d.language d.filename d.lenient

/-- The node of the whole tree. -/
def root (d : Document) : Node := .root d.tree

/-- All nodes in document order. -/
def nodes (d : Document) : List Node := d.root.preorder

/-- The text of a node. -/
def textOf (d : Document) (n : Node) : List Char := n.text d.text

end Document

end Codemod
