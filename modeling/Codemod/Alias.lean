import Codemod.Document

/-!
# Aliases of a variable

An alias of a variable is a local name that may denote the same value. Names are followed through
the declarations of one document: `b` is an alias of `a` after `const b = a`, and also `p` after
`const { p } = a` when `p` is one of the properties that pass the value through. Scopes are not
looked at, and a name that comes out of a pattern is not followed any further.
-/

namespace Codemod

/-- A binding that introduces an alias. -/
structure Alias where
  /-- The local name. -/
  name : List Char
  /-- The name whose value is bound. -/
  source : List Char
  /-- The property that is taken off the value, if any. -/
  property : Option (List Char)
  /-- The node of the local name. -/
  node : Node
  /-- The entry of the pattern that binds the name. -/
  entry : Option Node

/-- A variable that is declared with the value of another one. -/
structure Declarator where
  name : Node
  value : Node

namespace Declarator

/-- Kinds of declarations that introduce variables. -/
def isDeclaration (k : Kind) : Bool := k = .lexicalDeclaration || k = .variableDeclaration

/-- A node as a declarator whose value is a bare name. -/
def ofNode? (n : Node) : Option Declarator :=
  if n.kind = .variableDeclarator && n.parent?.any (isDeclaration ·.kind) then
    match n.child? .name, n.child? .value with
    | some name, some value => if value.kind = .identifier then some ⟨name, value⟩ else none
    | _, _ => none
  else none

/-- The declarators of a document whose value is a bare name. -/
def all (d : Document) : List Declarator := d.nodes.filterMap ofNode?

end Declarator

namespace Alias

/-- Whether the value goes through a property. -/
def isPassThrough (a : Alias) : Bool := a.property.isSome

/-- Whether the entry binds the name of the property itself. -/
def isShorthand (a : Alias) : Bool :=
  a.entry.any fun e =>
    e.kind = .shorthandPropertyIdentifierPattern || e.kind = .objectAssignmentPattern

/-- Whether two aliases are one binding. -/
def sameBinding (a b : Alias) : Bool :=
  a.name = b.name && a.property = b.property &&
    a.node.start = b.node.start && a.node.stop = b.node.stop

/-- The name that the value of an entry `key: value` or `key: value = other` binds. -/
def boundName? (value : Node) : Option Node :=
  let inner := if value.kind = .assignmentPattern then value.child? .left else some value
  inner.filter (·.kind = .identifier)

/-- The alias that an entry of an object pattern introduces, when its property passes the value
through. -/
def ofPart? (d : Document) (source : List Char) (through : List (List Char)) (entry : Node) :
    Option Alias :=
  match entry.kind with
  | .shorthandPropertyIdentifierPattern =>
    let name := d.textOf entry
    if through.contains name then some ⟨name, source, some name, entry, some entry⟩ else none
  | .objectAssignmentPattern =>
    (entry.child? .left).bind fun left =>
      let name := d.textOf left
      if through.contains name then some ⟨name, source, some name, left, some entry⟩ else none
  | .pairPattern =>
    match entry.child? .key, (entry.child? .value).bind boundName? with
    | some key, some value =>
      if key.kind = .propertyIdentifier && through.contains (d.textOf key) then
        some ⟨d.textOf value, source, some (d.textOf key), value, some entry⟩
      else none
    | _, _ => none
  | _ => none

/-- The aliases that a declarator introduces. -/
def ofDeclarator (d : Document) (through : List (List Char)) (dc : Declarator) : List Alias :=
  let source := d.textOf dc.value
  if dc.name.kind = .identifier then
    [⟨d.textOf dc.name, source, none, dc.name, none⟩]
  else if dc.name.kind = .objectPattern then
    dc.name.namedChildren.filterMap (ofPart? d source through)
  else []

/-! ### Following names -/

/-- The names that are followed and the aliases found so far. -/
structure Trail where
  direct : List (List Char)
  found : List Alias

/-- A trail with one more alias, unless it is there already. -/
def Trail.add (t : Trail) (a : Alias) : Trail :=
  if t.found.any a.sameBinding then t
  else
    ⟨if a.isPassThrough || t.direct.contains a.name then t.direct else t.direct ++ [a.name],
      t.found ++ [a]⟩

/-- A trail after a look at one declarator. -/
def Trail.visit (d : Document) (through : List (List Char)) (t : Trail) (dc : Declarator) :
    Trail :=
  if t.direct.contains (d.textOf dc.value) then (ofDeclarator d through dc).foldl Trail.add t
  else t

/-- A trail after a look at all declarators. -/
def Trail.pass (d : Document) (through : List (List Char)) (dcs : List Declarator) (t : Trail) :
    Trail :=
  dcs.foldl (Trail.visit d through) t

/-- Passes over the declarators until one finds no new name to follow. Each other pass takes a
name from one more declarator, so their number is a sufficient limit. -/
def Trail.settle (d : Document) (through : List (List Char)) (dcs : List Declarator) :
    (limit : Nat) → Trail → Trail
  | 0, t => t
  | limit + 1, t =>
    let t' := t.pass d through dcs
    if t'.direct.length = t.direct.length then t' else t'.settle d through dcs limit

/-- The bindings that introduce aliases of a variable, in the order in which they are found. -/
def collect (d : Document) (root : List Char) (through : List (List Char)) : List Alias :=
  let dcs := Declarator.all d
  (Trail.settle d through dcs (dcs.length + 1) ⟨[root], []⟩).found

/-- The names that may denote the value of a variable, its own name first. -/
def names (d : Document) (root : List Char) (through : List (List Char)) : List (List Char) :=
  (root :: (collect d root through).map Alias.name).eraseDups

end Alias

end Codemod
