import Codemod.Alias
import Codemod.Receiver
import Codemod.Recipe.Report

/-!
# Renaming a property in calls

Calls `value.property.method(...)` become `value.replacement.method(...)` when the value is known
to be that of the root variable. Only the name of the property is replaced. A property that a
pattern takes off the value is renamed in the pattern, together with the calls through the local
name.
-/

namespace Codemod

/-- Which property is renamed in which calls. -/
structure Rename where
  /-- The variable that the calls go through. -/
  rootName : List Char := "api".toList
  /-- The property that is renamed. -/
  property : List Char := "smartGrid".toList
  /-- The method that is called on the property. -/
  method : List Char := "presentModal".toList
  /-- The new name of the property. -/
  replacement : List Char := "action".toList
  /-- The properties that pass the value through, if they are not just the renamed one. -/
  passThrough : Option (List (List Char)) := none
  /-- Functions that are known to return the value. -/
  indirections : List (List Char) := []
  /-- Whether only the known functions are trusted to return the value. -/
  strict : Bool := false
  deriving DecidableEq, Repr

namespace Rename

/-- The properties that pass the value through. -/
def through (c : Rename) : List (List Char) := c.passThrough.getD [c.property]

/-- The bindings of the value in a document. -/
def bindings (c : Rename) (d : Document) : List Alias := Alias.collect d c.rootName c.through

/-- What the value is known as in a document. -/
def receiver (c : Rename) (d : Document) : Receiver :=
  ⟨Alias.names d c.rootName c.through, some c.rootName, c.indirections, c.strict⟩

/-- Whether the method is called on a node. -/
def isMethodCall (c : Rename) (d : Document) (n : Node) : Bool :=
  n.parent?.any fun outer =>
    outer.kind = .memberExpression &&
      (outer.child? .object).any (·.sameAs n) &&
      (outer.child? .property).any (d.textOf · = c.method) &&
      outer.parent?.any fun call =>
        call.kind = .callExpression && (call.child? .callee).any (·.sameAs outer)

/-- Whether a node is the property of a call on the value. -/
def isCandidate (c : Rename) (d : Document) (r : Receiver) (n : Node) : Bool :=
  n.parent?.any fun member =>
    member.kind = .memberExpression &&
      (member.child? .property).any (·.sameAs n) &&
      (member.child? .object).any (fun object => r.reaches (d.textOf object)) &&
      c.isMethodCall d member

/-- The edits for calls on the value itself. -/
def memberEdits (c : Rename) (d : Document) : List Edit :=
  let r := c.receiver d
  (d.nodes.filter fun n =>
    n.kind = .propertyIdentifier && d.textOf n = c.property && c.isCandidate d r n).map
      (·.replace c.replacement)

/-! ### Calls through a local name -/

/-- The bindings that take the property off the value, one group for each local name. -/
def groups (c : Rename) (d : Document) : List (List Alias) :=
  let taken := (c.bindings d).filter (·.property = some c.property)
  (taken.map Alias.name).eraseDups.map fun name => taken.filter (·.name = name)

/-- The nodes that refer to a name. -/
def references (d : Document) (name : List Char) : List Node :=
  d.nodes.filter fun n =>
    (n.kind = .identifier || n.kind = .shorthandPropertyIdentifier) && d.textOf n = name

/-- The edits for the calls through a local name that is the name of the property. The name stays
bound next to the new one when it has other uses. -/
def shorthandEdits (c : Rename) (name : List Char) (group : List Alias) (calls others : List Node) :
    List Edit :=
  if !others.isEmpty && group.any (·.entry.any (·.kind = .objectAssignmentPattern)) then []
  else
    let bound := if others.isEmpty then c.replacement else c.replacement ++ ", ".toList ++ name
    calls.map (·.replace c.replacement) ++ group.map (·.node.replace bound)

/-- The edits for a property that gets a local name of its own: the key changes when all uses of
the name are calls. -/
def keyEdits (c : Rename) (group : List Alias) (others : List Node) : List Edit :=
  if others.isEmpty then
    (group.filterMap fun a => a.entry.bind (·.child? .key)).map (·.replace c.replacement)
  else []

/-- The edits for calls through one local name. There are none when the name is bound both as the
name of the property and as a name of its own. -/
def groupEdits (c : Rename) (d : Document) (group : List Alias) : List Edit :=
  let name := (group.head?.map Alias.name).getD []
  let refs := references d name
  let calls := refs.filter fun n => n.kind = .identifier && c.isMethodCall d n
  let others := refs.filter fun n =>
    !group.any (·.node.sameAs n) && !calls.any (·.sameAs n)
  if calls.isEmpty then []
  else if group.all Alias.isShorthand then c.shorthandEdits name group calls others
  else if group.any Alias.isShorthand then []
  else c.keyEdits group others

/-- The edits for calls through local names. -/
def patternEdits (c : Rename) (d : Document) : List Edit :=
  (c.groups d).flatMap (c.groupEdits d)

/-- All edits. -/
def edits (c : Rename) (d : Document) : List Edit := c.memberEdits d ++ c.patternEdits d

/-- Renames the property in a document. -/
def run (c : Rename) (d : Document) : Report := .ofEdits d (c.edits d)

end Rename

end Codemod
