import Codemod.Text.Utf8
import Codemod.Tree.Node

/-!
# Edits and their commit

An edit replaces a span of bytes by a text. A batch of edits is committed at once: the edits are
taken in the order of their spans, edits with equal spans in the order of the batch, and the bytes
between the spans are kept. A batch is refused when a span starts before the end of the one before
it, or when a span is not within the text.
-/

namespace Codemod

/-- The replacement of the bytes from `start` up to `stop`. -/
structure Edit where
  start : Int
  stop : Int
  text : List Char
  deriving DecidableEq, Repr

/-- Why a batch of edits cannot be committed. -/
inductive EditError where
  /-- A span starts before the place that the edits before it have reached. -/
  | overlapping (start stop reached : Int)
  /-- A span is reversed or goes beyond the text. -/
  | invalidSpan (start stop : Int)
  /-- The bytes that come out are not the form of a text. -/
  | undecodable (fault : Utf8.Fault)
  deriving DecidableEq, Repr

/-- An error in words. -/
def EditError.message : EditError → String
  | overlapping start stop reached =>
    s!"Edit at {start}-{stop} overlaps a previous edit ending at {reached}"
  | invalidSpan start stop => s!"Invalid edit span {start}-{stop}"
  | undecodable fault => fault.message

namespace Edit

/-- Whether an edit may be taken before another one. -/
def precedes (a b : Edit) : Bool :=
  a.start < b.start || (a.start = b.start && a.stop ≤ b.stop)

/-- An edit put in its place among edits in order, before those with its span. -/
def insertInOrder (e : Edit) : List Edit → List Edit
  | [] => [e]
  | f :: fs => if e.precedes f then e :: f :: fs else f :: insertInOrder e fs

/-- A batch in the order of the spans. -/
def inOrder : List Edit → List Edit
  | [] => []
  | e :: es => insertInOrder e (inOrder es)

/-- The bytes from the place reached on, with edits in order applied to them. -/
def spliceFrom (bytes : List UInt8) : (reached : Nat) → List Edit → Except EditError (List UInt8)
  | reached, [] => .ok (bytes.drop reached)
  | reached, e :: es =>
    if e.start < reached then
      .error (.overlapping e.start e.stop reached)
    else if e.stop < e.start || bytes.length < e.stop then
      .error (.invalidSpan e.start e.stop)
    else
      (spliceFrom bytes e.stop.toNat es).map fun rest =>
        (bytes.take e.start.toNat).drop reached ++ Utf8.encode e.text ++ rest

/-- The bytes after a batch of edits. -/
def splice (bytes : List UInt8) (edits : List Edit) : Except EditError (List UInt8) :=
  spliceFrom bytes 0 (inOrder edits)

/-- The text after a batch of edits. -/
def apply (source : List Char) (edits : List Edit) : Except EditError (List Char) :=
  match splice (Utf8.encode source) edits with
  | .error e => .error e
  | .ok bytes =>
    match Utf8.decode bytes with
    | .error fault => .error (.undecodable fault)
    | .ok text => .ok text

/-- The text after a batch of edits, or nothing when the batch is empty. -/
def commit (source : List Char) (edits : List Edit) : Except EditError (Option (List Char)) :=
  if edits.isEmpty then .ok none else (apply source edits).map some

end Edit

namespace Node

/-- The replacement of a node. -/
def replace (n : Node) (text : List Char) : Edit := ⟨n.start, n.stop, text⟩

/-- An insertion right behind a node. -/
def insertAfter (n : Node) (text : List Char) : Edit := ⟨n.stop, n.stop, text⟩

/-- The nodes that lie inside of no other one. -/
def outermost (ns : List Node) : List Node :=
  ns.filter fun n => !ns.any n.isInside

end Node

end Codemod
