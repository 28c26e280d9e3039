import Codemod.Edit.Basic

/-!
# Removing a node

A node that shares its lines with nothing but white space is removed together with these lines.
-/

namespace Codemod.Node

/-- The edit that removes a node, together with its lines when nothing else is on them. On the last
line of a text the line break before the lines goes with them. -/
def removal (n : Node) (source : List Char) : Edit :=
  let front := Text.lineFront (n.textBefore source)
  let behind := n.textBehind source
  let back := Text.lineBack behind
  let lineStart := n.start - Text.byteLength front
  if !n.startsLine source || !back.all Text.isAsciiSpace then
    ⟨n.start, n.stop, []⟩
  else if behind.contains '\n' then
    ⟨lineStart, n.stop + Text.byteLength back + 1, []⟩
  else
    ⟨(lineStart - 1 : Nat), Text.byteLength source, []⟩

end Codemod.Node
