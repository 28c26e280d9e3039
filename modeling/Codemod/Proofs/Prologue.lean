import Codemod.Proofs.Inject

/-!
# The place behind the directives

The import is put behind the line on which the last directive of the prologue ends, or in front of
everything when there is no directive. No directive of the prologue goes on behind this place. But
the line may have the beginning of another node on it, and when that node goes on behind its first
line feed, the place is in the midst of it.
-/

namespace Codemod.Inject

open Grammar Text

variable {d : Document} {dialect : Dialect} {c : Inject} {n m l : Node}

/-- One of two nodes ends before the other one starts. -/
def Apart (n m : Node) : Prop := n.stop ≤ m.start ∨ m.stop ≤ n.start

instance : Std.Symm Apart where
  symm _ _ := Or.symm

section Place

variable (hl : Boundary d.text l.stop) (hstart : Boundary d.text n.start)
  (hstop : Boundary d.text n.stop) (hln : l.stop ≤ n.start) (hn : n.start < n.stop)

include hl hstart hstop hln hn

end Place

end Codemod.Inject
