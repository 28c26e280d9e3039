/-!
# Texts in order

Texts are ordered by the numbers of their characters, a text before its extensions.
-/

namespace Codemod.Text

/-- Whether a text comes before another one or is equal to it. -/
def atMost : List Char → List Char → Bool
  | [], _ => true
  | _ :: _, [] => false
  | a :: as, b :: bs => a.toNat < b.toNat || (a = b && atMost as bs)

/-- An item put in its place among items that are in the order of their keys. -/
def insertBy {α : Type} (key : α → List Char) (a : α) : List α → List α
  | [] => [a]
  | b :: bs => if atMost (key a) (key b) then a :: b :: bs else b :: insertBy key a bs

/-- Some items in the order of their keys, items with equal keys in the given order. -/
def sortBy {α : Type} (key : α → List Char) : List α → List α
  | [] => []
  | a :: as => insertBy key a (sortBy key as)

/-- Some texts in order. -/
def sorted (ts : List (List Char)) : List (List Char) := sortBy id ts

/-- A set of texts, in order and each of them once. -/
def sortedSet (ts : List (List Char)) : List (List Char) := sorted ts.eraseDups

/-- Whether a text occurs in another one. -/
def occursIn (part : List Char) : List Char → Bool
  | [] => part.isEmpty
  | c :: cs => part.isPrefixOf (c :: cs) || occursIn part cs

end Codemod.Text
