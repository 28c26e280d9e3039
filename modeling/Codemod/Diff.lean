import Codemod.Files.Path
import Codemod.Text.Line

/-!
# Differences of two texts

The lines of two texts are matched from the longest common stretch on: what is before it on both
sides and what is behind it on both sides are matched in the same way. In a long second text, lines
that occur very often do not start a match, though a match may extend over them. The difference is
shown in hunks of changed lines with three lines around them.
-/

namespace Codemod.Diff

/-- A common stretch: its places on both sides and its length. -/
structure Block where
  i : Nat
  j : Nat
  size : Nat
  deriving DecidableEq, Repr

section Matching

variable {α : Type} [DecidableEq α]

/-- The lengths of the common stretches that end at a given item on one side and at each of the
items on the other side, from those for the item before. Items that do not start a match have
none. -/
def nextRow (x : α) (bs : List (α × Bool)) (row : List Nat) : List Nat :=
  List.zipWith (fun b k => if b.2 && x = b.1 then k + 1 else 0) bs (0 :: row)

/-- The longest of some stretches that end at the same item on one side, if it is longer than the
best one so far. -/
def bestOf (i : Nat) : (j : Nat) → List Nat → Block → Block
  | _, [], best => best
  | j, k :: ks, best =>
    bestOf i (j + 1) ks (if best.size < k then ⟨i + 1 - k, j + 1 - k, k⟩ else best)

/-- The longest common stretch, row by row. -/
def bestFrom (bs : List (α × Bool)) : (i : Nat) → List α → (row : List Nat) → Block → Block
  | _, [], _, best => best
  | i, a :: as, row, best =>
    let row' := nextRow a bs row
    bestFrom bs (i + 1) as row' (bestOf i 0 row' best)

/-- The number of items that two lists agree on at their fronts. -/
def agreement : List α → List α → Nat
  | a :: as, b :: bs => if a = b then agreement as bs + 1 else 0
  | _, _ => 0

/-- A stretch extended as far as both sides agree. -/
def extend (as bs : List α) (m : Block) : Block :=
  let back := agreement (as.take m.i).reverse (bs.take m.j).reverse
  let front := agreement (as.drop (m.i + m.size)) (bs.drop (m.j + m.size))
  ⟨m.i - back, m.j - back, back + m.size + front⟩

/-- The longest common stretch of two lists. -/
def longest (as : List α) (bs : List (α × Bool)) : Block :=
  extend as (bs.map Prod.fst) (bestFrom bs 0 as (bs.map fun _ => 0) ⟨0, 0, 0⟩)

/-- The common stretches of two lists that start at given places. Each one takes an item away, so
the number of items is a sufficient limit. -/
def blocksFrom : (limit : Nat) → (i j : Nat) → List α → List (α × Bool) → List Block
  | 0, _, _, _, _ => []
  | limit + 1, i, j, as, bs =>
    let m := longest as bs
    if m.size = 0 then []
    else
      blocksFrom limit i j (as.take m.i) (bs.take m.j) ++
        ⟨i + m.i, j + m.j, m.size⟩ ::
          blocksFrom limit (i + m.i + m.size) (j + m.j + m.size) (as.drop (m.i + m.size))
            (bs.drop (m.j + m.size))

/-- The items of a list, each with whether it may start a match. In a list of at least two hundred
items, those do not that occur more often than once in a hundred places and once more. -/
def anchored (bs : List α) : List (α × Bool) :=
  bs.map fun b => (b, bs.length < 200 || bs.count b ≤ bs.length / 100 + 1)

/-- The common stretches of two lists. -/
def blocks (as bs : List α) : List Block :=
  blocksFrom (as.length + 1) 0 0 as (anchored bs)

end Matching

/-- Some stretches after a first one, with those put together that follow each other directly. -/
def mergeFrom (b : Block) : List Block → List Block
  | [] => [b]
  | c :: cs =>
    if b.i + b.size = c.i && b.j + b.size = c.j then mergeFrom ⟨b.i, b.j, b.size + c.size⟩ cs
    else b :: mergeFrom c cs

/-- Some stretches, with those put together that follow each other directly. -/
def merge : List Block → List Block
  | [] => []
  | b :: bs => mergeFrom b bs

/-! ### Stretches -/

/-- A part of both sides that is equal, or that takes the place of the other. -/
structure Stretch where
  same : Bool
  i₁ : Nat
  i₂ : Nat
  j₁ : Nat
  j₂ : Nat
  deriving DecidableEq, Repr

/-- What is between the common stretches, and these. -/
def stretchesFrom (i j : Nat) : List Block → List Stretch
  | [] => []
  | b :: bs =>
    let gap : List Stretch := if i < b.i || j < b.j then [⟨false, i, b.i, j, b.j⟩] else []
    let common : List Stretch :=
      if b.size = 0 then [] else [⟨true, b.i, b.i + b.size, b.j, b.j + b.size⟩]
    gap ++ common ++ stretchesFrom (b.i + b.size) (b.j + b.size) bs

/-- Two lists as stretches. -/
def stretches {α : Type} [DecidableEq α] (as bs : List α) : List Stretch :=
  stretchesFrom 0 0 (merge (blocks as bs) ++ [⟨as.length, bs.length, 0⟩])

namespace Stretch

/-- The last items of a stretch. -/
def ending (n : Nat) (s : Stretch) : Stretch :=
  { s with i₁ := max s.i₁ (s.i₂ - n), j₁ := max s.j₁ (s.j₂ - n) }

/-- The first items of a stretch. -/
def opening (n : Nat) (s : Stretch) : Stretch :=
  { s with i₂ := min s.i₂ (s.i₁ + n), j₂ := min s.j₂ (s.j₁ + n) }

end Stretch

/-- Some stretches of which the first keeps only its end, when it is an equal one. -/
def trimFirst (n : Nat) : List Stretch → List Stretch
  | [] => []
  | s :: ss => (if s.same then s.ending n else s) :: ss

/-- Some stretches of which the last keeps only its beginning, when it is an equal one. -/
def trimLast (n : Nat) : List Stretch → List Stretch
  | [] => []
  | [s] => [if s.same then s.opening n else s]
  | s :: ss => s :: trimLast n ss

/-- Whether a group shows a change. -/
def isChanged (group : List Stretch) : Bool := group.any (!·.same)

/-- Some stretches in groups, which are cut where many items are equal. -/
def groupsFrom (n : Nat) : (group : List Stretch) → List Stretch → List (List Stretch)
  | group, [] => if isChanged group then [group] else []
  | group, s :: ss =>
    if s.same && 2 * n < s.i₂ - s.i₁ then
      (group ++ [s.opening n]) :: groupsFrom n [s.ending n] ss
    else groupsFrom n (group ++ [s]) ss

/-- Some stretches in groups with at most `n` equal items around the changes. -/
def groups (n : Nat) (ss : List Stretch) : List (List Stretch) :=
  groupsFrom n [] (trimLast n (trimFirst n ss))

/-! ### Hunks -/

/-- Whether a line is on both sides, or on which one. -/
inductive Mark where
  | kept | removed | added
  deriving DecidableEq, Repr

/-- The character in front of a line. -/
def Mark.char : Mark → Char
  | kept => ' '
  | removed => '-'
  | added => '+'

/-- A range of lines on both sides, and the lines. -/
structure Hunk where
  i₁ : Nat
  i₂ : Nat
  j₁ : Nat
  j₂ : Nat
  lines : List (Mark × List Char)
  deriving DecidableEq, Repr

/-- The items of a list from one place up to another. -/
def between {α : Type} (i₁ i₂ : Nat) (as : List α) : List α := (as.take i₂).drop i₁

/-- The lines of a stretch. -/
def stretchLines (old new : List (List Char)) (s : Stretch) : List (Mark × List Char) :=
  if s.same then (between s.i₁ s.i₂ old).map (Mark.kept, ·)
  else
    (between s.i₁ s.i₂ old).map (Mark.removed, ·) ++ (between s.j₁ s.j₂ new).map (Mark.added, ·)

/-- The hunk of a group. -/
def hunk? (old new : List (List Char)) (group : List Stretch) : Option Hunk :=
  match group.head?, group.getLast? with
  | some first, some last =>
    some ⟨first.i₁, last.i₂, first.j₁, last.j₂, group.flatMap (stretchLines old new)⟩
  | _, _ => none

/-- The number of lines around a change. -/
def contextLines : Nat := 3

/-- The hunks that lead from one list of lines to another one. -/
def hunks (old new : List (List Char)) : List Hunk :=
  (groups contextLines (stretches old new)).filterMap (hunk? old new)

/-! ### The text of a difference -/

/-- A range of lines: its first line and its length, which is left out when it is one. An empty
range stands at the line before it. -/
def renderRange (start stop : Nat) : List Char :=
  let length := stop - start
  if length = 1 then (toString (start + 1)).toList
  else
    let first := if length = 0 then start else start + 1
    s!"{first},{length}".toList

/-- The text of a hunk. -/
def Hunk.render (h : Hunk) : List Char :=
  "@@ -".toList ++ renderRange h.i₁ h.i₂ ++ " +".toList ++ renderRange h.j₁ h.j₂ ++
    " @@\n".toList ++ h.lines.flatMap fun l => l.1.char :: l.2

/-- The difference of two texts under the name of a path. It is empty when no line differs. -/
def render (path : Path) (old new : List Char) : List Char :=
  match hunks (Text.keptLines old) (Text.keptLines new) with
  | [] => []
  | hs =>
    "--- a/".toList ++ path.render ++ "\n+++ b/".toList ++ path.render ++ '\n' ::
      hs.flatMap Hunk.render

end Codemod.Diff
