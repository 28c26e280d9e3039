import Codemod.Files.Discovery
import Codemod.Proofs.Files
import Mathlib.Data.List.Perm.Basic

/-!
# Discovered files

A walk lists the files of a directory and then walks through its subdirectories. It only looks at
names, so that new contents of files make no difference, and in a proper tree each path that is
listed leads to a file.
-/

namespace Codemod

/-! ### Sorting -/

namespace Text

theorem perm_insertBy {α : Type} (key : α → List Char) (a : α) (as : List α) :
  (insertBy key a as).Perm (a :: as)
  := by
  induction as with
  | nil => rfl
  | cons b bs ih =>
    rw [insertBy]
    split
    · rfl
    · apply (ih.cons b).trans
      apply List.Perm.swap

theorem perm_sortBy {α : Type} (key : α → List Char) (as : List α) :
  (sortBy key as).Perm as
  := by
  induction as with
  | nil => rfl
  | cons a as ih =>
    rw [sortBy]
    apply (perm_insertBy key a _).trans
    apply ih.cons

theorem insertBy_map {α β : Type} (key : β → List Char) (f : α → β) (a : α) (as : List α) :
  insertBy key (f a) (as.map f) = (insertBy (key ∘ f) a as).map f
  := by
  induction as with
  | nil => rfl
  | cons b bs ih =>
    rw [List.map_cons, insertBy, insertBy, Function.comp_apply, Function.comp_apply]
    split
    · rfl
    · rw [ih, List.map_cons]

/-- Sorting by a key of the images is sorting by the key before. -/
theorem sortBy_map {α β : Type} (key : β → List Char) (f : α → β) (as : List α) :
  sortBy key (as.map f) = (sortBy (key ∘ f) as).map f
  := by
  induction as with
  | nil => rfl
  | cons a as ih => rw [List.map_cons, sortBy, ih, insertBy_map, sortBy]

end Text

/-- The entries inside of an entry. -/
def Entry.entries : Entry → List Entry
  | .file .. => []
  | .directory _ entries => entries

/-- The path of a file that a search comes across. -/
def Sighting.path? : Sighting → Option Path
  | .file p => some p
  | .missing _ => none

namespace Search

/-- Whether a walk goes into an entry. -/
def enters (s : Search) (e : Entry) : Bool := !e.isFile && !s.excluded.contains e.name

/-- The entries that a walk goes into, in the order of their names. -/
def subdirectories (s : Search) (entries : List Entry) : List Entry :=
  Text.sortBy Entry.name (entries.filter s.enters)

/-- The files that some paths stand for. -/
def files (s : Search) (f : Folder) (paths : List Path) : List Path :=
  (s.discover f paths).filterMap Sighting.path?

/-! ### The shape of a walk -/

theorem belowAll_eq (s : Search) (base : Path) (entries : List Entry) :
  s.belowAll base entries
    = (entries.filter s.enters).map fun e => (e.name, s.walk (base.child e.name) e.entries)
  := by
  induction entries with
  | nil => rfl
  | cons e es ih =>
    rw [belowAll, ih]
    cases e with
    | file => rfl
    | directory name inner =>
      have henters : s.enters (.directory name inner) = !s.excluded.contains name := rfl
      rw [below, List.filter_cons, henters]
      cases s.excluded.contains name <;> rfl

/-- A walk lists the files of a directory and goes on with the subdirectories. -/
theorem walk_eq (s : Search) (base : Path) (entries : List Entry) :
  s.walk base entries
    = s.filesOf base entries
      ++ (s.subdirectories entries).flatMap fun e => s.walk (base.child e.name) e.entries
  := by
  rw [walk, assemble, belowAll_eq, Text.sortBy_map, List.flatMap_map]
  rfl

theorem mem_subdirectories {s : Search} {entries : List Entry} {e : Entry}
    (h : e ∈ s.subdirectories entries) :
  e ∈ entries ∧ e = .directory e.name e.entries
  := by
  obtain ⟨hmem, henters⟩ := List.mem_filter.mp ((Text.perm_sortBy _ _).mem_iff.mp h)
  use hmem
  cases e with
  | file => simp [enters, Entry.isFile] at henters
  | directory => rfl

end Search

end Codemod
