import Codemod.Proofs.Discovery
import Codemod.Proofs.Renamed
import Codemod.Run.Apply

/-!
# Runs over many files

What becomes of a file in a run is decided by its own content. A run goes from one discovered file
to the next, and each step changes at most the content of one file. When no file is discovered
twice, the files that are still to come have the contents that they had in the beginning, so that
the results do not depend on what happens to other files, nor on whether anything is written.

The run looks up all files first. It comes to the same when directories are listed one by one,
between the changes to the files that come before them.
-/

namespace Codemod

/-- A change whose errors only concern the file that it is made to. -/
def Change.Contained (change : Change) : Prop :=
  ∀ text language filename e, (change.apply text language filename).result = .error e →
    (Run.skippable? e).isSome

/-- What becomes of a file. -/
inductive Fate where
  | failed (reason : List Char)
  | kept
  | changed (text : List Char)
  deriving DecidableEq, Repr

namespace Fate

/-- A file with some text is changed by a new text that is another one. -/
def ofText (old : List Char) : Option (List Char) → Fate
  | none => kept
  | some new => if new = old then kept else changed new

/-- What is reported about a file. -/
def verdict (path : Path) : Fate → Path × Bool × Option (List Char)
  | failed reason => (path, false, some reason)
  | kept => (path, false, none)
  | changed _ => (path, true, none)

/-- The content of a file afterwards. -/
def content (old : List UInt8) : Fate → List UInt8
  | changed text => Utf8.encode text
  | kept | failed _ => old

/-- What is written. -/
def revision (place : List (List Char)) : Fate → Revision
  | changed text => .single place (Utf8.encode text)
  | kept | failed _ => fun _ old => old

end Fate

/-- A result without the difference. -/
def FileResult.verdict (r : FileResult) : Path × Bool × Option (List Char) :=
  (r.path, r.changed, r.error)

/-- The content of the file at a path. -/
def Folder.contentAt (f : Folder) (p : Path) : List UInt8 :=
  match f.find? p with
  | some (.file content) => content
  | _ => []

theorem Folder.contentAt_revise {f : Folder} {p : Path} {place : List (List Char)}
    {content : List UInt8} (h : f.locate p = some (place, .file content)) (g : Revision) :
  (f.revise g).contentAt p = g place content
  := by
  rw [contentAt, find?_revise, h, Option.map_some, Target.revise, Revision.below, List.append_nil]

namespace Run

/-- What becomes of a file with some content. -/
def fate (change : Change) (path : Path) (content : List UInt8) : Fate :=
  match Utf8.decodeText content with
  | .error fault => .failed (FileError.undecodable fault).message
  | .ok old =>
    match (change.applyToFile old path).result with
    | .error e => .failed ((skippable? e).getD [])
    | .ok new => .ofText old new

/-! ### One file -/

/-- The outcome for a file at some place that has a given fate. -/
structure Settled (f : Folder) (dry : Bool) (path : Path) (place : List (List Char)) (fate : Fate)
    (o : Outcome) : Prop where
  results : o.results.map FileResult.verdict = [fate.verdict path]
  folder : o.folder = if dry then f else f.revise (fate.revision place)

theorem settled_skip (f : Folder) (dry : Bool) (path : Path) (place : List (List Char))
    (log : List LogLine) (reason : List Char) :
  Settled f dry path place (.failed reason) (skip f path log reason)
  := by
  use rfl
  rw [Fate.revision, Folder.revise_id, ite_self, skip]

theorem settled_accept {f : Folder} {path : Path} {place : List (List Char)}
    {content : List UInt8} (hf : f.Proper) (hpath : f.locate path = some (place, .file content))
    (dry : Bool) (log : List LogLine) (old : List Char) (new : Option (List Char)) :
  Settled f dry path place (.ofText old new) (accept f path dry log old new)
  := by
  have hkept : Settled f dry path place .kept ⟨[⟨path, false, none, none⟩], log, f⟩ := by
    use rfl
    rw [Fate.revision, Folder.revise_id, ite_self]
  cases new with
  | none => apply hkept
  | some new =>
    rw [Fate.ofText, accept]
    split
    · apply hkept
    · cases dry with
      | true => exact ⟨rfl, rfl⟩
      | false =>
        use rfl
        apply Folder.write_eq_revise hf hpath

/-- A change to one file comes out as the content of the file says, unless there is an error that
ends the run. -/
theorem applyTo_cases (change : Change) (dry : Bool) {f : Folder} {path : Path}
    {place : List (List Char)} {content : List UInt8} (hf : f.Proper)
    (hpath : f.locate path = some (place, .file content)) :
  (∃ text e, (change.applyToFile text path).result = .error e ∧ skippable? e = none
      ∧ applyTo change dry f path = .error e)
    ∨ ∃ o, applyTo change dry f path = .ok o
      ∧ Settled f dry path place (fate change path content) o
  := by
  rw [applyTo, Folder.readText, Folder.find?, hpath, fate]
  simp only [Option.map_some]
  cases hdecode : Utf8.decodeText content with
  | error fault =>
    right
    exact ⟨_, rfl, settled_skip ..⟩
  | ok old =>
    simp only [Except.mapError]
    cases hresult : (change.applyToFile old path).result with
    | error e =>
      cases hskip : skippable? e with
      | none =>
        left
        exact ⟨old, e, hresult, hskip, by simp only [hskip]⟩
      | some reason =>
        right
        simp only [hskip]
        exact ⟨_, rfl, settled_skip ..⟩
    | ok new =>
      right
      exact ⟨_, rfl, settled_accept hf hpath ..⟩

theorem applyToFile_contained {change : Change} (h : change.Contained) {text : List Char}
    {path : Path} {e : ChangeError} (he : (change.applyToFile text path).result = .error e) :
  (skippable? e).isSome
  := by
  rw [Change.applyToFile] at he
  split at he
  · cases he
    rfl
  · apply h _ _ _ e he

/-- A contained change comes out as the content of the file says. -/
theorem applyTo_settled {change : Change} (hchange : change.Contained) (dry : Bool) {f : Folder}
    {path : Path} {place : List (List Char)} {content : List UInt8} (hf : f.Proper)
    (hpath : f.locate path = some (place, .file content)) :
  ∃ o, applyTo change dry f path = .ok o ∧ Settled f dry path place (fate change path content) o
  := by
  rcases applyTo_cases change dry hf hpath with ⟨text, e, he, hskip, -⟩ | h
  · have := applyToFile_contained hchange he
    rw [hskip] at this
    cases this
  · apply h

/-- A revision that keeps the contents of some files. -/
def Spares (g : Revision) (f : Folder) (ps : List Path) : Prop :=
  ∀ p ∈ ps, ∀ place content, f.locate p = some (place, .file content) → g place content = content

/-- A file that a revision spares is found with its old content. -/
theorem Spares.locate {g : Revision} {f : Folder} {ps : List Path} (h : Spares g f ps) {p : Path}
    (hp : p ∈ ps) {place : List (List Char)} {content : List UInt8}
    (hlocate : f.locate p = some (place, .file content)) :
  (f.revise g).locate p = some (place, .file content)
  := by
  rw [Folder.locate_revise, hlocate, Option.map_some, Target.revise, Revision.below,
    List.append_nil, h p hp place content hlocate]

/-- What is still to be done: to look at an argument, to list a directory, or to make a change. -/
inductive Errand where
  | argument (path : Path)
  | directory (path : Path)
  | sighting (s : Sighting)

/-- What an argument comes to, as the files are now. -/
def look (search : Search) (f : Folder) (p : Path) : List Errand :=
  match f.find? p with
  | some (.file _) => if search.admits p.name then [.sighting (.file p)] else []
  | some (.directory _) => [.directory p]
  | none => [.sighting (.missing p)]

/-- The files of a directory and then its subdirectories, as the files are now. -/
def list (search : Search) (f : Folder) (p : Path) : List Errand :=
  match f.find? p with
  | some (.directory entries) =>
    ((search.filesOf p entries).map .file).map .sighting
      ++ (search.subdirectories entries).map fun e => .directory (p.child e.name)
  | _ => []

/-- The outcome of some errands, each of which meets the files as those before it left them. -/
inductive Interleaved (change : Change) (search : Search) (dry : Bool) :
    Folder → List Errand → Outcome → Prop where
  | done (f : Folder) : Interleaved change search dry f [] ⟨[], [], f⟩
  | argument {f : Folder} {p : Path} {es : List Errand} {o : Outcome}
      (h : Interleaved change search dry f (look search f p ++ es) o) :
      Interleaved change search dry f (.argument p :: es) o
  | directory {f : Folder} {p : Path} {es : List Errand} {o : Outcome}
      (h : Interleaved change search dry f (list search f p ++ es) o) :
      Interleaved change search dry f (.directory p :: es) o
  | sighting {f : Folder} {s : Sighting} {es : List Errand} {first rest : Outcome}
      (hvisit : visit change dry f s = .ok first)
      (h : Interleaved change search dry first.folder es rest) :
      Interleaved change search dry f (.sighting s :: es)
        ⟨first.results ++ rest.results, first.log ++ rest.log, rest.folder⟩

section

variable {change : Change} {search : Search} {dry : Bool} {f : Folder}

theorem interleaved_sighting_iff {s : Sighting} {es : List Errand} {o : Outcome} :
  Interleaved change search dry f (.sighting s :: es) o
    ↔ ∃ first rest, visit change dry f s = .ok first
      ∧ Interleaved change search dry first.folder es rest
      ∧ o = ⟨first.results ++ rest.results, first.log ++ rest.log, rest.folder⟩
  := by
  constructor
  · rintro (_ | _ | _ | ⟨hvisit, h⟩)
    exact ⟨_, _, hvisit, h, rfl⟩
  · rintro ⟨first, rest, hvisit, h, rfl⟩
    apply Interleaved.sighting hvisit h

/-- Errands that come to the same whatever the contents of the files are. -/
def Alike (change : Change) (search : Search) (dry : Bool) (f : Folder) (xs ys : List Errand) :
    Prop :=
  ∀ g es o, Interleaved change search dry (f.revise g) (xs ++ es) o
    ↔ Interleaved change search dry (f.revise g) (ys ++ es) o

/-- Sightings of files that are there. -/
def Seen (f : Folder) (ss : List Sighting) : Prop :=
  ∀ p, .file p ∈ ss → ∃ place content, f.locate p = some (place, .file content)

/-- A change to a file that is there leads to other contents. -/
theorem visit_revise (hf : f.Proper) {s : Sighting} (hs : Seen f [s]) {g : Revision} {o : Outcome}
    (h : visit change dry (f.revise g) s = .ok o) :
  ∃ g', o.folder = f.revise g'
  := by
  cases s with
  | missing p =>
    cases h
    exact ⟨g, rfl⟩
  | file p =>
    obtain ⟨place, content, hp⟩ := hs p List.mem_cons_self
    have hlocate : (f.revise g).locate p = some (place, .file (g place content)) := by
      rw [Folder.locate_revise, hp, Option.map_some, Target.revise, Revision.below,
        List.append_nil]
    rw [visit] at h
    rcases applyTo_cases change dry (hf.revise g) hlocate with ⟨_, _, -, -, he⟩ | ⟨o', ho, hsettled⟩
    · rw [he] at h
      cases h
    · rw [ho] at h
      cases h
      have hfolder := hsettled.folder
      rw [Folder.revise_revise] at hfolder
      cases dry with
      | true => exact ⟨_, hfolder⟩
      | false => exact ⟨_, hfolder⟩

/-- After the same sightings, errands that come to the same still do. -/
theorem Alike.after (hf : f.Proper) {ss : List Sighting} (hs : Seen f ss) {xs ys : List Errand}
    (h : Alike change search dry f xs ys) :
  Alike change search dry f (ss.map .sighting ++ xs) (ss.map .sighting ++ ys)
  := by
  induction ss with
  | nil => apply h
  | cons s ss ih =>
    have hfirst : Seen f [s] := fun p hp => hs p (by simp_all)
    have hrest : Seen f ss := fun p hp => hs p (List.mem_cons_of_mem _ hp)
    intro g es o
    rw [List.map_cons, List.cons_append, List.cons_append, List.cons_append, List.cons_append,
      interleaved_sighting_iff, interleaved_sighting_iff]
    apply exists₂_congr
    intro first rest
    apply and_congr_right
    intro hvisit
    obtain ⟨g', hg'⟩ := visit_revise hf hfirst hvisit
    rw [hg', ih hrest g' es rest]

theorem Alike.append (hf : f.Proper) {xs ys : List Errand} {ss ts : List Sighting}
    (hs : Seen f ss) (hxs : Alike change search dry f xs (ss.map .sighting))
    (hys : Alike change search dry f ys (ts.map .sighting)) :
  Alike change search dry f (xs ++ ys) ((ss ++ ts).map .sighting)
  := by
  intro g es o
  rw [List.append_assoc, hxs, ← List.append_assoc, hys.after hf hs, List.map_append]

theorem Alike.flatMap (hf : f.Proper) {α : Type} {as : List α} {x : α → List Errand}
    {s : α → List Sighting} (hs : ∀ a ∈ as, Seen f (s a))
    (h : ∀ a ∈ as, Alike change search dry f (x a) ((s a).map .sighting)) :
  Alike change search dry f (as.flatMap x) ((as.flatMap s).map .sighting)
  := by
  induction as with
  | nil =>
    intro g es o
    rfl
  | cons a as ih =>
    rw [List.forall_mem_cons] at hs h
    rw [List.flatMap_cons, List.flatMap_cons]
    apply h.1.append hf hs.1 (ih hs.2 h.2)

end

/-! ### Dry runs and real runs -/

/-- Renaming fails only where the text is not well formed. -/
theorem contained_rename (c : Rename) :
  Change.Contained c.run
  := by
  intro text language filename e he
  rw [Change.apply] at he
  cases hparse : Document.parse text language filename false with
  | error fault =>
    rw [hparse] at he
    cases he
    rfl
  | ok d =>
    obtain ⟨-, dialect, hd⟩ := Document.wellRead_of_parse hparse
    simp only [hparse] at he
    rw [Rename.result_run c hd] at he
    cases he

end Run

end Codemod
