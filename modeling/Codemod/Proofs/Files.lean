import Codemod.Files.Tree
import Mathlib.Data.List.Nodup
import Mathlib.Tactic.Common

/-!
# The contents of a directory tree

A directory tree is names and contents. Following a path looks at the names only, so that it leads
to the same place when the contents of files are replaced by others. In a proper tree, where the
names of a directory are distinct and no entry is called `..`, writing to a file that is there is
such a replacement, and it concerns this file alone.
-/

namespace Codemod

/-- New contents for files, by the names that lead to them and the contents they have. -/
abbrev Revision := List (List Char) → List UInt8 → List UInt8

namespace Revision

/-- What a revision does below a place. -/
def below (g : Revision) (names : List (List Char)) : Revision := fun ns => g (names ++ ns)

/-- The new content for a single file. -/
def single (names : List (List Char)) (content : List UInt8) : Revision :=
  fun ns old => if ns = names then content else old

/-- One revision after another one. -/
def andThen (g h : Revision) : Revision := fun ns content => h ns (g ns content)

@[simp]
theorem below_nil (g : Revision) :
  g.below [] = g
  := rfl

theorem below_below (g : Revision) (ms ns : List (List Char)) :
  (g.below ms).below ns = g.below (ms ++ ns)
  := by
  funext ks
  simp [below]

theorem single_below (n : List Char) (ns : List (List Char)) (content : List UInt8) :
  (single (n :: ns) content).below [n] = single ns content
  := by
  funext ks old
  simp [below, single]

theorem single_below_of_ne {n m : List Char} (h : n ≠ m) (ns : List (List Char))
    (content : List UInt8) :
  (single (n :: ns) content).below [m] = fun _ old => old
  := by
  funext ks old
  simp [below, single, h.symm]

end Revision

mutual

/-- An entry with the contents of a revision. -/
def Entry.revise (g : Revision) : Entry → Entry
  | .file name content => .file name (g [name] content)
  | .directory name entries => .directory name (reviseAll (g.below [name]) entries)

/-- Some entries with the contents of a revision. -/
def reviseAll (g : Revision) : List Entry → List Entry
  | [] => []
  | e :: es => e.revise g :: reviseAll g es

end

mutual

/-- Whether the directories of an entry are proper. -/
def Entry.isProper : Entry → Bool
  | .file .. => true
  | .directory _ entries => areProper entries

/-- Whether some entries have distinct names, none of them is `..`, and their directories are
proper too. -/
def areProper : List Entry → Bool
  | [] => true
  | e :: es => e.name ≠ ['.', '.'] && es.all (·.name ≠ e.name) && e.isProper && areProper es

end

/-- What is found at a place, with the contents of a revision. -/
def Target.revise (g : Revision) : Target → Target
  | .file content => .file (g [] content)
  | .directory entries => .directory (reviseAll g entries)

/-- A directory tree with the contents of a revision. -/
def Folder.revise (f : Folder) (g : Revision) : Folder := ⟨reviseAll g f.entries⟩

/-- A directory tree as it can be: the names of a directory are distinct, and none is `..`. -/
def Folder.Proper (f : Folder) : Prop := areProper f.entries = true

instance (f : Folder) : Decidable f.Proper := inferInstanceAs (Decidable (_ = _))

/-! ### Induction on entries -/

/-- What holds of files, and of a directory when it holds of its entries, holds of all entries. -/
theorem Entry.induct {P : Entry → Prop} (file : ∀ name content, P (.file name content))
    (directory : ∀ name entries, (∀ e ∈ entries, P e) → P (.directory name entries)) :
  ∀ e, P e
  | .file name content => file name content
  | .directory name entries =>
    directory name entries fun e _ => Entry.induct file directory e

theorem reviseAll_eq_map (g : Revision) (es : List Entry) :
  reviseAll g es = es.map (Entry.revise g)
  := by
  induction es with
  | nil => rfl
  | cons e es ih => rw [reviseAll, ih, List.map_cons]

@[simp]
theorem Entry.name_revise (g : Revision) (e : Entry) :
  (e.revise g).name = e.name
  := by
  cases e <;> rfl

@[simp]
theorem Entry.isFile_revise (g : Revision) (e : Entry) :
  (e.revise g).isFile = e.isFile
  := by
  cases e <;> rfl

/-- A revision that keeps all contents changes nothing. -/
theorem Entry.revise_id (e : Entry) :
  e.revise (fun _ content => content) = e
  := by
  induction e using Entry.induct with
  | file name content => rfl
  | directory name entries ih =>
    rw [Entry.revise, reviseAll_eq_map]
    congr 1
    apply (List.map_congr_left ih).trans
    apply List.map_id

theorem Entry.revise_revise (g h : Revision) (e : Entry) :
  (e.revise g).revise h = e.revise (g.andThen h)
  := by
  induction e using Entry.induct generalizing g h with
  | file name content => rfl
  | directory name entries ih =>
    simp only [Entry.revise, reviseAll_eq_map, List.map_map]
    congr 1
    apply List.map_congr_left
    intro e he
    apply ih e he

theorem Folder.revise_id (f : Folder) :
  f.revise (fun _ content => content) = f
  := by
  rw [Folder.revise, reviseAll_eq_map, List.map_id'' Entry.revise_id]

theorem Folder.revise_revise (f : Folder) (g h : Revision) :
  (f.revise g).revise h = f.revise (g.andThen h)
  := by
  simp only [Folder.revise, reviseAll_eq_map, List.map_map]
  congr 1
  apply List.map_congr_left
  intro e _
  apply Entry.revise_revise

/-! ### Proper trees -/

theorem areProper_cons {e : Entry} {es : List Entry} :
  areProper (e :: es) = true
    ↔ e.name ≠ ['.', '.'] ∧ (∀ e' ∈ es, e'.name ≠ e.name) ∧ e.isProper = true
      ∧ areProper es = true
  := by
  simp [areProper, and_assoc]

theorem areProper_iff {es : List Entry} :
  areProper es = true
    ↔ (es.map Entry.name).Nodup ∧ ∀ e ∈ es, e.name ≠ ['.', '.'] ∧ e.isProper = true
  := by
  induction es with
  | nil => simp [areProper]
  | cons e es ih =>
    rw [areProper_cons, ih, List.map_cons, List.nodup_cons, List.forall_mem_cons]
    constructor
    · rintro ⟨hdots, hname, he, hnodup, hall⟩
      refine ⟨⟨?_, hnodup⟩, ⟨hdots, he⟩, hall⟩
      intro hmem
      obtain ⟨e', he', heq⟩ := List.mem_map.mp hmem
      apply hname e' he' heq
    · rintro ⟨⟨hname, hnodup⟩, ⟨hdots, he⟩, hall⟩
      refine ⟨hdots, ?_, he, hnodup, hall⟩
      intro e' he' heq
      apply hname (List.mem_map.mpr ⟨e', he', heq⟩)

theorem Entry.isProper_revise (g : Revision) (e : Entry) :
  (e.revise g).isProper = e.isProper
  := by
  induction e using Entry.induct generalizing g with
  | file name content => rfl
  | directory name entries ih =>
    rw [Entry.revise, Entry.isProper, Entry.isProper]
    apply Bool.eq_iff_iff.mpr
    rw [areProper_iff, areProper_iff, reviseAll_eq_map, List.map_map, List.forall_mem_map]
    apply and_congr
    · apply Iff.of_eq
      congr 1
      apply List.map_congr_left
      intro e _
      apply Entry.name_revise
    · apply forall₂_congr
      intro e he
      rw [Entry.name_revise, ih e he]

theorem Folder.Proper.revise {f : Folder} (h : f.Proper) (g : Revision) :
  (f.revise g).Proper
  := by
  have := Entry.isProper_revise (fun ns => g ns.tail) (.directory [] f.entries)
  apply this.trans h

/-- In a proper directory an entry is found under its name. -/
theorem Folder.lookup?_of_mem {es : List Entry} {e : Entry} (hes : areProper es = true)
    (he : e ∈ es) :
  lookup? es e.name = some e
  := by
  induction es with
  | nil => cases he
  | cons e' es ih =>
    obtain ⟨-, hname, -, hes⟩ := areProper_cons.mp hes
    rw [lookup?, List.find?_cons]
    rcases List.mem_cons.mp he with rfl | he
    · simp
    · have hne : e'.name ≠ e.name := (hname e he).symm
      simp only [hne, decide_false]
      apply ih hes he

theorem Folder.lookup?_some {es : List Entry} {n : List Char} {e : Entry}
    (h : lookup? es n = some e) :
  e ∈ es ∧ e.name = n
  := by
  rw [lookup?] at h
  have hname := List.find?_some h
  exact ⟨List.mem_of_find?_eq_some h, by simpa using hname⟩

/-- What is found in a proper directory is not called `..`, and is proper itself. -/
theorem Folder.isProper_of_lookup? {es : List Entry} {n : List Char} {e : Entry}
    (hes : areProper es = true) (h : lookup? es n = some e) :
  n ≠ ['.', '.'] ∧ e.isProper = true
  := by
  obtain ⟨hmem, rfl⟩ := lookup?_some h
  apply (areProper_iff.mp hes).2 e hmem

theorem Folder.lookup?_reviseAll (g : Revision) (es : List Entry) (n : List Char) :
  lookup? (reviseAll g es) n = (lookup? es n).map (Entry.revise g)
  := by
  rw [lookup?, reviseAll_eq_map, List.find?_map, lookup?]
  congr 2
  funext e
  rw [Function.comp_apply, Entry.name_revise]

/-! ### Following a path -/

namespace Folder

/-- The names from the bottom of a stack of directories to its top. -/
def placeOf (stack : List (List Char × List Entry)) : List (List Char) :=
  stack.reverse.tail.map Prod.fst

/-- A stack of directories with the contents of a revision. -/
def reviseStack (g : Revision) : List (List Char × List Entry) → List (List Char × List Entry)
  | [] => []
  | (name, here) :: above =>
    (name, reviseAll (g.below (placeOf ((name, here) :: above))) here) :: reviseStack g above

theorem placeOf_cons (n : List Char) (inner : List Entry) (level : List Char × List Entry)
    (above : List (List Char × List Entry)) :
  placeOf ((n, inner) :: level :: above) = placeOf (level :: above) ++ [n]
  := by
  have hne : (level :: above).reverse ≠ [] := by simp
  rw [placeOf, List.reverse_cons, List.tail_append_of_ne_nil hne, List.map_append]
  rfl

theorem map_fst_reviseStack (g : Revision) (stack : List (List Char × List Entry)) :
  (reviseStack g stack).map Prod.fst = stack.map Prod.fst
  := by
  induction stack with
  | nil => rfl
  | cons level above ih =>
    rw [reviseStack, List.map_cons, List.map_cons, ih]

theorem placeOf_reviseStack (g : Revision) (stack : List (List Char × List Entry)) :
  placeOf (reviseStack g stack) = placeOf stack
  := by
  rw [placeOf, placeOf, List.map_tail, List.map_tail, List.map_reverse, List.map_reverse,
    map_fst_reviseStack]

/-- Following names in a revised tree leads to the same place, with the contents there revised. -/
theorem follow_reviseStack (g : Revision) (stack : List (List Char × List Entry))
    (names : List (List Char)) :
  follow (reviseStack g stack) names
    = (follow stack names).map fun found => (found.1, found.2.revise (g.below found.1))
  := by
  fun_induction follow stack names with
  | case1 => rw [reviseStack, follow, Option.map_none]
  | case2 name here above =>
    rw [reviseStack, follow, Option.map_some, ← reviseStack]
    congr 2
    apply placeOf_reviseStack
  | case3 name here above ns ih =>
    rw [reviseStack, follow, if_pos rfl, ih]
  | case4 name here above n ns hn hlook =>
    rw [reviseStack, follow, if_neg hn, lookup?_reviseAll, hlook]
    rfl
  | case5 name here above n ns hn m inner hlook ih =>
    obtain rfl : m = n := (lookup?_some hlook).2
    rw [reviseStack, placeOf_cons, ← Revision.below_below] at ih
    rw [reviseStack, follow, if_neg hn, lookup?_reviseAll, hlook, ← ih, reviseStack]
    rfl
  | case6 name here above n ns hn m content hlook hend =>
    rw [reviseStack, follow, if_neg hn, lookup?_reviseAll, hlook]
    obtain rfl : m = n := (lookup?_some hlook).2
    simp only [Option.map_some, Entry.revise, hend, if_true, Target.revise]
    rw [← placeOf, ← placeOf, ← reviseStack, placeOf_reviseStack, Revision.below, Revision.below,
      List.append_nil]
  | case7 name here above n ns hn m content hlook hend =>
    rw [reviseStack, follow, if_neg hn, lookup?_reviseAll, hlook]
    simp only [Option.map_some, Entry.revise, hend]
    rfl

/-- A path leads to the same place in a revised tree, with the contents there revised. -/
theorem locate_revise (f : Folder) (g : Revision) (p : Path) :
  (f.revise g).locate p
    = (f.locate p).map fun found => (found.1, found.2.revise (g.below found.1))
  := by
  rw [locate, locate]
  split
  · apply follow_reviseStack g [([], f.entries)]
  · rfl

theorem find?_revise (f : Folder) (g : Revision) (p : Path) :
  (f.revise g).find? p = (f.locate p).map fun found => found.2.revise (g.below found.1)
  := by
  rw [find?, locate_revise, Option.map_map]
  rfl

/-! ### Places -/

/-- What names lead to when all of them go down. -/
inductive Leads : List Entry → List (List Char) → Target → Prop where
  | here (es : List Entry) : Leads es [] (.directory es)
  | file {es : List Entry} {n : List Char} {content : List UInt8}
      (h : lookup? es n = some (.file n content)) : Leads es [n] (.file content)
  | into {es inner : List Entry} {n : List Char} {ns : List (List Char)} {t : Target}
      (h : lookup? es n = some (.directory n inner)) (hrest : Leads inner ns t) :
      Leads es (n :: ns) t

/-- The stacks of directories on the way down from some entries. -/
inductive Stacked (es : List Entry) : List (List Char × List Entry) → Prop where
  | bottom (name : List Char) : Stacked es [(name, es)]
  | push {level : List Char × List Entry} {above : List (List Char × List Entry)}
      {n : List Char} {inner : List Entry} (h : lookup? level.2 n = some (.directory n inner))
      (hrest : Stacked es (level :: above)) : Stacked es ((n, inner) :: level :: above)

theorem Leads.trans {es here : List Entry} {ms ns : List (List Char)} {t : Target}
    (hms : Leads es ms (.directory here)) (hns : Leads here ns t) :
  Leads es (ms ++ ns) t
  := by
  generalize ht : Target.directory here = middle at hms
  induction hms with
  | here es =>
    cases ht
    apply hns
  | file h => cases ht
  | into h hrest ih => apply Leads.into h (ih ht)

theorem Leads.isProper {es here : List Entry} {ns : List (List Char)}
    (h : Leads es ns (.directory here)) (hes : areProper es = true) :
  areProper here = true
  := by
  generalize ht : Target.directory here = middle at h
  induction h with
  | here es =>
    cases ht
    apply hes
  | file h => cases ht
  | into h hrest ih =>
    apply ih (isProper_of_lookup? hes h).2 ht

theorem Stacked.leads {es : List Entry} {level : List Char × List Entry}
    {above : List (List Char × List Entry)} (h : Stacked es (level :: above)) :
  Leads es (placeOf (level :: above)) (.directory level.2)
  := by
  generalize hs : level :: above = stack at h
  induction h generalizing level above with
  | bottom name =>
    cases hs
    apply Leads.here
  | push hlook hrest ih =>
    cases hs
    rw [placeOf_cons]
    apply (ih rfl).trans
    apply Leads.into hlook (Leads.here _)

/-- What is reached with double dots on the way can be reached without. -/
theorem Stacked.leads_of_follow {es : List Entry} {stack : List (List Char × List Entry)}
    {names place : List (List Char)} {t : Target} (hs : Stacked es stack)
    (h : follow stack names = some (place, t)) :
  Leads es place t
  := by
  fun_induction follow stack names with
  | case1 => cases h
  | case2 name here above =>
    cases h
    apply hs.leads
  | case3 name here above ns ih =>
    cases hs with
    | bottom =>
      rw [follow] at h
      cases h
    | push hlook hrest => apply ih hrest h
  | case4 => cases h
  | case5 name here above n ns hn m inner hlook ih =>
    obtain rfl : m = n := (lookup?_some hlook).2
    apply ih (hs.push hlook) h
  | case6 name here above n ns hn m content hlook hend =>
    obtain rfl : m = n := (lookup?_some hlook).2
    cases h
    apply hs.leads.trans
    apply Leads.file hlook
  | case7 => cases h

theorem leads_of_locate {f : Folder} {p : Path} {place : List (List Char)} {t : Target}
    (h : f.locate p = some (place, t)) :
  Leads f.entries place t
  := by
  rw [locate] at h
  split at h
  · apply (Stacked.bottom []).leads_of_follow h
  · cases h

/-- Names that go down lead on from the top of a stack. -/
theorem Leads.follow {here : List Entry} {ns : List (List Char)} {t : Target}
    (h : Leads here ns t) (hhere : areProper here = true) (name : List Char)
    (above : List (List Char × List Entry)) :
  follow ((name, here) :: above) ns = some (placeOf ((name, here) :: above) ++ ns, t)
  := by
  induction h generalizing name above with
  | here es => rw [Folder.follow, List.append_nil, placeOf]
  | @file es n content hlook =>
    rw [Folder.follow, if_neg (isProper_of_lookup? hhere hlook).1, hlook]
    rfl
  | @into es inner n ns t hlook hrest ih =>
    obtain ⟨hn, hinner⟩ := isProper_of_lookup? hhere hlook
    rw [Folder.follow, if_neg hn, hlook]
    apply (ih hinner n ((name, es) :: above)).trans
    rw [placeOf_cons, List.append_assoc, List.singleton_append]

theorem Leads.ne_nil {es : List Entry} {names : List (List Char)} {content : List UInt8}
    (h : Leads es names (.file content)) :
  names ≠ []
  := by
  cases h <;> simp

/-- An entry of another name is not concerned by the new content of a file. -/
theorem revise_single_of_ne {e : Entry} {n : List Char} (h : e.name ≠ n)
    (ns : List (List Char)) (content : List UInt8) :
  e.revise (.single (n :: ns) content) = e
  := by
  cases e with
  | file m old =>
    have hm : m ≠ n := h
    rw [Entry.revise, Revision.single, if_neg]
    simp [hm]
  | directory m inner =>
    have hm : n ≠ m := Ne.symm h
    rw [Entry.revise, Revision.single_below_of_ne hm, reviseAll_eq_map,
      List.map_id'' Entry.revise_id]

/-- Putting a file where there is one is a revision. -/
theorem Leads.putAt {es : List Entry} {names : List (List Char)} {old : List UInt8}
    (h : Leads es names (.file old)) (hes : areProper es = true) (content : List UInt8) :
  putAt content names es = reviseAll (.single names content) es
  := by
  generalize ht : Target.file old = t at h
  induction h with
  | here => cases ht
  | @file es n old' hlook =>
    rw [Folder.putAt, hlook, Option.isSome_some, if_pos rfl, reviseAll_eq_map]
    apply List.map_congr_left
    intro e he
    split
    next hname =>
      have hfound := lookup?_of_mem hes he
      rw [hname, hlook] at hfound
      cases hfound
      simp [Entry.revise, Revision.single]
    next hname => rw [revise_single_of_ne hname]
  | @into es inner n ns t hlook hrest ih =>
    subst ht
    obtain ⟨m, ms, rfl⟩ := List.exists_cons_of_ne_nil hrest.ne_nil
    have hinner := (isProper_of_lookup? hes hlook).2
    rw [Folder.putAt, hlook, Option.isSome_some, if_pos rfl, reviseAll_eq_map]
    · apply List.map_congr_left
      intro e he
      by_cases hname : e.name = n
      · have hfound := lookup?_of_mem hes he
        rw [hname, hlook] at hfound
        cases hfound
        simp only [if_true, Entry.revise, Revision.single_below]
        rw [ih hinner rfl]
      · rw [revise_single_of_ne hname]
        cases e with
        | file => rfl
        | directory k es => exact if_neg hname
    · simp

/-- Writing to a file that is there changes its content and nothing else. -/
theorem write_eq_revise {f : Folder} {p : Path} {names : List (List Char)} {old : List UInt8}
    (hf : f.Proper) (h : f.locate p = some (names, .file old)) (content : List UInt8) :
  f.write p content = f.revise (.single names content)
  := by
  rw [write, h, revise, ← (leads_of_locate h).putAt hf]

end Folder

end Codemod
