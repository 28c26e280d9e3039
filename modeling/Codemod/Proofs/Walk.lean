import Codemod.Proofs.Discovery
import Mathlib.Data.Char
import Mathlib.Data.List.Lex

/-!
# What a walk lists

A walk through a proper directory lists the files below it that count, each of them once: those
whose names have one of the suffixes and that can be reached without a directory that is passed
over. The files of a directory come first, in the order of their names, and then those of its
subdirectories, which are also taken in the order of their names. A file is given here by the names
that lead to it.
-/

namespace Codemod

/-! ### Sorted texts -/

namespace Text

theorem atMost_iff {a b : List Char} :
  atMost a b = true ↔ a ≤ b
  := by
  induction a generalizing b with
  | nil => simp [atMost, ← not_lt]
  | cons x xs ih =>
    cases b with
    | nil => simp [atMost, ← not_lt]
    | cons y ys =>
      have hval : x.toNat < y.toNat ↔ x < y := Iff.rfl
      simp only [atMost, Bool.or_eq_true, Bool.and_eq_true, decide_eq_true_iff, hval, ih,
        ← not_lt, List.cons_lt_cons_iff]
      rcases lt_trichotomy x y with h | rfl | h
      · simp [h, h.not_gt, h.ne']
      · simp
      · simp [h, h.not_gt, h.ne']

section Sorting

variable {α : Type} {key : α → List Char}

theorem pairwise_insertBy {a : α} {as : List α} (h : as.Pairwise fun x y => key x ≤ key y) :
  (insertBy key a as).Pairwise fun x y => key x ≤ key y
  := by
  induction as with
  | nil => exact List.pairwise_singleton _ a
  | cons b bs ih =>
    obtain ⟨hb, hbs⟩ := List.pairwise_cons.mp h
    rw [insertBy]
    split
    · rename_i hab
      have hab := atMost_iff.mp hab
      apply List.pairwise_cons.mpr ⟨?_, h⟩
      intro x hx
      rcases List.mem_cons.mp hx with rfl | hx
      · exact hab
      · exact hab.trans (hb x hx)
    · rename_i hab
      have hba : key b ≤ key a := le_of_not_ge fun hle => hab (atMost_iff.mpr hle)
      apply List.pairwise_cons.mpr ⟨?_, ih hbs⟩
      intro x hx
      rcases List.mem_cons.mp ((perm_insertBy key a bs).mem_iff.mp hx) with rfl | hx
      · exact hba
      · exact hb x hx

theorem pairwise_sortBy (as : List α) :
  (sortBy key as).Pairwise fun x y => key x ≤ key y
  := by
  induction as with
  | nil => exact List.Pairwise.nil
  | cons a as ih => exact pairwise_insertBy ih

/-- Items with different keys are in strict order once they are sorted. -/
theorem pairwise_sortBy_lt {as : List α} (h : (as.map key).Nodup) :
  (sortBy key as).Pairwise fun x y => key x < key y
  := by
  have hkeys : ((sortBy key as).map key).Nodup :=
    ((perm_sortBy key as).map key).nodup_iff.mpr h
  apply (pairwise_sortBy as).imp₂ _ (List.pairwise_map.mp hkeys)
  intro x y hle hne
  exact lt_of_le_of_ne hle hne

end Sorting

end Text

/-! ### The order of a walk -/

/-- A file comes before another one below the same directory. -/
inductive Precedes : List (List Char) → List (List Char) → Prop where
  /-- The files of the directory come in the order of their names. -/
  | files {m n : List Char} (h : m < n) : Precedes [m] [n]
  /-- The files of the directory come before those of its subdirectories. -/
  | fileFirst {m n : List Char} {ns : List (List Char)} (h : ns ≠ []) : Precedes [m] (n :: ns)
  /-- The subdirectories come in the order of their names. -/
  | subdirectories {m n : List Char} {ms ns : List (List Char)} (h : m < n) (hms : ms ≠ [])
      (hns : ns ≠ []) : Precedes (m :: ms) (n :: ns)
  /-- Files of one subdirectory come in the order that they have there. -/
  | within {n : List Char} {ms ns : List (List Char)} (h : Precedes ms ns) :
    Precedes (n :: ms) (n :: ns)

theorem Precedes.ne {ms ns : List (List Char)} (h : Precedes ms ns) :
  ms ≠ ns
  := by
  induction h with
  | files h => simpa using h.ne
  | fileFirst h =>
    intro heq
    exact h (List.cons.inj heq).2.symm
  | subdirectories h =>
    intro heq
    exact h.ne (List.cons.inj heq).1
  | within _ ih => simpa using ih

/-! ### Files below a directory -/

theorem filesOf_eq_flatMap (entries : List Entry) :
  filesOf entries = entries.flatMap Entry.files
  := by
  induction entries with
  | nil => rfl
  | cons e es ih => rw [filesOf, ih, List.flatMap_cons]

theorem Entry.mem_files {e : Entry} {names : List (List Char)} {content : List UInt8} :
  (names, content) ∈ e.files ↔
    e = .file e.name content ∧ names = [e.name]
      ∨ ∃ ns, e = .directory e.name e.entries ∧ names = e.name :: ns
        ∧ (ns, content) ∈ filesOf e.entries
  := by
  cases e with
  | file name c => simp [files, Entry.name, and_comm, eq_comm]
  | directory name entries =>
    simp only [files, List.mem_map, Prod.mk.injEq, Prod.exists, Entry.name, Entry.entries,
      reduceCtorEq, false_and, true_and, false_or]
    constructor
    · rintro ⟨ns, c, hmem, rfl, rfl⟩
      exact ⟨ns, rfl, hmem⟩
    · rintro ⟨ns, rfl, hmem⟩
      exact ⟨ns, content, hmem, rfl, rfl⟩

theorem ne_nil_of_mem_filesOf {entries : List Entry} {names : List (List Char)}
    {content : List UInt8} (h : (names, content) ∈ filesOf entries) :
  names ≠ []
  := by
  rw [filesOf_eq_flatMap] at h
  obtain ⟨e, -, he⟩ := List.mem_flatMap.mp h
  rcases Entry.mem_files.mp he with ⟨-, rfl⟩ | ⟨ns, -, rfl, -⟩ <;> exact List.cons_ne_nil _ _

namespace Search

/-- A file counts: its name has one of the suffixes, in any letter case, and no directory on the way
to it is passed over. -/
def Counts (s : Search) (names : List (List Char)) : Prop :=
  ∃ dirs name, names = dirs ++ [name]
    ∧ Text.lower (Path.suffixOf name) ∈ s.extensions.map Text.lower
    ∧ ∀ dir ∈ dirs, dir ∉ s.excluded

theorem counts_singleton {s : Search} {name : List Char} :
  s.Counts [name] ↔ s.admits name = true
  := by
  rw [admits, List.contains_iff_mem]
  constructor
  · rintro ⟨dirs, name', heq, hsuffix, -⟩
    obtain ⟨rfl, heq⟩ | ⟨-, heq⟩ := List.singleton_eq_append_iff.mp heq
    · cases heq
      exact hsuffix
    · cases heq
  · intro hsuffix
    exact ⟨[], name, rfl, hsuffix, by simp⟩

theorem counts_cons {s : Search} {n : List Char} {ns : List (List Char)} (h : ns ≠ []) :
  s.Counts (n :: ns) ↔ n ∉ s.excluded ∧ s.Counts ns
  := by
  constructor
  · rintro ⟨dirs, name, heq, hsuffix, hdirs⟩
    cases dirs with
    | nil =>
      cases heq
      cases h rfl
    | cons dir dirs =>
      obtain ⟨rfl, rfl⟩ := List.cons.inj heq
      obtain ⟨hn, hdirs⟩ := List.forall_mem_cons.mp hdirs
      exact ⟨hn, dirs, name, rfl, hsuffix, hdirs⟩
  · rintro ⟨hn, dirs, name, rfl, hsuffix, hdirs⟩
    exact ⟨n :: dirs, name, rfl, hsuffix, List.forall_mem_cons.mpr ⟨hn, hdirs⟩⟩

/-! ### What is listed -/

/-- The files that a walk lists, by the names that lead to them. -/
def listing (s : Search) (entries : List Entry) : List (List (List Char)) :=
  (s.walk ⟨[], []⟩ entries).map Path.parts

/-- The names of the files of a directory that count, in order. -/
def fileNames (s : Search) (entries : List Entry) : List (List Char) :=
  Text.sorted ((entries.filter fun e => e.isFile && s.admits e.name).map Entry.name)

/-- A walk lists the same files wherever the directory is. -/
theorem walk_eq_map (s : Search) (base : Path) (entries : List Entry) :
  s.walk base entries = (s.listing entries).map fun ns => ⟨base.root, base.parts ++ ns⟩
  := by
  suffices ∀ e : Entry, ∀ base,
      s.walk base e.entries
        = (s.listing e.entries).map fun ns => ⟨base.root, base.parts ++ ns⟩ from
    this (.directory [] entries) base
  clear base entries
  intro e
  induction e using Entry.induct with
  | file name content =>
    intro base
    rfl
  | directory name entries ih =>
    intro base
    rw [Entry.entries, listing, walk_eq, walk_eq, List.map_append, List.map_append]
    congr 1
    · simp [filesOf, Path.child]
    · simp only [List.map_flatMap]
      apply List.flatMap_congr
      intro e he
      have ih := ih e (mem_subdirectories he).1
      rw [ih (base.child e.name), ih (Path.child ⟨[], []⟩ e.name)]
      simp [Path.child]

theorem listing_eq (s : Search) (entries : List Entry) :
  s.listing entries
    = (s.fileNames entries).map ([·])
      ++ (s.subdirectories entries).flatMap fun e => (s.listing e.entries).map (e.name :: ·)
  := by
  rw [listing, walk_eq, List.map_append, List.map_flatMap]
  congr 1
  · simp [filesOf, Path.child, fileNames]
  · apply List.flatMap_congr
    intro e _
    rw [walk_eq_map]
    simp [Path.child]

theorem mem_fileNames {s : Search} {entries : List Entry} {name : List Char} :
  name ∈ s.fileNames entries ↔ s.admits name = true ∧ ∃ content, .file name content ∈ entries
  := by
  rw [fileNames, Text.sorted, (Text.perm_sortBy _ _).mem_iff, List.mem_map]
  simp only [List.mem_filter, Bool.and_eq_true]
  constructor
  · rintro ⟨e, ⟨hmem, hfile, hadmits⟩, rfl⟩
    cases e with
    | file name content => exact ⟨hadmits, content, hmem⟩
    | directory name entries => cases hfile
  · rintro ⟨hadmits, content, hmem⟩
    exact ⟨_, ⟨hmem, rfl, hadmits⟩, rfl⟩

theorem mem_subdirectories_iff {s : Search} {entries : List Entry} {e : Entry} :
  e ∈ s.subdirectories entries
    ↔ e ∈ entries ∧ e = .directory e.name e.entries ∧ e.name ∉ s.excluded
  := by
  rw [subdirectories, (Text.perm_sortBy _ _).mem_iff, List.mem_filter, enters]
  cases e <;> simp [Entry.isFile, Entry.name, Entry.entries]

/-- A walk lists the files that count, and no others. -/
theorem mem_listing {s : Search} {entries : List Entry} {names : List (List Char)} :
  names ∈ s.listing entries ↔ s.Counts names ∧ ∃ content, (names, content) ∈ Codemod.filesOf entries
  := by
  suffices ∀ e : Entry, ∀ names, names ∈ s.listing e.entries
      ↔ s.Counts names ∧ ∃ content, (names, content) ∈ Codemod.filesOf e.entries from
    this (.directory [] entries) names
  clear names entries
  intro e
  induction e using Entry.induct with
  | file name content =>
    intro names
    simp [Entry.entries, listing, walk, assemble, filesOf, belowAll, Text.sorted, Text.sortBy,
      Codemod.filesOf]
  | directory name entries ih =>
    intro names
    rw [Entry.entries, listing_eq, filesOf_eq_flatMap]
    simp only [List.mem_append, List.mem_map, List.mem_flatMap, mem_fileNames,
      mem_subdirectories_iff]
    constructor
    · rintro (⟨n, ⟨hadmits, content, hmem⟩, rfl⟩ | ⟨e, ⟨hmem, heq, hname⟩, ns, hns, rfl⟩)
      · exact ⟨counts_singleton.mpr hadmits, content, _, hmem,
          Entry.mem_files.mpr (.inl ⟨rfl, rfl⟩)⟩
      · obtain ⟨hcounts, content, hfile⟩ := (ih e hmem ns).mp hns
        refine ⟨(counts_cons (ne_nil_of_mem_filesOf hfile)).mpr ⟨hname, hcounts⟩, content, e, hmem,
          ?_⟩
        exact Entry.mem_files.mpr (.inr ⟨ns, heq, rfl, hfile⟩)
    · rintro ⟨hcounts, content, e, hmem, hfile⟩
      rcases Entry.mem_files.mp hfile with ⟨heq, rfl⟩ | ⟨ns, heq, rfl, hinner⟩
      · rw [heq] at hmem
        exact .inl ⟨_, ⟨counts_singleton.mp hcounts, content, hmem⟩, rfl⟩
      · obtain ⟨hname, hcounts⟩ := (counts_cons (ne_nil_of_mem_filesOf hinner)).mp hcounts
        exact .inr ⟨e, ⟨hmem, heq, hname⟩, ns, (ih e hmem ns).mpr ⟨hcounts, content, hinner⟩, rfl⟩

theorem ne_nil_of_mem_listing {s : Search} {entries : List Entry} {names : List (List Char)}
    (h : names ∈ s.listing entries) :
  names ≠ []
  := by
  obtain ⟨-, content, hfile⟩ := mem_listing.mp h
  exact ne_nil_of_mem_filesOf hfile

theorem pairwise_fileNames {s : Search} {entries : List Entry}
    (h : (entries.map Entry.name).Nodup) :
  (s.fileNames entries).Pairwise (· < ·)
  := by
  apply Text.pairwise_sortBy_lt
  rw [List.map_id']
  exact h.sublist (List.filter_sublist.map _)

theorem pairwise_subdirectories {s : Search} {entries : List Entry}
    (h : (entries.map Entry.name).Nodup) :
  (s.subdirectories entries).Pairwise fun e e' => e.name < e'.name
  := by
  apply Text.pairwise_sortBy_lt
  exact h.sublist (List.filter_sublist.map _)

/-- A walk lists the files in order. -/
theorem pairwise_listing {s : Search} {entries : List Entry} (h : areProper entries = true) :
  (s.listing entries).Pairwise Precedes
  := by
  suffices ∀ e : Entry, areProper e.entries = true → (s.listing e.entries).Pairwise Precedes from
    this (.directory [] entries) h
  clear h entries
  intro e
  induction e using Entry.induct with
  | file name content =>
    intro _
    exact List.Pairwise.nil
  | directory name entries ih =>
    intro h
    rw [Entry.entries] at h ⊢
    obtain ⟨hnames, hproper⟩ := areProper_iff.mp h
    rw [listing_eq, List.pairwise_append]
    refine ⟨?_, ?_, ?_⟩
    · rw [List.pairwise_map]
      exact (pairwise_fileNames hnames).imp .files
    · rw [List.pairwise_flatMap]
      constructor
      · intro e he
        obtain ⟨hmem, heq⟩ := mem_subdirectories he
        have hinner : areProper e.entries = true := by
          have hproper := (hproper e hmem).2
          rwa [heq, Entry.isProper] at hproper
        rw [List.pairwise_map]
        exact (ih e hmem hinner).imp .within
      · apply (pairwise_subdirectories hnames).imp
        intro e e' hlt _ hbelow _ hbelow'
        obtain ⟨ms, hms, rfl⟩ := List.mem_map.mp hbelow
        obtain ⟨ns, hns, rfl⟩ := List.mem_map.mp hbelow'
        exact .subdirectories hlt (ne_nil_of_mem_listing hms) (ne_nil_of_mem_listing hns)
    · intro _ hfile _ hdeeper
      obtain ⟨m, -, rfl⟩ := List.mem_map.mp hfile
      obtain ⟨e, -, hbelow⟩ := List.mem_flatMap.mp hdeeper
      obtain ⟨ns, hns, rfl⟩ := List.mem_map.mp hbelow
      exact .fileFirst (ne_nil_of_mem_listing hns)

/-- The files that are discovered from the path of a directory are exactly the files below it that
have one of the suffixes, in any letter case, and to which no directory that is passed over leads.
Each of them comes once, the files of a directory in order before those of its subdirectories, and
these in order too. -/
theorem discover_exact (s : Search) {f : Folder} (hf : f.Proper) {p : Path} {entries : List Entry}
    (hp : f.find? p = some (.directory entries)) :
  ∃ listed : List (List (List Char)),
    s.discover f [p] = listed.map (fun names => .file ⟨p.root, p.parts ++ names⟩)
    ∧ (s.discover f [p]).Nodup
    ∧ (∀ names, names ∈ listed ↔
      ∃ dirs name content, names = dirs ++ [name]
        ∧ (names, content) ∈ Codemod.filesOf entries
        ∧ Text.lower (Path.suffixOf name) ∈ s.extensions.map Text.lower
        ∧ ∀ dir ∈ dirs, dir ∉ s.excluded)
    ∧ listed.Pairwise Precedes
  := by
  have hproper : areProper entries = true := by
    obtain ⟨⟨place, target⟩, hlocate, rfl⟩ := Option.map_eq_some_iff.mp hp
    exact (Folder.leads_of_locate hlocate).isProper hf
  have hdiscover : s.discover f [p]
      = (s.listing entries).map (fun names => .file ⟨p.root, p.parts ++ names⟩) := by
    simp [discover, sightings, hp, walk_eq_map]
  have hordered : (s.listing entries).Pairwise Precedes := pairwise_listing hproper
  refine ⟨s.listing entries, hdiscover, ?_, ?_, hordered⟩
  · rw [hdiscover, List.Nodup, List.pairwise_map]
    apply hordered.imp
    intro ms ns hprecedes heq
    simp only [Sighting.file.injEq, Path.mk.injEq, List.append_cancel_left_eq, true_and] at heq
    exact hprecedes.ne heq
  · intro names
    rw [mem_listing]
    constructor
    · rintro ⟨⟨dirs, name, rfl, hsuffix, hdirs⟩, content, hfile⟩
      exact ⟨dirs, name, content, rfl, hfile, hsuffix, hdirs⟩
    · rintro ⟨dirs, name, content, rfl, hfile, hsuffix, hdirs⟩
      exact ⟨⟨dirs, name, rfl, hsuffix, hdirs⟩, content, hfile⟩

/-- Some entries with a file and a directory of the same name on different levels. -/
def bundle : List Entry :=
  [.file "b.JS".toList [], .directory "z".toList [.file "dist".toList [], .file "c.js".toList []],
    .directory "dist".toList [.file "d.js".toList []], .file "a.js".toList [],
    .file "a.ts".toList []]

/-- The name of a directory to pass over is no obstacle to the directory where a search starts, nor
to a file. -/
theorem discover_exact_spared :
  ∃ s : Search, s.extensions = [".Js".toList, []] ∧ s.excluded = ["dist".toList]
    ∧ Folder.Proper ⟨[.directory "dist".toList bundle]⟩
    ∧ Folder.find? ⟨[.directory "dist".toList bundle]⟩ (.ofText "dist".toList)
      = some (.directory bundle)
    ∧ ∃ listed : List (List (List Char)),
      s.discover ⟨[.directory "dist".toList bundle]⟩ [.ofText "dist".toList]
        = listed.map (fun names => .file ⟨[], "dist".toList :: names⟩)
      ∧ listed = [["a.js".toList], ["b.JS".toList], ["z".toList, "c.js".toList],
        ["z".toList, "dist".toList]]
      ∧ ["dist".toList, "d.js".toList] ∉ listed ∧ listed.Pairwise Precedes
  := by
  have hproper : Folder.Proper ⟨[.directory "dist".toList bundle]⟩ := by decide +kernel
  have hfind : Folder.find? ⟨[.directory "dist".toList bundle]⟩ (.ofText "dist".toList)
      = some (.directory bundle) := rfl
  refine ⟨⟨[".Js".toList, []], ["dist".toList]⟩, rfl, rfl, hproper, hfind, ?_⟩
  obtain ⟨listed, hdiscover, -, hmem, hordered⟩ :=
    discover_exact ⟨[".Js".toList, []], ["dist".toList]⟩ hproper hfind
  have hlisted : listed = [["a.js".toList], ["b.JS".toList], ["z".toList, "c.js".toList],
      ["z".toList, "dist".toList]] := by
    have hpaths : Search.discover ⟨[".Js".toList, []], ["dist".toList]⟩
        ⟨[.directory "dist".toList bundle]⟩ [.ofText "dist".toList]
        = [["a.js".toList], ["b.JS".toList], ["z".toList, "c.js".toList],
          ["z".toList, "dist".toList]].map (fun names => .file ⟨[], "dist".toList :: names⟩) := by
      decide +kernel
    rw [hpaths] at hdiscover
    refine (List.map_injective_iff.mpr ?_ hdiscover).symm
    intro ms ns heq
    simpa using heq
  refine ⟨listed, hdiscover, hlisted, ?_, hordered⟩
  rw [hmem]
  rintro ⟨dirs, name, content, heq, -, -, hdirs⟩
  have heq : ["dist".toList] ++ ["d.js".toList] = dirs ++ [name] := heq
  obtain ⟨rfl, -⟩ := List.append_inj' heq rfl
  exact hdirs _ List.mem_cons_self List.mem_cons_self

end Search

end Codemod
