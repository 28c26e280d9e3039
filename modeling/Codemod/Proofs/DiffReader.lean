import Codemod.Proofs.Patch

/-!
# Reading a difference

A reader for the lines of a difference: two lines that name the files, and hunks, each of which has
a line with the ranges of both sides and as many lines as these say. The lines of hunks are read as
these hunks, whatever follows them.
-/

namespace Codemod.Diff

/-! ### A reader -/

/-- A number at the front of a text, and what follows it. -/
def readNumber? (cs : List Char) : Option (Nat × List Char) :=
  let digits := cs.takeWhile Char.isDigit
  if digits = [] then none
  else some (Nat.ofDigitChars 10 digits 0, cs.dropWhile Char.isDigit)

/-- The start and the length of a range. The length is one where it is left out. -/
def readRange? (cs : List Char) : Option ((Nat × Nat) × List Char) :=
  (readNumber? cs).bind fun (first, rest) =>
    match rest with
    | ',' :: rest => (readNumber? rest).map fun (length, rest) =>
      ((if length = 0 then first else first - 1, length), rest)
    | rest => some ((first - 1, 1), rest)

/-- The ranges of both sides in the first line of a hunk. -/
def readHeader? (line : List Char) : Option ((Nat × Nat) × (Nat × Nat)) := do
  let rest ← line.dropPrefix? "@@ -".toList
  let (old, rest) ← readRange? rest
  let rest ← rest.dropPrefix? " +".toList
  let (new, rest) ← readRange? rest
  if rest = " @@\n".toList then some (old, new) else none

/-- The lines that are still due to a hunk, so many on each side, and the hunks that follow it. -/
def readLines? : (olds news : Nat) → List (List Char) →
    Option (List (Mark × List Char) × List Hunk)
  | m + 1, n + 1, (' ' :: text) :: rest =>
    (readLines? m n rest).map fun r => ((.kept, text) :: r.1, r.2)
  | m + 1, n, ('-' :: text) :: rest =>
    (readLines? m n rest).map fun r => ((.removed, text) :: r.1, r.2)
  | m, n + 1, ('+' :: text) :: rest =>
    (readLines? m n rest).map fun r => ((.added, text) :: r.1, r.2)
  | 0, 0, line :: rest =>
    (readHeader? line).bind fun (old, new) =>
      (readLines? old.2 new.2 rest).map fun r =>
        ([], ⟨old.1, old.1 + old.2, new.1, new.1 + new.2, r.1⟩ :: r.2)
  | 0, 0, [] => some ([], [])
  | _, _, _ => none

/-- The hunks of a difference. -/
def read? : List (List Char) → Option (List Hunk)
  | first :: second :: rest =>
    if "--- ".toList.isPrefixOf first && "+++ ".toList.isPrefixOf second then
      (readLines? 0 0 rest).map Prod.snd
    else none
  | _ => none

/-- A text with a difference applied to it. -/
def patch? (text : List Char) (lines : List (List Char)) : Option (List Char) :=
  (read? lines).bind fun hunks => (applyHunks? (Text.keptLines text) 0 0 hunks).map List.flatten

/-! ### Reading what was written -/

theorem readNumber?_append (n : Nat) (rest : List Char)
    (hrest : ∀ c ∈ rest.head?, c.isDigit = false) :
  readNumber? (Nat.toDigits 10 n ++ rest) = some (n, rest)
  := by
  have hdigits : ∀ c ∈ Nat.toDigits 10 n, c.isDigit = true :=
    fun c hc => Nat.isDigit_of_mem_toDigits (by decide) (by decide) hc
  have htake : rest.takeWhile Char.isDigit = [] := by
    cases rest with
    | nil => rfl
    | cons c cs => rw [List.takeWhile_cons, hrest c rfl, if_neg Bool.false_ne_true]
  have hdrop : rest.dropWhile Char.isDigit = rest := by
    cases rest with
    | nil => rfl
    | cons c cs => rw [List.dropWhile_cons, hrest c rfl, if_neg Bool.false_ne_true]
  rw [readNumber?, List.takeWhile_append_of_pos hdigits, List.dropWhile_append_of_pos hdigits,
    htake, hdrop, List.append_nil]
  rw [if_neg Nat.toDigits_ne_nil, Nat.ofDigitChars_toDigits (by decide) (by decide)]

theorem renderRange_eq (start stop : Nat) :
  renderRange start stop
    = if stop - start = 1 then Nat.toDigits 10 (start + 1)
      else Nat.toDigits 10 (if stop - start = 0 then start else start + 1)
        ++ ',' :: Nat.toDigits 10 (stop - start)
  := by
  have hcomma : (toString ",").toList = [','] := rfl
  simp only [renderRange, String.toList_append, Nat.toString_eq_repr, Nat.toList_repr, hcomma,
    List.append_assoc, List.singleton_append]

theorem readRange?_append (start stop : Nat) (rest : List Char) :
  readRange? (renderRange start stop ++ ' ' :: rest)
    = some ((start, stop - start), ' ' :: rest)
  := by
  rw [renderRange_eq]
  split
  · rename_i hone
    rw [readRange?, readNumber?_append _ _ (by simp), hone]
    rfl
  · rename_i hone
    rw [List.append_assoc, List.cons_append, readRange?, readNumber?_append _ _ (by simp),
      Option.bind_some]
    simp only [readNumber?_append (stop - start) (' ' :: rest) (by simp), Option.map_some]
    split <;> rfl

/-- The first line of a hunk. -/
def Hunk.header (h : Hunk) : List Char :=
  "@@ -".toList ++ (renderRange h.i₁ h.i₂ ++ (" +".toList ++ (renderRange h.j₁ h.j₂ ++
    " @@\n".toList)))

/-- A line of a hunk, with its mark in front. -/
def lineText (l : Mark × List Char) : List Char := l.1.char :: l.2

/-- The lines of a hunk in the text of a difference. -/
def Hunk.textLines (h : Hunk) : List (List Char) := h.header :: h.lines.map lineText

theorem Hunk.render_eq (h : Hunk) :
  h.render = h.textLines.flatten
  := by
  unfold Hunk.render textLines header
  simp only [List.flatten_cons, List.append_assoc, ← List.flatMap_def]
  rfl

theorem flatMap_render (hs : List Hunk) :
  hs.flatMap Hunk.render = (hs.flatMap Hunk.textLines).flatten
  := by
  induction hs with
  | nil => rfl
  | cons h hs ih =>
    rw [List.flatMap_cons, List.flatMap_cons, List.flatten_append, h.render_eq, ih]

theorem dropPrefix?_append (front rest : List Char) :
  (front ++ rest).dropPrefix? front = some rest
  := List.dropPrefix?_eq_some_iff.mpr ⟨front, rfl, BEq.rfl⟩

/-- The ranges of a hunk are read from its first line. -/
theorem readHeader?_header (h : Hunk) :
  readHeader? h.header = some ((h.i₁, h.i₂ - h.i₁), (h.j₁, h.j₂ - h.j₁))
  := by
  have hplus (rest : List Char) : " +".toList ++ rest = ' ' :: '+' :: rest := rfl
  have hend : " @@\n".toList = ' ' :: "@@\n".toList := rfl
  rw [readHeader?, Hunk.header, dropPrefix?_append]
  simp only [bind, Option.bind_some]
  rw [hplus, readRange?_append, ← hplus, Option.bind_some]
  simp only [dropPrefix?_append, Option.bind_some]
  rw [hend, readRange?_append, Option.bind_some]
  rfl

/-- A line takes its place among the due ones of its sides. -/
theorem readLines?_cons (l : Mark × List Char) (m n : Nat) (rest : List (List Char)) :
  readLines? ((oldLines [l]).length + m) ((newLines [l]).length + n) (lineText l :: rest)
    = (readLines? m n rest).map fun r => (l :: r.1, r.2)
  := by
  obtain ⟨mark, text⟩ := l
  have hone (k : Nat) : [text].length + k = k + 1 := Nat.add_comm 1 k
  have hzero (k : Nat) : ([] : List (List Char)).length + k = k := Nat.zero_add k
  cases mark with
  | kept =>
    change readLines? ([text].length + m) ([text].length + n) ((' ' :: text) :: rest) = _
    rw [hone, hone, readLines?]
  | removed =>
    change readLines? ([text].length + m) (List.length [] + n) (('-' :: text) :: rest) = _
    rw [hone, hzero, readLines?]
  | added =>
    change readLines? (List.length [] + m) ([text].length + n) (('+' :: text) :: rest) = _
    rw [hone, hzero, readLines?]

/-- As many lines as are due are read, and what follows them. -/
theorem readLines?_append (ls : List (Mark × List Char)) (m n : Nat) (rest : List (List Char)) :
  readLines? ((oldLines ls).length + m) ((newLines ls).length + n) (ls.map lineText ++ rest)
    = (readLines? m n rest).map fun r => (ls ++ r.1, r.2)
  := by
  induction ls with
  | nil => simp [oldLines, newLines]
  | cons l ls ih =>
    rw [← List.singleton_append, oldLines_append, newLines_append, List.length_append,
      List.length_append, Nat.add_assoc, Nat.add_assoc, List.singleton_append, List.map_cons,
      List.cons_append, readLines?_cons, ih, Option.map_map]
    rfl

/-- The ranges of a hunk have as many lines as it has on each side. -/
structure Hunk.Counted (h : Hunk) : Prop where
  left : h.i₁ ≤ h.i₂
  right : h.j₁ ≤ h.j₂
  olds : (oldLines h.lines).length = h.i₂ - h.i₁
  news : (newLines h.lines).length = h.j₂ - h.j₁

theorem readLines?_zero {lines : List (List Char)} {r : List (Mark × List Char) × List Hunk}
    (h : readLines? 0 0 lines = some r) :
  r.1 = []
  := by
  cases lines with
  | nil =>
    cases h
    rfl
  | cons line lines =>
    rw [readLines?, Option.bind_eq_some_iff] at h
    obtain ⟨ranges, -, h⟩ := h
    obtain ⟨r', -, rfl⟩ := Option.map_eq_some_iff.mp h
    rfl

theorem readLines?_textLines {h : Hunk} (hcounted : h.Counted) (rest : List (List Char)) :
  readLines? 0 0 (h.textLines ++ rest) = (readLines? 0 0 rest).map fun r => ([], h :: r.2)
  := by
  have hleft : h.i₁ + (h.i₂ - h.i₁) = h.i₂ := by
    have := hcounted.left
    omega
  have hright : h.j₁ + (h.j₂ - h.j₁) = h.j₂ := by
    have := hcounted.right
    omega
  have hlines := readLines?_append h.lines 0 0 rest
  rw [Nat.add_zero, Nat.add_zero, hcounted.olds, hcounted.news] at hlines
  rw [Hunk.textLines, List.cons_append, readLines?, readHeader?_header, Option.bind_some]
  simp only [hlines, hleft, hright, Option.map_map]
  cases hrest : readLines? 0 0 rest with
  | none => rfl
  | some r =>
    rw [Option.map_some, Option.map_some, Function.comp, readLines?_zero hrest, List.append_nil]

/-- Hunks are read one after the other. -/
theorem readLines?_flatMap {hs : List Hunk} (hcounted : ∀ h ∈ hs, h.Counted)
    (rest : List (List Char)) :
  readLines? 0 0 (hs.flatMap Hunk.textLines ++ rest)
    = (readLines? 0 0 rest).map fun r => ([], hs ++ r.2)
  := by
  induction hs with
  | nil =>
    cases hrest : readLines? 0 0 rest with
    | none => simp [hrest]
    | some r => simp [hrest, ← readLines?_zero hrest]
  | cons h hs ih =>
    obtain ⟨hh, hs'⟩ := List.forall_mem_cons.mp hcounted
    rw [List.flatMap_cons, List.append_assoc, readLines?_textLines hh, ih hs', Option.map_map]
    rfl

theorem length_between {α : Type} {as : List α} {i j : Nat} (hj : j ≤ as.length) :
  (between i j as).length = j - i
  := by
  rw [between, List.length_drop, List.length_take_of_le hj]

theorem exists_hunk? (old new : List (List Char)) {g : List Stretch} (hne : g ≠ []) :
  ∃ h, hunk? old new g = some h
  := by
  rw [hunk?, List.head?_eq_some_head hne, List.getLast?_eq_some_getLast hne]
  exact ⟨_, rfl⟩

theorem hunk?_eq_some {old new : List (List Char)} {g : List Stretch} {h : Hunk}
    (hg : hunk? old new g = some h) :
  g ≠ [] ∧ h.lines = g.flatMap (stretchLines old new)
  := by
  rw [hunk?] at hg
  split at hg
  · rename_i hhead _
    cases hg
    refine ⟨?_, rfl⟩
    rintro rfl
    cases hhead
  · cases hg

theorem Steps.le {old new : List (List Char)} {i j : Nat} {gs : List (List Stretch)}
    (h : Steps old new i j gs) :
  i ≤ old.length ∧ j ≤ new.length
  := by
  cases h with
  | done agree _ _ => exact ⟨by have := agree.left; omega, by have := agree.right; omega⟩
  | group agree _ _ _ => exact ⟨by have := agree.left; omega, by have := agree.right; omega⟩

/-- The hunks of groups that make up two lists are counted right. -/
theorem Steps.counted {old new : List (List Char)} {i j : Nat} {gs : List (List Stretch)}
    (h : Steps old new i j gs) :
  ∀ h ∈ gs.filterMap (hunk? old new), h.Counted
  := by
  induction h with
  | done => exact List.forall_mem_nil _
  | group agree spans ne_nil rest ih =>
    obtain ⟨hi, hj⟩ := spans.le
    obtain ⟨hi', hj'⟩ := rest.le
    obtain ⟨hold, hnew⟩ := spans.lines
    rw [List.filterMap_cons_some (spans.hunk?_eq ne_nil)]
    refine List.forall_mem_cons.mpr ⟨⟨hi, hj, ?_, ?_⟩, ih⟩
    · rw [hold, length_between hi']
    · rw [hnew, length_between hj']

end Codemod.Diff
