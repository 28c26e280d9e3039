import Codemod.Proofs.Layout
import Codemod.Recipe.Marker

/-!
# Where tags are recognised

The marker of a tag is searched for as a pattern. Here the search is read as a statement about the
text: the tag is recognised when one of its written forms stands in the text, and for a marker by
an attribute, at the edge of a word. A tag on a line of its own is always recognised by its own
marker, and a tag that is recognised stays so when other text is put in behind a character that no
written form contains.
-/

namespace Codemod

/-! ### Spots of a text -/

namespace Pattern

/-- The last character of a text, or the one before it. -/
theorem getLast?_cons_or (c : Char) (cs : List Char) (b : Option Char) :
  (c :: cs).getLast?.or b = cs.getLast?.or (some c)
  := by
  rw [List.getLast?_cons]
  cases cs.getLast? <;> rfl

/-- The spots of a text are the places between a front part and the rest. -/
theorem mem_spots {before : Option Char} {text : List Char} {s : Spot} :
  s ∈ spots before text ↔ ∃ front, text = front ++ s.rest ∧ s.before = front.getLast?.or before
  := by
  obtain ⟨b, rest⟩ := s
  induction text generalizing before with
  | nil =>
    simp only [spots, List.mem_singleton, Spot.mk.injEq]
    constructor
    · rintro ⟨rfl, rfl⟩
      exact ⟨[], rfl, rfl⟩
    · rintro ⟨front, hfront, hb⟩
      obtain ⟨rfl, rfl⟩ := List.append_eq_nil_iff.mp hfront.symm
      exact ⟨hb, rfl⟩
  | cons c cs ih =>
    simp only [spots, List.mem_cons, ih, Spot.mk.injEq]
    constructor
    · rintro (⟨rfl, rfl⟩ | ⟨front, rfl, rfl⟩)
      · exact ⟨[], rfl, rfl⟩
      · exact ⟨c :: front, rfl, (getLast?_cons_or c front before).symm⟩
    · rintro ⟨front, hfront, hb⟩
      cases front with
      | nil => exact .inl ⟨hb, hfront.symm⟩
      | cons x xs =>
        obtain ⟨rfl, rfl⟩ := List.cons.inj hfront
        exact .inr ⟨xs, rfl, hb.trans (getLast?_cons_or c xs before)⟩

/-- A pattern occurs in a text when it can be read at one of its spots. -/
theorem occursIn_iff {p : Pattern} {text : List Char} :
  p.occursIn text = true ↔
    ∃ front rest, text = front ++ rest ∧ ∃ s, s ∈ p.ends ⟨front.getLast?, rest⟩
  := by
  have hends (s : Spot) : (p.ends s).head?.isSome = true ↔ ∃ s', s' ∈ p.ends s := by
    rw [List.isSome_head?]
    exact ⟨List.exists_mem_of_ne_nil _, fun ⟨_, hs⟩ => List.ne_nil_of_mem hs⟩
  simp only [occursIn, search, List.findSome?_isSome_iff, Option.isSome_map, mem_spots,
    Option.or_none, hends]
  constructor
  · rintro ⟨⟨b, rest⟩, ⟨front, htext, rfl⟩, hs⟩
    exact ⟨front, rest, htext, hs⟩
  · rintro ⟨front, rest, htext, hs⟩
    exact ⟨⟨_, rest⟩, ⟨front, htext, rfl⟩, hs⟩

/-- A given text is read where it stands. -/
theorem mem_ends_literal {w : List Char} {s e : Spot} :
  e ∈ (literal w).ends s ↔ s.rest = w ++ e.rest ∧ e.before = w.getLast?.or s.before
  := by
  obtain ⟨b, rest⟩ := s
  obtain ⟨b', rest'⟩ := e
  induction w generalizing b rest with
  | nil =>
    simp only [literal, ends, List.mem_singleton, Spot.mk.injEq]
    exact ⟨fun h => ⟨h.2.symm, h.1⟩, fun h => ⟨h.2, h.1.symm⟩⟩
  | cons c cs ih =>
    simp only [literal, char, ends, getLast?_cons_or]
    cases rest with
    | nil => simp
    | cons x xs =>
      by_cases hx : x = c
      · simp [hx, ih]
      · simp [hx]

theorem mem_ends_quote {s e : Spot} :
  e ∈ quote.ends s ↔ ∃ q, (q = '"' ∨ q = '\'') ∧ s.rest = q :: e.rest ∧ e.before = some q
  := by
  obtain ⟨b, rest⟩ := s
  obtain ⟨b', rest'⟩ := e
  cases rest with
  | nil => simp [quote, ends]
  | cons x xs =>
    simp only [quote, ends]
    split
    · rename_i hx
      simp only [List.mem_singleton, Spot.mk.injEq, List.cons.injEq]
      constructor
      · rintro ⟨rfl, rfl⟩
        exact ⟨x, by simpa using hx, ⟨rfl, rfl⟩, rfl⟩
      · rintro ⟨q, -, ⟨rfl, rfl⟩, rfl⟩
        exact ⟨rfl, rfl⟩
    · rename_i hx
      simp only [List.not_mem_nil, false_iff]
      rintro ⟨q, hq, heq, -⟩
      obtain ⟨rfl, -⟩ := List.cons.inj heq
      simp [hq] at hx

end Pattern

namespace Marker

open Text

/-! ### Written forms -/

/-- The texts by which a tag is recognised. -/
inductive Written : Marker → List Char → Prop where
  | quoted {name value : List Char} {q q' : Char} (hq : isQuote q = true)
      (hq' : isQuote q' = true) :
    Written (byAttribute name value) (name ++ '=' :: q :: (value ++ [q']))
  | verbatim {tag : List Char} : Written (verbatim tag) tag

/-- Whether a written form may start behind a character: the name of an attribute starts at the edge
of a word. -/
def opensBehind : Marker → Option Char → Bool
  | byAttribute name _, before => isWordEdge before (name ++ ['=']).head?
  | verbatim _, _ => true

theorem isQuote_iff {q : Char} :
  isQuote q = true ↔ q = '"' ∨ q = '\''
  := by
  simp [isQuote]

/-- The pattern of a marker reads its written forms. -/
theorem exists_ends_iff {m : Marker} {b : Option Char} {rest : List Char} :
  (∃ s, s ∈ m.pattern.ends ⟨b, rest⟩) ↔
    m.opensBehind b = true ∧ ∃ w back, m.Written w ∧ rest = w ++ back
  := by
  cases m with
  | verbatim tag =>
    simp only [pattern, Pattern.mem_ends_literal, opensBehind, true_and]
    constructor
    · rintro ⟨s, hrest, -⟩
      exact ⟨tag, s.rest, .verbatim, hrest⟩
    · rintro ⟨w, back, hw, hrest⟩
      cases hw
      exact ⟨⟨_, back⟩, hrest, rfl⟩
  | byAttribute name value =>
    simp only [pattern, Pattern.ends, List.mem_flatMap]
    constructor
    · rintro ⟨s, s₁, hedge, s₂, hname, s₃, hquote, s₄, hvalue, hquote'⟩
      split at hedge
      · rename_i hopens
        cases List.mem_singleton.mp hedge
        obtain ⟨hrest, -⟩ := Pattern.mem_ends_literal.mp hname
        obtain ⟨q, hq, hrest₂, -⟩ := Pattern.mem_ends_quote.mp hquote
        obtain ⟨hrest₃, -⟩ := Pattern.mem_ends_literal.mp hvalue
        obtain ⟨q', hq', hrest₄, -⟩ := Pattern.mem_ends_quote.mp hquote'
        change rest = _ at hrest
        constructor
        · rw [hrest] at hopens
          cases name <;> apply hopens
        · refine ⟨_, s.rest, .quoted (isQuote_iff.mpr hq) (isQuote_iff.mpr hq'), ?_⟩
          rw [hrest, hrest₂, hrest₃, hrest₄]
          simp
      · cases hedge
    · rintro ⟨hopens, w, back, hw, rfl⟩
      cases hw with
      | @quoted _ _ q q' hq hq' =>
        have hedge : isWordEdge b (name ++ '=' :: q :: (value ++ [q']) ++ back).head? = true := by
          rw [← hopens, opensBehind]
          cases name <;> rfl
        have hname : ⟨(name ++ ['=']).getLast?.or b, q :: (value ++ q' :: back)⟩ ∈
            (Pattern.literal (name ++ ['='])).ends
              ⟨b, name ++ '=' :: q :: (value ++ [q']) ++ back⟩ :=
          Pattern.mem_ends_literal.mpr ⟨by simp, rfl⟩
        refine ⟨⟨some q', back⟩, _, ?_, _, hname, ⟨some q, value ++ q' :: back⟩,
          Pattern.mem_ends_quote.mpr ⟨q, isQuote_iff.mp hq, rfl, rfl⟩,
          ⟨value.getLast?.or (some q), q' :: back⟩, Pattern.mem_ends_literal.mpr ⟨rfl, rfl⟩,
          Pattern.mem_ends_quote.mpr ⟨q', isQuote_iff.mp hq', rfl, rfl⟩⟩
        rw [if_pos hedge]
        apply List.mem_singleton_self

/-- A tag is recognised in a text exactly when one of its written forms stands there, and may start
there. -/
theorem occursIn_iff {m : Marker} {text : List Char} :
  m.occursIn text = true ↔
    ∃ front w back, text = front ++ w ++ back ∧ m.Written w ∧ m.opensBehind front.getLast? = true
  := by
  simp only [occursIn, Pattern.occursIn_iff, exists_ends_iff]
  constructor
  · rintro ⟨front, rest, rfl, hopens, w, back, hw, rfl⟩
    exact ⟨front, w, back, (List.append_assoc front w back).symm, hw, hopens⟩
  · rintro ⟨front, w, back, rfl, hw, hopens⟩
    exact ⟨front, w ++ back, List.append_assoc front w back, hopens, w, back, hw, rfl⟩

/-- Only whether the character before a written form is part of a word matters. -/
theorem opensBehind_congr (m : Marker) {b b' : Option Char}
    (h : b.any isWordChar = b'.any isWordChar) :
  m.opensBehind b = m.opensBehind b'
  := by
  cases m with
  | verbatim tag => rfl
  | byAttribute name value => rw [opensBehind, opensBehind, isWordEdge, isWordEdge, h]

/-! ### Tags on lines of their own -/

theorem quotedValue?_eq_some {cs value : List Char} (h : quotedValue? cs = some value) :
  ∃ q q' rest, isQuote q = true ∧ isQuote q' = true ∧ cs = q :: (value ++ q' :: rest)
  := by
  cases cs with
  | nil => cases h
  | cons q rest =>
    simp only [quotedValue?, Option.ite_none_right_eq_some, Bool.and_eq_true, decide_eq_true_iff,
      Option.some.injEq] at h
    obtain ⟨⟨⟨hq, -⟩, hlength⟩, hvalue⟩ := h
    have hsplit := List.takeWhile_append_dropWhile (p := (!isQuote ·)) (l := rest)
    cases hback : rest.dropWhile (!isQuote ·) with
    | nil =>
      rw [hback, List.append_nil] at hsplit
      rw [hsplit] at hlength
      omega
    | cons q' back =>
      have hq' : isQuote q' = true := by
        have hhead := List.head_dropWhile_not (p := (!isQuote ·)) (l := rest) (by simp [hback])
        simpa [hback] using hhead
      rw [hvalue, hback] at hsplit
      exact ⟨q, q', back, hq, hq', by rw [hsplit]⟩

/-- An attribute at the front of a text is a written form of its marker. -/
theorem written_of_valueOf? {name text value : List Char} (h : valueOf? name text = some value) :
  ∃ w back, (byAttribute name value).Written w ∧ text = w ++ back
  := by
  simp only [valueOf?, Option.ite_none_right_eq_some] at h
  obtain ⟨hfront, hvalue⟩ := h
  obtain ⟨rest, rfl⟩ := List.isPrefixOf_iff_prefix.mp hfront
  rw [List.drop_left] at hvalue
  obtain ⟨q, q', back, hq, hq', rfl⟩ := quotedValue?_eq_some hvalue
  exact ⟨_, back, .quoted hq hq', by simp⟩

/-- An attribute at the front of a text that is not empty may start there exactly when the place is
the edge of a word. -/
theorem written_of_attributeAt? {c : Char} {cs : List Char} {m : Marker}
    (h : attributeAt? (c :: cs) = some m) :
  (∃ w back, m.Written w ∧ c :: cs = w ++ back)
    ∧ ∀ before, m.opensBehind before = isWordEdge before (some c)
  := by
  have hread {name value : List Char} (hvalue : valueOf? name (c :: cs) = some value) :
      (∃ w back, (byAttribute name value).Written w ∧ c :: cs = w ++ back)
        ∧ ∀ before, (byAttribute name value).opensBehind before = isWordEdge before (some c) := by
    obtain ⟨w, back, hw, htext⟩ := written_of_valueOf? hvalue
    use ⟨w, back, hw, htext⟩
    intro before
    cases hw
    rw [opensBehind]
    cases name <;> cases htext <;> rfl
  rw [attributeAt?] at h
  cases hname : valueOf? "name".toList (c :: cs) with
  | some value =>
    rw [hname] at h
    cases h
    apply hread hname
  | none =>
    rw [hname] at h
    obtain ⟨value, hvalue, rfl⟩ := Option.map_eq_some_iff.mp h
    apply hread hvalue

/-- The attribute that is found in a text is written in it. -/
theorem written_of_findAttribute? {before : Option Char} {text : List Char} {m : Marker}
    (h : findAttribute? before text = some m) :
  ∃ front w back, text = front ++ w ++ back ∧ m.Written w
    ∧ m.opensBehind (front.getLast?.or before) = true
  := by
  induction text generalizing before with
  | nil => cases h
  | cons c cs ih =>
    rw [findAttribute?] at h
    split at h
    · rename_i hedge
      cases hhere : attributeAt? (c :: cs) with
      | some m' =>
        rw [hhere] at h
        cases h
        obtain ⟨⟨w, back, hw, htext⟩, hopens⟩ := written_of_attributeAt? hhere
        exact ⟨[], w, back, htext, hw, (hopens before).trans hedge⟩
      | none =>
        rw [hhere] at h
        obtain ⟨front, w, back, rfl, hw, hopens⟩ := ih h
        refine ⟨c :: front, w, back, rfl, hw, ?_⟩
        rw [Pattern.getLast?_cons_or]
        apply hopens
    · obtain ⟨front, w, back, rfl, hw, hopens⟩ := ih h
      refine ⟨c :: front, w, back, rfl, hw, ?_⟩
      rw [Pattern.getLast?_cons_or]
      apply hopens

/-- Every tag has a written form of its marker in it. -/
theorem written_ofTag (tag : List Char) :
  ∃ front w back, tag = front ++ w ++ back ∧ (ofTag tag).Written w
    ∧ (ofTag tag).opensBehind front.getLast? = true
  := by
  rw [ofTag]
  cases h : findAttribute? none tag with
  | none => exact ⟨[], tag, [], by simp, .verbatim, rfl⟩
  | some m =>
    obtain ⟨front, w, back, htag, hw, hopens⟩ := written_of_findAttribute? h
    rw [Option.or_none] at hopens
    exact ⟨front, w, back, htag, hw, hopens⟩

/-- The code points of white space. -/
def spaces : List Nat :=
  [9, 10, 11, 12, 13, 0x1C, 0x1D, 0x1E, 0x1F, 0x20, 0x85, 0xA0, 0x1680, 0x2000, 0x2001, 0x2002,
    0x2003, 0x2004, 0x2005, 0x2006, 0x2007, 0x2008, 0x2009, 0x200A, 0x2028, 0x2029, 0x202F, 0x205F,
    0x3000]

/-- White space is not part of a word. -/
theorem isWordChar_of_isSpace {c : Char} (h : isSpace c = true) :
  isWordChar c = false
  := by
  have hmem : c.toNat ∈ spaces := by
    simp [isSpace, isAsciiSpace, isSpaceSeparator, UInt32.le_iff_toNat_le, ← UInt32.toNat_inj,
      Char.ext_iff] at h
    simp only [spaces, List.mem_cons, List.not_mem_nil, or_false]
    omega
  have hall : ∀ k ∈ spaces, isWordChar (Char.ofNat k) = false := by decide +kernel
  rw [← Char.ofNat_toNat c]
  apply hall _ hmem

/-- A tag on a line of its own is recognised by its marker. -/
theorem occursIn_line (tag x y : List Char) {indent : List Char} (h : indent.all isSpace = true) :
  (ofTag tag).occursIn (x ++ '\n' :: (indent ++ tag) ++ y) = true
  := by
  obtain ⟨front, w, back, htag, hw, hopens⟩ := written_ofTag tag
  apply occursIn_iff.mpr
  refine ⟨x ++ '\n' :: (indent ++ front), w, back ++ y, ?_, hw, ?_⟩
  · conv_lhs => rw [htag]
    simp
  · rw [← hopens]
    apply opensBehind_congr
    -- Only a tag that starts with its attribute has the indentation before it.
    cases hlast : front.getLast? with
    | some c => simp [List.getLast?_append, List.getLast?_cons, hlast]
    | none =>
      rw [List.getLast?_eq_none_iff.mp hlast, List.append_nil, List.getLast?_append,
        List.getLast?_cons]
      have hblank : isWordChar (indent.getLast?.getD '\n') = false := by
        apply isWordChar_of_isSpace
        cases hindent : indent.getLast? with
        | none => rfl
        | some c => apply List.all_eq_true.mp h c (List.mem_of_getLast? hindent)
      simp [hblank]

/-! ### Text put in elsewhere -/

/-- A text ends with a character that is not part of a word. -/
def EndsApart (text : List Char) : Prop :=
  ∃ c, text.getLast? = some c ∧ isWordChar c = false

/-- A tag that is recognised stays so when text is put in behind a character that none of its
written forms has, and that like the last one of the text is not part of a word. -/
theorem occursIn_insert {m : Marker} {x y inserted : List Char} {c : Char}
    (hx : x.getLast? = some c) (hc : isWordChar c = false) (hforms : ∀ w, m.Written w → c ∉ w)
    (hinserted : EndsApart inserted) (h : m.occursIn (x ++ y) = true) :
  m.occursIn (x ++ inserted ++ y) = true
  := by
  obtain ⟨front, w, back, htext, hw, hopens⟩ := occursIn_iff.mp h
  obtain ⟨c', hlast, hc'⟩ := hinserted
  have hbehind (u : List Char) :
      m.opensBehind (x ++ inserted ++ u).getLast? = m.opensBehind (x ++ u).getLast? := by
    apply opensBehind_congr
    cases hu : u.getLast? with
    | some _ => simp [List.getLast?_append, hu]
    | none => simp [List.getLast?_append, hu, hx, hlast, hc, hc']
  apply occursIn_iff.mpr
  -- The written form ends before the place, or starts there or behind: it cannot go across.
  rcases List.append_eq_append_iff.mp htext with ⟨t, hfront, rfl⟩ | ⟨t, rfl, -⟩
  · rcases List.append_eq_append_iff.mp hfront with ⟨u, rfl, rfl⟩ | ⟨u, rfl, rfl⟩
    · have hu : u = [] := by
        by_contra hne
        rw [List.getLast?_append_of_ne_nil _ hne] at hx
        apply hforms _ hw (List.mem_append_left t (List.mem_of_getLast? hx))
      subst hu
      refine ⟨front ++ inserted, t, back, by simp, hw, ?_⟩
      have hsame := hbehind []
      simp only [List.append_nil] at hsame
      rw [hsame]
      apply hopens
    · exact ⟨x ++ inserted ++ u, w, back, by simp, hw, (hbehind u).trans hopens⟩
  · exact ⟨front, w, t ++ inserted ++ y, by simp, hw, hopens⟩

end Marker

end Codemod
