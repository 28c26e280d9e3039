import Codemod.Proofs.Source

/-!
# Configured names stand for themselves

The pattern for the source of an import has the name of a module in it, and the pattern of a marker
the value of an attribute or a whole tag. Whatever these texts are, they are matched word for word.
The same patterns can be written as regular expressions in which the configured text is escaped:
they are read without a fault, and what is read matches in the same places.
-/

namespace Codemod

namespace Pattern

/-! ### Reading escaped texts -/

/-- The characters that are escaped where they stand for themselves. -/
def specials : List Char :=
  ['(', ')', '[', ']', '{', '}', '?', '*', '+', '-', '|', '^', '$', '\\', '.', '&', '~', '#', ' ',
    '\t', '\n', '\r', '\x0b', '\x0c']

/-- The regular expression for a text that stands for itself. -/
def escape (cs : List Char) : List Char :=
  cs.flatMap fun c => if c ∈ specials then ['\\', c] else [c]

/-- A regular expression is read to its end as a pattern, given a limit beyond its length. -/
def Reads (cs : List Char) (p : Pattern) : Prop :=
  ∀ limit, cs.length < limit → branch? limit cs = some (p, [])

theorem reads_nil :
  Reads [] empty
  := by
  intro limit hlimit
  obtain ⟨n, rfl⟩ := Nat.exists_eq_succ_of_ne_zero hlimit.ne'
  rfl

/-- One item after the other. -/
theorem Reads.item {c : Char} {cs rest : List Char} {p q : Pattern} (h : Reads rest q)
    (hbar : c ≠ '|') (hclosing : c ≠ ')') (hlength : rest.length ≤ cs.length)
    (hitem : ∀ n, item? (n + 1) (c :: cs) = some (p, rest)) (hrest : repetition? rest = none) :
  Reads (c :: cs) (cat p q)
  := by
  intro limit hlimit
  obtain ⟨n, rfl⟩ : ∃ n, limit = n + 2 := ⟨limit - 2, by simp at hlimit; omega⟩
  have hq : branch? (n + 1) rest = some (q, []) := h _ (by simp at hlimit; omega)
  rw [branch?]
  · simp only [hitem, repeated?, hrest, hq]
  · simp
  · simpa using hbar
  · simpa using hclosing

theorem parse_of_reads {cs : List Char} {p : Pattern} (h : Reads cs p) :
  parse cs = .ok p
  := by
  have hbranch : branch? (4 * cs.length + 7) cs = some (p, []) := h _ (by omega)
  rw [parse, choice?, hbranch]

theorem item?_escaped (c : Char) (h : c ∈ specials) (n : Nat) (cs : List Char) :
  item? (n + 1) ('\\' :: c :: cs) = some (char c, cs)
  := by
  revert c
  simp only [specials, List.forall_mem_cons]
  simp [item?, classEscape?, charEscape?]

theorem item?_plain {c : Char} (h : c ∉ specials) (n : Nat) (cs : List Char) :
  item? (n + 1) (c :: cs) = some (char c, cs)
  := by
  simp only [specials, List.mem_cons, List.not_mem_nil, or_false, not_or] at h
  simp [item?, h]

theorem repetition?_escape {m rest : List Char} (h : repetition? rest = none) :
  repetition? (escape m ++ rest) = none
  := by
  cases m with
  | nil => exact h
  | cons c cs =>
    rw [escape, List.flatMap_cons]
    split
    · rfl
    · rename_i hc
      simp only [specials, List.mem_cons, List.not_mem_nil, or_false, not_or] at hc
      simp [repetition?, hc]

/-- An escaped text is read as its characters one after the other. -/
theorem Reads.escape {rest : List Char} {q : Pattern} (h : Reads rest q)
    (hrest : repetition? rest = none) (m : List Char) :
  Reads (escape m ++ rest) (m.foldr (fun c p => cat (char c) p) q)
  := by
  induction m with
  | nil => exact h
  | cons c cs ih =>
    have hbehind : repetition? (Pattern.escape cs ++ rest) = none := repetition?_escape hrest
    rw [Pattern.escape, List.flatMap_cons]
    split
    · rename_i hc
      exact ih.item (by decide) (by decide) (by simp [Pattern.escape])
        (fun n => item?_escaped c hc n _) hbehind
    · rename_i hc
      refine ih.item ?_ ?_ (by simp [Pattern.escape]) (fun n => item?_plain hc n _) hbehind
      · rintro rfl
        exact hc (by decide)
      · rintro rfl
        exact hc (by decide)

/-- The class of the quotes of either sort. -/
def quoteClass : List Char := ['[', '\\', '"', '\'', ']']

theorem item?_quoteClass (n : Nat) (rest : List Char) :
  item? (n + 1) (quoteClass ++ rest) = some (quote, rest)
  := by
  simp [quoteClass, item?, bracketed?, classRest?, classItem?, classEscape?, charEscape?, quote]

theorem Reads.quote {rest : List Char} {q : Pattern} (h : Reads rest q)
    (hrest : repetition? rest = none) :
  Reads (quoteClass ++ rest) (cat quote q)
  := by
  apply h.item (by decide) (by decide) (by simp; omega) _ hrest
  intro n
  exact item?_quoteClass n rest

theorem ends_cat_empty (p : Pattern) :
  (cat p empty).ends = p.ends
  := by
  funext s
  simp [ends]

/-- Two patterns that match in the same places do so in front of a third one. -/
theorem ends_cat_congr {p q q' : Pattern} (h : q.ends = q'.ends) :
  (cat p q).ends = (cat p q').ends
  := by
  funext s
  rw [ends, ends, h]

theorem ends_foldr_cat (m : List Char) (q : Pattern) :
  (m.foldr (fun c p => cat (char c) p) q).ends = (cat (literal m) q).ends
  := by
  induction m with
  | nil =>
    funext s
    simp [literal, ends]
  | cons c cs ih =>
    rw [List.foldr_cons, ends_cat_congr ih]
    funext s
    simp only [literal, ends, List.flatMap_assoc]

theorem occursIn_congr {p q : Pattern} (h : p.ends = q.ends) (text : List Char) :
  p.occursIn text = q.occursIn text
  := by
  rw [occursIn, occursIn, search, search, h]

end Pattern

/-! ### The source of an import -/

namespace Rule

open Pattern

/-- The regular expression for the name of a module in quotes. -/
def moduleExpression (module : List Char) : List Char :=
  '^' :: (quoteClass ++ (escape module ++ (quoteClass ++ ['$'])))

/-- The regular expression is read as a pattern that matches in the places of the built one. -/
theorem parse_moduleExpression (module : List Char) :
  ∃ p, parse (moduleExpression module) = .ok p ∧ p.ends = (modulePattern module).ends
  := by
  have hend : Reads ['$'] (cat atEnd empty) := by
    apply reads_nil.item (by decide) (by decide) (Nat.le_refl _) (fun n => rfl) rfl
  have hmodule := ((hend.quote rfl).escape rfl module).quote (repetition?_escape rfl)
  have hall : Reads (moduleExpression module) _ :=
    hmodule.item (by decide) (by decide) (Nat.le_refl _) (fun n => rfl) rfl
  refine ⟨_, parse_of_reads hall, ?_⟩
  apply ends_cat_congr
  apply ends_cat_congr
  rw [ends_foldr_cat]
  apply ends_cat_congr
  apply ends_cat_congr
  exact ends_cat_empty atEnd

end Rule

/-! ### The attribute of a tag -/

namespace Marker

open Text Pattern

/-- A text starts with an attribute `name` or `src` that has a value without quotes between two
quotes. -/
structure AtFront (text name value : List Char) : Prop where
  known : name = "name".toList ∨ name = "src".toList
  filled : value ≠ []
  unquoted : ∀ c ∈ value, isQuote c = false
  written : ∃ q q' back, isQuote q = true ∧ isQuote q' = true
    ∧ text = name ++ '=' :: q :: (value ++ q' :: back)

/-- A tag has an attribute behind a part of it, at the edge of a word. -/
def HasAttribute (tag front name value : List Char) : Prop :=
  ∃ rest, tag = front ++ rest ∧ isWordEdge front.getLast? rest.head? = true
    ∧ AtFront rest name value

/-- The attribute of a tag that starts before all others. -/
def IsFirstAttribute (tag front name value : List Char) : Prop :=
  HasAttribute tag front name value
    ∧ ∀ front' name' value', HasAttribute tag front' name' value' → front.length ≤ front'.length

theorem quotedValue?_iff {cs value : List Char} :
  quotedValue? cs = some value ↔
    value ≠ [] ∧ (∀ c ∈ value, isQuote c = false)
      ∧ ∃ q q' rest, isQuote q = true ∧ isQuote q' = true ∧ cs = q :: (value ++ q' :: rest)
  := by
  constructor
  · intro h
    have hsplit := quotedValue?_eq_some h
    obtain ⟨q, q', rest, hq, hq', rfl⟩ := hsplit
    simp only [quotedValue?, Option.ite_none_right_eq_some, Bool.and_eq_true,
      Option.some.injEq] at h
    obtain ⟨⟨⟨-, hfilled⟩, -⟩, hvalue⟩ := h
    rw [hvalue] at hfilled
    refine ⟨by simpa using hfilled, ?_, q, q', rest, hq, hq', rfl⟩
    intro c hc
    rw [← hvalue] at hc
    simpa using List.mem_takeWhile_imp hc
  · rintro ⟨hfilled, hunquoted, q, q', rest, hq, hq', rfl⟩
    have htake : (value ++ q' :: rest).takeWhile (!isQuote ·) = value := by
      rw [List.takeWhile_append_of_pos (by simpa using hunquoted),
        List.takeWhile_cons_of_neg (by simp [hq']), List.append_nil]
    simp [quotedValue?, htake, hq, hfilled]

theorem valueOf?_iff {name text value : List Char} :
  valueOf? name text = some value ↔
    value ≠ [] ∧ (∀ c ∈ value, isQuote c = false)
      ∧ ∃ q q' back, isQuote q = true ∧ isQuote q' = true
        ∧ text = name ++ '=' :: q :: (value ++ q' :: back)
  := by
  rw [valueOf?]
  simp only [Option.ite_none_right_eq_some, quotedValue?_iff, List.isPrefixOf_iff_prefix]
  constructor
  · rintro ⟨⟨rest, rfl⟩, hfilled, hunquoted, q, q', back, hq, hq', heq⟩
    rw [List.drop_left] at heq
    exact ⟨hfilled, hunquoted, q, q', back, hq, hq', by simp [heq]⟩
  · rintro ⟨hfilled, hunquoted, q, q', back, hq, hq', rfl⟩
    rw [List.append_cons name '=' (q :: (value ++ q' :: back)), List.drop_left]
    exact ⟨List.prefix_append _ _, hfilled, hunquoted, q, q', back, hq, hq', rfl⟩

theorem attributeAt?_iff {text : List Char} {m : Marker} :
  attributeAt? text = some m ↔ ∃ name value, m = byAttribute name value ∧ AtFront text name value
  := by
  have hfront {name value : List Char} (hknown : name = "name".toList ∨ name = "src".toList) :
      valueOf? name text = some value ↔ AtFront text name value := by
    rw [valueOf?_iff]
    exact ⟨fun ⟨hfilled, hunquoted, hwritten⟩ => ⟨hknown, hfilled, hunquoted, hwritten⟩,
      fun h => ⟨h.filled, h.unquoted, h.written⟩⟩
  rw [attributeAt?]
  constructor
  · intro h
    cases hname : valueOf? "name".toList text with
    | some value =>
      rw [hname] at h
      cases h
      exact ⟨_, value, rfl, (hfront (.inl rfl)).mp hname⟩
    | none =>
      rw [hname] at h
      obtain ⟨value, hvalue, rfl⟩ := Option.map_eq_some_iff.mp h
      exact ⟨_, value, rfl, (hfront (.inr rfl)).mp hvalue⟩
  · rintro ⟨name, value, rfl, h⟩
    have hvalue := (hfront h.known).mpr h
    rcases h.known with rfl | rfl
    · rw [hvalue]
      rfl
    · -- The two names differ in their first characters.
      have hother : valueOf? "name".toList text = none := by
        obtain ⟨q, q', back, -, -, rfl⟩ := h.written
        rfl
      rw [hother, hvalue]
      rfl

theorem attributeAt?_eq_none {before : Option Char} {text front rest : List Char}
    (h : findAttribute? before text = none) (htext : text = front ++ rest)
    (hedge : isWordEdge (front.getLast?.or before) rest.head? = true) :
  attributeAt? rest = none
  := by
  induction text generalizing before front with
  | nil =>
    obtain ⟨-, rfl⟩ := List.append_eq_nil_iff.mp htext.symm
    rfl
  | cons c cs ih =>
    rw [findAttribute?, Option.orElse_eq_orElse, Option.orElse_eq_or] at h
    obtain ⟨hhere, hthere⟩ := Option.or_eq_none_iff.mp h
    cases front with
    | nil =>
      obtain rfl : c :: cs = rest := htext
      change isWordEdge before (some c) = true at hedge
      rwa [if_pos hedge] at hhere
    | cons x xs =>
      obtain ⟨rfl, rfl⟩ := List.cons.inj htext
      apply ih hthere rfl
      rwa [getLast?_cons_or] at hedge

/-- What is found is the first attribute at the edge of a word. -/
theorem first_of_findAttribute? {before : Option Char} {text : List Char} {m : Marker}
    (h : findAttribute? before text = some m) :
  ∃ front rest, text = front ++ rest
    ∧ isWordEdge (front.getLast?.or before) rest.head? = true ∧ attributeAt? rest = some m
    ∧ ∀ front' rest', text = front' ++ rest' → front'.length < front.length →
      isWordEdge (front'.getLast?.or before) rest'.head? = true → attributeAt? rest' = none
  := by
  induction text generalizing before with
  | nil => cases h
  | cons c cs ih =>
    rw [findAttribute?, Option.orElse_eq_orElse, Option.orElse_eq_or] at h
    rcases Option.or_eq_some_iff.mp h with hhere | ⟨hnot, hthere⟩
    · split at hhere
      · rename_i hedge
        refine ⟨[], c :: cs, rfl, hedge, hhere, ?_⟩
        intro front' _ _ hshorter
        cases Nat.not_lt_zero _ hshorter
      · cases hhere
    · obtain ⟨front, rest, rfl, hedge, hfound, hfirst⟩ := ih hthere
      refine ⟨c :: front, rest, rfl, by rwa [getLast?_cons_or], hfound, ?_⟩
      intro front' rest' htext hshorter hedge'
      cases front' with
      | nil =>
        obtain rfl : c :: (front ++ rest) = rest' := htext
        change isWordEdge before (some c) = true at hedge'
        rwa [if_pos hedge'] at hnot
      | cons x xs =>
        obtain ⟨rfl, hbehind⟩ := List.cons.inj htext
        rw [getLast?_cons_or] at hedge'
        exact hfirst xs rest' hbehind (Nat.lt_of_succ_lt_succ hshorter) hedge'

/-- The marker of a tag is its first attribute, or the tag itself when it has none. -/
theorem ofTag_cases (tag : List Char) :
  (∃ front name value, IsFirstAttribute tag front name value ∧ ofTag tag = byAttribute name value)
    ∨ (∀ front name value, ¬ HasAttribute tag front name value) ∧ ofTag tag = verbatim tag
  := by
  rw [ofTag]
  cases hfind : findAttribute? none tag with
  | none =>
    refine .inr ⟨?_, rfl⟩
    rintro front name value ⟨rest, htag, hedge, hattribute⟩
    have hfound := attributeAt?_iff.mpr ⟨name, value, rfl, hattribute⟩
    rw [attributeAt?_eq_none hfind htag (by rwa [Option.or_none])] at hfound
    cases hfound
  | some m =>
    obtain ⟨front, rest, htag, hedge, hfound, hfirst⟩ := first_of_findAttribute? hfind
    rw [Option.or_none] at hedge
    obtain ⟨name, value, rfl, hattribute⟩ := attributeAt?_iff.mp hfound
    refine .inl ⟨front, name, value, ⟨⟨rest, htag, hedge, hattribute⟩, ?_⟩, rfl⟩
    rintro front' name' value' ⟨rest', htag', hedge', hattribute'⟩
    by_contra hshorter
    have hnone := hfirst front' rest' htag' (Nat.lt_of_not_le hshorter) (by rwa [Option.or_none])
    rw [attributeAt?_iff.mpr ⟨name', value', rfl, hattribute'⟩] at hnone
    cases hnone

theorem IsFirstAttribute.ofTag_eq {tag front name value : List Char}
    (h : IsFirstAttribute tag front name value) :
  ofTag tag = byAttribute name value
  := by
  rcases ofTag_cases tag with ⟨front', name', value', hfirst, heq⟩ | ⟨hno, -⟩
  · have hlength : front.length = front'.length :=
      Nat.le_antisymm (h.2 _ _ _ hfirst.1) (hfirst.2 _ _ _ h.1)
    obtain ⟨rest, htag, -, hattribute⟩ := h.1
    obtain ⟨rest', htag', -, hattribute'⟩ := hfirst.1
    obtain ⟨-, rfl⟩ := List.append_inj (htag.symm.trans htag') hlength
    have hsame := attributeAt?_iff.mpr ⟨name, value, rfl, hattribute⟩
    rw [attributeAt?_iff.mpr ⟨name', value', rfl, hattribute'⟩] at hsame
    rw [heq, Option.some.inj hsame]
  · cases hno _ _ _ h.1

/-! ### Recognising a tag -/

theorem occursIn_byAttribute {name value text : List Char}
    (hknown : name = "name".toList ∨ name = "src".toList) :
  (byAttribute name value).occursIn text = true ↔
    ∃ front q q' back, isQuote q = true ∧ isQuote q' = true
      ∧ isWordEdge front.getLast? name.head? = true
      ∧ text = front ++ (name ++ '=' :: q :: (value ++ q' :: back))
  := by
  have hopens (before : Option Char) :
      (byAttribute name value).opensBehind before = isWordEdge before name.head? := by
    rcases hknown with rfl | rfl <;> rfl
  rw [occursIn_iff]
  constructor
  · rintro ⟨front, w, back, rfl, hw, hedge⟩
    cases hw with
    | @quoted _ _ q q' hq hq' =>
      exact ⟨front, q, q', back, hq, hq', hopens _ ▸ hedge, by simp⟩
  · rintro ⟨front, q, q', back, hq, hq', hedge, rfl⟩
    exact ⟨front, _, back, by simp, .quoted hq hq', (hopens _).trans hedge⟩

theorem occursIn_verbatim {tag text : List Char} :
  (verbatim tag).occursIn text = true ↔ tag <:+: text
  := by
  rw [occursIn_iff]
  constructor
  · rintro ⟨front, w, back, rfl, hw, -⟩
    cases hw
    exact ⟨front, back, rfl⟩
  · rintro ⟨front, back, rfl⟩
    exact ⟨front, tag, back, rfl, .verbatim, rfl⟩

/-- A tag is recognised by its first attribute, or by the tag itself when it has none. -/
theorem occursIn_ofTag {tag text : List Char} :
  (ofTag tag).occursIn text = true ↔
    (∃ before name value, IsFirstAttribute tag before name value
      ∧ ∃ front q q' back, isQuote q = true ∧ isQuote q' = true
        ∧ isWordEdge front.getLast? name.head? = true
        ∧ text = front ++ (name ++ '=' :: q :: (value ++ q' :: back)))
    ∨ (∀ before name value, ¬ HasAttribute tag before name value) ∧ tag <:+: text
  := by
  constructor
  · intro h
    rcases ofTag_cases tag with ⟨before, name, value, hfirst, heq⟩ | ⟨hno, heq⟩
    · obtain ⟨_, -, -, hattribute⟩ := hfirst.1
      rw [heq, occursIn_byAttribute hattribute.known] at h
      exact .inl ⟨before, name, value, hfirst, h⟩
    · rw [heq, occursIn_verbatim] at h
      exact .inr ⟨hno, h⟩
  · rintro (⟨before, name, value, hfirst, h⟩ | ⟨hno, h⟩)
    · obtain ⟨_, -, -, hattribute⟩ := hfirst.1
      rwa [hfirst.ofTag_eq, occursIn_byAttribute hattribute.known]
    · rcases ofTag_cases tag with ⟨before, name, value, hfirst, -⟩ | ⟨-, heq⟩
      · cases hno _ _ _ hfirst.1
      · rwa [heq, occursIn_verbatim]

/-- The regular expression that recognises a tag. -/
def expression : Marker → List Char
  | byAttribute name value =>
    '\\' :: 'b' :: (name ++ '=' :: (quoteClass ++ (escape value ++ quoteClass)))
  | verbatim tag => escape tag

/-- The regular expression of a tag is read as a pattern that matches in the places of the built
one. -/
theorem parse_expression (tag : List Char) :
  ∃ p, parse (ofTag tag).expression = .ok p ∧ p.ends = (ofTag tag).pattern.ends
  := by
  rcases ofTag_cases tag with ⟨front, name, value, ⟨⟨_, -, -, hattribute⟩, -⟩, heq⟩ | ⟨-, heq⟩
  · rw [heq]
    have hclosing := reads_nil.quote rfl
    rw [List.append_nil] at hclosing
    have hvalue := (hclosing.escape rfl value).quote (repetition?_escape rfl)
    have hname := hvalue.escape rfl (name ++ ['='])
    have hplain : escape (name ++ ['=']) = name ++ ['='] := by
      rcases hattribute.known with rfl | rfl <;> decide +kernel
    rw [hplain, List.append_assoc, List.singleton_append] at hname
    have hplace :
        repetition? (name ++ '=' :: (quoteClass ++ (escape value ++ quoteClass))) = none := by
      rcases hattribute.known with rfl | rfl <;> rfl
    have hall := @Reads.item '\\' ('b' :: _) _ _ _ hname (by decide) (by decide) (Nat.le_succ _)
      (fun n => rfl) hplace
    refine ⟨_, parse_of_reads hall, ?_⟩
    apply ends_cat_congr
    rw [ends_foldr_cat]
    apply ends_cat_congr
    apply ends_cat_congr
    rw [ends_foldr_cat]
    apply ends_cat_congr
    exact ends_cat_empty quote
  · rw [heq]
    have htag := reads_nil.escape rfl tag
    rw [List.append_nil] at htag
    refine ⟨_, parse_of_reads htag, ?_⟩
    rw [ends_foldr_cat, ends_cat_empty]
    rfl

end Marker

/-! ### Configured texts -/

/-- Configured texts are matched word for word. The pattern for the source of an import matches, of
the texts that do not end with a line feed, the name of the module between two quotes. A tag with an
attribute `name` or `src` is recognised where the first one of them stands at the edge of a word
with the same value between any quotes, and another tag where it stands itself. The regular
expressions with the escaped texts are read without a fault and match the same texts. -/
theorem configured_verbatim :
  (∀ module : List Char, ∃ p read,
    (Rule.moduleSource module).pattern = some (.ok p)
    ∧ Pattern.parse (Rule.moduleExpression module) = .ok read
    ∧ ∀ text : List Char, read.occursIn text = p.occursIn text
      ∧ (text.getLast? ≠ some '\n' →
        (p.occursIn text = true ↔ ∃ q q', Marker.isQuote q = true ∧ Marker.isQuote q' = true
          ∧ text = q :: (module ++ [q']))))
  ∧ ∀ tag : List Char, ∃ read,
    Pattern.parse (Marker.ofTag tag).expression = .ok read
    ∧ ∀ text : List Char, read.occursIn text = (Marker.ofTag tag).occursIn text
      ∧ ((Marker.ofTag tag).occursIn text = true ↔
        (∃ before name value, Marker.IsFirstAttribute tag before name value
          ∧ ∃ front q q' back, Marker.isQuote q = true ∧ Marker.isQuote q' = true
            ∧ Text.isWordEdge front.getLast? name.head? = true
            ∧ text = front ++ (name ++ '=' :: q :: (value ++ q' :: back)))
        ∨ (∀ before name value, ¬ Marker.HasAttribute tag before name value) ∧ tag <:+: text)
  := by
  constructor
  · intro module
    obtain ⟨read, hread, hends⟩ := Rule.parse_moduleExpression module
    refine ⟨Rule.modulePattern module, read, rfl, hread, ?_⟩
    intro text
    refine ⟨Pattern.occursIn_congr hends text, ?_⟩
    intro hlast
    simp only [Import.occursIn_modulePattern, Marker.isQuote_iff]
    constructor
    · rintro ⟨q, q', rest, hq, hq', rfl | rfl, rfl⟩
      · exact ⟨q, q', hq, hq', rfl⟩
      · cases hlast (by simp [List.getLast?_cons])
    · rintro ⟨q, q', hq, hq', rfl⟩
      exact ⟨q, q', [], hq, hq', .inl rfl, rfl⟩
  · intro tag
    obtain ⟨read, hread, hends⟩ := Marker.parse_expression tag
    refine ⟨read, hread, ?_⟩
    intro text
    exact ⟨Pattern.occursIn_congr hends text, Marker.occursIn_ofTag⟩

/-- The name of a module with signs that have a meaning in regular expressions. -/
theorem configured_verbatim_signs :
  ∃ p, (Rule.moduleSource "a.b|(c$".toList).pattern = some (.ok p)
    ∧ "'a.b|(c$\"".toList.getLast? ≠ some '\n' ∧ p.occursIn "'a.b|(c$\"".toList = true
    ∧ "'a+b|(c$\"".toList.getLast? ≠ some '\n' ∧ p.occursIn "'a+b|(c$\"".toList = false
  := by
  obtain ⟨p, read, hpattern, -, hall⟩ := configured_verbatim.1 "a.b|(c$".toList
  have hsame : "'a.b|(c$\"".toList.getLast? ≠ some '\n' := by decide +kernel
  have hother : "'a+b|(c$\"".toList.getLast? ≠ some '\n' := by decide +kernel
  refine ⟨p, hpattern, hsame, ?_, hother, ?_⟩
  · exact ((hall _).2 hsame).mpr ⟨'\'', '"', rfl, rfl, rfl⟩
  · rw [Bool.eq_false_iff]
    intro h
    obtain ⟨q, q', -, -, heq⟩ := ((hall _).2 hother).mp h
    have hsecond : "'a+b|(c$\"".toList[2]? = some '.' := by
      rw [heq]
      rfl
    revert hsecond
    decide +kernel

end Codemod
