import Codemod.Proofs.Rename
import Codemod.Proofs.Respelling

/-!
# What a receiver reaches

The texts that a receiver takes for the value are those of a small grammar: a name with a question
mark, with the brackets of a call or behind `this`, and a call of a function that is trusted. Unless
the receiver is strict, a call of a function whose name mentions the value is taken as well. More
names and more trust only add texts, so with less trust fewer properties are renamed.
-/

namespace Codemod

/-! ### Lower case -/

namespace Text

theorem lowerChar_ne_nil (c : Char) :
  lowerChar c ≠ []
  := by
  rw [lowerChar]
  split
  · apply List.cons_ne_nil
  · split
    · apply List.cons_ne_nil
    · split <;> apply List.cons_ne_nil

theorem lowerAfter_eq_nil {before cs : List Char} :
  lowerAfter before cs = [] ↔ cs = []
  := by
  cases cs with
  | nil => simp [lowerAfter]
  | cons c cs =>
    simp only [lowerAfter, List.append_eq_nil_iff, reduceCtorEq, iff_false, not_and]
    intro h
    split at h
    · cases h
    · cases lowerChar_ne_nil c h

end Text

namespace Receiver

/-! ### Calls without arguments -/

/-- What makes a call without arguments of the name of a function. -/
def callMarks : List (List Char) := ["()".toList, "()?".toList]

/-- What may be left behind the end of a text: nothing or a line feed. -/
def finalBreaks : List (List Char) := [[], ['\n']]

/-- A text is a call of a function without arguments, perhaps with a line feed at its end that is
left to the function. -/
def IsCall (text function : List Char) : Prop :=
  ∃ front, ∃ mark ∈ callMarks, ∃ back ∈ finalBreaks,
    text = front ++ mark ++ back ∧ function = front ++ back

variable {r r' : Receiver} {text front back name function : List Char}

theorem splitFinalBreak_append (hfront : front.getLast? ≠ some '\n')
    (hback : back ∈ finalBreaks) :
  splitFinalBreak (front ++ back) = (front, back)
  := by
  simp only [finalBreaks, List.mem_cons, List.not_mem_nil, or_false] at hback
  rcases hback with rfl | rfl
  · rw [List.append_nil, splitFinalBreak, if_neg hfront]
  · simp [splitFinalBreak]

theorem exists_splitFinalBreak (text : List Char) :
  ∃ front, ∃ back ∈ finalBreaks, splitFinalBreak text = (front, back) ∧ text = front ++ back
  := by
  rw [splitFinalBreak_eq]
  cases h : dropEnding? ['\n'] text with
  | some front => exact ⟨front, _, by simp [finalBreaks], rfl, dropEnding?_eq_some.mp h⟩
  | none => exact ⟨text, _, by simp [finalBreaks], rfl, by simp⟩

theorem called?_eq_some :
  called? text = some function ↔ IsCall text function
  := by
  constructor
  · intro h
    obtain ⟨front, back, hback, hsplit, rfl⟩ := exists_splitFinalBreak text
    simp only [called?, hsplit, Option.map_eq_some_iff, Option.orElse_eq_some,
      dropEnding?_eq_some] at h
    obtain ⟨name, rfl | ⟨-, rfl⟩, rfl⟩ := h
    · exact ⟨name, _, by simp [callMarks], back, hback, rfl, rfl⟩
    · exact ⟨name, _, by simp [callMarks], back, hback, rfl, rfl⟩
  · rintro ⟨name, mark, hmark, back, hback, rfl, rfl⟩
    simp only [callMarks, List.mem_cons, List.not_mem_nil, or_false] at hmark
    rcases hmark with rfl | rfl
    · have hother : dropEnding? "()?".toList (name ++ "()".toList) = none := by
        apply Option.eq_none_iff_forall_ne_some.mpr
        intro front h
        have := congrArg List.getLast? (dropEnding?_eq_some.mp h)
        simp at this
      rw [called?, splitFinalBreak_append (by simp) hback]
      simp only [hother, dropEnding?_eq_some.mpr rfl]
      rfl
    · rw [called?, splitFinalBreak_append (by simp) hback]
      simp only [dropEnding?_eq_some.mpr rfl]
      rfl

/-- A function with no line feed in its name is called in two forms. -/
theorem isCall_iff (hfunction : '\n' ∉ function) :
  IsCall text function ↔ ∃ mark ∈ callMarks, text = function ++ mark
  := by
  constructor
  · rintro ⟨front, mark, hmark, back, hback, rfl, rfl⟩
    simp only [finalBreaks, List.mem_cons, List.not_mem_nil, or_false] at hback
    rcases hback with rfl | rfl
    · exact ⟨mark, hmark, by simp⟩
    · simp at hfunction
  · rintro ⟨mark, hmark, rfl⟩
    exact ⟨function, mark, hmark, [], by simp [finalBreaks], by simp, by simp⟩

/-! ### The grammar of receivers -/

/-- The calls of a function without arguments. -/
def callForms (function : List Char) : List (List Char) := callMarks.map (function ++ ·)

/-- The forms that a name of the value is written in, the properties of `this` with more behind
them apart. -/
def nameForms (name : List Char) : List (List Char) :=
  [name, name ++ ['?']] ++ callForms name ++
    ["this.".toList ++ name, "this?.".toList ++ name, "this?.".toList ++ name ++ ['?']]

/-- A text is written as a name of the value or as a call of a function that is known to return
it. -/
def Denotes (r : Receiver) (text : List Char) : Prop :=
  (∃ name ∈ r.aliases, text ∈ nameForms name ∨ "this.".toList ++ name ++ ['.'] <+: text)
    ∨ ∃ function ∈ r.indirections, text ∈ callForms function

instance (r : Receiver) (text : List Char) : Decidable (r.Denotes text) :=
  inferInstanceAs (Decidable (_ ∨ _))

/-- A text is a call of a function that has the name of the value in its own, in any letter
case. -/
def MentionedBy (r : Receiver) (text : List Char) : Prop :=
  r.rootName.getD defaultRootName ≠ []
    ∧ ∃ function, IsCall text function
      ∧ Text.lower (r.rootName.getD defaultRootName) <:+: Text.lower function

theorem mem_callForms :
  text ∈ callForms function ↔ ∃ mark ∈ callMarks, text = function ++ mark
  := by
  simp [callForms, eq_comm]

theorem mem_nameForms :
  text ∈ nameForms name
    ↔ text = name ∨ text = name ++ ['?'] ∨ text ∈ callForms name
      ∨ text = "this.".toList ++ name ∨ text = "this?.".toList ++ name
      ∨ text = "this?.".toList ++ name ++ ['?']
  := by
  simp only [nameForms, List.mem_append, List.mem_cons, List.not_mem_nil, or_false, or_assoc]

/-- A name with no line feed in it is left of itself and of itself with a question mark. -/
theorem eq_of_stripOptional (hname : '\n' ∉ name) (h : stripOptional text = name) :
  text = name ∨ text = name ++ ['?']
  := by
  obtain ⟨front, back, hback, hsplit, rfl⟩ := exists_splitFinalBreak text
  simp only [stripOptional, hsplit] at h
  have hnil : back = [] := by
    simp only [finalBreaks, List.mem_cons, List.not_mem_nil, or_false] at hback
    rcases hback with rfl | rfl
    · rfl
    · rw [← h] at hname
      simp at hname
  rw [hnil, List.append_nil] at h ⊢
  cases hmark : dropEnding? ['?'] front with
  | none =>
    rw [hmark] at h
    exact .inl h
  | some bare =>
    rw [hmark] at h
    obtain rfl : bare = name := h
    exact .inr (dropEnding?_eq_some.mp hmark)

theorem stripOptional_append (name : List Char) :
  stripOptional (name ++ ['?']) = name
  := by
  have hsplit : splitFinalBreak (name ++ ['?'] ++ []) = (name ++ ['?'], []) :=
    splitFinalBreak_append (by simp) List.mem_cons_self
  rw [List.append_nil] at hsplit
  simp [stripOptional, hsplit, dropEnding?_eq_some.mpr]

theorem mentions_iff :
  r.mentions function = true
    ↔ r.rootName.getD defaultRootName ≠ []
      ∧ Text.lower (r.rootName.getD defaultRootName) <:+: Text.lower function
  := by
  simp only [mentions, Bool.and_eq_true, Bool.not_eq_true', List.isEmpty_eq_false_iff, occursIn_iff,
    ne_eq, Text.lower, Text.lowerAfter_eq_nil]

theorem returns_iff :
  r.returns function = true
    ↔ function ∈ r.aliases ∨ function ∈ r.indirections
      ∨ r.strict = false ∧ r.mentions function = true
  := by
  simp only [returns, Bool.or_eq_true, List.contains_iff_mem, Bool.and_eq_true, Bool.not_eq_true',
    or_assoc]

theorem isOwn_iff :
  isOwn text name = true
    ↔ text = "this.".toList ++ name ∨ "this.".toList ++ name ++ ['.'] <+: text
      ∨ text = "this?.".toList ++ name ∨ text = "this?.".toList ++ name ++ ['?']
  := by
  simp only [isOwn, Bool.or_eq_true, decide_eq_true_iff, List.isPrefixOf_iff_prefix, or_assoc]

/-- The ways in which a text is taken for the value. -/
theorem reaches_cases :
  r.reaches text = true
    ↔ text ∈ r.aliases ∨ stripOptional text ∈ r.aliases
      ∨ (∃ function, IsCall text function ∧ r.returns function = true)
      ∨ ∃ name ∈ r.aliases, isOwn text name = true
  := by
  simp only [reaches, Bool.or_eq_true, List.contains_iff_mem, Option.any_eq_true, called?_eq_some,
    List.any_eq_true, or_assoc]

theorem reaches_of_returns (hcall : IsCall text function) (h : r.returns function = true) :
  r.reaches text = true
  := reaches_cases.mpr (.inr (.inr (.inl ⟨function, hcall, h⟩)))

theorem reaches_of_isOwn (hname : name ∈ r.aliases) (h : isOwn text name = true) :
  r.reaches text = true
  := reaches_cases.mpr (.inr (.inr (.inr ⟨name, hname, h⟩)))

theorem denotes_of_nameForms (hname : name ∈ r.aliases) (h : text ∈ nameForms name) :
  r.Denotes text
  := .inl ⟨name, hname, .inl h⟩

theorem denotes_of_isOwn (hname : name ∈ r.aliases) (h : isOwn text name = true) :
  r.Denotes text
  := by
  rcases isOwn_iff.mp h with h | h | h
  · exact denotes_of_nameForms hname (mem_nameForms.mpr (.inr (.inr (.inr (.inl h)))))
  · exact .inl ⟨name, hname, .inr h⟩
  · exact denotes_of_nameForms hname (mem_nameForms.mpr (.inr (.inr (.inr (.inr h)))))

section LineFeeds

variable (hnames : ∀ name ∈ r.aliases ++ r.indirections, '\n' ∉ name)

include hnames

theorem isCall_iff_mem (hname : name ∈ r.aliases ++ r.indirections) :
  IsCall text name ↔ text ∈ callForms name
  := by
  rw [isCall_iff (hnames name hname), mem_callForms]

/-- The texts of the grammar are taken for the value. -/
theorem Denotes.reaches (h : r.Denotes text) :
  r.reaches text = true
  := by
  rcases h with ⟨name, hname, hform | hfront⟩ | ⟨function, hname, hform⟩
  · rcases mem_nameForms.mp hform with rfl | rfl | hform | hown | hown
    · exact reaches_cases.mpr (.inl hname)
    · apply reaches_cases.mpr (.inr (.inl _))
      rwa [stripOptional_append]
    · have hcall := (isCall_iff_mem hnames (List.mem_append_left _ hname)).mpr hform
      exact reaches_of_returns hcall (returns_iff.mpr (.inl hname))
    · exact reaches_of_isOwn hname (isOwn_iff.mpr (.inl hown))
    · exact reaches_of_isOwn hname (isOwn_iff.mpr (.inr (.inr hown)))
  · exact reaches_of_isOwn hname (isOwn_iff.mpr (.inr (.inl hfront)))
  · have hcall := (isCall_iff_mem hnames (List.mem_append_right _ hname)).mpr hform
    exact reaches_of_returns hcall (returns_iff.mpr (.inr (.inl hname)))

/-- A call of a function that returns the value is in the grammar, unless the function only mentions
the value. -/
theorem denotes_of_returns (hcall : IsCall text function) (h : r.returns function = true) :
  r.Denotes text ∨ r.strict = false ∧ r.mentions function = true
  := by
  rcases returns_iff.mp h with hname | hname | hmentions
  · have hform := (isCall_iff_mem hnames (List.mem_append_left _ hname)).mp hcall
    exact .inl (denotes_of_nameForms hname (mem_nameForms.mpr (.inr (.inr (.inl hform)))))
  · have hform := (isCall_iff_mem hnames (List.mem_append_right _ hname)).mp hcall
    exact .inl (.inr ⟨function, hname, hform⟩)
  · exact .inr hmentions

theorem denotes_of_stripOptional (h : stripOptional text ∈ r.aliases) :
  r.Denotes text
  := by
  apply denotes_of_nameForms h
  apply mem_nameForms.mpr
  rcases eq_of_stripOptional (hnames _ (List.mem_append_left _ h)) rfl with h | h
  · exact .inl h
  · exact .inr (.inl h)

end LineFeeds

/-- A receiver whose names have no line feed in them takes exactly the texts of the grammar for the
value, and the calls that mention the value unless it is strict. -/
theorem reaches_iff (r : Receiver) (hnames : ∀ name ∈ r.aliases ++ r.indirections, '\n' ∉ name)
    (text : List Char) :
  r.reaches text = true ↔ r.Denotes text ∨ r.strict = false ∧ r.MentionedBy text
  := by
  constructor
  · intro h
    rcases reaches_cases.mp h with hname | hname | ⟨function, hcall, hreturns⟩ | ⟨name, hname, hown⟩
    · exact .inl (denotes_of_nameForms hname (mem_nameForms.mpr (.inl rfl)))
    · exact .inl (denotes_of_stripOptional hnames hname)
    · rcases denotes_of_returns hnames hcall hreturns with hdenotes | ⟨hstrict, hmentions⟩
      · exact .inl hdenotes
      · obtain ⟨hroot, hpart⟩ := mentions_iff.mp hmentions
        exact .inr ⟨hstrict, hroot, function, hcall, hpart⟩
    · exact .inl (denotes_of_isOwn hname hown)
  · rintro (hdenotes | ⟨hstrict, hroot, function, hcall, hpart⟩)
    · exact hdenotes.reaches hnames
    · have hmentions := mentions_iff.mpr ⟨hroot, hpart⟩
      exact reaches_of_returns hcall (returns_iff.mpr (.inr (.inr ⟨hstrict, hmentions⟩)))

/-- A name that ends with a question mark, and a call with a line feed behind it that mentions the
value and is none of the forms of its names. -/
theorem reaches_iff_mentioned :
  ∃ (r : Receiver) (text : List Char),
    r = ⟨["x?".toList, "api".toList], none, ["load".toList], false⟩
    ∧ text = "fetchAPI()?\n".toList
    ∧ (∀ name ∈ r.aliases ++ r.indirections, '\n' ∉ name)
    ∧ ¬ r.Denotes text ∧ r.MentionedBy text
    ∧ r.reaches text = true ∧ { r with strict := true }.reaches text = false
    ∧ r.reaches "x??".toList = true ∧ { r with strict := true }.reaches "x??".toList = true
  := by
  let r : Receiver := ⟨["x?".toList, "api".toList], none, ["load".toList], false⟩
  have hnames : ∀ name ∈ r.aliases ++ r.indirections, '\n' ∉ name := by decide
  have hreaches : r.reaches "fetchAPI()?\n".toList = true := by decide +kernel
  have hdenotes : ¬ r.Denotes "fetchAPI()?\n".toList := by decide +kernel
  have hname : r.Denotes "x??".toList := by decide +kernel
  obtain ⟨-, hmentioned⟩ := ((reaches_iff r hnames _).mp hreaches).resolve_left hdenotes
  refine ⟨r, _, rfl, rfl, hnames, hdenotes, hmentioned, hreaches, ?_, ?_, ?_⟩
  · apply Bool.eq_false_iff.mpr
    intro h
    rcases (reaches_iff { r with strict := true } hnames _).mp h with h | ⟨h, -⟩
    · exact hdenotes h
    · cases h
  · apply (reaches_iff r hnames _).mpr (.inl hname)
  · apply (reaches_iff { r with strict := true } hnames _).mpr (.inl hname)

/-! ### More names and more trust -/

/-- A receiver has all names of another one and trusts all functions that the other one trusts. -/
structure Includes (r' r : Receiver) : Prop where
  rootName : r'.rootName = r.rootName
  aliases : r.aliases ⊆ r'.aliases
  indirections : r.indirections ⊆ r'.indirections
  strict : r'.strict = true → r.strict = true

theorem Includes.returns (h : r'.Includes r) (hreturns : r.returns function = true) :
  r'.returns function = true
  := by
  apply returns_iff.mpr
  rcases returns_iff.mp hreturns with hname | hname | ⟨hstrict, hmentions⟩
  · exact .inl (h.aliases hname)
  · exact .inr (.inl (h.indirections hname))
  · have hstrict' : r'.strict = false := by
      apply Bool.eq_false_iff.mpr
      intro htrue
      rw [h.strict htrue] at hstrict
      cases hstrict
    have hmentions' : r'.mentions function = true := by
      rwa [mentions, h.rootName]
    exact .inr (.inr ⟨hstrict', hmentions'⟩)

/-- What a receiver reaches is reached with more names and more trust. -/
theorem Includes.reaches (h : r'.Includes r) (hreaches : r.reaches text = true) :
  r'.reaches text = true
  := by
  rcases reaches_cases.mp hreaches with hname | hname | ⟨function, hcall, hreturns⟩
      | ⟨name, hname, hown⟩
  · exact reaches_cases.mpr (.inl (h.aliases hname))
  · exact reaches_cases.mpr (.inr (.inl (h.aliases hname)))
  · exact reaches_of_returns hcall (h.returns hreturns)
  · exact reaches_of_isOwn (h.aliases hname) hown

/-- What is reached with the same names but only with more trust is a call of a function that is
not trusted without it. -/
theorem exists_call_of_reaches (haliases : r'.aliases = r.aliases)
    (hreaches : r'.reaches text = true) (hnot : r.reaches text = false) :
  ∃ function, IsCall text function ∧ r'.returns function = true ∧ r.returns function = false
  := by
  have hnot : ¬ r.reaches text = true := by simp [hnot]
  rw [reaches_cases, haliases] at hreaches
  rcases hreaches with hname | hname | ⟨function, hcall, hreturns⟩ | ⟨name, hname, hown⟩
  · cases hnot (reaches_cases.mpr (.inl hname))
  · cases hnot (reaches_cases.mpr (.inr (.inl hname)))
  · refine ⟨function, hcall, hreturns, ?_⟩
    apply Bool.eq_false_iff.mpr
    intro h
    exact hnot (reaches_of_returns hcall h)
  · cases hnot (reaches_of_isOwn hname hown)

end Receiver

namespace Rename

variable {c c' : Rename} {d : Document} {n : Node}

/-! ### Stricter settings -/

/-- Some settings differ from others at most in the functions that are trusted to return the value,
and trust no other ones. -/
structure Stricter (c c' : Rename) : Prop where
  rest : { c with indirections := c'.indirections, strict := c'.strict } = c'
  indirections : c.indirections ⊆ c'.indirections
  strict : c'.strict = true → c.strict = true

theorem Stricter.includes (h : Stricter c c') (d : Document) :
  (c'.receiver d).Includes (c.receiver d)
  := by
  rw [← h.rest]
  exact ⟨rfl, List.Subset.refl _, h.indirections, h.strict⟩

theorem Stricter.aliases (h : Stricter c c') (d : Document) :
  (c'.receiver d).aliases = (c.receiver d).aliases
  := by
  rw [← h.rest]
  rfl

theorem Stricter.words (h : Stricter c c') :
  c.property = c'.property ∧ c.replacement = c'.replacement
  := by
  rw [← h.rest]
  exact ⟨rfl, rfl⟩

theorem Stricter.patternEdits (h : Stricter c c') (d : Document) :
  c.patternEdits d = c'.patternEdits d
  := by
  rw [← h.rest]
  rfl

/-- A node is renamed in a call when the object that its parent takes it off is reached. -/
theorem isCandidate_iff {r : Receiver} :
  c.isCandidate d r n = true
    ↔ ∃ member object, n.parent? = some member ∧ member.child? .object = some object
      ∧ r.reaches (d.textOf object) = true
      ∧ member.kind = .memberExpression
      ∧ (member.child? .property).any (·.sameAs n) = true
      ∧ c.isMethodCall d member = true
  := by
  simp only [isCandidate, Option.any_eq_true, Bool.and_eq_true, decide_eq_true_iff]
  constructor
  · rintro ⟨member, hparent, ⟨⟨hkind, hproperty⟩, object, hobject, hreaches⟩, hcall⟩
    exact ⟨member, object, hparent, hobject, hreaches, hkind, hproperty, hcall⟩
  · rintro ⟨member, object, hparent, hobject, hreaches, hkind, hproperty, hcall⟩
    exact ⟨member, hparent, ⟨⟨hkind, hproperty⟩, object, hobject, hreaches⟩, hcall⟩

theorem Stricter.isMethodCall (h : Stricter c c') (d : Document) (m : Node) :
  c.isMethodCall d m = c'.isMethodCall d m
  := by
  rw [← h.rest]
  rfl

theorem Stricter.isCandidate (h : Stricter c c')
    (hcandidate : c.isCandidate d (c.receiver d) n = true) :
  c'.isCandidate d (c'.receiver d) n = true
  := by
  obtain ⟨member, object, hparent, hobject, hreaches, hkind, hproperty, hcall⟩ :=
    isCandidate_iff.mp hcandidate
  rw [h.isMethodCall] at hcall
  apply isCandidate_iff.mpr
  exact ⟨member, object, hparent, hobject, (h.includes d).reaches hreaches, hkind, hproperty, hcall⟩

theorem Stricter.memberNodes_sublist (h : Stricter c c') (d : Document) :
  (c.memberNodes d).Sublist (c'.memberNodes d)
  := by
  rw [memberNodes, memberNodes, h.words.1]
  apply List.monotone_filter_right
  intro n hn
  simp only [Bool.and_eq_true] at hn ⊢
  exact ⟨hn.1, h.isCandidate hn.2⟩

/-- The functions that some settings trust to return the value and stricter ones do not. -/
def TrustedOnlyBy (c' c : Rename) (d : Document) (function : List Char) : Prop :=
  function ∉ Alias.names d c.rootName c.through ∧ function ∉ c.indirections
    ∧ (function ∈ c'.indirections
      ∨ c.strict = true ∧ c'.strict = false ∧ (c.receiver d).mentions function = true)

theorem Stricter.trustedOnlyBy (h : Stricter c c') {function : List Char}
    (hreturns : (c'.receiver d).returns function = true)
    (hnot : (c.receiver d).returns function = false) :
  TrustedOnlyBy c' c d function
  := by
  have hnot : ¬ (c.receiver d).returns function = true := by simp [hnot]
  rw [Receiver.returns_iff] at hreturns hnot
  simp only [not_or, not_and] at hnot
  obtain ⟨hname, hknown, hmentions⟩ := hnot
  refine ⟨hname, hknown, ?_⟩
  rcases hreturns with hname' | hknown' | ⟨hstrict, hmention⟩
  · rw [h.aliases] at hname'
    cases hname hname'
  · exact .inl hknown'
  · have hmention : (c.receiver d).mentions function = true := by
      rwa [Receiver.mentions, (h.includes d).rootName] at hmention
    have hstrict' : c.strict = true := by
      apply Bool.of_not_eq_false
      intro hloose
      exact hmentions hloose hmention
    exact .inr ⟨hstrict', hstrict, hmention⟩

/-- A property that only the others rename is taken off the result of a call that only they
trust. -/
theorem Stricter.exists_call (h : Stricter c c') (hn : n ∈ c'.memberNodes d)
    (hnot : n ∉ c.memberNodes d) :
  ∃ member object function, n.parent? = some member ∧ member.child? .object = some object
    ∧ Receiver.IsCall (d.textOf object) function ∧ TrustedOnlyBy c' c d function
  := by
  obtain ⟨hlisted, hn⟩ := List.mem_filter.mp hn
  rw [Bool.and_eq_true, ← h.words.1] at hn
  obtain ⟨hword, hcandidate⟩ := hn
  obtain ⟨member, object, hparent, hobject, hreaches, hkind, hproperty, hcall⟩ :=
    isCandidate_iff.mp hcandidate
  have hrefused : (c.receiver d).reaches (d.textOf object) = false := by
    apply Bool.eq_false_iff.mpr
    intro hreaches'
    rw [← h.isMethodCall] at hcall
    have hcandidate' : c.isCandidate d (c.receiver d) n = true := isCandidate_iff.mpr
      ⟨member, object, hparent, hobject, hreaches', hkind, hproperty, hcall⟩
    exact hnot (List.mem_filter.mpr ⟨hlisted, Bool.and_eq_true_iff.mpr ⟨hword, hcandidate'⟩⟩)
  obtain ⟨function, hfunction, hreturns, hnot⟩ :=
    Receiver.exists_call_of_reaches (h.aliases d) hreaches hrefused
  exact ⟨member, object, function, hparent, hobject, hfunction, h.trustedOnlyBy hreturns hnot⟩

/-- With stricter settings the edits are among those of the others, in the same order, and the
edits of patterns are the same. A property that only the others rename is taken off the result of a
call of a function that only they trust. With more names, a receiver reaches what it did. -/
theorem edits_stricter {c c' : Rename} (h : Stricter c c') (d : Document) :
  (c.edits d).Sublist (c'.edits d)
  ∧ c.patternEdits d = c'.patternEdits d
  ∧ (∀ n ∈ c'.memberNodes d, n ∈ c.memberNodes d
    ∨ ∃ member object function, n.parent? = some member ∧ member.child? .object = some object
      ∧ Receiver.IsCall (d.textOf object) function ∧ TrustedOnlyBy c' c d function)
  ∧ ∀ (r : Receiver) (names : List (List Char)), r.aliases ⊆ names →
    ∀ text, r.reaches text = true → { r with aliases := names }.reaches text = true
  := by
  have hpattern := h.patternEdits d
  refine ⟨?_, hpattern, ?_, ?_⟩
  · rw [edits, edits, hpattern, memberEdits_eq, memberEdits_eq, h.words.2]
    apply List.Sublist.append _ (List.Sublist.refl _)
    apply (h.memberNodes_sublist d).map
  · intro n hn
    by_cases hmem : n ∈ c.memberNodes d
    · exact .inl hmem
    · exact .inr (h.exists_call hn hmem)
  · intro r names hnames text
    apply Receiver.Includes.reaches
    exact ⟨rfl, hnames, List.Subset.refl _, id⟩

/-- Calls on the value, on a function that mentions it, on a known function, and through a pattern. -/
def trusting : List Char :=
  ("api.smartGrid.presentModal();\ngetApi().smartGrid.presentModal();\n"
    ++ "load()?.smartGrid.presentModal();\nconst \x7b smartGrid \x7d = api;\n"
    ++ "smartGrid.presentModal();\n").toList

set_option maxRecDepth 100000 in
/-- The default settings with one known function, and strict ones with none. -/
theorem edits_stricter_calls :
  ∃ (c c' : Rename) (d : Document),
    c = { strict := true } ∧ c' = { indirections := ["load".toList] }
    ∧ Document.parse trusting "tsx" none false = .ok d
    ∧ Stricter c c'
    ∧ (c.edits d).map (fun e => (e.start, e.stop)) = [(4, 13), (126, 135), (107, 116)]
    ∧ (c'.edits d).map (fun e => (e.start, e.stop))
      = [(4, 13), (39, 48), (73, 82), (126, 135), (107, 116)]
    ∧ (c.edits d).Sublist (c'.edits d)
  := by
  have hrun : ((Document.parse trusting "tsx" none false).toOption.map fun d =>
      ((edits { strict := true } d).map fun e => (e.start, e.stop),
        (edits { indirections := ["load".toList] } d).map fun e => (e.start, e.stop)))
      = some ([(4, 13), (126, 135), (107, 116)],
        [(4, 13), (39, 48), (73, 82), (126, 135), (107, 116)]) := by
    decide +kernel
  have hstricter : Stricter { strict := true } { indirections := ["load".toList] } :=
    ⟨rfl, List.nil_subset _, nofun⟩
  cases hparse : Document.parse trusting "tsx" none false with
  | error e =>
    rw [hparse] at hrun
    cases hrun
  | ok d =>
    rw [hparse] at hrun
    obtain ⟨hfirst, hsecond⟩ := Prod.mk.inj (Option.some.inj hrun)
    exact ⟨_, _, d, rfl, rfl, rfl, hstricter, hfirst, hsecond, (edits_stricter hstricter d).1⟩

end Rename

end Codemod
