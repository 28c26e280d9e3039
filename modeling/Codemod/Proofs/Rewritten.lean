import Codemod.Proofs.Rename

/-!
# The words that are rewritten

Which words renaming rewrites, and with which text, is said without regard to the order in which
the edits are made. From this follows what happens to the places that bind the name of the property
when calls through that name are rewritten: an entry of a pattern is rewritten exactly when it is
taken off the value, and a name that is bound in any other way stays.
-/

namespace Codemod.Rename

open Grammar Alias

variable {c : Rename} {d : Document} {dialect : Dialect}

/-! ### Words and their replacements -/

/-- Words at one place and of one kind are one word. -/
theorem sameAs_iff (hd : d.WellRead dialect) {n m : Node} (hn : d.Word n) (hm : d.Word m) :
  n.sameAs m = true ↔ n = m
  := by
  constructor
  · intro h
    simp only [Node.sameAs, Tree.sameAs, Bool.and_eq_true, decide_eq_true_iff] at h
    apply hd.word_eq hn hm h.1.1
  · rintro rfl
    simp [Node.sameAs, Tree.sameAs]

/-- A replacement of a word tells the word. -/
theorem eq_of_replace (hd : d.WellRead dialect) {n m : Node} (hn : d.Word n) (hm : d.Word m)
    {s t : List Char} (h : n.replace s = m.replace t) :
  n = m ∧ s = t
  := by
  simp only [Node.replace, Edit.mk.injEq] at h
  obtain ⟨hstart, -, htext⟩ := h
  exact ⟨hd.word_eq hn hm (by omega), htext⟩

/-! ### When a local name is renamed -/

/-- In a parsed document, the bindings of the property under a local name. -/
theorem mem_groupOf_iff (hd : d.WellRead dialect) {name : List Char} {a : Alias} :
  a ∈ c.groupOf d name ↔
    Introduced d c.rootName c.through a ∧ a.property = some c.property ∧ a.name = name
  := by
  constructor
  · apply mem_groupOf
  · rintro ⟨hintroduced, hproperty, hname⟩
    obtain ⟨t, hsound, hclosed, heq⟩ := exists_trail d c.rootName c.through
    obtain ⟨b, hb, hab⟩ := hsound.covers hclosed hintroduced
    obtain rfl := hintroduced.eq_of_sameBinding hd (hsound.found b hb) hab
    rw [groupOf, taken, bindings, heq, List.mem_filter, List.mem_filter]
    exact ⟨⟨hb, decide_eq_true hproperty⟩, decide_eq_true hname⟩

theorem mem_takenNames {name : List Char} :
  name ∈ (c.taken d).map Alias.name ↔ c.groupOf d name ≠ []
  := by
  constructor
  · intro h
    obtain ⟨a, ha, hname⟩ := List.mem_map.mp h
    apply List.ne_nil_of_mem (List.mem_filter.mpr ⟨ha, decide_eq_true hname⟩)
  · intro h
    obtain ⟨a, ha⟩ := List.exists_mem_of_ne_nil _ h
    obtain ⟨ha, hname⟩ := List.mem_filter.mp ha
    apply List.mem_map.mpr ⟨a, ha, of_decide_eq_true hname⟩

/-- The references to a local name that are neither its bindings nor calls through it. -/
def othersOf (c : Rename) (d : Document) (name : List Char) : List Node :=
  (references d name).filter fun n =>
    !(c.groupOf d name).any (·.node.sameAs n) && !(c.callsOf d name).any (·.sameAs n)

/-- The calls through the name of the property are renamed, together with its bindings. -/
structure RenamesCalls (c : Rename) (d : Document) : Prop where
  bound : c.groupOf d c.property ≠ []
  calls : c.callsOf d c.property ≠ []
  shorthand : ∀ a ∈ c.groupOf d c.property, a.isShorthand = true
  others : c.othersOf d c.property = []
    ∨ ∀ a ∈ c.groupOf d c.property, a.entry.any (·.kind = .objectAssignmentPattern) = false

/-- The keys of the bindings under a local name of its own are renamed. -/
structure RenamesKeys (c : Rename) (d : Document) (name : List Char) : Prop where
  bound : c.groupOf d name ≠ []
  calls : c.callsOf d name ≠ []
  own : ∀ a ∈ c.groupOf d name, a.isShorthand = false
  others : c.othersOf d name = []

/-- What stands in place of the name of the property in a pattern. -/
def boundText (c : Rename) (d : Document) : List Char :=
  if (c.othersOf d c.property).isEmpty then c.replacement
  else c.replacement ++ ", ".toList ++ c.property

theorem groupEdits_eq {name : List Char} (h : c.groupOf d name ≠ []) :
  c.groupEdits d (c.groupOf d name) =
    if (c.callsOf d name).isEmpty then []
    else if (c.groupOf d name).all Alias.isShorthand then
      c.shorthandEdits name (c.groupOf d name) (c.callsOf d name) (c.othersOf d name)
    else if (c.groupOf d name).any Alias.isShorthand then []
    else c.keyEdits (c.groupOf d name) (c.othersOf d name)
  := by
  simp only [groupEdits, head_groupOf (mem_takenNames.mpr h)]
  rfl

/-- The edits of shorthands, when they are made. -/
theorem groupEdits_of_renamesCalls (h : c.RenamesCalls d) :
  c.groupEdits d (c.groupOf d c.property) = (c.callsOf d c.property).map (·.replace c.replacement)
    ++ (c.groupOf d c.property).map (·.node.replace (c.boundText d))
  := by
  have hdefault : ¬ (!(c.othersOf d c.property).isEmpty && (c.groupOf d c.property).any
      (·.entry.any (·.kind = .objectAssignmentPattern))) = true := by
    rcases h.others with hothers | hdefault
    · simp [hothers]
    · simp only [Bool.and_eq_true, not_and, Bool.not_eq_true]
      intro _
      apply List.any_eq_false.mpr
      intro a ha
      simpa using hdefault a ha
  rw [groupEdits_eq h.bound, if_neg (by simpa using h.calls),
    if_pos (List.all_eq_true.mpr h.shorthand), shorthandEdits, if_neg hdefault]
  rfl

/-- The edits of bindings with names of their own, when they are made. -/
theorem groupEdits_of_renamesKeys {name : List Char} (h : c.RenamesKeys d name) :
  c.groupEdits d (c.groupOf d name)
    = ((c.groupOf d name).filterMap keyOf?).map (·.replace c.replacement)
  := by
  have hany : (c.groupOf d name).any Alias.isShorthand = false := by
    apply List.any_eq_false.mpr
    intro a ha
    simp [h.own a ha]
  have hall : ¬ (c.groupOf d name).all Alias.isShorthand = true := by
    obtain ⟨a, ha⟩ := List.exists_mem_of_ne_nil _ h.bound
    intro hall
    have hshorthand := List.all_eq_true.mp hall a ha
    rw [h.own a ha] at hshorthand
    cases hshorthand
  rw [groupEdits_eq h.bound, if_neg (by simpa using h.calls), if_neg hall, if_neg (by simp [hany]),
    keyEdits, if_pos (by simp [h.others])]
  rfl

/-- Otherwise there are no edits. -/
theorem groupEdits_cases_iff (hd : d.WellRead dialect) {name : List Char}
    (h : c.groupOf d name ≠ []) :
  c.groupEdits d (c.groupOf d name) = [] ∨ (name = c.property ∧ c.RenamesCalls d)
    ∨ c.RenamesKeys d name
  := by
  rw [groupEdits_eq h]
  split
  · apply Or.inl rfl
  · rename_i hcalls
    have hcalls : c.callsOf d name ≠ [] := by simpa using hcalls
    split
    · rename_i hall
      have hall := List.all_eq_true.mp hall
      obtain ⟨a, ha⟩ := List.exists_mem_of_ne_nil _ h
      obtain ⟨rfl, -⟩ := shorthand_word hd ha (hall a ha)
      rw [shorthandEdits]
      split
      · apply Or.inl rfl
      · rename_i hdefault
        refine .inr (.inl ⟨rfl, h, hcalls, hall, ?_⟩)
        by_cases hothers : c.othersOf d c.property = []
        · apply Or.inl hothers
        · apply Or.inr
          simpa [hothers] using hdefault
    · split
      · apply Or.inl rfl
      · rename_i hany
        rw [keyEdits]
        split
        · rename_i hothers
          exact .inr (.inr ⟨h, hcalls, by simpa using hany, by simpa using hothers⟩)
        · apply Or.inl rfl

/-! ### The rewritten words -/

/-- A word is rewritten with a text. -/
inductive Rewritten (c : Rename) (d : Document) : Node → List Char → Prop where
  /-- A call on the value itself. -/
  | member {n : Node} (hn : n ∈ c.memberNodes d) : Rewritten c d n c.replacement
  /-- A call through the name of the property. -/
  | call {n : Node} (h : c.RenamesCalls d) (hn : n ∈ c.callsOf d c.property) :
    Rewritten c d n c.replacement
  /-- An entry of a pattern that binds the name of the property. -/
  | bound {a : Alias} (h : c.RenamesCalls d) (ha : a ∈ c.groupOf d c.property) :
    Rewritten c d a.node (c.boundText d)
  /-- The key of an entry that binds another name. -/
  | key {name : List Char} {a : Alias} {n : Node} (h : c.RenamesKeys d name)
      (ha : a ∈ c.groupOf d name) (hkey : keyOf? a = some n) : Rewritten c d n c.replacement

theorem Rewritten.word (hd : d.WellRead dialect) {n : Node} {t : List Char}
    (h : Rewritten c d n t) :
  d.Word n ∧ d.textOf n = c.property
  := by
  cases h with
  | member hn =>
    obtain ⟨hword, htext, -⟩ := mem_memberNodes hn
    exact ⟨hword, htext⟩
  | call _ hn => exact Site.word hd (.call hn rfl)
  | bound h ha => exact Site.word hd (.bound ha (h.shorthand _ ha))
  | key h ha hkey => exact Site.word hd (.key ha (h.own _ ha) hkey)

/-- The edits are the replacements of the rewritten words. -/
theorem mem_edits_iff (hd : d.WellRead dialect) {e : Edit} :
  e ∈ c.edits d ↔ ∃ n t, Rewritten c d n t ∧ e = n.replace t
  := by
  rw [edits, List.mem_append, memberEdits_eq]
  constructor
  · rintro (he | he)
    · obtain ⟨n, hn, rfl⟩ := List.mem_map.mp he
      exact ⟨n, _, .member hn, rfl⟩
    · obtain ⟨name, hname, he⟩ := mem_patternEdits he
      rcases groupEdits_cases_iff hd (mem_takenNames.mp hname) with hnil | ⟨rfl, h⟩ | h
      · rw [hnil] at he
        cases he
      · rw [groupEdits_of_renamesCalls h] at he
        rcases List.mem_append.mp he with he | he
        · obtain ⟨n, hn, rfl⟩ := List.mem_map.mp he
          exact ⟨n, _, .call h hn, rfl⟩
        · obtain ⟨a, ha, rfl⟩ := List.mem_map.mp he
          exact ⟨a.node, _, .bound h ha, rfl⟩
      · rw [groupEdits_of_renamesKeys h] at he
        obtain ⟨n, hn, rfl⟩ := List.mem_map.mp he
        obtain ⟨a, ha, hkey⟩ := List.mem_filterMap.mp hn
        exact ⟨n, _, .key h ha hkey, rfl⟩
  · have hgroup {name : List Char} {e : Edit} (h : c.groupOf d name ≠ [])
        (he : e ∈ c.groupEdits d (c.groupOf d name)) : e ∈ c.patternEdits d := by
      rw [patternEdits, groups_eq, List.flatMap_map]
      exact List.mem_flatMap.mpr ⟨name, List.mem_eraseDups.mpr (mem_takenNames.mpr h), he⟩
    rintro ⟨n, t, h, rfl⟩
    cases h with
    | member hn => exact .inl (List.mem_map_of_mem hn)
    | call h hn =>
      apply Or.inr (hgroup h.bound _)
      rw [groupEdits_of_renamesCalls h]
      apply List.mem_append_left _ (List.mem_map_of_mem hn)
    | bound h ha =>
      apply Or.inr (hgroup h.bound _)
      rw [groupEdits_of_renamesCalls h]
      apply List.mem_append_right _ (List.mem_map.mpr ⟨_, ha, rfl⟩)
    | key h ha hkey =>
      apply Or.inr (hgroup h.bound _)
      rw [groupEdits_of_renamesKeys h]
      apply List.mem_map_of_mem (List.mem_filterMap.mpr ⟨_, ha, hkey⟩)

theorem replace_mem_edits_iff (hd : d.WellRead dialect) {n : Node} (hn : d.Word n)
    {t : List Char} :
  n.replace t ∈ c.edits d ↔ Rewritten c d n t
  := by
  rw [mem_edits_iff hd]
  constructor
  · rintro ⟨m, s, h, heq⟩
    obtain ⟨rfl, rfl⟩ := eq_of_replace hd hn (h.word hd).1 heq
    apply h
  · intro h
    exact ⟨n, t, h, rfl⟩

/-- An identifier is rewritten only as the receiver of a call through the name of the property. -/
theorem Rewritten.identifier (hd : d.WellRead dialect) {n : Node} {t : List Char}
    (h : Rewritten c d n t) (hkind : n.kind = .identifier) :
  c.RenamesCalls d ∧ n ∈ c.callsOf d c.property
  := by
  cases h with
  | member hn =>
    rw [(mem_memberNodes hn).2.2.1] at hkind
    cases hkind
  | call h hn => exact ⟨h, hn⟩
  | bound h ha =>
    rw [(shorthand_word hd ha (h.shorthand _ ha)).2] at hkind
    cases hkind
  | key h ha hkey =>
    rw [(key_word ha (h.own _ ha) hkey).2.1] at hkind
    cases hkind

/-- The name in an entry of a pattern is rewritten only as a binding of the property. -/
theorem Rewritten.entry {n : Node} {t : List Char} (h : Rewritten c d n t)
    (hkind : n.kind = .shorthandPropertyIdentifierPattern) :
  c.RenamesCalls d ∧ t = c.boundText d ∧ ∃ a ∈ c.groupOf d c.property, a.node = n
  := by
  cases h with
  | member hn =>
    rw [(mem_memberNodes hn).2.2.1] at hkind
    cases hkind
  | call h hn =>
    rw [(mem_callsOf hn).2.1] at hkind
    cases hkind
  | bound h ha => exact ⟨h, rfl, _, ha, rfl⟩
  | key h ha hkey =>
    rw [(key_word ha (h.own _ ha) hkey).2.1] at hkind
    cases hkind

/-- A call goes through a member expression. -/
theorem parent_of_isMethodCall {n : Node} (h : c.isMethodCall d n = true) :
  ∃ p, n.parent? = some p ∧ p.kind = .memberExpression
  := by
  obtain ⟨p, hparent, hp⟩ := (Option.any_eq_true _ _).mp h
  simp only [Bool.and_eq_true, decide_eq_true_iff] at hp
  exact ⟨p, hparent, hp.1.1.1⟩

/-! ### Places that bind the name -/

/-- A place that binds a name: the name in an entry of an object pattern, with or without a default,
or an identifier through which nothing is accessed, such as the name of a declarator or of a
parameter. -/
inductive BindingPlace (d : Document) (name : List Char) : Node → Prop where
  | entry {n : Node} (hn : n ∈ d.nodes) (hkind : n.kind = .shorthandPropertyIdentifierPattern)
      (htext : d.textOf n = name) : BindingPlace d name n
  | identifier {n p : Node} (hn : n ∈ d.nodes) (hkind : n.kind = .identifier)
      (htext : d.textOf n = name) (hparent : n.parent? = some p)
      (hp : p.kind ≠ .memberExpression) : BindingPlace d name n

theorem BindingPlace.word {name : List Char} {n : Node} (h : BindingPlace d name n) :
  d.Word n
  := by
  cases h with
  | entry hn hkind _ | identifier hn hkind _ _ _ => exact ⟨hn, by rw [hkind]; rfl⟩

/-- A pattern takes the property off the value under its own name. -/
inductive TakenOff (c : Rename) (d : Document) (n : Node) : Prop where
  | intro {pattern value entry : Node} (h : Declares d pattern value)
      (hpattern : pattern.kind = .objectPattern) (hvalue : Direct d c.rootName (d.textOf value))
      (hentry : entry ∈ pattern.children) (hbinds : Binds d entry c.property n)
      (hname : d.textOf n = c.property)

/-- A use of the name of the property other than a call through it. -/
structure OtherUse (c : Rename) (d : Document) (n : Node) : Prop where
  listed : n ∈ d.nodes
  kind : n.kind = .identifier ∨ n.kind = .shorthandPropertyIdentifier
  text : d.textOf n = c.property
  noCall : ¬ (n.kind = .identifier ∧ c.isMethodCall d n = true)

/-- When calls are renamed, the bindings of the property are the names that are taken off. -/
theorem takenOff_iff (hd : d.WellRead dialect) (h : c.RenamesCalls d) {n : Node} :
  c.TakenOff d n ↔ ∃ a ∈ c.groupOf d c.property, a.node = n
  := by
  obtain ⟨b, hb⟩ := List.exists_mem_of_ne_nil _ h.bound
  have hthrough : c.property ∈ c.through := by
    obtain ⟨hintroduced, hproperty, -⟩ := mem_groupOf hb
    cases hintroduced with
    | plain => cases hproperty
    | taken _ _ _ _ _ hthrough =>
      cases hproperty
      apply hthrough
  constructor
  · rintro ⟨hdeclares, hpattern, hvalue, hentry, hbinds, hname⟩
    exact ⟨_, (mem_groupOf_iff hd).mpr
      ⟨.taken hdeclares hpattern hvalue hentry hbinds hthrough, rfl, hname⟩, rfl⟩
  · rintro ⟨a, ha, rfl⟩
    obtain ⟨hintroduced, hproperty, hname⟩ := mem_groupOf ha
    cases hintroduced with
    | plain => cases hproperty
    | taken hdeclares hpattern hvalue hentry hbinds _ =>
      cases hproperty
      exact ⟨hdeclares, hpattern, hvalue, hentry, hbinds, hname⟩

theorem mem_references {name : List Char} {n : Node} :
  n ∈ references d name ↔ n ∈ d.nodes
    ∧ (n.kind = .identifier ∨ n.kind = .shorthandPropertyIdentifier) ∧ d.textOf n = name
  := by
  simp [references]

theorem word_of_mem_references {name : List Char} {n : Node} (h : n ∈ references d name) :
  d.Word n
  := by
  obtain ⟨hn, hkind, -⟩ := mem_references.mp h
  rcases hkind with hkind | hkind <;> exact ⟨hn, by rw [hkind]; rfl⟩

theorem mem_callsOf_iff {name : List Char} {n : Node} :
  n ∈ c.callsOf d name ↔ n ∈ references d name ∧ n.kind = .identifier ∧ c.isMethodCall d n = true
  := by
  simp [callsOf]

/-- The other references to a name are not bindings and not calls. -/
theorem mem_othersOf_iff (hd : d.WellRead dialect) {name : List Char} {n : Node} :
  n ∈ c.othersOf d name ↔ n ∈ references d name ∧ (∀ a ∈ c.groupOf d name, a.node ≠ n)
    ∧ n ∉ c.callsOf d name
  := by
  rw [othersOf, List.mem_filter]
  apply and_congr_right
  intro hn
  have hword := word_of_mem_references hn
  simp only [Bool.and_eq_true, Bool.not_eq_true', List.any_eq_false]
  apply and_congr
  · apply forall₂_congr
    intro a ha
    rw [sameAs_iff hd ((mem_groupOf ha).1.word hd) hword]
  · constructor
    · intro h hcall
      apply h n hcall ((sameAs_iff hd hword hword).mpr rfl)
    · intro h m hm hsame
      rw [sameAs_iff hd (word_of_mem_references (mem_callsOf_iff.mp hm).1) hword] at hsame
      rw [hsame] at hm
      apply h hm

/-- When calls are renamed, the old name is kept exactly when it has another use. -/
theorem othersOf_eq_nil_iff (hd : d.WellRead dialect) (h : c.RenamesCalls d) :
  c.othersOf d c.property = [] ↔ ¬ ∃ n, c.OtherUse d n
  := by
  have hother (n : Node) : n ∈ c.othersOf d c.property ↔ c.OtherUse d n := by
    rw [mem_othersOf_iff hd, mem_callsOf_iff, mem_references]
    constructor
    · rintro ⟨⟨hn, hkind, htext⟩, -, hcall⟩
      exact ⟨hn, hkind, htext, fun hcall' => hcall ⟨⟨hn, hkind, htext⟩, hcall'⟩⟩
    · rintro ⟨hn, hkind, htext, hcall⟩
      refine ⟨⟨hn, hkind, htext⟩, ?_, fun hcall' => hcall hcall'.2⟩
      rintro a ha rfl
      rw [(shorthand_word hd ha (h.shorthand a ha)).2] at hkind
      rcases hkind with hkind | hkind <;> cases hkind
  simp only [List.eq_nil_iff_forall_not_mem, hother, not_exists]

/-- When calls through the name of the property are rewritten, the places that bind this name are
rewritten exactly when a pattern takes them off the value there, and there is such a place. Each of
them gets the new name, and keeps the old one behind it exactly when the old one has another use,
as it has in particular when a declarator or a parameter binds it. -/
theorem rewritten_binding_iff {text : List Char} {language : String} {filename : Option String}
    {lenient : Bool} {d : Document} (h : Document.parse text language filename lenient = .ok d)
    (c : Rename) {call : Node} (hcall : call ∈ d.nodes) (hkind : call.kind = .identifier)
    (hrewritten : call.replace c.replacement ∈ c.edits d) :
  d.textOf call = c.property ∧ c.isMethodCall d call = true
  ∧ (∃ n, c.TakenOff d n)
  ∧ (∀ n, BindingPlace d c.property n → ((∃ t, n.replace t ∈ c.edits d) ↔ c.TakenOff d n))
  ∧ (∀ n, c.TakenOff d n → n.kind = .shorthandPropertyIdentifierPattern
    ∧ ((∃ m, c.OtherUse d m) →
      n.replace (c.replacement ++ ", ".toList ++ c.property) ∈ c.edits d)
    ∧ ((¬ ∃ m, c.OtherUse d m) → n.replace c.replacement ∈ c.edits d))
  ∧ (∀ n, BindingPlace d c.property n → n.kind = .identifier → c.OtherUse d n)
  := by
  obtain ⟨-, dialect, hd⟩ := Document.wellRead_of_parse h
  have hword : d.Word call := ⟨hcall, by rw [hkind]; rfl⟩
  obtain ⟨hrenames, hmem⟩ := ((replace_mem_edits_iff hd hword).mp hrewritten).identifier hd hkind
  obtain ⟨href, -, hmethod⟩ := mem_callsOf_iff.mp hmem
  have htaken (n : Node) := takenOff_iff (n := n) hd hrenames
  refine ⟨(mem_references.mp href).2.2, hmethod, ?_, ?_, ?_, ?_⟩
  · obtain ⟨a, ha⟩ := List.exists_mem_of_ne_nil _ hrenames.bound
    exact ⟨a.node, (htaken _).mpr ⟨a, ha, rfl⟩⟩
  · intro n hplace
    simp only [replace_mem_edits_iff hd hplace.word, htaken]
    constructor
    · rintro ⟨t, hn⟩
      cases hplace with
      | entry _ hentry _ => exact (hn.entry hentry).2.2
      | identifier _ hidentifier _ hparent hp =>
        -- An identifier is only rewritten when something is accessed through it.
        obtain ⟨-, hcalls⟩ := hn.identifier hd hidentifier
        obtain ⟨p', hparent', hp'⟩ := parent_of_isMethodCall (mem_callsOf_iff.mp hcalls).2.2
        rw [hparent] at hparent'
        cases hparent'
        contradiction
    · rintro ⟨a, ha, rfl⟩
      exact ⟨_, .bound hrenames ha⟩
  · intro n hn
    obtain ⟨a, ha, rfl⟩ := (htaken n).mp hn
    have hbound := Rewritten.bound hrenames ha
    have hedit := (replace_mem_edits_iff hd (hbound.word hd).1).mpr hbound
    refine ⟨(shorthand_word hd ha (hrenames.shorthand a ha)).2, ?_, ?_⟩
    · intro hother
      have hne : c.othersOf d c.property ≠ [] :=
        fun hnil => (othersOf_eq_nil_iff hd hrenames).mp hnil hother
      rwa [boundText, if_neg (by simpa using hne)] at hedit
    · intro hother
      have hnil := (othersOf_eq_nil_iff hd hrenames).mpr hother
      rwa [boundText, if_pos (by simp [hnil])] at hedit
  · intro n hplace hidentifier
    cases hplace with
    | entry _ hentry _ =>
      rw [hentry] at hidentifier
      cases hidentifier
    | identifier hn _ htext hparent hp =>
      refine ⟨hn, .inl hidentifier, htext, ?_⟩
      rintro ⟨-, hmethod⟩
      obtain ⟨p', hparent', hp'⟩ := parent_of_isMethodCall hmethod
      rw [hparent] at hparent'
      cases hparent'
      contradiction

set_option maxRecDepth 100000 in
/-- The name of a parameter stays, and so does the old name in the pattern. -/
theorem rewritten_binding_parameter :
  ∃ d call, Document.parse
      "const { smartGrid } = api; (smartGrid) => smartGrid.presentModal();".toList "tsx" none false
      = .ok d
    ∧ (({} : Rename).run d).result = .ok (some
      "const { action, smartGrid } = api; (smartGrid) => action.presentModal();".toList)
    ∧ call ∈ d.nodes ∧ call.kind = .identifier
    ∧ call.replace "action".toList ∈ ({} : Rename).edits d
    ∧ (∃ n, ({} : Rename).TakenOff d n)
    ∧ ∀ n, BindingPlace d "smartGrid".toList n →
      ((∃ t, n.replace t ∈ ({} : Rename).edits d) ↔ ({} : Rename).TakenOff d n)
  := by
  have hrun : ((Document.parse
      "const { smartGrid } = api; (smartGrid) => smartGrid.presentModal();".toList "tsx" none
        false).toOption.map fun d => ((({} : Rename).run d).result,
        d.nodes.any fun n => n.kind = .identifier
          && decide (n.replace "action".toList ∈ ({} : Rename).edits d)))
      = some (.ok (some
        "const { action, smartGrid } = api; (smartGrid) => action.presentModal();".toList),
          true) := by
    decide +kernel
  cases hparse : Document.parse
      "const { smartGrid } = api; (smartGrid) => smartGrid.presentModal();".toList "tsx" none
        false with
  | error e =>
    rw [hparse] at hrun
    cases hrun
  | ok d =>
    rw [hparse] at hrun
    simp only [Except.toOption, Option.map_some, Option.some.injEq, Prod.mk.injEq] at hrun
    obtain ⟨hresult, hany⟩ := hrun
    obtain ⟨call, hcall, hboth⟩ := List.any_eq_true.mp hany
    simp only [Bool.and_eq_true, decide_eq_true_iff] at hboth
    obtain ⟨-, -, hsome, hiff, -⟩ := rewritten_binding_iff hparse {} hcall hboth.1 hboth.2
    exact ⟨d, call, rfl, hresult, hcall, hboth.1, hboth.2, hsome, hiff⟩

/-- A function that takes the name off another value. -/
def shadowed : List Char :=
  "const { smartGrid } = api;\nfunction f(o) \x7b\n  const { smartGrid } = o;\n".toList
    ++ "  smartGrid.presentModal();\n\x7d\n".toList

set_option maxRecDepth 100000 in
/-- The call is rewritten, and the entry that binds its receiver is not. -/
theorem run_shadowed :
  ((Document.parse shadowed "tsx" none false).toOption.map fun d =>
      ((({} : Rename).run d).result,
        (({} : Rename).edits d).map fun e => (e.start, e.stop),
        (d.nodes.filter fun n => n.kind = .shorthandPropertyIdentifierPattern
          && d.textOf n = "smartGrid".toList).map fun n => (n.start, n.stop)))
    = some (.ok (some
        ("const { action } = api;\nfunction f(o) \x7b\n  const { smartGrid } = o;\n".toList
          ++ "  action.presentModal();\n\x7d\n".toList)),
      [(72, 81), (8, 17)], [(8, 17), (53, 62)])
  := by
  decide +kernel

end Codemod.Rename
