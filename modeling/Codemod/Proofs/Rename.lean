import Codemod.Proofs.Aliases
import Codemod.Proofs.Rewrite
import Codemod.Recipe.Rename

/-!
# Renaming is local

The edits that rename a property replace single words, each of them the name of the property. No
word is reached twice: the calls on the value, the calls through a local name, the names in
patterns and the keys of patterns are different words, and each binding has a word of its own. So
the edits can always be committed, and nothing but these words changes.
-/

namespace Codemod.Rename

open Grammar Alias

variable {c : Rename} {d : Document} {dialect : Dialect}

/-! ### Replacing words -/

/-- Replacements of different words do not overlap. -/
theorem apart_replace (hd : d.WellRead dialect) {n m : Node} (hn : d.Word n) (hm : d.Word m)
    (hne : n ≠ m) (s t : List Char) :
  Edit.Apart (n.replace s) (m.replace t)
  := by
  have hapart := hd.words_apart hn hm hne
  simp only [Edit.Apart, Node.replace]
  omega

theorem pairwise_replace (hd : d.WellRead dialect) {ns : List Node} (hns : ∀ n ∈ ns, d.Word n)
    (hnodup : ns.Nodup) (t : List Char) :
  (ns.map (·.replace t)).Pairwise Edit.Apart
  := by
  apply List.pairwise_map.mpr
  apply hnodup.imp_of_mem
  intro n m hn hm hne
  apply apart_replace hd (hns n hn) (hns m hm) hne

/-- The replacement of a word lies within the text and on boundaries. -/
theorem fits_replace (hd : d.WellRead dialect) {n : Node} (hn : d.Word n) (t : List Char) :
  (n.replace t).Fits (Text.byteLength d.text) ∧ (n.replace t).OnBoundaries d.text
  := by
  obtain ⟨hknown, hnonempty⟩ := hd.known_word hn
  apply Edit.fits_replace hknown.start hknown.stop (Nat.le_of_lt hnonempty)

/-! ### Bindings of the property -/

/-- The bindings that take the property off the value. -/
def taken (c : Rename) (d : Document) : List Alias :=
  (c.bindings d).filter (·.property = some c.property)

/-- The bindings that take the property off the value under one local name. -/
def groupOf (c : Rename) (d : Document) (name : List Char) : List Alias :=
  (c.taken d).filter (·.name = name)

theorem groups_eq :
  c.groups d = ((c.taken d).map Alias.name).eraseDups.map (c.groupOf d)
  := rfl

theorem mem_groupOf {name : List Char} {a : Alias} (h : a ∈ c.groupOf d name) :
  Introduced d c.rootName c.through a ∧ a.property = some c.property ∧ a.name = name
  := by
  obtain ⟨htaken, hname⟩ := List.mem_filter.mp h
  obtain ⟨hbound, hproperty⟩ := List.mem_filter.mp htaken
  obtain ⟨t, hsound, -, heq⟩ := exists_trail d c.rootName c.through
  rw [bindings, heq] at hbound
  exact ⟨hsound.found a hbound, of_decide_eq_true hproperty, of_decide_eq_true hname⟩

/-- The words of two bindings in a group are different. -/
theorem pairwise_groupOf (c : Rename) (d : Document) (name : List Char) :
  (c.groupOf d name).Pairwise fun a b => a.node ≠ b.node
  := by
  obtain ⟨t, hsound, -, heq⟩ := exists_trail d c.rootName c.through
  have hapart : (c.groupOf d name).Pairwise fun a b => b.sameBinding a = false := by
    rw [groupOf, taken, bindings, heq]
    apply (hsound.apart.sublist List.filter_sublist).sublist List.filter_sublist
  apply hapart.imp_of_mem
  intro a b ha hb hab hnode
  obtain ⟨-, haproperty, haname⟩ := mem_groupOf ha
  obtain ⟨-, hbproperty, hbname⟩ := mem_groupOf hb
  have hsame : b.sameBinding a = true := by
    apply sameBinding_iff.mpr
    rw [haproperty, hbproperty, haname, hbname, hnode]
    exact ⟨rfl, rfl, rfl, rfl⟩
  rw [hsame] at hab
  cases hab

/-- What a binding that takes a property consists of. -/
theorem binds_of_property {root property : List Char} {through : List (List Char)} {a : Alias}
    (h : Introduced d root through a) (hproperty : a.property = some property) :
  ∃ pattern entry, pattern ∈ d.nodes ∧ pattern.kind = .objectPattern ∧ entry ∈ pattern.children
    ∧ a.entry = some entry ∧ Binds d entry property a.node ∧ a.name = d.textOf a.node
  := by
  cases h with
  | plain => cases hproperty
  | taken h hpattern _ hentry hbinds _ =>
    cases hproperty
    exact ⟨_, _, h.mem_nodes, hpattern, hentry, rfl, hbinds, rfl⟩

/-- A shorthand binds the name of its property. -/
theorem shorthand_word (hd : d.WellRead dialect) {name : List Char} {a : Alias}
    (ha : a ∈ c.groupOf d name) (hshorthand : a.isShorthand = true) :
  name = c.property ∧ a.node.kind = .shorthandPropertyIdentifierPattern
  := by
  obtain ⟨hintroduced, hproperty, hname⟩ := mem_groupOf ha
  obtain ⟨pattern, entry, hpattern, -, hentry, heq, hbinds, htext⟩ :=
    binds_of_property hintroduced hproperty
  rw [← hname, htext]
  rw [isShorthand, heq] at hshorthand
  have hlisted := Node.mem_of_mem_children hpattern hentry
  generalize c.property = property at hbinds ⊢
  generalize a.node = bound at hbinds ⊢
  cases hbinds with
  | shorthand hkind => exact ⟨rfl, hkind⟩
  | defaulted hkind hleft => exact ⟨rfl, hd.left_of_default hlisted hkind hleft⟩
  | renamed hkind => simp [hkind] at hshorthand
  | renamedDefaulted hkind => simp [hkind] at hshorthand

/-- A shorthand without a default stands in its pattern itself. -/
theorem shorthand_parent {name : List Char} {a : Alias} (ha : a ∈ c.groupOf d name)
    (hshorthand : a.isShorthand = true)
    (hdefault : a.entry.any (·.kind = .objectAssignmentPattern) = false) :
  ∃ pattern, a.node.parent? = some pattern ∧ pattern.kind = .objectPattern
  := by
  obtain ⟨hintroduced, hproperty, -⟩ := mem_groupOf ha
  obtain ⟨pattern, entry, -, hpattern, hentry, heq, hbinds, -⟩ :=
    binds_of_property hintroduced hproperty
  rw [isShorthand, heq] at hshorthand
  rw [heq] at hdefault
  generalize c.property = property at hbinds
  generalize a.node = bound at hbinds ⊢
  cases hbinds with
  | shorthand => exact ⟨pattern, Node.parent?_of_mem_children hentry, hpattern⟩
  | defaulted hkind => simp [hkind] at hdefault
  | renamed hkind => simp [hkind] at hshorthand
  | renamedDefaulted hkind => simp [hkind] at hshorthand

/-- The key of the entry that a binding belongs to. -/
def keyOf? (a : Alias) : Option Node := a.entry.bind (·.child? .key)

/-- The key of a binding with a name of its own is the name of the property. -/
theorem key_word {name : List Char} {a : Alias} {key : Node} (ha : a ∈ c.groupOf d name)
    (hown : a.isShorthand = false) (hkey : keyOf? a = some key) :
  key ∈ d.nodes ∧ key.kind = .propertyIdentifier ∧ d.textOf key = c.property
    ∧ ∃ entry, a.entry = some entry ∧ entry.kind = .pairPattern ∧ key.parent? = some entry
  := by
  obtain ⟨hintroduced, hproperty, -⟩ := mem_groupOf ha
  obtain ⟨pattern, entry, hpattern, -, hentry, heq, hbinds, -⟩ :=
    binds_of_property hintroduced hproperty
  rw [isShorthand, heq] at hown
  rw [keyOf?, heq] at hkey
  change entry.child? .key = some key at hkey
  have hmem := Node.mem_children_of_child? hkey
  have hlisted := Node.mem_of_mem_children hpattern hentry
  generalize c.property = property at hbinds ⊢
  cases hbinds with
  | shorthand hkind => simp [hkind] at hown
  | defaulted hkind => simp [hkind] at hown
  | renamed hkind hkey' hword | renamedDefaulted hkind hkey' hword =>
    rw [hkey] at hkey'
    cases hkey'
    exact ⟨Node.mem_of_mem_children hlisted hmem, hword, rfl, entry, heq, hkind,
      Node.parent?_of_mem_children hmem⟩

/-- An entry binds one name. -/
theorem node_eq_of_entry {a b : Alias} {name name' : List Char} (ha : a ∈ c.groupOf d name)
    (hb : b ∈ c.groupOf d name') (hentry : a.entry = b.entry) :
  a.node = b.node ∧ name = name'
  := by
  obtain ⟨haintroduced, haproperty, haname⟩ := mem_groupOf ha
  obtain ⟨hbintroduced, hbproperty, hbname⟩ := mem_groupOf hb
  obtain ⟨-, entry, -, -, -, heq, habinds, hatext⟩ := binds_of_property haintroduced haproperty
  obtain ⟨-, entry', -, -, -, heq', hbbinds, hbtext⟩ := binds_of_property hbintroduced hbproperty
  rw [heq, heq'] at hentry
  cases hentry
  have hapart : ofPart? d [] [c.property] entry = _ :=
    ofPart?_eq_some.mpr ⟨_, _, habinds, List.mem_singleton_self _, rfl⟩
  have hbpart : ofPart? d [] [c.property] entry = _ :=
    ofPart?_eq_some.mpr ⟨_, _, hbbinds, List.mem_singleton_self _, rfl⟩
  rw [hapart] at hbpart
  have hnode : a.node = b.node := by
    injection hbpart with hbpart
    injection hbpart
  rw [← haname, ← hbname, hatext, hbtext, hnode]
  exact ⟨rfl, rfl⟩

/-! ### The edits of a group -/

/-- The calls through a local name. -/
def callsOf (c : Rename) (d : Document) (name : List Char) : List Node :=
  (references d name).filter fun n => n.kind = .identifier && c.isMethodCall d n

theorem mem_callsOf {name : List Char} {n : Node} (h : n ∈ c.callsOf d name) :
  n ∈ d.nodes ∧ n.kind = .identifier ∧ d.textOf n = name
  := by
  obtain ⟨href, hcall⟩ := List.mem_filter.mp h
  obtain ⟨hlisted, htext⟩ := List.mem_filter.mp href
  simp only [Bool.and_eq_true, decide_eq_true_iff] at hcall htext
  exact ⟨hlisted, hcall.1, htext.2⟩

theorem head_groupOf {name : List Char} (h : name ∈ (c.taken d).map Alias.name) :
  ((c.groupOf d name).head?.map Alias.name).getD [] = name
  := by
  obtain ⟨a, ha, hname⟩ := List.mem_map.mp h
  have hmem : a ∈ c.groupOf d name := List.mem_filter.mpr ⟨ha, decide_eq_true hname⟩
  cases hgroup : c.groupOf d name with
  | nil =>
    rw [hgroup] at hmem
    cases hmem
  | cons b bs =>
    have hb : b ∈ c.groupOf d name := by
      rw [hgroup]
      apply List.mem_cons_self
    apply (mem_groupOf hb).2.2

/-- What the edits of a group of shorthands are. The old name is kept only where no entry has a
default. -/
theorem shorthandEdits_cases (name : List Char) (group : List Alias) (calls others : List Node) :
  c.shorthandEdits name group calls others = []
  ∨ ∃ text, (text = c.replacement ∨ text = c.replacement ++ ", ".toList ++ name
      ∧ ∀ a ∈ group, a.entry.any (·.kind = .objectAssignmentPattern) = false)
    ∧ c.shorthandEdits name group calls others
      = calls.map (·.replace c.replacement) ++ group.map (·.node.replace text)
  := by
  rw [shorthandEdits]
  split
  · apply Or.inl rfl
  · rename_i hdefault
    apply Or.inr
    refine ⟨_, ?_, rfl⟩
    cases hothers : others.isEmpty with
    | true => apply Or.inl rfl
    | false =>
      apply Or.inr
      use rfl
      simpa [hothers] using hdefault

/-- What the edits of a group are: none, or the calls and the names of shorthands, or the keys of
bindings with names of their own. -/
theorem groupEdits_cases {name : List Char} (h : name ∈ (c.taken d).map Alias.name) :
  c.groupEdits d (c.groupOf d name) = []
  ∨ (∃ text, (∀ a ∈ c.groupOf d name, a.isShorthand = true)
    ∧ (text = c.replacement ∨ text = c.replacement ++ ", ".toList ++ name
      ∧ ∀ a ∈ c.groupOf d name, a.entry.any (·.kind = .objectAssignmentPattern) = false)
    ∧ c.groupEdits d (c.groupOf d name)
      = (c.callsOf d name).map (·.replace c.replacement)
        ++ (c.groupOf d name).map (·.node.replace text))
  ∨ (∀ a ∈ c.groupOf d name, a.isShorthand = false)
    ∧ c.groupEdits d (c.groupOf d name)
      = ((c.groupOf d name).filterMap keyOf?).map (·.replace c.replacement)
  := by
  simp only [groupEdits, head_groupOf h]
  split
  · apply Or.inl rfl
  · split
    · rename_i hall
      rcases shorthandEdits_cases (c := c) name _ _ _ with heq | ⟨text, htext, heq⟩
      · apply Or.inl heq
      · exact .inr (.inl ⟨text, List.all_eq_true.mp hall, htext, heq⟩)
    · split
      · apply Or.inl rfl
      · rename_i hany
        rw [keyEdits]
        split
        · exact .inr (.inr ⟨by simpa using hany, rfl⟩)
        · apply Or.inl rfl

/-! ### The words that are replaced -/

/-- A word of the document that is the name of the property. -/
structure Token (c : Rename) (d : Document) (n : Node) : Prop where
  listed : n ∈ d.nodes
  leaf : n.tree.children = []
  text : d.textOf n = c.property

/-- A change that renaming may make: the name of the property gives way to the new name, and in an
object pattern it may stay behind the new name. -/
inductive Change (c : Rename) (d : Document) : Edit → Prop where
  | renamed {n : Node} (h : c.Token d n) : Change c d (n.replace c.replacement)
  | kept {n pattern : Node} (h : c.Token d n) (hparent : n.parent? = some pattern)
      (hpattern : pattern.kind = .objectPattern) :
    Change c d (n.replace (c.replacement ++ ", ".toList ++ c.property))

/-- The words that are replaced for a local name. -/
inductive Site (c : Rename) (d : Document) (name : List Char) : Node → Prop where
  | call {n : Node} (h : n ∈ c.callsOf d name) (hname : name = c.property) : Site c d name n
  | bound {a : Alias} (h : a ∈ c.groupOf d name) (hshorthand : a.isShorthand = true) :
    Site c d name a.node
  | key {a : Alias} {n : Node} (h : a ∈ c.groupOf d name) (hown : a.isShorthand = false)
      (hkey : keyOf? a = some n) : Site c d name n

theorem Site.word (hd : d.WellRead dialect) {name : List Char} {n : Node}
    (h : Site c d name n) :
  d.Word n ∧ d.textOf n = c.property
  := by
  cases h with
  | call h hname =>
    obtain ⟨hlisted, hkind, htext⟩ := mem_callsOf h
    exact ⟨⟨hlisted, by rw [hkind]; rfl⟩, htext.trans hname⟩
  | bound h hshorthand =>
    obtain ⟨hintroduced, hproperty, haname⟩ := mem_groupOf h
    obtain ⟨-, -, -, -, -, -, -, htext⟩ := binds_of_property hintroduced hproperty
    use hintroduced.word hd
    rw [← htext, haname, (shorthand_word hd h hshorthand).1]
  | key h hown hkey =>
    obtain ⟨hlisted, hkind, htext, -⟩ := key_word h hown hkey
    exact ⟨⟨hlisted, by rw [hkind]; rfl⟩, htext⟩

theorem Site.token (hd : d.WellRead dialect) {name : List Char} {n : Node}
    (h : Site c d name n) :
  c.Token d n
  := by
  obtain ⟨hword, htext⟩ := h.word hd
  exact ⟨hword.listed, hd.children_word hword, htext⟩

/-- A word that is replaced for a local name is a key of a pattern, or else the local name is that
of the property. -/
theorem Site.cases (hd : d.WellRead dialect) {name : List Char} {n : Node}
    (h : Site c d name n) :
  (n.kind ≠ .propertyIdentifier ∧ name = c.property)
  ∨ n.kind = .propertyIdentifier ∧ ∃ a ∈ c.groupOf d name, ∃ entry, a.entry = some entry
    ∧ entry.kind = .pairPattern ∧ n.parent? = some entry
  := by
  cases h with
  | call h hname =>
    obtain ⟨-, hkind, -⟩ := mem_callsOf h
    exact .inl ⟨by rw [hkind]; nofun, hname⟩
  | bound h hshorthand =>
    obtain ⟨hname, hkind⟩ := shorthand_word hd h hshorthand
    exact .inl ⟨by rw [hkind]; nofun, hname⟩
  | key h hown hkey =>
    obtain ⟨-, hkind, -, hentry⟩ := key_word h hown hkey
    exact .inr ⟨hkind, _, h, hentry⟩

/-- A word is replaced for one local name only. -/
theorem Site.name_eq (hd : d.WellRead dialect) {name name' : List Char} {n : Node}
    (h : Site c d name n) (h' : Site c d name' n) :
  name = name'
  := by
  rcases h.cases hd with ⟨hkind, hname⟩ | ⟨hkind, a, ha, entry, hentry, -, hparent⟩
  · rcases h'.cases hd with ⟨-, hname'⟩ | ⟨hkind', -⟩
    · rw [hname, hname']
    · contradiction
  · rcases h'.cases hd with ⟨hkind', -⟩ | ⟨-, b, hb, entry', hentry', -, hparent'⟩
    · contradiction
    · rw [hparent] at hparent'
      cases hparent'
      apply (node_eq_of_entry ha hb (hentry.trans hentry'.symm)).2

/-- The edits of a group replace its words. -/
theorem mem_groupEdits (hd : d.WellRead dialect) {name : List Char}
    (h : name ∈ (c.taken d).map Alias.name) {e : Edit}
    (he : e ∈ c.groupEdits d (c.groupOf d name)) :
  ∃ n text, Site c d name n ∧ e = n.replace text ∧ c.Change d e
  := by
  rcases groupEdits_cases h with heq | ⟨text, hshorthand, htext, heq⟩ | ⟨hown, heq⟩
  · rw [heq] at he
    cases he
  · obtain ⟨a, ha, haname⟩ := List.mem_map.mp h
    have hmem : a ∈ c.groupOf d name := List.mem_filter.mpr ⟨ha, decide_eq_true haname⟩
    have hname := (shorthand_word hd hmem (hshorthand a hmem)).1
    rw [heq] at he
    rcases List.mem_append.mp he with he | he
    · obtain ⟨n, hn, rfl⟩ := List.mem_map.mp he
      have hsite : Site c d name n := .call hn hname
      exact ⟨n, _, hsite, rfl, .renamed (hsite.token hd)⟩
    · obtain ⟨b, hb, rfl⟩ := List.mem_map.mp he
      have hsite : Site c d name b.node := .bound hb (hshorthand b hb)
      refine ⟨b.node, _, hsite, rfl, ?_⟩
      rcases htext with rfl | ⟨rfl, hdefault⟩
      · apply Change.renamed (hsite.token hd)
      · obtain ⟨pattern, hparent, hpattern⟩ :=
          shorthand_parent hb (hshorthand b hb) (hdefault b hb)
        rw [hname]
        apply Change.kept (hsite.token hd) hparent hpattern
  · rw [heq] at he
    obtain ⟨n, hn, rfl⟩ := List.mem_map.mp he
    obtain ⟨a, ha, hkey⟩ := List.mem_filterMap.mp hn
    have hsite : Site c d name n := .key ha (hown a ha) hkey
    exact ⟨n, _, hsite, rfl, .renamed (hsite.token hd)⟩

theorem nodup_callsOf (hd : d.WellRead dialect) (name : List Char) :
  (c.callsOf d name).Nodup
  := by
  have hrefs : (references d name).Nodup := by
    apply hd.nodup_words
    intro n _ hn
    simp only [Bool.and_eq_true, Bool.or_eq_true, decide_eq_true_iff] at hn
    rcases hn.1 with hkind | hkind <;> simp [Script.isWord, hkind]
  apply hrefs.sublist List.filter_sublist

/-- The keys of a group are different words. -/
theorem nodup_keys {name : List Char} (hown : ∀ a ∈ c.groupOf d name, a.isShorthand = false) :
  ((c.groupOf d name).filterMap keyOf?).Nodup
  := by
  apply List.pairwise_filterMap.mpr
  apply (pairwise_groupOf c d name).imp_of_mem
  rintro a b ha hb hne key hkey key' hkey' rfl
  obtain ⟨-, -, -, entry, hentry, -, hparent⟩ := key_word ha (hown a ha) hkey
  obtain ⟨-, -, -, entry', hentry', -, hparent'⟩ := key_word hb (hown b hb) hkey'
  rw [hparent] at hparent'
  cases hparent'
  apply hne (node_eq_of_entry ha hb (hentry.trans hentry'.symm)).1

/-- The edits of a group do not overlap. -/
theorem pairwise_groupEdits (hd : d.WellRead dialect) {name : List Char}
    (h : name ∈ (c.taken d).map Alias.name) :
  (c.groupEdits d (c.groupOf d name)).Pairwise Edit.Apart
  := by
  rcases groupEdits_cases h with heq | ⟨text, hshorthand, -, heq⟩ | ⟨hown, heq⟩
  · rw [heq]
    apply List.Pairwise.nil
  · have hcall : ∀ n ∈ c.callsOf d name, d.Word n := by
      intro n hn
      obtain ⟨hlisted, hkind, -⟩ := mem_callsOf hn
      exact ⟨hlisted, by rw [hkind]; rfl⟩
    have hbound : ∀ a ∈ c.groupOf d name, d.Word a.node := by
      intro a ha
      apply (Site.word hd (.bound ha (hshorthand a ha))).1
    rw [heq]
    apply List.pairwise_append.mpr
    refine ⟨pairwise_replace hd hcall (nodup_callsOf hd name) _, ?_, ?_⟩
    · apply List.pairwise_map.mpr
      apply (pairwise_groupOf c d name).imp_of_mem
      intro a b ha hb hne
      apply apart_replace hd (hbound a ha) (hbound b hb) hne
    · intro e he f hf
      obtain ⟨n, hn, rfl⟩ := List.mem_map.mp he
      obtain ⟨a, ha, rfl⟩ := List.mem_map.mp hf
      apply apart_replace hd (hcall n hn) (hbound a ha)
      rintro rfl
      have hkind := (mem_callsOf hn).2.1
      rw [(shorthand_word hd ha (hshorthand a ha)).2] at hkind
      cases hkind
  · have hkeys : ∀ n ∈ (c.groupOf d name).filterMap keyOf?, d.Word n := by
      intro n hn
      obtain ⟨a, ha, hkey⟩ := List.mem_filterMap.mp hn
      apply (Site.word hd (.key ha (hown a ha) hkey)).1
    rw [heq]
    apply pairwise_replace hd hkeys (nodup_keys hown)

/-! ### All edits -/

theorem mem_patternEdits {e : Edit} (he : e ∈ c.patternEdits d) :
  ∃ name ∈ (c.taken d).map Alias.name, e ∈ c.groupEdits d (c.groupOf d name)
  := by
  rw [patternEdits, groups_eq, List.flatMap_map] at he
  obtain ⟨name, hname, he⟩ := List.mem_flatMap.mp he
  exact ⟨name, List.mem_eraseDups.mp hname, he⟩

/-- The local names are listed once. -/
theorem nodup_eraseDups (names : List (List Char)) :
  names.eraseDups.Nodup
  := by
  match names with
  | [] => apply List.nodup_nil
  | name :: names =>
    have := List.length_filter_le (fun n => !n == name) names
    rw [List.eraseDups_cons, List.nodup_cons]
    use by simp
    apply nodup_eraseDups
termination_by names.length

/-- The edits for calls through local names do not overlap. -/
theorem pairwise_patternEdits (hd : d.WellRead dialect) :
  (c.patternEdits d).Pairwise Edit.Apart
  := by
  rw [patternEdits, groups_eq, List.flatMap_map]
  apply List.pairwise_flatMap.mpr
  constructor
  · intro name hname
    apply pairwise_groupEdits hd (List.mem_eraseDups.mp hname)
  · apply (nodup_eraseDups _).imp_of_mem
    intro name name' hname hname' hne e he f hf
    obtain ⟨n, s, hn, rfl, -⟩ := mem_groupEdits hd (List.mem_eraseDups.mp hname) he
    obtain ⟨m, t, hm, rfl, -⟩ := mem_groupEdits hd (List.mem_eraseDups.mp hname') hf
    apply apart_replace hd (hn.word hd).1 (hm.word hd).1
    rintro rfl
    apply hne (hn.name_eq hd hm)

/-- The words of calls on the value itself. -/
def memberNodes (c : Rename) (d : Document) : List Node :=
  d.nodes.filter fun n =>
    n.kind = .propertyIdentifier && d.textOf n = c.property && c.isCandidate d (c.receiver d) n

theorem memberEdits_eq :
  c.memberEdits d = (c.memberNodes d).map (·.replace c.replacement)
  := rfl

theorem mem_memberNodes {n : Node} (h : n ∈ c.memberNodes d) :
  d.Word n ∧ d.textOf n = c.property ∧ n.kind = .propertyIdentifier
    ∧ ∃ p, n.parent? = some p ∧ p.kind = .memberExpression
  := by
  obtain ⟨hlisted, h⟩ := List.mem_filter.mp h
  simp only [Bool.and_eq_true, decide_eq_true_iff] at h
  obtain ⟨⟨hkind, htext⟩, hcandidate⟩ := h
  obtain ⟨p, hparent, hp⟩ := (Option.any_eq_true _ _).mp hcandidate
  simp only [Bool.and_eq_true, decide_eq_true_iff] at hp
  exact ⟨⟨hlisted, by rw [hkind]; rfl⟩, htext, hkind, p, hparent, hp.1.1.1⟩

theorem nodup_memberNodes (hd : d.WellRead dialect) :
  (c.memberNodes d).Nodup
  := by
  apply hd.nodup_words
  intro n hlisted hn
  apply (mem_memberNodes (List.mem_filter.mpr ⟨hlisted, hn⟩)).1.kind

/-- A word in a call on the value itself is not replaced for a local name. -/
theorem Site.not_member (hd : d.WellRead dialect) {name : List Char} {n : Node}
    (h : Site c d name n) :
  n ∉ c.memberNodes d
  := by
  intro hn
  obtain ⟨-, -, hkind, p, hparent, hp⟩ := mem_memberNodes hn
  rcases h.cases hd with ⟨hkind', -⟩ | ⟨-, -, -, entry, -, hentry, hparent'⟩
  · contradiction
  · rw [hparent] at hparent'
    cases hparent'
    rw [hp] at hentry
    cases hentry

/-- All edits replace words, and are changes that renaming may make. -/
theorem mem_edits (hd : d.WellRead dialect) {e : Edit} (he : e ∈ c.edits d) :
  ∃ n text, d.Word n ∧ e = n.replace text ∧ c.Change d e
  := by
  rcases List.mem_append.mp he with he | he
  · rw [memberEdits_eq] at he
    obtain ⟨n, hn, rfl⟩ := List.mem_map.mp he
    obtain ⟨hword, htext, -⟩ := mem_memberNodes hn
    exact ⟨n, _, hword, rfl, .renamed ⟨hword.listed, hd.children_word hword, htext⟩⟩
  · obtain ⟨name, hname, he⟩ := mem_patternEdits he
    obtain ⟨n, text, hsite, heq, hchange⟩ := mem_groupEdits hd hname he
    exact ⟨n, text, (hsite.word hd).1, heq, hchange⟩

/-- No two edits overlap. -/
theorem pairwise_edits (hd : d.WellRead dialect) :
  (c.edits d).Pairwise Edit.Apart
  := by
  apply List.pairwise_append.mpr
  refine ⟨?_, pairwise_patternEdits hd, ?_⟩
  · rw [memberEdits_eq]
    apply pairwise_replace hd (fun n hn => (mem_memberNodes hn).1) (nodup_memberNodes hd)
  · intro e he f hf
    rw [memberEdits_eq] at he
    obtain ⟨n, hn, rfl⟩ := List.mem_map.mp he
    obtain ⟨name, hname, hf⟩ := mem_patternEdits hf
    obtain ⟨m, text, hsite, rfl, -⟩ := mem_groupEdits hd hname hf
    apply apart_replace hd (mem_memberNodes hn).1 (hsite.word hd).1
    rintro rfl
    apply hsite.not_member hd hn

/-- Renaming gives nothing exactly when there are no edits, and otherwise the text in which some
words apart from each other have changed, each of them the name of the property. The new name takes
its place, or in an object pattern the new name and the old one, and the rest of the text stays. -/
theorem run_local {text : List Char} {language : String} {filename : Option String}
    {lenient : Bool} {d : Document} (h : Document.parse text language filename lenient = .ok d)
    (c : Rename) :
  ((c.run d).result = .ok none ↔ c.edits d = [])
  ∧ (c.edits d ≠ [] → ∃ changes : List Edit, changes.Perm (c.edits d)
    ∧ (∀ e ∈ changes, c.Change d e)
    ∧ changes.Pairwise (fun e f => e.stop ≤ f.start)
    ∧ (c.run d).result = .ok (some (Edit.rewriteFrom text 0 changes)))
  := by
  obtain ⟨rfl, dialect, hd⟩ := Document.wellRead_of_parse h
  by_cases hempty : c.edits d = []
  · have hnone : (c.run d).result = .ok none := by
      rw [run, hempty]
      rfl
    exact ⟨⟨fun _ => hempty, fun _ => hnone⟩, fun hne => absurd hempty hne⟩
  · have hfits : ∀ e ∈ c.edits d,
        e.Fits (Text.byteLength d.text) ∧ e.OnBoundaries d.text := by
      intro e he
      obtain ⟨n, text, hword, rfl, -⟩ := mem_edits hd he
      apply fits_replace hd hword
    have hcompatible : Edit.Compatible (Text.byteLength d.text) (c.edits d) :=
      ⟨fun e he => (hfits e he).1, pairwise_edits hd⟩
    have hsome : (c.run d).result
        = .ok (some (Edit.rewriteFrom d.text 0 (Edit.inOrder (c.edits d)))) := by
      rw [run, Report.ofEdits,
        Edit.commit_eq_rewriteFrom hempty hcompatible fun e he => (hfits e he).2]
      rfl
    constructor
    · rw [hsome]
      exact ⟨nofun, fun hnil => absurd hnil hempty⟩
    · intro _
      have hperm := Edit.perm_inOrder (c.edits d)
      refine ⟨Edit.inOrder (c.edits d), hperm, ?_, hcompatible.inTurn, hsome⟩
      intro e he
      obtain ⟨-, -, -, -, hchange⟩ := mem_edits hd (hperm.mem_iff.mp he)
      apply hchange

set_option maxRecDepth 100000 in
/-- A shorthand whose name has another use keeps it. -/
theorem run_local_kept :
  ∃ d, Document.parse "const { smartGrid } = api; smartGrid.presentModal(smartGrid);".toList "tsx"
      none false = .ok d
    ∧ (({} : Rename).run d).result
      = .ok (some "const { action, smartGrid } = api; action.presentModal(smartGrid);".toList)
    ∧ ∃ changes : List Edit, (∀ e ∈ changes, ({} : Rename).Change d e)
      ∧ changes.Pairwise (fun e f => e.stop ≤ f.start)
      ∧ (({} : Rename).run d).result = .ok (some (Edit.rewriteFrom
        "const { smartGrid } = api; smartGrid.presentModal(smartGrid);".toList 0 changes))
  := by
  have hrun : ((Document.parse
      "const { smartGrid } = api; smartGrid.presentModal(smartGrid);".toList "tsx" none
        false).toOption.map fun d => (({} : Rename).run d).result)
      = some (.ok (some
        "const { action, smartGrid } = api; action.presentModal(smartGrid);".toList)) := by
    decide +kernel
  cases hparse : Document.parse
      "const { smartGrid } = api; smartGrid.presentModal(smartGrid);".toList "tsx" none false with
  | error e =>
    rw [hparse] at hrun
    cases hrun
  | ok d =>
    rw [hparse] at hrun
    have hresult : (({} : Rename).run d).result = .ok (some
        "const { action, smartGrid } = api; action.presentModal(smartGrid);".toList) :=
      Option.some.inj hrun
    obtain ⟨hnone, hsome⟩ := run_local hparse {}
    have hne : ({} : Rename).edits d ≠ [] := by
      intro hnil
      have hcontra := hnone.mpr hnil
      rw [hresult] at hcontra
      cases hcontra
    obtain ⟨changes, -, hchanges⟩ := hsome hne
    exact ⟨d, rfl, hresult, changes, hchanges⟩

end Codemod.Rename
