import Codemod.Proofs.Renamed

/-!
# Renaming twice

The second pass over a renamed document finds nothing, as long as no name of the value has the new
name in it where the text has the old one. A binding of the property that is found in the renamed
document remains of one that was there before, and a local name whose calls or keys would be renamed
now was renamed the first time.
-/

namespace Codemod.Rename

open Grammar Alias Document

variable {c : Rename} {d d' : Document} {dialect dialect' : Dialect} {n m : Node}

/-! ### Declarations -/

section Declarations

variable (hc : c.Plain) (hd : d.WellRead dialect) (h : c.Becomes d d')
include hc hd h

omit hc in
theorem declares_whole {name value : Node} (hdeclares : Declares d name value) :
  Declares d' ((c.carriage d).wholeNode name) ((c.carriage d).wholeNode value)
  := by
  obtain @⟨n, p, hn, hkind, hparent, hdeclaration, hname, hvalue, hbare⟩ := hdeclares
  have hkept := not_kept_of_kind (c := c) hd (by rw [hkind]; nofun)
  have hpattern := hkind.trans_ne (nofun : Kind.variableDeclarator ≠ .objectPattern)
  have hdeclaration' : ((c.carriage d).wholeNode p).kind = .lexicalDeclaration
      ∨ ((c.carriage d).wholeNode p).kind = .variableDeclaration := hdeclaration
  refine .declarator (whole_mem hd h hn hkept) hkind ?_ hdeclaration' ?_ ?_ hbare
  · rw [Carriage.parent?_wholeNode, hparent]
    rfl
  · rw [child?_whole hd hn hpattern, hname]
    rfl
  · rw [child?_whole hd hn hpattern, hvalue]
    rfl

omit hc in
theorem exists_declares {name' value' : Node} (hdeclares : Declares d' name' value') :
  ∃ name value, Declares d name value ∧ name' = (c.carriage d).wholeNode name
    ∧ value' = (c.carriage d).wholeNode value
  := by
  obtain ⟨hn', hkind, hparent, hdeclaration, hname, hvalue, hbare⟩ := hdeclares
  obtain ⟨n, hn, rfl⟩ := exists_whole hd h hn' (by rw [hkind]; nofun) (by rw [hkind]; nofun)
  have hpattern := hkind.trans_ne (nofun : Kind.variableDeclarator ≠ .objectPattern)
  rw [Carriage.parent?_wholeNode] at hparent
  rw [child?_whole hd hn hpattern] at hname hvalue
  obtain ⟨p, hparent₀, rfl⟩ := Option.map_eq_some_iff.mp hparent
  obtain ⟨name, hname₀, rfl⟩ := Option.map_eq_some_iff.mp hname
  obtain ⟨value, hvalue₀, rfl⟩ := Option.map_eq_some_iff.mp hvalue
  exact ⟨name, value, .declarator hn hkind hparent₀ hdeclaration hname₀ hvalue₀ hbare, rfl, rfl⟩

/-- An identifier that is a part of something else than an access keeps its text. -/
theorem textOf_identifier {p : Node} {r : Role} (hp : p ∈ d.nodes) (hchild : p.child? r = some n)
    (hkind : n.kind = .identifier) (hmember : p.kind ≠ .memberExpression) :
  Stays c d n ∧ d'.textOf ((c.carriage d).wholeNode n) = d.textOf n
  := by
  have hmem := Node.mem_children_of_child? hchild
  have hstays : Stays c d n :=
    stays_of_parent hd hkind (Node.parent?_of_mem_children hmem) hmember
  use hstays
  apply textOf_whole_of_stays hc hd h _ hstays
  apply word_of_child? hp hchild
  rw [hkind]
  rfl

/-- The names and values of declarations keep their texts. -/
theorem textOf_declares {name value : Node} (hdeclares : Declares d name value) :
  d'.textOf ((c.carriage d).wholeNode value) = d.textOf value
  ∧ (name.kind = .identifier → Stays c d name
    ∧ d'.textOf ((c.carriage d).wholeNode name) = d.textOf name)
  := by
  obtain ⟨hn, hkind, -, -, hname, hvalue, hbare⟩ := hdeclares
  have hmember := hkind.trans_ne (nofun : Kind.variableDeclarator ≠ .memberExpression)
  use (textOf_identifier hc hd h hn hvalue hbare hmember).2
  intro hidentifier
  apply textOf_identifier hc hd h hn hname hidentifier hmember

/-- The same names are direct. -/
theorem direct_iff {root x : List Char} :
  Direct d' root x ↔ Direct d root x
  := by
  constructor
  · intro hx
    induction hx with
    | root => apply Direct.root
    | declared hdeclares' hname _ ih =>
      obtain ⟨name, value, hdeclares, rfl, rfl⟩ := exists_declares hd h hdeclares'
      obtain ⟨hvalue, htext⟩ := textOf_declares hc hd h hdeclares
      rw [hvalue] at ih
      rw [(htext hname).2]
      apply Direct.declared hdeclares hname ih
  · intro hx
    induction hx with
    | root => apply Direct.root
    | declared hdeclares hname _ ih =>
      obtain ⟨hvalue, htext⟩ := textOf_declares hc hd h hdeclares
      rw [← hvalue] at ih
      rw [← (htext hname).2]
      apply Direct.declared (declares_whole hd h hdeclares) hname ih

end Declarations

/-! ### Entries of patterns -/

theorem eq_of_binds_shorthand {entry bound : Node} {property : List Char}
    (h : Binds d entry property bound)
    (hkind : entry.kind = .shorthandPropertyIdentifierPattern) :
  property = d.textOf entry ∧ bound = entry
  := by
  cases h with
  | shorthand => exact ⟨rfl, rfl⟩
  | defaulted hkind' | renamed hkind' | renamedDefaulted hkind' =>
    rw [hkind] at hkind'
    cases hkind'

/-- What remains of a word with its text: the word itself, or the old name behind the new one. -/
inductive Remains (c : Rename) (d : Document) (n : Node) : Node → Prop where
  | whole (h : Stays c d n) : Remains c d n ((c.carriage d).wholeNode n)
  | behind (h : Kept c d n) : Remains c d n (c.oldName d n)

/-- A word other than the name in an entry remains of itself only. -/
theorem Remains.eq_of_whole (hc : c.Plain) (hd : d.WellRead dialect) {u : Node}
    (h : Remains c d n u) (hn : d.Word n) (hm : d.Word m)
    (hkind : m.kind ≠ .shorthandPropertyIdentifierPattern)
    (hu : u = (c.carriage d).wholeNode m) :
  n = m
  := by
  cases h with
  | whole =>
    obtain ⟨hnstart, -⟩ := mark_span (c := c) hd (hn.inner hd)
    obtain ⟨hmstart, -⟩ := mark_span (c := c) hd (hm.inner hd)
    apply hd.word_eq hn hm
    exact ((batch_changes hc hd).moved_inj hnstart hmstart).mp (congrArg Node.start hu)
  | behind hkept =>
    have hsame : (c.oldName d n).kind = ((c.carriage d).wholeNode m).kind := congrArg Node.kind hu
    change n.kind = m.kind at hsame
    cases hkind (hsame.symm.trans (hkept.kept hd rfl).1)

/-- The key of an entry with a name of its own stays. -/
def KeyStays (c : Rename) (d : Document) (entry : Node) : Prop :=
  entry.kind = .pairPattern → ∀ key, entry.child? .key = some key → Stays c d key

theorem exists_child (hd : d.WellRead dialect) (hn : n ∈ d.nodes) (hkind : n.kind ≠ .objectPattern)
    {r : Role} (h : ((c.carriage d).wholeNode n).child? r = some m) :
  ∃ u, n.child? r = some u ∧ (c.carriage d).wholeNode u = m
  := by
  rw [child?_whole hd hn hkind] at h
  apply Option.map_eq_some_iff.mp h

section Entries

variable (hc : c.Plain) (hd : d.WellRead dialect) (h : c.Becomes d d')
include hc hd h

/-- A word that has the text of the property after renaming had it before. -/
theorem stays_of_property (hn : d.Word n) (hkept : ¬ Kept c d n)
    (htext : c.property = d'.textOf ((c.carriage d).wholeNode n)) :
  Stays c d n ∧ d.textOf n = c.property
  := by
  rw [htext]
  apply stays_of_textOf hc hd h hn hkept
  rw [← htext]
  apply hc.ne.symm

/-- The same for a key. -/
theorem key_of_property {entry key' : Node} (hentry : entry ∈ d.nodes)
    (hkind : entry.kind = .pairPattern)
    (hkey' : ((c.carriage d).wholeNode entry).child? .key = some key')
    (hproperty : key'.kind = .propertyIdentifier) (htext : c.property = d'.textOf key') :
  ∃ key, entry.child? .key = some key ∧ key.kind = .propertyIdentifier
    ∧ d.textOf key = c.property ∧ KeyStays c d entry
  := by
  obtain ⟨key, hkey, rfl⟩ := exists_child hd hentry (by rw [hkind]; nofun) hkey'
  have hkept : ¬ Kept c d key := not_kept_of_kind hd (hproperty.trans_ne nofun)
  rw [Carriage.kind_wholeNode] at hproperty
  have hword : d.Word key := word_of_child? hentry hkey (by rw [hproperty]; rfl)
  obtain ⟨hstays, htext⟩ := stays_of_property hc hd h hword hkept htext
  refine ⟨key, hkey, hproperty, htext, ?_⟩
  intro _ key₁ hkey₁
  rw [hkey] at hkey₁
  cases hkey₁
  apply hstays

/-- An entry that is carried as a whole and binds the property after renaming did so before. -/
theorem exists_binds_of_whole {entry bound' : Node} (hentry : entry ∈ d.nodes)
    (hkept : ¬ Kept c d entry)
    (hbinds : Binds d' ((c.carriage d).wholeNode entry) c.property bound') :
  ∃ bound, Binds d entry c.property bound ∧ d.textOf bound = d'.textOf bound'
    ∧ Remains c d bound bound' ∧ KeyStays c d entry
  := by
  generalize hproperty : c.property = property at hbinds
  cases hbinds with
  | shorthand hkind =>
    have hword : d.Word entry := ⟨hentry, by rw [← Carriage.kind_wholeNode, hkind]; rfl⟩
    obtain ⟨hstays, htext⟩ := stays_of_property hc hd h hword hkept hproperty
    have hown : Binds d entry (d.textOf entry) entry := .shorthand hkind
    rw [htext, hproperty] at hown
    refine ⟨entry, hown, htext.trans hproperty, .whole hstays, ?_⟩
    intro hpair
    cases hpair.symm.trans hkind
  | defaulted hkind hleft' =>
    have hpattern : entry.kind ≠ .objectPattern := hkind.trans_ne nofun
    obtain ⟨left, hleft, rfl⟩ := exists_child hd hentry hpattern hleft'
    have hword : d.Word left := by
      apply word_of_child? hentry hleft
      rw [hd.left_of_default hentry hkind hleft]
      rfl
    have hparent := Node.parent?_of_mem_children (Node.mem_children_of_child? hleft)
    obtain ⟨hstays, htext⟩ :=
      stays_of_property hc hd h hword (not_kept_of_parent hd hparent hpattern) hproperty
    have hown : Binds d entry (d.textOf left) left := .defaulted hkind hleft
    rw [htext, hproperty] at hown
    refine ⟨left, hown, htext.trans hproperty, .whole hstays, ?_⟩
    intro hpair
    cases hpair.symm.trans hkind
  | renamed hkind hkey' hkeyKind hvalue' hname =>
    obtain ⟨key, hkey, hkeyKind, htext, hstays⟩ :=
      key_of_property hc hd h hentry hkind hkey' hkeyKind hproperty
    obtain ⟨value, hvalue, rfl⟩ := exists_child hd hentry (hkind.trans_ne nofun) hvalue'
    obtain ⟨hvalueStays, hvalueText⟩ :=
      textOf_identifier hc hd h hentry hvalue hname (hkind.trans_ne nofun)
    have hown : Binds d entry (d.textOf key) value := .renamed hkind hkey hkeyKind hvalue hname
    rw [htext, hproperty] at hown
    exact ⟨value, hown, hvalueText.symm, .whole hvalueStays, hstays⟩
  | renamedDefaulted hkind hkey' hkeyKind hvalue' hdefault hleft' hname =>
    obtain ⟨key, hkey, hkeyKind, htext, hstays⟩ :=
      key_of_property hc hd h hentry hkind hkey' hkeyKind hproperty
    obtain ⟨value, hvalue, rfl⟩ := exists_child hd hentry (hkind.trans_ne nofun) hvalue'
    have hlisted := Node.mem_of_mem_children hentry (Node.mem_children_of_child? hvalue)
    obtain ⟨left, hleft, rfl⟩ := exists_child hd hlisted (hdefault.trans_ne nofun) hleft'
    obtain ⟨hleftStays, hleftText⟩ :=
      textOf_identifier hc hd h hlisted hleft hname (hdefault.trans_ne nofun)
    have hown : Binds d entry (d.textOf key) left :=
      .renamedDefaulted hkind hkey hkeyKind hvalue hdefault hleft hname
    rw [htext, hproperty] at hown
    exact ⟨left, hown, hleftText.symm, .whole hleftStays, hstays⟩

/-- An entry that binds the property after renaming remains of one that did so before. -/
theorem exists_binds {pattern entry' bound' : Node} (hpattern : pattern ∈ d.nodes)
    (hentry' : entry' ∈ ((c.carriage d).wholeNode pattern).children)
    (hbinds : Binds d' entry' c.property bound') :
  ∃ entry bound, entry ∈ pattern.children ∧ Binds d entry c.property bound
    ∧ entry.kind = entry'.kind ∧ d.textOf bound = d'.textOf bound' ∧ Remains c d bound bound'
    ∧ KeyStays c d entry
  := by
  rw [Carriage.children_wholeNode] at hentry'
  obtain ⟨entry, hentry, himage⟩ := List.mem_flatMap.mp hentry'
  have hlisted := Node.mem_of_mem_children hpattern hentry
  rcases (mem_images_iff hd hlisted).mp himage with ⟨hkept, rfl⟩ | ⟨hkept, hcase⟩
  · obtain ⟨bound, hbound, htext, hremains, hkey⟩ :=
      exists_binds_of_whole hc hd h hlisted hkept hbinds
    exact ⟨entry, bound, hentry, hbound, rfl, htext, hremains, hkey⟩
  · obtain ⟨hkind, -⟩ := hkept.kept hd rfl
    obtain ⟨hnew, hold⟩ := textOf_names hc hd h hkept
    have hown : Binds d entry (d.textOf entry) entry := .shorthand hkind
    rw [(Rewritten.word hd hkept).2] at hown
    rcases hcase with rfl | rfl | rfl
    · obtain ⟨hproperty, -⟩ := eq_of_binds_shorthand hbinds hkind
      rw [hnew] at hproperty
      cases hc.ne hproperty.symm
    · cases hbinds.isNamed
    · obtain ⟨-, rfl⟩ := eq_of_binds_shorthand hbinds hkind
      refine ⟨entry, entry, hentry, hown, rfl, ?_, .behind hkept, ?_⟩
      · rw [hold, (Rewritten.word hd hkept).2]
      · intro hpair
        rw [hkind] at hpair
        cases hpair

/-- An entry whose words stay binds the property after renaming. -/
theorem binds_whole {entry bound : Node} {property : List Char} (hentry : entry ∈ d.nodes)
    (hbinds : Binds d entry property bound) (hstays : Stays c d bound) (hkey : KeyStays c d entry) :
  Binds d' ((c.carriage d).wholeNode entry) property ((c.carriage d).wholeNode bound)
  := by
  have hword := hbinds.word hd hentry
  have htext := textOf_whole_of_stays hc hd h hword hstays
  have hchild {p u : Node} {r : Role} (hp : p ∈ d.nodes) (hkind : p.kind ≠ .objectPattern)
      (hu : p.child? r = some u) :
      ((c.carriage d).wholeNode p).child? r = some ((c.carriage d).wholeNode u) := by
    rw [child?_whole hd hp hkind, hu]
    rfl
  have hkeyText {key : Node} (hkind : entry.kind = .pairPattern)
      (hchild : entry.child? .key = some key) (hproperty : key.kind = .propertyIdentifier) :
      d'.textOf ((c.carriage d).wholeNode key) = d.textOf key := by
    apply textOf_whole_of_stays hc hd h _ (hkey hkind key hchild)
    apply word_of_child? hentry hchild
    rw [hproperty]
    rfl
  cases hbinds with
  | shorthand hkind =>
    rw [← htext]
    exact .shorthand hkind
  | defaulted hkind hleft =>
    rw [← htext]
    exact .defaulted hkind (hchild hentry (hkind.trans_ne nofun) hleft)
  | renamed hkind hkeyChild hproperty hvalue hname =>
    have hpattern : entry.kind ≠ .objectPattern := hkind.trans_ne nofun
    rw [← hkeyText hkind hkeyChild hproperty]
    exact .renamed hkind (hchild hentry hpattern hkeyChild) hproperty
      (hchild hentry hpattern hvalue) hname
  | renamedDefaulted hkind hkeyChild hproperty hvalue hdefault hleft hname =>
    have hpattern : entry.kind ≠ .objectPattern := hkind.trans_ne nofun
    have hlisted := Node.mem_of_mem_children hentry (Node.mem_children_of_child? hvalue)
    rw [← hkeyText hkind hkeyChild hproperty]
    exact .renamedDefaulted hkind (hchild hentry hpattern hkeyChild) hproperty
      (hchild hentry hpattern hvalue) hdefault (hchild hlisted (hdefault.trans_ne nofun) hleft)
      hname

end Entries

/-! ### Bindings of the value -/

/-- A binding that is found after renaming remains of one that was there before. -/
structure Descends (c : Rename) (d : Document) (a b : Alias) : Prop where
  name : a.name = b.name
  property : a.property = b.property
  node : Remains c d a.node b.node
  kind : a.entry.map Node.kind = b.entry.map Node.kind
  key : ∀ entry, a.entry = some entry → KeyStays c d entry

theorem through_eq (hc : c.Plain) :
  c.through = [c.property]
  := by
  rw [through, hc.through]
  rfl

section Bindings

variable (hc : c.Plain) (hd : d.WellRead dialect) (h : c.Becomes d d')
include hc hd h

theorem exists_introduced {b : Alias} (hb : Introduced d' c.rootName c.through b) :
  ∃ a, Introduced d c.rootName c.through a ∧ Descends c d a b
  := by
  cases hb with
  | plain hdeclares' hname hdirect =>
    obtain ⟨name, value, hdeclares, rfl, rfl⟩ := exists_declares hd h hdeclares'
    obtain ⟨hvalue, htext⟩ := textOf_declares hc hd h hdeclares
    obtain ⟨hstays, htext⟩ := htext hname
    rw [direct_iff hc hd h, hvalue] at hdirect
    exact ⟨_, .plain hdeclares hname hdirect, htext.symm, rfl, .whole hstays, rfl, nofun⟩
  | taken hdeclares' hpattern hdirect hentry' hbinds' hthrough =>
    obtain ⟨pattern, value, hdeclares, rfl, rfl⟩ := exists_declares hd h hdeclares'
    obtain ⟨hvalue, -⟩ := textOf_declares hc hd h hdeclares
    rw [direct_iff hc hd h, hvalue] at hdirect
    have hproperty := hthrough
    rw [through_eq hc, List.mem_singleton] at hproperty
    rw [hproperty] at hbinds' hthrough ⊢
    obtain ⟨entry, bound, hentry, hbinds, hkind, htext, hremains, hkey⟩ :=
      exists_binds hc hd h hdeclares.mem_nodes hentry' hbinds'
    refine ⟨_, .taken hdeclares hpattern hdirect hentry hbinds hthrough, htext, rfl, hremains,
      congrArg some hkind, ?_⟩
    rintro entry₁ ⟨⟩
    apply hkey

/-- No new names of the value come up. -/
theorem names_subset {x : List Char} (hx : x ∈ Alias.names d' c.rootName c.through) :
  x ∈ Alias.names d c.rootName c.through
  := by
  apply mem_names.mpr
  apply (mem_names.mp hx).imp_right
  rintro ⟨b, hb, rfl⟩
  obtain ⟨a, ha, hab⟩ := exists_introduced hc hd h hb
  exact ⟨a, ha, hab.name⟩

theorem exists_of_mem_groupOf {name : List Char} {b : Alias} (hb : b ∈ c.groupOf d' name) :
  ∃ a ∈ c.groupOf d name, Descends c d a b
  := by
  obtain ⟨hintroduced, hproperty, hname⟩ := mem_groupOf hb
  obtain ⟨a, ha, hab⟩ := exists_introduced hc hd h hintroduced
  refine ⟨a, (mem_groupOf_iff hd).mpr ⟨ha, ?_, ?_⟩, hab⟩
  · rw [hab.property, hproperty]
  · rw [hab.name, hname]

end Bindings

/-- A binding whose words stay is found after renaming. -/
theorem exists_mem_groupOf (hc : c.Plain) (hd : d.WellRead dialect) (hd' : d'.WellRead dialect')
    (h : c.Becomes d d') {name : List Char} {a : Alias} (ha : a ∈ c.groupOf d name)
    (hnode : Stays c d a.node) (hkey : ∀ entry, a.entry = some entry → KeyStays c d entry) :
  ∃ b ∈ c.groupOf d' name, a.entry.map Node.kind = b.entry.map Node.kind
  := by
  obtain ⟨hintroduced, hproperty, rfl⟩ := mem_groupOf ha
  cases hintroduced with
  | plain => cases hproperty
  | taken hdeclares hpattern hdirect hentry hbinds hthrough =>
    rename_i pattern value entry bound property
    have hlisted := Node.mem_of_mem_children hdeclares.mem_nodes hentry
    have htext := textOf_whole_of_stays hc hd h (hbinds.word hd hlisted) hnode
    have hvalue := (textOf_declares hc hd h hdeclares).1
    rw [← direct_iff hc hd h, ← hvalue] at hdirect
    have hkept : ¬ Kept c d entry := by
      intro hkept
      obtain ⟨-, rfl⟩ := eq_of_binds_shorthand hbinds (hkept.kept hd rfl).1
      apply hnode _ hkept
    have hentry' : (c.carriage d).wholeNode entry
        ∈ ((c.carriage d).wholeNode pattern).children := by
      rw [Carriage.children_wholeNode]
      apply List.mem_flatMap.mpr ⟨entry, hentry, _⟩
      apply (mem_images_iff hd hlisted).mpr (.inl ⟨hkept, rfl⟩)
    have hintroduced' := Introduced.taken (declares_whole hd h hdeclares) hpattern hdirect hentry'
      (binds_whole hc hd h hlisted hbinds hnode (hkey entry rfl)) hthrough
    exact ⟨_, (mem_groupOf_iff hd').mpr ⟨hintroduced', hproperty, htext⟩, rfl⟩

/-- Bindings with entries of one kind are shorthands, and have defaults, alike. -/
theorem any_entry_eq {a b : Alias} (h : a.entry.map Node.kind = b.entry.map Node.kind)
    (p : Kind → Bool) :
  a.entry.any (fun e => p e.kind) = b.entry.any fun e => p e.kind
  := by
  have hany (o : Option Node) : o.any (fun e => p e.kind) = (o.map Node.kind).any p := by
    cases o <;> rfl
  rw [hany, hany, h]

theorem isShorthand_eq {a b : Alias} (h : a.entry.map Node.kind = b.entry.map Node.kind) :
  a.isShorthand = b.isShorthand
  := any_entry_eq h fun k =>
    decide (k = .shorthandPropertyIdentifierPattern) || decide (k = .objectAssignmentPattern)

/-! ### Which words are rewritten for which reason -/

/-- Only calls and entries have words other than property names rewritten. -/
theorem Rewritten.renamesCalls {t : List Char} (hd : d.WellRead dialect) (h : Rewritten c d n t)
    (hkind : n.kind ≠ .propertyIdentifier) :
  c.RenamesCalls d ∧ n.kind ≠ .shorthandPropertyIdentifier
  := by
  cases h with
  | member hn => cases hkind (mem_memberNodes hn).2.2.1
  | call h hn => exact ⟨h, (mem_callsOf hn).2.1.trans_ne nofun⟩
  | bound h ha => exact ⟨h, (shorthand_word hd ha (h.shorthand _ ha)).2.trans_ne nofun⟩
  | key h ha hkey => cases hkind (key_word ha (h.own _ ha) hkey).2.1

/-- The node of a binding is no property name. -/
theorem node_kind_ne {name : List Char} {a : Alias} (hd : d.WellRead dialect)
    (ha : a ∈ c.groupOf d name) :
  a.node.kind ≠ .propertyIdentifier
  := by
  obtain ⟨hintroduced, hproperty, -⟩ := mem_groupOf ha
  obtain ⟨pattern, entry, hpattern, -, hentry, -, hbinds, -⟩ :=
    binds_of_property hintroduced hproperty
  have hlisted := Node.mem_of_mem_children hpattern hentry
  generalize c.property = property at hbinds
  generalize a.node = bound at hbinds ⊢
  cases hbinds with
  | shorthand hkind => exact hkind.trans_ne nofun
  | defaulted hkind hleft => exact (hd.left_of_default hlisted hkind hleft).trans_ne nofun
  | renamed _ _ _ _ hname => exact hname.trans_ne nofun
  | renamedDefaulted _ _ _ _ _ _ hname => exact hname.trans_ne nofun

/-- A binding with a name of its own has a key. -/
theorem exists_key {name : List Char} {a : Alias} (ha : a ∈ c.groupOf d name)
    (hown : a.isShorthand = false) :
  ∃ entry key, a.entry = some entry ∧ entry.kind = .pairPattern ∧ entry.child? .key = some key
    ∧ keyOf? a = some key
  := by
  obtain ⟨hintroduced, hproperty, -⟩ := mem_groupOf ha
  obtain ⟨-, entry, -, -, -, heq, hbinds, -⟩ := binds_of_property hintroduced hproperty
  rw [isShorthand, heq] at hown
  generalize c.property = property at hbinds
  cases hbinds with
  | shorthand hkind => simp [hkind] at hown
  | defaulted hkind => simp [hkind] at hown
  | renamed hkind hkey | renamedDefaulted hkind hkey =>
    refine ⟨entry, _, heq, hkind, hkey, ?_⟩
    rw [keyOf?, heq]
    apply hkey

/-- A key is rewritten only together with the other keys for its local name. -/
theorem Rewritten.renamesKeys {t name : List Char} {a : Alias} (hd : d.WellRead dialect)
    (h : Rewritten c d n t) (ha : a ∈ c.groupOf d name) (hown : a.isShorthand = false)
    (hkey : keyOf? a = some n) :
  c.RenamesKeys d name
  := by
  obtain ⟨-, hkind, -, entry, hentry, hpair, hparent⟩ := key_word ha hown hkey
  cases h with
  | member hn =>
    obtain ⟨-, -, -, p, hp, hmember⟩ := mem_memberNodes hn
    rw [hparent] at hp
    cases hp
    cases hpair.symm.trans hmember
  | call _ hn => cases hkind.symm.trans (mem_callsOf hn).2.1
  | bound h hb => cases hkind.symm.trans (shorthand_word hd hb (h.shorthand _ hb)).2
  | key h hb hkey' =>
    obtain ⟨-, -, -, entry', hentry', -, hparent'⟩ := key_word hb (h.own _ hb) hkey'
    rw [hparent] at hparent'
    cases hparent'
    rw [(node_eq_of_entry ha hb (hentry.trans hentry'.symm)).2]
    apply h

/-! ### References -/

/-- The references to a name stay, unless they are calls that are renamed. -/
theorem stays_reference {name : List Char} (hd : d.WellRead dialect)
    (hname : name = c.property → ¬ c.RenamesCalls d) (hn : n ∈ references d name) :
  Stays c d n
  := by
  intro t h
  obtain ⟨-, hkind, htext⟩ := mem_references.mp hn
  rw [(h.word hd).2] at htext
  apply hname htext.symm
  apply (h.renamesCalls hd _).1
  rcases hkind with hkind | hkind
  · exact hkind.trans_ne nofun
  · exact hkind.trans_ne nofun

/-- A call that is found after renaming, but for the new name, was there before. -/
theorem exists_call {name : List Char} (hc : c.Plain) (hd : d.WellRead dialect)
    (h : c.Becomes d d') (hname : name ≠ c.replacement) (hm : m ∈ c.callsOf d' name) :
  ∃ n ∈ c.callsOf d name, Stays c d n
  := by
  obtain ⟨href, hkind, hcall⟩ := mem_callsOf_iff.mp hm
  obtain ⟨hlisted, -, htext⟩ := mem_references.mp href
  obtain ⟨n, hn, rfl⟩ := exists_whole hd h hlisted (hkind.trans_ne nofun) (hkind.trans_ne nofun)
  rw [Carriage.kind_wholeNode] at hkind
  have hword : d.Word n := ⟨hn, by rw [hkind]; rfl⟩
  have hkept : ¬ Kept c d n := not_kept_of_kind hd (hkind.trans_ne nofun)
  obtain ⟨hstays, hsame⟩ := stays_of_textOf hc hd h hword hkept (htext.trans_ne hname)
  rw [isMethodCall_whole hc hd h (hword.inner hd)] at hcall
  refine ⟨n, mem_callsOf_iff.mpr ⟨mem_references.mpr ⟨hn, .inl hkind, ?_⟩, hkind, hcall⟩, hstays⟩
  rw [hsame, htext]

/-- Names without other uses after renaming had none before. -/
theorem othersOf_eq_nil {name : List Char} (hc : c.Plain) (hd : d.WellRead dialect)
    (hd' : d'.WellRead dialect') (h : c.Becomes d d')
    (hname : name = c.property → ¬ c.RenamesCalls d) (hothers : c.othersOf d' name = []) :
  c.othersOf d name = []
  := by
  apply List.eq_nil_iff_forall_not_mem.mpr
  intro n hn
  obtain ⟨href, hbound, hcall⟩ := (mem_othersOf_iff hd).mp hn
  have hword := word_of_mem_references href
  have hstays := stays_reference hd hname href
  obtain ⟨hlisted, hkind, htext⟩ := mem_references.mp href
  have href' : (c.carriage d).wholeNode n ∈ references d' name := by
    apply mem_references.mpr
    refine ⟨whole_mem hd h hlisted hstays.not_kept, hkind, ?_⟩
    rw [textOf_whole_of_stays hc hd h hword hstays, htext]
  have hother : (c.carriage d).wholeNode n ∈ c.othersOf d' name := by
    apply (mem_othersOf_iff hd').mpr
    refine ⟨href', ?_, ?_⟩
    · intro b hb heq
      obtain ⟨a, ha, hab⟩ := exists_of_mem_groupOf hc hd h hb
      apply hbound a ha
      have hentry : n.kind ≠ .shorthandPropertyIdentifierPattern := by
        rcases hkind with hkind | hkind
        · exact hkind.trans_ne nofun
        · exact hkind.trans_ne nofun
      apply hab.node.eq_of_whole hc hd ((mem_groupOf ha).1.word hd) hword hentry heq
    · intro hcall'
      obtain ⟨-, hkind', hmethod⟩ := mem_callsOf_iff.mp hcall'
      rw [isMethodCall_whole hc hd h (hword.inner hd)] at hmethod
      apply hcall (mem_callsOf_iff.mpr ⟨href, hkind', hmethod⟩)
  rw [hothers] at hother
  cases hother

/-! ### The second pass -/

/-- The text of a node is a part of the text. -/
theorem textOf_part (hd : d.WellRead dialect) (hn : d.Inner n) :
  d.textOf n <:+: d.text
  := by
  have hknown := hd.known n.tree hn.below
  have hspan := (hd.nested.within hn.below).2.1
  obtain ⟨front, mid, back, htext, hfront, hboth⟩ :=
    hknown.start.split hknown.stop (Nat.le_of_lt hspan)
  change Text.slice d.text n.tree.start n.tree.stop <:+: d.text
  rw [htext, ← hfront, ← hboth, Text.slice_append]
  exact ⟨front, back, rfl⟩

/-- No call on the value is left. -/
theorem memberNodes_eq_nil (hc : c.Plain) (hd : d.WellRead dialect) (h : c.Becomes d d')
    (hnames : Receiver.NamesApart c.property c.replacement d.text
      (Alias.names d c.rootName c.through)) :
  c.memberNodes d' = []
  := by
  apply List.eq_nil_iff_forall_not_mem.mpr
  intro m hm
  obtain ⟨hlisted, hconditions⟩ := List.mem_filter.mp hm
  simp only [Bool.and_eq_true, decide_eq_true_iff] at hconditions
  obtain ⟨⟨hkind, htext⟩, hcandidate⟩ := hconditions
  obtain ⟨n, hn, rfl⟩ := exists_whole hd h hlisted (hkind.trans_ne nofun) (hkind.trans_ne nofun)
  rw [Carriage.kind_wholeNode] at hkind
  have hword : d.Word n := ⟨hn, by rw [hkind]; rfl⟩
  have hkept : ¬ Kept c d n := not_kept_of_kind hd (hkind.trans_ne nofun)
  obtain ⟨hstays, hsame⟩ := stays_of_property hc hd h hword hkept htext.symm
  apply hstays c.replacement
  apply Rewritten.member
  rw [memberNodes, List.mem_filter]
  refine ⟨hn, ?_⟩
  simp only [Bool.and_eq_true, decide_eq_true_iff]
  refine ⟨⟨hkind, hsame⟩, ?_⟩
  -- The call goes through the same access, on an object that was known by this name before.
  rw [isCandidate, Carriage.parent?_wholeNode] at hcandidate
  rw [isCandidate]
  cases hparent : n.parent? with
  | none =>
    rw [hparent] at hcandidate
    cases hcandidate
  | some p =>
    rw [hparent] at hcandidate
    have hp := mem_nodes_of_parent hn hparent
    simp only [Option.map_some, Option.any_some, Bool.and_eq_true, decide_eq_true_iff,
      Carriage.kind_wholeNode] at hcandidate ⊢
    obtain ⟨⟨⟨hmember, hproperty⟩, hobject⟩, hcall⟩ := hcandidate
    have hmember : p.kind = .memberExpression := of_decide_eq_true hmember
    have hpattern : p.kind ≠ .objectPattern := hmember.trans_ne nofun
    rw [any_sameAs_whole hc hd hp hpattern (hword.inner hd)] at hproperty
    rw [isMethodCall_whole hc hd h (Inner.of_kind hd hp (hmember.trans_ne nofun))] at hcall
    refine ⟨⟨⟨hmember, hproperty⟩, ?_⟩, hcall⟩
    obtain ⟨u, hu, hreaches⟩ := (Option.any_eq_true _ _).mp hobject
    obtain ⟨object, hobject, rfl⟩ := exists_child hd hp hpattern hu
    have hmem := Node.mem_children_of_child? hobject
    have hinner := Inner.of_parent (Node.mem_of_mem_children hp hmem)
      (Node.parent?_of_mem_children hmem)
    have haliases : ∀ x ∈ (c.receiver d').aliases, x ∈ (c.receiver d).aliases :=
      fun x hx => names_subset hc hd h hx
    apply (Option.any_eq_true _ _).mpr ⟨object, hobject, _⟩
    exact Receiver.reaches_respelled hc.apart hnames haliases rfl rfl hc.indirections
      (hc.mentions _ rfl) (respelled_textOf_whole hc hd h hinner)
      (textOf_part hd hinner) hreaches

section Again

variable (hc : c.Plain) (hd : d.WellRead dialect) (hd' : d'.WellRead dialect') (h : c.Becomes d d')
include hc hd hd' h

/-- Calls through the name of the property are not renamed again. -/
theorem not_renamesCalls :
  ¬ c.RenamesCalls d'
  := by
  intro hagain
  obtain ⟨m, hm⟩ := List.exists_mem_of_ne_nil _ hagain.calls
  obtain ⟨n, hn, hstays⟩ := exists_call hc hd h hc.ne.symm hm
  have hfirst : ¬ c.RenamesCalls d := fun hcalls => hstays _ (.call hcalls hn)
  obtain ⟨b, hb⟩ := List.exists_mem_of_ne_nil _ hagain.bound
  obtain ⟨a, ha, hab⟩ := exists_of_mem_groupOf hc hd h hb
  have hkeys : ¬ c.RenamesKeys d c.property := by
    intro hkeys
    have hown := hkeys.own a ha
    rw [isShorthand_eq hab.kind, hagain.shorthand b hb] at hown
    cases hown
  -- Neither calls nor keys were renamed, so all bindings are still there.
  have hfound {a : Alias} (ha : a ∈ c.groupOf d c.property) :
      ∃ b ∈ c.groupOf d' c.property, a.entry.map Node.kind = b.entry.map Node.kind := by
    apply exists_mem_groupOf hc hd hd' h ha
    · intro t ht
      apply hfirst (ht.renamesCalls hd (node_kind_ne hd ha)).1
    · intro entry hentry hpair key hkey t ht
      apply hkeys
      apply ht.renamesKeys hd ha
      · simp [isShorthand, hentry, hpair]
      · rw [keyOf?, hentry]
        apply hkey
  apply hfirst
  refine ⟨List.ne_nil_of_mem ha, List.ne_nil_of_mem hn, ?_, ?_⟩
  · intro a ha
    obtain ⟨b, hb, hkind⟩ := hfound ha
    rw [isShorthand_eq hkind]
    apply hagain.shorthand b hb
  · apply hagain.others.imp
    · apply othersOf_eq_nil hc hd hd' h fun _ => hfirst
    · intro hdefault a ha
      obtain ⟨b, hb, hkind⟩ := hfound ha
      rw [any_entry_eq hkind fun k => decide (k = .objectAssignmentPattern)]
      apply hdefault b hb

/-- Keys are not renamed again. -/
theorem not_renamesKeys {name : List Char} (hname : name ≠ c.replacement) :
  ¬ c.RenamesKeys d' name
  := by
  intro hagain
  obtain ⟨m, hm⟩ := List.exists_mem_of_ne_nil _ hagain.calls
  obtain ⟨n, hn, -⟩ := exists_call hc hd h hname hm
  obtain ⟨b, hb⟩ := List.exists_mem_of_ne_nil _ hagain.bound
  obtain ⟨a, ha, hab⟩ := exists_of_mem_groupOf hc hd h hb
  have hcalls : name = c.property → ¬ c.RenamesCalls d := by
    rintro rfl hcalls
    have hown := hagain.own b hb
    rw [← isShorthand_eq hab.kind, hcalls.shorthand a ha] at hown
    cases hown
  have hown : ∀ a ∈ c.groupOf d name, a.isShorthand = false := by
    intro a ha
    apply Bool.eq_false_iff.mpr
    intro hshort
    have hfirst := hcalls (shorthand_word hd ha hshort).1
    have hnode : Stays c d a.node := by
      intro t ht
      apply hfirst (ht.renamesCalls hd (node_kind_ne hd ha)).1
    have hkey : ∀ entry, a.entry = some entry → KeyStays c d entry := by
      intro entry hentry hpair
      simp [isShorthand, hentry, hpair] at hshort
    obtain ⟨b, hb, hkind⟩ := exists_mem_groupOf hc hd hd' h ha hnode hkey
    have hown := hagain.own b hb
    rw [← isShorthand_eq hkind, hshort] at hown
    cases hown
  have hfirst : c.RenamesKeys d name :=
    ⟨List.ne_nil_of_mem ha, List.ne_nil_of_mem hn, hown,
      othersOf_eq_nil hc hd hd' h hcalls hagain.others⟩
  obtain ⟨entry, key, hentry, hpair, hchild, hkey⟩ := exists_key ha (hown a ha)
  exact hab.key entry hentry hpair key hchild _ (.key hfirst ha hkey)

/-- A second pass makes no edits, when the names of the value are apart from the new name. -/
theorem edits_eq_nil_of_becomes (hedits : c.edits d ≠ [])
    (hnames : Receiver.NamesApart c.property c.replacement d.text (Alias.names d c.rootName
      c.through)) :
  c.edits d' = []
  := by
  have hproperty : c.property <:+: d.text := by
    obtain ⟨e, he⟩ := List.exists_mem_of_ne_nil _ hedits
    obtain ⟨n, t, hn, -⟩ := (mem_edits_iff hd).mp he
    obtain ⟨hword, htext⟩ := hn.word hd
    rw [← htext]
    apply textOf_part hd (hword.inner hd)
  have hreplacement : c.replacement ∉ Alias.names d c.rootName c.through := by
    intro hmem
    apply hnames [] [] (by simpa using hmem)
    simpa using hproperty
  apply List.eq_nil_iff_forall_not_mem.mpr
  intro e he
  obtain ⟨m, t, hm, -⟩ := (mem_edits_iff hd').mp he
  cases hm with
  | member hm =>
    rw [memberNodes_eq_nil hc hd h hnames] at hm
    cases hm
  | call hcalls | bound hcalls => apply not_renamesCalls hc hd hd' h hcalls
  | key hkeys hb =>
    rename_i name b key
    apply not_renamesKeys hc hd hd' h _ hkeys
    rintro rfl
    obtain ⟨hintroduced, -, hname⟩ := mem_groupOf hb
    apply hreplacement
    apply names_subset hc hd h
    apply mem_names.mpr (.inr ⟨b, hintroduced, hname⟩)

end Again

/-- With the default configuration, a second pass finds nothing, provided that the text that comes
out is read as the carried tree, and that no name of the value has the new name in it at a place
where the text has the old one. In particular the new name itself must not be a name of the
value. -/
theorem run_again_none {text result : List Char} {language : String} {filename : Option String}
    {lenient : Bool} {d d' : Document} (h : Document.parse text language filename lenient = .ok d)
    (hrun : (({} : Rename).run d).result = .ok (some result))
    (hread : d.reread result = .ok d') (htree : (({} : Rename).carriage d).carry d.tree = [d'.tree])
    (hnames : ∀ u v, u ++ "action".toList ++ v ∈ Alias.names d "api".toList ["smartGrid".toList] →
      ¬ (u ++ "smartGrid".toList) <:+: text) :
  (({} : Rename).run d').result = .ok none
  := by
  obtain ⟨rfl, dialect, hd⟩ := wellRead_of_parse h
  obtain ⟨-, dialect', hd'⟩ := wellRead_of_parse hread
  obtain ⟨hedits, hbecomes⟩ := becomes_of_run hd hrun hread htree
  rw [run, edits_eq_nil_of_becomes plain_default hd hd' hbecomes hedits hnames]
  rfl

set_option maxRecDepth 100000 in
/-- A pattern that keeps the old name is left as it is the second time. -/
theorem run_again_none_kept :
  ∃ d d', Document.parse
      "const { smartGrid } = api; smartGrid.presentModal(smartGrid);".toList "tsx" none false
      = .ok d
    ∧ (({} : Rename).run d).result = .ok (some
      "const { action, smartGrid } = api; action.presentModal(smartGrid);".toList)
    ∧ d.reread "const { action, smartGrid } = api; action.presentModal(smartGrid);".toList = .ok d'
    ∧ (({} : Rename).run d').result = .ok none
  := by
  have hrun : ((Document.parse
      "const { smartGrid } = api; smartGrid.presentModal(smartGrid);".toList "tsx" none
        false).toOption.bind fun d =>
      (d.reread "const { action, smartGrid } = api; action.presentModal(smartGrid);".toList
        ).toOption.map fun d' => ((({} : Rename).run d).result,
          decide ((({} : Rename).carriage d).carry d.tree = [d'.tree]),
          Alias.names d "api".toList ["smartGrid".toList]))
      = some (.ok (some
        "const { action, smartGrid } = api; action.presentModal(smartGrid);".toList),
        true, ["api".toList, "smartGrid".toList]) := by
    decide +kernel
  cases hparse : Document.parse
      "const { smartGrid } = api; smartGrid.presentModal(smartGrid);".toList "tsx" none false with
  | error e =>
    rw [hparse] at hrun
    cases hrun
  | ok d =>
    rw [hparse] at hrun
    simp only [Except.toOption, Option.bind_some] at hrun
    cases hread :
        d.reread "const { action, smartGrid } = api; action.presentModal(smartGrid);".toList with
    | error e =>
      rw [hread] at hrun
      cases hrun
    | ok d' =>
      rw [hread] at hrun
      simp only [Option.map_some, Option.some.injEq, Prod.mk.injEq, decide_eq_true_iff] at hrun
      obtain ⟨hresult, htree, hnames⟩ := hrun
      refine ⟨d, d', rfl, hresult, hread, run_again_none hparse hresult hread htree ?_⟩
      have hroot : ¬ "action".toList <:+: "api".toList := by decide
      have hproperty : ¬ "action".toList <:+: "smartGrid".toList := by decide
      intro u v hmem
      rw [hnames] at hmem
      simp only [List.mem_cons, List.not_mem_nil, or_false] at hmem
      rcases hmem with heq | heq
      · exact absurd ⟨u, v, heq⟩ hroot
      · exact absurd ⟨u, v, heq⟩ hproperty

/-- A function that binds the property to the new name already. -/
def boundAlready : List Char :=
  "function f() \x7b\n  const { smartGrid: action } = api;\n\x7d\n".toList
    ++ "const { smartGrid } = api;\nsmartGrid.presentModal();\n".toList

/-- The same after a first pass: there is a call through the name now. -/
def boundAlreadyOnce : List Char :=
  "function f() \x7b\n  const { smartGrid: action } = api;\n\x7d\n".toList
    ++ "const { action } = api;\naction.presentModal();\n".toList

set_option maxRecDepth 100000 in
/-- The second pass renames the key in the function. -/
theorem run_again_boundAlready :
  ((Document.parse boundAlready "tsx" none false).toOption.bind fun d =>
      (d.reread boundAlreadyOnce).toOption.map fun d' =>
        ((({} : Rename).run d).result, (({} : Rename).run d').result))
    = some (.ok (some boundAlreadyOnce), .ok (some
      ("function f() \x7b\n  const { action: action } = api;\n\x7d\n".toList
        ++ "const { action } = api;\naction.presentModal();\n".toList)))
  := by
  decide +kernel

end Codemod.Rename
