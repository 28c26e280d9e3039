import Codemod.Alias
import Codemod.Proofs.Parsed
import Mathlib.Data.List.Nodup
import Mathlib.Data.List.Perm.Subperm

/-!
# Aliases as a least fixed point

Which bindings introduce aliases of a variable is stated without regard to any search: a name is
direct when it is the variable itself or is declared with the value of a direct name, and every
declaration with a direct value introduces its name or the names of its pattern. The search by
passes finds exactly these bindings, each of them once, in whatever order the declarations stand.
-/

namespace Codemod.Alias

/-! ### What a document declares -/

/-- A document declares a name or a pattern with the value of a variable. -/
inductive Declares (d : Document) (name value : Node) : Prop where
  | declarator {n p : Node} (hn : n ∈ d.nodes) (hkind : n.kind = .variableDeclarator)
      (hparent : n.parent? = some p)
      (hdeclaration : p.kind = .lexicalDeclaration ∨ p.kind = .variableDeclaration)
      (hname : n.child? .name = some name) (hvalue : n.child? .value = some value)
      (hbare : value.kind = .identifier)

/-- A name is followed: it is that of the variable, or declared with the value of such a name. -/
inductive Direct (d : Document) (root : List Char) : List Char → Prop where
  | root : Direct d root root
  | declared {name value : Node} (h : Declares d name value) (hname : name.kind = .identifier)
      (hvalue : Direct d root (d.textOf value)) : Direct d root (d.textOf name)

/-- An entry of an object pattern binds a property to a local name. -/
inductive Binds (d : Document) : (entry : Node) → (property : List Char) → (bound : Node) → Prop
    where
  /-- The entry `property`. -/
  | shorthand {entry : Node} (hkind : entry.kind = .shorthandPropertyIdentifierPattern) :
    Binds d entry (d.textOf entry) entry
  /-- The entry `property = other`. -/
  | defaulted {entry left : Node} (hkind : entry.kind = .objectAssignmentPattern)
      (hleft : entry.child? .left = some left) :
    Binds d entry (d.textOf left) left
  /-- The entry `property: name`. -/
  | renamed {entry key value : Node} (hkind : entry.kind = .pairPattern)
      (hkey : entry.child? .key = some key) (hproperty : key.kind = .propertyIdentifier)
      (hvalue : entry.child? .value = some value) (hname : value.kind = .identifier) :
    Binds d entry (d.textOf key) value
  /-- The entry `property: name = other`. -/
  | renamedDefaulted {entry key value left : Node} (hkind : entry.kind = .pairPattern)
      (hkey : entry.child? .key = some key) (hproperty : key.kind = .propertyIdentifier)
      (hvalue : entry.child? .value = some value) (hdefault : value.kind = .assignmentPattern)
      (hleft : value.child? .left = some left) (hname : left.kind = .identifier) :
    Binds d entry (d.textOf key) left

/-- A document introduces an alias of a variable, with some properties that pass the value
through. -/
inductive Introduced (d : Document) (root : List Char) (through : List (List Char)) :
    Alias → Prop where
  | plain {name value : Node} (h : Declares d name value) (hname : name.kind = .identifier)
      (hvalue : Direct d root (d.textOf value)) :
    Introduced d root through ⟨d.textOf name, d.textOf value, none, name, none⟩
  | taken {pattern value entry bound : Node} {property : List Char} (h : Declares d pattern value)
      (hpattern : pattern.kind = .objectPattern) (hvalue : Direct d root (d.textOf value))
      (hentry : entry ∈ pattern.children) (hbinds : Binds d entry property bound)
      (hthrough : property ∈ through) :
    Introduced d root through ⟨d.textOf bound, d.textOf value, some property, bound, some entry⟩

/-! ### One look at a declarator -/

variable {d : Document} {root : List Char} {through : List (List Char)}

theorem declares_iff {name value : Node} :
  Declares d name value ↔ ⟨name, value⟩ ∈ Declarator.all d
  := by
  constructor
  · rintro ⟨hn, hkind, hparent, hdeclaration, hname, hvalue, hbare⟩
    apply List.mem_filterMap.mpr
    rename_i n p
    use n, hn
    have hp : Declarator.isDeclaration p.kind = true := by
      simpa [Declarator.isDeclaration] using hdeclaration
    simp [Declarator.ofNode?, hkind, hparent, hp, hname, hvalue, hbare]
  · intro h
    obtain ⟨n, hn, hof⟩ := List.mem_filterMap.mp h
    rw [Declarator.ofNode?] at hof
    split at hof
    · rename_i hfront
      obtain ⟨hkind, hany⟩ := Bool.and_eq_true_iff.mp hfront
      obtain ⟨p, hparent, hp⟩ := (Option.any_eq_true _ _).mp hany
      split at hof
      · rename_i hname hvalue
        split at hof
        · rename_i hbare
          cases hof
          apply Declares.declarator hn (of_decide_eq_true hkind) hparent _ hname hvalue hbare
          simpa [Declarator.isDeclaration] using hp
        · cases hof
      · cases hof
    · cases hof

/-- The name bound by a value in a pattern, with or without a default. -/
theorem boundName?_eq_some {value bound : Node} :
  boundName? value = some bound ↔
    value.kind = .identifier ∧ value = bound
    ∨ value.kind = .assignmentPattern ∧ value.child? .left = some bound ∧ bound.kind = .identifier
  := by
  rw [boundName?, Option.filter_eq_some_iff, decide_eq_true_iff]
  by_cases h : value.kind = .assignmentPattern
  · simp [h]
  · rw [if_neg h, Option.some_inj]
    constructor
    · rintro ⟨rfl, hkind⟩
      exact .inl ⟨hkind, rfl⟩
    · rintro (⟨hkind, rfl⟩ | ⟨hkind, -⟩)
      · exact ⟨rfl, hkind⟩
      · contradiction

/-- The alias that an entry introduces is the binding of the entry. -/
theorem ofPart?_eq_some {source : List Char} {entry : Node} {a : Alias} :
  ofPart? d source through entry = some a ↔
    ∃ property bound, Binds d entry property bound ∧ property ∈ through
      ∧ a = ⟨d.textOf bound, source, some property, bound, some entry⟩
  := by
  constructor
  · intro h
    rw [ofPart?.eq_def] at h
    split at h
    · rename_i hkind
      obtain ⟨hthrough, ha⟩ := Option.ite_none_right_eq_some.mp h
      exact ⟨_, _, .shorthand hkind, List.contains_iff_mem.mp hthrough, (Option.some.inj ha).symm⟩
    · rename_i hkind
      obtain ⟨left, hleft, h⟩ := Option.bind_eq_some_iff.mp h
      obtain ⟨hthrough, ha⟩ := Option.ite_none_right_eq_some.mp h
      exact ⟨_, _, .defaulted hkind hleft, List.contains_iff_mem.mp hthrough,
        (Option.some.inj ha).symm⟩
    · rename_i hkind
      split at h
      · rename_i key bound hkey hbound
        obtain ⟨value, hvalue, hbound⟩ := Option.bind_eq_some_iff.mp hbound
        obtain ⟨hfront, ha⟩ := Option.ite_none_right_eq_some.mp h
        obtain ⟨hproperty, hthrough⟩ := Bool.and_eq_true_iff.mp hfront
        use d.textOf key, bound
        refine ⟨?_, List.contains_iff_mem.mp hthrough, (Option.some.inj ha).symm⟩
        rcases boundName?_eq_some.mp hbound with ⟨hname, rfl⟩ | ⟨hdefault, hleft, hname⟩
        · exact .renamed hkind hkey (of_decide_eq_true hproperty) hvalue hname
        · exact .renamedDefaulted hkind hkey (of_decide_eq_true hproperty) hvalue hdefault hleft
            hname
      · cases h
    · cases h
  · rintro ⟨property, bound, hbinds, hthrough, rfl⟩
    cases hbinds with
    | shorthand hkind => simp [ofPart?, hkind, hthrough]
    | defaulted hkind hleft => simp [ofPart?, hkind, hleft, hthrough]
    | renamed hkind hkey hproperty hvalue hname =>
      have hbound := boundName?_eq_some.mpr (.inl ⟨hname, rfl⟩)
      simp [ofPart?, hkind, hkey, hproperty, hvalue, hbound, hthrough]
    | renamedDefaulted hkind hkey hproperty hvalue hdefault hleft hname =>
      have hbound := boundName?_eq_some.mpr (.inr ⟨hdefault, hleft, hname⟩)
      simp [ofPart?, hkind, hkey, hproperty, hvalue, hbound, hthrough]

/-- What an entry binds is not a literal token. -/
theorem Binds.isNamed {entry bound : Node} {property : List Char}
    (h : Binds d entry property bound) :
  entry.kind.isNamed = true
  := by
  cases h with
  | shorthand hkind => rw [hkind]; rfl
  | defaulted hkind _ => rw [hkind]; rfl
  | renamed hkind _ _ _ _ => rw [hkind]; rfl
  | renamedDefaulted hkind _ _ _ _ _ _ => rw [hkind]; rfl

/-- The aliases of a pattern are the bindings of its entries. -/
theorem mem_ofPattern {source : List Char} {pattern : Node} {a : Alias} :
  a ∈ pattern.namedChildren.filterMap (ofPart? d source through) ↔
    ∃ entry property bound, entry ∈ pattern.children ∧ Binds d entry property bound
      ∧ property ∈ through ∧ a = ⟨d.textOf bound, source, some property, bound, some entry⟩
  := by
  rw [List.mem_filterMap]
  constructor
  · rintro ⟨entry, hentry, h⟩
    obtain ⟨property, bound, hbinds, hthrough, rfl⟩ := ofPart?_eq_some.mp h
    obtain ⟨t, ht, rfl⟩ := List.mem_map.mp hentry
    exact ⟨_, property, bound, List.mem_map_of_mem (List.mem_of_mem_filter ht), hbinds, hthrough,
      rfl⟩
  · rintro ⟨entry, property, bound, hentry, hbinds, hthrough, rfl⟩
    obtain ⟨t, ht, rfl⟩ := List.mem_map.mp hentry
    use pattern.below t, List.mem_map_of_mem (List.mem_filter.mpr ⟨ht, hbinds.isNamed⟩)
    apply ofPart?_eq_some.mpr ⟨property, bound, hbinds, hthrough, rfl⟩

/-- The aliases of a declarator whose value is direct are those that the document introduces. -/
theorem introduced_iff {a : Alias} :
  Introduced d root through a ↔
    ∃ dc ∈ Declarator.all d, Direct d root (d.textOf dc.value) ∧ a ∈ ofDeclarator d through dc
  := by
  constructor
  · intro h
    cases h with
    | plain h hname hvalue =>
      refine ⟨_, declares_iff.mp h, hvalue, ?_⟩
      simp [ofDeclarator, hname]
    | taken h hpattern hvalue hentry hbinds hthrough =>
      refine ⟨_, declares_iff.mp h, hvalue, ?_⟩
      rw [ofDeclarator, if_neg (by simp [hpattern]), if_pos hpattern]
      apply mem_ofPattern.mpr ⟨_, _, _, hentry, hbinds, hthrough, rfl⟩
  · rintro ⟨⟨name, value⟩, hdc, hvalue, ha⟩
    have h := declares_iff.mpr hdc
    rw [ofDeclarator] at ha
    split at ha
    · rename_i hname
      rw [List.mem_singleton.mp ha]
      apply Introduced.plain h hname hvalue
    · split at ha
      · rename_i hpattern
        obtain ⟨entry, property, bound, hentry, hbinds, hthrough, rfl⟩ := mem_ofPattern.mp ha
        apply Introduced.taken h hpattern hvalue hentry hbinds hthrough
      · cases ha

/-! ### One binding -/

theorem sameBinding_iff {a b : Alias} :
  a.sameBinding b = true ↔
    a.name = b.name ∧ a.property = b.property ∧ a.node.start = b.node.start
      ∧ a.node.stop = b.node.stop
  := by
  simp [sameBinding, and_assoc]

theorem sameBinding_refl (a : Alias) :
  a.sameBinding a = true
  := sameBinding_iff.mpr ⟨rfl, rfl, rfl, rfl⟩

/-- An alias without a property is a name that is followed. -/
theorem Introduced.direct {a : Alias} (h : Introduced d root through a)
    (hproperty : a.property = none) :
  Direct d root a.name
  := by
  cases h with
  | plain h hname hvalue => apply Direct.declared h hname hvalue
  | taken => cases hproperty

/-! ### Trails -/

/-- A trail goes on from another one. -/
structure Trail.Extends (t' t : Trail) : Prop where
  direct : t.direct <+: t'.direct
  found : t.found <+: t'.found

theorem Trail.Extends.refl (t : Trail) :
  t.Extends t
  := ⟨List.prefix_rfl, List.prefix_rfl⟩

theorem Trail.Extends.trans {t t' t'' : Trail} (h : t''.Extends t') (h' : t'.Extends t) :
  t''.Extends t
  := ⟨h'.direct.trans h.direct, h'.found.trans h.found⟩

/-- What adding an alias does: nothing when the binding is there already, and otherwise the alias
is found, and its name followed from now on if it is plain and new. -/
theorem Trail.add_cases (t : Trail) (a : Alias) :
  (t.add a = t ∧ ∃ b ∈ t.found, a.sameBinding b = true)
  ∨ (∀ b ∈ t.found, a.sameBinding b = false)
    ∧ (t.add a = ⟨t.direct, t.found ++ [a]⟩ ∧ (a.property = none → a.name ∈ t.direct)
      ∨ t.add a = ⟨t.direct ++ [a.name], t.found ++ [a]⟩ ∧ a.property = none
        ∧ a.name ∉ t.direct)
  := by
  rw [add]
  by_cases hany : t.found.any a.sameBinding = true
  · rw [if_pos hany]
    exact .inl ⟨rfl, List.any_eq_true.mp hany⟩
  · rw [if_neg hany]
    apply Or.inr
    use by simpa using hany
    by_cases hname : (a.isPassThrough || t.direct.contains a.name) = true
    · rw [if_pos hname]
      apply Or.inl
      use rfl
      intro hproperty
      simpa [isPassThrough, hproperty] using hname
    · rw [if_neg hname]
      apply Or.inr
      use rfl
      simpa [isPassThrough] using hname

variable (d root through) in
/-- What a trail has found so far is right, and it follows every name it has found. -/
structure Trail.Sound (t : Trail) : Prop where
  started : root ∈ t.direct
  nodup : t.direct.Nodup
  direct : ∀ x ∈ t.direct, Direct d root x
  found : ∀ a ∈ t.found, Introduced d root through a
  apart : t.found.Pairwise fun a b => b.sameBinding a = false
  followed : ∀ a ∈ t.found, a.property = none → a.name ∈ t.direct

variable {t : Trail} {a : Alias}

theorem Trail.extends_add (t : Trail) (a : Alias) :
  (t.add a).Extends t
  := by
  rcases t.add_cases a with ⟨heq, -⟩ | ⟨-, ⟨heq, -⟩ | ⟨heq, -⟩⟩
  · rw [heq]
    apply Extends.refl
  · rw [heq]
    exact ⟨List.prefix_rfl, List.prefix_append _ _⟩
  · rw [heq]
    exact ⟨List.prefix_append _ _, List.prefix_append _ _⟩

/-- An alias is there after it has been added, as the same binding at least. -/
theorem Trail.covers_add (t : Trail) (a : Alias) :
  ∃ b ∈ (t.add a).found, a.sameBinding b = true
  := by
  rcases t.add_cases a with ⟨heq, hfound⟩ | ⟨-, ⟨heq, -⟩ | ⟨heq, -⟩⟩
  · rw [heq]
    apply hfound
  · rw [heq]
    use a, List.mem_append_right _ (List.mem_singleton_self a), sameBinding_refl a
  · rw [heq]
    use a, List.mem_append_right _ (List.mem_singleton_self a), sameBinding_refl a

/-- Adding an alias keeps a trail right. -/
theorem Trail.Sound.add (h : t.Sound d root through) (ha : Introduced d root through a) :
  (t.add a).Sound d root through
  := by
  have hfound : ∀ b ∈ t.found ++ [a], Introduced d root through b := by
    apply List.forall_mem_append.mpr ⟨h.found, List.forall_mem_singleton.mpr ha⟩
  rcases t.add_cases a with ⟨heq, -⟩ | ⟨hnew, hcase⟩
  · rw [heq]
    apply h
  · have hapart : (t.found ++ [a]).Pairwise fun a b => b.sameBinding a = false := by
      apply List.pairwise_append.mpr
      use h.apart, List.pairwise_singleton _ _
      intro b hb c hc
      rw [List.mem_singleton.mp hc]
      apply hnew b hb
    rcases hcase with ⟨heq, hname⟩ | ⟨heq, hproperty, hname⟩
    · have hfollowed : ∀ b ∈ t.found ++ [a], b.property = none → b.name ∈ t.direct := by
        apply List.forall_mem_append.mpr ⟨h.followed, List.forall_mem_singleton.mpr hname⟩
      rw [heq]
      exact ⟨h.started, h.nodup, h.direct, hfound, hapart, hfollowed⟩
    · have hnodup : (t.direct ++ [a.name]).Nodup := by
        apply List.nodup_append.mpr
        use h.nodup, List.nodup_singleton _
        intro x hx y hy hxy
        rw [hxy, List.mem_singleton.mp hy] at hx
        contradiction
      have hdirect : ∀ x ∈ t.direct ++ [a.name], Direct d root x := by
        apply List.forall_mem_append.mpr
          ⟨h.direct, List.forall_mem_singleton.mpr (ha.direct hproperty)⟩
      have hfollowed : ∀ b ∈ t.found ++ [a], b.property = none →
          b.name ∈ t.direct ++ [a.name] := by
        intro b hb hplain
        rcases List.mem_append.mp hb with hb | hb
        · apply List.mem_append_left _ (h.followed b hb hplain)
        · rw [List.mem_singleton.mp hb]
          apply List.mem_append_right _ (List.mem_singleton_self _)
      rw [heq]
      exact ⟨List.mem_append_left _ h.started, hnodup, hdirect, hfound, hapart, hfollowed⟩

/-! ### Passes -/

/-- Adding several aliases. -/
theorem Trail.extends_foldl_add (as : List Alias) (t : Trail) :
  (as.foldl Trail.add t).Extends t
  := by
  induction as generalizing t with
  | nil => apply Extends.refl
  | cons a as ih => apply (ih (t.add a)).trans (t.extends_add a)

theorem Trail.covers_foldl_add {as : List Alias} (t : Trail) (ha : a ∈ as) :
  ∃ b ∈ (as.foldl Trail.add t).found, a.sameBinding b = true
  := by
  induction as generalizing t with
  | nil => cases ha
  | cons c as ih =>
    rcases List.mem_cons.mp ha with rfl | ha
    · obtain ⟨b, hb, hab⟩ := t.covers_add a
      use b, (extends_foldl_add as _).found.subset hb
    · apply ih (t.add c) ha

theorem Trail.Sound.foldl_add {as : List Alias} (h : t.Sound d root through)
    (has : ∀ a ∈ as, Introduced d root through a) :
  (as.foldl Trail.add t).Sound d root through
  := by
  induction as generalizing t with
  | nil => apply h
  | cons a as ih =>
    obtain ⟨ha, has⟩ := List.forall_mem_cons.mp has
    apply ih (h.add ha) has

theorem Trail.extends_visit (t : Trail) (dc : Declarator) :
  (t.visit d through dc).Extends t
  := by
  rw [visit]
  split
  · apply extends_foldl_add
  · apply Extends.refl

/-- A look at a declarator keeps a trail right. -/
theorem Trail.Sound.visit {dc : Declarator} (h : t.Sound d root through)
    (hdc : dc ∈ Declarator.all d) :
  (t.visit d through dc).Sound d root through
  := by
  rw [Trail.visit]
  split
  · rename_i hvalue
    apply h.foldl_add
    intro a ha
    apply introduced_iff.mpr
    use dc, hdc, h.direct _ (List.contains_iff_mem.mp hvalue)
  · apply h

theorem Trail.extends_pass (dcs : List Declarator) (t : Trail) :
  (t.pass d through dcs).Extends t
  := by
  induction dcs generalizing t with
  | nil => apply Extends.refl
  | cons dc dcs ih => apply (ih (t.visit d through dc)).trans (t.extends_visit dc)

theorem Trail.Sound.pass {dcs : List Declarator} (h : t.Sound d root through)
    (hdcs : dcs ⊆ Declarator.all d) :
  (t.pass d through dcs).Sound d root through
  := by
  induction dcs generalizing t with
  | nil => apply h
  | cons dc dcs ih =>
    obtain ⟨hdc, hdcs⟩ := List.cons_subset.mp hdcs
    apply ih (h.visit hdc) hdcs

/-- A pass finds all aliases of the declarators whose values were direct before it. -/
theorem Trail.covers_pass {dcs : List Declarator} {dc : Declarator} (t : Trail) (hdc : dc ∈ dcs)
    (hvalue : d.textOf dc.value ∈ t.direct) (ha : a ∈ ofDeclarator d through dc) :
  ∃ b ∈ (t.pass d through dcs).found, a.sameBinding b = true
  := by
  induction dcs generalizing t with
  | nil => cases hdc
  | cons dc' dcs ih =>
    rcases List.mem_cons.mp hdc with rfl | hdc
    · have hvisit : ∃ b ∈ (t.visit d through dc).found, a.sameBinding b = true := by
        rw [visit, if_pos (List.contains_iff_mem.mpr hvalue)]
        apply covers_foldl_add t ha
      obtain ⟨b, hb, hab⟩ := hvisit
      use b, (extends_pass dcs _).found.subset hb
    · apply ih _ hdc ((t.extends_visit dc').direct.subset hvalue)

/-! ### The search as a whole -/

/-- Names that are followed are the variable or are declared. -/
theorem Direct.mem {x : List Char} (h : Direct d root x) :
  x ∈ root :: (Declarator.all d).map fun dc => d.textOf dc.name
  := by
  cases h with
  | root => apply List.mem_cons_self
  | declared h _ _ =>
    apply List.mem_cons_of_mem
    apply List.mem_map.mpr ⟨_, declares_iff.mp h, rfl⟩

/-- A trail follows at most one name for each declarator, and the variable itself. -/
theorem Trail.Sound.length_le (h : t.Sound d root through) :
  t.direct.length ≤ (Declarator.all d).length + 1
  := by
  have hsub : t.direct ⊆ root :: (Declarator.all d).map fun dc => d.textOf dc.name := by
    intro x hx
    apply (h.direct x hx).mem
  have hle := (h.nodup.subperm hsub).length_le
  simpa using hle

variable (d through) in
/-- All aliases of the declarators with a direct value have been found. -/
def Trail.Closed (t : Trail) : Prop :=
  ∀ dc ∈ Declarator.all d, d.textOf dc.value ∈ t.direct →
    ∀ a ∈ ofDeclarator d through dc, ∃ b ∈ t.found, a.sameBinding b = true

/-- A pass that finds no new name to follow has found everything. -/
theorem Trail.closed_pass
    (h : (t.pass d through (Declarator.all d)).direct.length = t.direct.length) :
  (t.pass d through (Declarator.all d)).Closed d through
  := by
  have hsame : t.direct = (t.pass d through (Declarator.all d)).direct :=
    (extends_pass (Declarator.all d) t).direct.eq_of_length h.symm
  intro dc hdc hvalue a ha
  rw [← hsame] at hvalue
  apply covers_pass t hdc hvalue ha

/-- The passes keep a trail right and end with everything found, provided that their number makes
up for the names that are not followed yet. -/
theorem Trail.Sound.settle {limit : Nat} (h : t.Sound d root through)
    (hlimit : (Declarator.all d).length + 2 ≤ t.direct.length + limit) :
  (t.settle d through (Declarator.all d) limit).Sound d root through
    ∧ (t.settle d through (Declarator.all d) limit).Closed d through
  := by
  induction limit generalizing t with
  | zero =>
    have := h.length_le
    omega
  | succ limit ih =>
    have hpass := h.pass (List.Subset.refl (Declarator.all d))
    have hle : t.direct.length ≤ (t.pass d through (Declarator.all d)).direct.length :=
      (extends_pass (Declarator.all d) t).direct.length_le
    rw [Trail.settle]
    split
    · rename_i heq
      use hpass, closed_pass heq
    · apply ih hpass
      omega

theorem Trail.sound_start :
  Trail.Sound d root through ⟨[root], []⟩
  := by
  constructor
  · apply List.mem_singleton_self
  · apply List.nodup_singleton
  · intro x hx
    rw [List.mem_singleton.mp hx]
    apply Direct.root
  · nofun
  · apply List.Pairwise.nil
  · nofun

variable (d root through) in
/-- The search ends with a trail that is right and has found everything. -/
theorem exists_trail :
  ∃ t : Trail, t.Sound d root through ∧ t.Closed d through ∧ collect d root through = t.found
  := by
  have hstart : Trail.Sound d root through ⟨[root], []⟩ := Trail.sound_start
  have hlimit : (Declarator.all d).length + 2 ≤ [root].length + ((Declarator.all d).length + 1) :=
    by rw [List.length_singleton]; omega
  obtain ⟨hsound, hclosed⟩ := hstart.settle hlimit
  exact ⟨_, hsound, hclosed, rfl⟩

/-- A trail that has found everything follows all direct names. -/
theorem Trail.Sound.mem_direct {x : List Char} (h : t.Sound d root through)
    (hclosed : t.Closed d through) (hx : Direct d root x) :
  x ∈ t.direct
  := by
  induction hx with
  | root => apply h.started
  | @declared name value hdeclares hname _ ih =>
    have hof : ⟨d.textOf name, d.textOf value, none, name, none⟩
        ∈ ofDeclarator d through ⟨name, value⟩ := by simp [ofDeclarator, hname]
    obtain ⟨b, hb, hab⟩ := hclosed _ (declares_iff.mp hdeclares) ih _ hof
    obtain ⟨hbname, hproperty, -⟩ := sameBinding_iff.mp hab
    change d.textOf name = b.name at hbname
    rw [hbname]
    apply h.followed b hb hproperty.symm

/-- Every alias that the document introduces has been found as a binding. -/
theorem Trail.Sound.covers (h : t.Sound d root through) (hclosed : t.Closed d through)
    (ha : Introduced d root through a) :
  ∃ b ∈ t.found, a.sameBinding b = true
  := by
  obtain ⟨dc, hdc, hvalue, ha⟩ := introduced_iff.mp ha
  apply hclosed dc hdc (h.mem_direct hclosed hvalue) a ha

/-! ### Bindings in a parsed document -/

open Grammar

theorem Declares.value_eq {name value value' : Node} (h : Declares d name value)
    (h' : Declares d name value') :
  value = value'
  := by
  obtain ⟨-, -, -, -, hname, hvalue, -⟩ := h
  obtain ⟨-, -, -, -, hname', hvalue', -⟩ := h'
  have hparent := Node.parent?_of_mem_children (Node.mem_children_of_child? hname)
  rw [Node.parent?_of_mem_children (Node.mem_children_of_child? hname')] at hparent
  cases hparent
  rw [hvalue] at hvalue'
  apply Option.some.inj hvalue'

/-- The entry of an object pattern that binds a name, as seen from the name. -/
def entryOf (bound : Node) : Option Node :=
  bound.parent?.bind fun p =>
    if p.kind = .objectPattern then some bound
    else if p.kind = .assignmentPattern then p.parent?
    else some p

theorem Binds.entryOf_eq {pattern entry bound : Node} {property : List Char}
    (h : Binds d entry property bound) (hentry : entry ∈ pattern.children)
    (hpattern : pattern.kind = .objectPattern) :
  entryOf bound = some entry
  := by
  rw [entryOf]
  cases h with
  | shorthand hkind => simp [Node.parent?_of_mem_children hentry, hpattern]
  | defaulted hkind hleft =>
    simp [Node.parent?_of_mem_children (Node.mem_children_of_child? hleft), hkind]
  | renamed hkind _ _ hvalue _ =>
    simp [Node.parent?_of_mem_children (Node.mem_children_of_child? hvalue), hkind]
  | renamedDefaulted hkind _ _ hvalue hdefault hleft _ =>
    simp [Node.parent?_of_mem_children (Node.mem_children_of_child? hleft),
      Node.parent?_of_mem_children (Node.mem_children_of_child? hvalue), hdefault]

theorem Declares.mem_nodes {name value : Node} (h : Declares d name value) :
  name ∈ d.nodes
  := by
  obtain ⟨hn, -, -, -, hname, -, -⟩ := h
  apply Node.mem_of_mem_children hn (Node.mem_children_of_child? hname)

theorem word_of_child? {n m : Node} {r : Role} (hn : n ∈ d.nodes) (h : n.child? r = some m)
    (hword : Script.isWord m.kind = true) :
  d.Word m
  := ⟨Node.mem_of_mem_children hn (Node.mem_children_of_child? h), hword⟩

/-- The name bound by an entry is a word of the document. -/
theorem Binds.word {dialect : Dialect} (hd : d.WellRead dialect) {entry bound : Node}
    {property : List Char} (h : Binds d entry property bound) (hentry : entry ∈ d.nodes) :
  d.Word bound
  := by
  cases h with
  | shorthand hkind => exact ⟨hentry, by rw [hkind]; rfl⟩
  | defaulted hkind hleft =>
    apply word_of_child? hentry hleft
    rw [hd.left_of_default hentry hkind hleft]
    rfl
  | renamed hkind _ _ hvalue hname =>
    apply word_of_child? hentry hvalue
    rw [hname]
    rfl
  | renamedDefaulted hkind _ _ hvalue _ hleft hname =>
    have hmem := Node.mem_of_mem_children hentry (Node.mem_children_of_child? hvalue)
    apply word_of_child? hmem hleft
    rw [hname]
    rfl

/-- The node of an alias is a word of the document. -/
theorem Introduced.word {dialect : Dialect} (hd : d.WellRead dialect)
    (h : Introduced d root through a) :
  d.Word a.node
  := by
  cases h with
  | plain h hname _ => exact ⟨h.mem_nodes, by rw [hname]; rfl⟩
  | taken h _ _ hentry hbinds _ =>
    apply hbinds.word hd (Node.mem_of_mem_children h.mem_nodes hentry)

/-- In a parsed document, aliases that are one binding are equal. -/
theorem Introduced.eq_of_sameBinding {dialect : Dialect} (hd : d.WellRead dialect) {a b : Alias}
    (ha : Introduced d root through a) (hb : Introduced d root through b)
    (h : a.sameBinding b = true) :
  a = b
  := by
  obtain ⟨hname, hproperty, hstart, -⟩ := sameBinding_iff.mp h
  have hnode := hd.word_eq (ha.word hd) (hb.word hd) hstart
  cases ha with
  | plain ha _ _ =>
    cases hb with
    | plain hb _ _ =>
      cases hnode
      rw [ha.value_eq hb]
    | taken => cases hproperty
  | taken ha hapattern _ haentry habinds _ =>
    cases hb with
    | plain => cases hproperty
    | taken hb hbpattern _ hbentry hbbinds _ =>
      cases hnode
      cases hproperty
      have hentry := habinds.entryOf_eq haentry hapattern
      rw [hbbinds.entryOf_eq hbentry hbpattern] at hentry
      cases hentry
      have hpattern := Node.parent?_of_mem_children haentry
      rw [Node.parent?_of_mem_children hbentry] at hpattern
      cases hpattern
      rw [ha.value_eq hb]

/-! ### The order of declarations -/

/-- A document declares a name with the value of a variable or with a property of it. -/
inductive States (d : Document) : (source name : List Char) → (property : Option (List Char)) → Prop
    where
  | plain {name value : Node} (h : Declares d name value) (hname : name.kind = .identifier) :
    States d (d.textOf value) (d.textOf name) none
  | taken {pattern value entry bound : Node} {property : List Char} (h : Declares d pattern value)
      (hpattern : pattern.kind = .objectPattern) (hentry : entry ∈ pattern.children)
      (hbinds : Binds d entry property bound) :
    States d (d.textOf value) (d.textOf bound) (some property)

theorem exists_introduced_iff {x : List Char} :
  (∃ a, Introduced d root through a ∧ a.name = x) ↔
    ∃ source property, States d source x property ∧ Direct d root source
      ∧ ∀ p, property = some p → p ∈ through
  := by
  constructor
  · rintro ⟨a, ha, rfl⟩
    cases ha with
    | plain h hname hvalue => exact ⟨_, _, .plain h hname, hvalue, nofun⟩
    | taken h hpattern hvalue hentry hbinds hthrough =>
      refine ⟨_, _, .taken h hpattern hentry hbinds, hvalue, ?_⟩
      rintro p ⟨⟩
      apply hthrough
  · rintro ⟨source, property, hstates, hdirect, hthrough⟩
    cases hstates with
    | plain h hname => exact ⟨_, .plain h hname hdirect, rfl⟩
    | taken h hpattern hentry hbinds =>
      exact ⟨_, .taken h hpattern hdirect hentry hbinds (hthrough _ rfl), rfl⟩

theorem States.direct {source x : List Char} (h : States d source x none)
    (hsource : Direct d root source) :
  Direct d root x
  := by
  cases h with
  | plain h hname => apply Direct.declared h hname hsource

/-- Which names are direct depends only on what is declared. -/
theorem Direct.of_states {d' : Document}
    (hstates : ∀ source x property, States d source x property → States d' source x property)
    {x : List Char} (h : Direct d root x) :
  Direct d' root x
  := by
  induction h with
  | root => apply Direct.root
  | declared h hname _ ih => apply (hstates _ _ _ (.plain h hname)).direct ih

/-- The names of a variable: its own, and those of the aliases that the document introduces. -/
theorem mem_names {x : List Char} :
  x ∈ names d root through ↔ x = root ∨ ∃ a, Introduced d root through a ∧ a.name = x
  := by
  obtain ⟨t, hsound, hclosed, heq⟩ := exists_trail d root through
  rw [names, List.mem_eraseDups, List.mem_cons, List.mem_map, heq]
  apply or_congr_right
  constructor
  · rintro ⟨a, ha, rfl⟩
    exact ⟨a, hsound.found a ha, rfl⟩
  · rintro ⟨a, ha, rfl⟩
    obtain ⟨b, hb, hab⟩ := hsound.covers hclosed ha
    exact ⟨b, hb, (sameBinding_iff.mp hab).1.symm⟩

/-- Names carry over to a document that declares what this one declares. -/
theorem mem_names_of_states {d' : Document}
    (hstates : ∀ source x property, States d source x property → States d' source x property)
    {x : List Char} (h : x ∈ names d root through) :
  x ∈ names d' root through
  := by
  apply mem_names.mpr
  apply (mem_names.mp h).imp_right
  intro hx
  obtain ⟨source, property, hx, hdirect, hthrough⟩ := exists_introduced_iff.mp hx
  apply exists_introduced_iff.mpr
  exact ⟨source, property, hstates _ _ _ hx, hdirect.of_states hstates, hthrough⟩

/-- The search finds the bindings that the document introduces and no others, no two of them at one
place, and in a parsed document each of them itself. The names of a variable are its own and those
of these bindings, and only what is declared matters for them, not the order of the
declarations. -/
theorem collect_exact (d : Document) (root : List Char) (through : List (List Char)) :
  (∀ a ∈ collect d root through, Introduced d root through a)
  ∧ (∀ a, Introduced d root through a → ∃ b ∈ collect d root through, a.sameBinding b = true)
  ∧ (collect d root through).Pairwise (fun a b => b.sameBinding a = false)
  ∧ (∀ text language filename lenient, Document.parse text language filename lenient = .ok d →
    ∀ a, Introduced d root through a → a ∈ collect d root through)
  ∧ (∀ x, x ∈ names d root through ↔ x = root ∨ ∃ a, Introduced d root through a ∧ a.name = x)
  ∧ (∀ d' : Document,
    (∀ source x property, States d source x property ↔ States d' source x property) →
    ∀ x, x ∈ names d root through ↔ x ∈ names d' root through)
  := by
  obtain ⟨t, hsound, hclosed, heq⟩ := exists_trail d root through
  rw [heq]
  refine ⟨hsound.found, fun a ha => hsound.covers hclosed ha, hsound.apart, ?_, ?_, ?_⟩
  · intro text language filename lenient hparse a ha
    obtain ⟨-, dialect, hd⟩ := Document.wellRead_of_parse hparse
    obtain ⟨b, hb, hab⟩ := hsound.covers hclosed ha
    rw [ha.eq_of_sameBinding hd (hsound.found b hb) hab]
    apply hb
  · intro x
    apply mem_names
  · intro d' hstates x
    constructor
    · apply mem_names_of_states (fun source x property => (hstates source x property).mp)
    · apply mem_names_of_states (fun source x property => (hstates source x property).mpr)

set_option maxRecDepth 100000 in
example :
  ((Document.parse "const c = b, b = api; const { p: q = 1 } = c;".toList "tsx" none false).map
    fun d => names d "api".toList ["p".toList]).toOption
  = some ["api".toList, "b".toList, "c".toList, "q".toList]
  := by
  decide +kernel

end Codemod.Alias
