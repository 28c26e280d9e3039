import Codemod.Proofs.Traversal
import Codemod.Tree.Rule

/-!
# What a rule finds

A search from a node looks at the node and at the nodes below it in document order. All matches are
these nodes without those that do not match, and the first match is the first of them. A search
fails only where a pattern is malformed. What stands below a node and what stands around it are two
sides of one relation, so a rule that asks for something below and a rule that asks for something
around find something in the same trees.
-/

namespace Codemod

/-! ### Below and around -/

namespace Node

variable {n m p : Node} {t u : Tree}

/-- A child of a node below another one is below that one. -/
theorem below_mem_descendants (hp : p ∈ n.descendants) (hu : u ∈ p.tree.children) :
  p.below u ∈ n.descendants
  := by
  obtain ⟨v, hv, hp⟩ := mem_descendants.mp hp
  exact mem_descendants.mpr ⟨v, hv, below_mem hp hu⟩

theorem child_mem_descendants (hu : u ∈ n.tree.children) :
  n.below u ∈ n.descendants
  := mem_descendants.mpr ⟨u, hu, mem_preorder.mpr (.inl rfl)⟩

/-- A node is around the nodes below it. -/
theorem mem_ancestors (h : m ∈ n.descendants) :
  n ∈ m.ancestors
  := by
  obtain ⟨t, above⟩ := m
  induction above generalizing t with
  | nil =>
    obtain ⟨p, -, u, -, heq⟩ := parent_of_mem_descendants h
    cases heq
  | cons v vs ih =>
    obtain ⟨p, hp, u, -, heq⟩ := parent_of_mem_descendants h
    cases heq
    change n ∈ p :: p.ancestors
    rcases mem_preorder.mp hp with rfl | hp
    · exact List.mem_cons_self
    · exact List.mem_cons_of_mem _ (ih p.tree hp)

/-- The nodes around a node of a tree are nodes of the tree, and the node is below them. -/
theorem of_mem_ancestors (hm : m ∈ (root t).preorder) (h : n ∈ m.ancestors) :
  n ∈ (root t).preorder ∧ m ∈ n.descendants
  := by
  obtain ⟨u, above⟩ := m
  induction above generalizing u with
  | nil => cases h
  | cons v vs ih =>
    rcases parent_mem hm with heq | ⟨p, hp, hparent, hmem⟩
    · cases heq
    · cases hparent
      change n ∈ ⟨v, vs⟩ :: Node.ancestors ⟨v, vs⟩ at h
      rcases List.mem_cons.mp h with rfl | h
      · exact ⟨hp, child_mem_descendants hmem⟩
      · obtain ⟨hn, hbelow⟩ := ih v hp h
        exact ⟨hn, below_mem_descendants hbelow hmem⟩

/-- The nodes below a listed node are listed. -/
theorem preorder_subset {above : List Tree} (hn : n ∈ inOrder above t) :
  n.preorder ⊆ inOrder above t
  := by
  induction t using Tree.induct generalizing above with
  | h t ih =>
    rcases mem_inOrder.mp hn with rfl | ⟨u, hu, hn⟩
    · exact List.Subset.refl _
    · intro m hm
      exact mem_inOrder.mpr (.inr ⟨u, hu, ih u hu hn hm⟩)

end Node

/-! ### Tests that may fail -/

section Tests

variable {ε α : Type} {test : α → Except ε Bool} {as bs : List α}

theorem exists_of_anyOf (h : anyOf test as = .ok true) :
  ∃ a ∈ as, test a = .ok true
  := by
  induction as with
  | nil => cases h
  | cons a as ih =>
    rw [anyOf] at h
    split at h
    · exact ⟨a, List.mem_cons_self, ‹_›⟩
    · obtain ⟨b, hb, htrue⟩ := ih h
      exact ⟨b, List.mem_cons_of_mem a hb, htrue⟩
    · cases h

theorem anyOf_eq_false_iff :
  anyOf test as = .ok false ↔ ∀ a ∈ as, test a = .ok false
  := by
  induction as with
  | nil => simp [anyOf]
  | cons a as ih =>
    rw [anyOf, List.forall_mem_cons, ← ih]
    split <;> simp_all

theorem anyOf_ne_false {a : α} (ha : a ∈ as) (h : test a = .ok true) :
  anyOf test as ≠ .ok false
  := by
  intro hno
  have := anyOf_eq_false_iff.mp hno a ha
  rw [h] at this
  cases this

/-- A test that never fails on some items has an answer on whether it holds of one of them. -/
theorem isOk_anyOf (h : ∀ a ∈ as, (test a).isOk = true) :
  (anyOf test as).isOk = true
  := by
  induction as with
  | nil => rfl
  | cons a as ih =>
    obtain ⟨ha, has⟩ := List.forall_mem_cons.mp h
    rw [anyOf]
    split
    · rfl
    · exact ih has
    · rename_i he
      rw [he] at ha
      cases ha

/-- The items that pass are found exactly when the test never fails. -/
theorem allThat_eq_ok_iff :
  allThat test as = .ok bs
    ↔ (∀ a ∈ as, (test a).isOk = true) ∧ as.filter (fun a => (test a).toOption = some true) = bs
  := by
  induction as generalizing bs with
  | nil => simp [allThat]
  | cons a as ih =>
    rw [allThat, List.forall_mem_cons]
    cases ha : test a with
    | error e => simp [Except.isOk, Except.toBool]
    | ok keep =>
      cases hrest : allThat test as with
      | error e =>
        have hno : ¬ ∀ a ∈ as, (test a).isOk = true := fun hall => by
          have := ih.mpr ⟨hall, rfl⟩
          rw [hrest] at this
          cases this
        simp [Except.map, hno]
      | ok rest =>
        obtain ⟨hall, rfl⟩ := ih.mp hrest
        have hok : (Except.ok keep : Except ε Bool).isOk = true := rfl
        have hkeep : (Except.ok keep : Except ε Bool).toOption = some keep := rfl
        simp only [List.filter_cons, ha, hok, hkeep, true_and, and_iff_right hall]
        simp [Except.map]

end Tests

namespace Rule

variable {source : List Char} {n m : Node} {r p q : Rule}

/-! ### Searches -/

/-- Whether a rule matches a node. At a node where a pattern is malformed it does not. -/
def fits (r : Rule) (source : List Char) (n : Node) : Bool :=
  (r.holdsAt source n).toOption = some true

theorem fits_iff :
  r.fits source n = true ↔ r.holdsAt source n = .ok true
  := by
  rw [fits, decide_eq_true_iff]
  cases r.holdsAt source n with
  | error e => simp [Except.toOption]
  | ok b => simp [Except.toOption]

/-- The first match is the node before which all nodes are refused. -/
theorem firstAmong_eq_some_iff {ns : List Node} :
  r.firstAmong source ns = .ok (some m)
    ↔ ∃ before after, ns = before ++ m :: after ∧ r.holdsAt source m = .ok true
      ∧ ∀ k ∈ before, r.holdsAt source k = .ok false
  := by
  induction ns with
  | nil => simp [firstAmong]
  | cons k ns ih =>
    rw [firstAmong]
    constructor
    · intro h
      split at h
      · cases h
        exact ⟨[], ns, rfl, ‹_›, by simp⟩
      · rename_i hk
        obtain ⟨before, after, rfl, hm, hbefore⟩ := ih.mp h
        exact ⟨k :: before, after, rfl, hm, List.forall_mem_cons.mpr ⟨hk, hbefore⟩⟩
      · cases h
    · rintro ⟨before, after, heq, hm, hbefore⟩
      cases before with
      | nil =>
        cases heq
        rw [hm]
      | cons k' before =>
        cases heq
        obtain ⟨hk, hbefore⟩ := List.forall_mem_cons.mp hbefore
        rw [hk]
        exact ih.mpr ⟨before, after, rfl, hm, hbefore⟩

theorem firstAmong_eq_none_iff {ns : List Node} :
  r.firstAmong source ns = .ok none ↔ ∀ k ∈ ns, r.holdsAt source k = .ok false
  := by
  induction ns with
  | nil => simp [firstAmong]
  | cons k ns ih =>
    rw [firstAmong, List.forall_mem_cons, ← ih]
    split <;> simp_all

/-- All matches, and when there is an answer. -/
theorem findAll_eq_ok_iff {ns : List Node} :
  r.findAll source n = .ok ns
    ↔ (∀ k ∈ n :: n.descendants, (r.holdsAt source k).isOk = true)
      ∧ (n :: n.descendants).filter (r.fits source) = ns
  := by
  rw [findAll, Node.preorder_eq_cons]
  exact allThat_eq_ok_iff

/-- The first match is the first one of all matches. -/
theorem find_of_findAll {ns : List Node} (h : r.findAll source n = .ok ns) :
  r.find source n = .ok ns.head?
  := by
  obtain ⟨hall, rfl⟩ := findAll_eq_ok_iff.mp h
  rw [find, Node.preorder_eq_cons]
  generalize n :: n.descendants = ks at hall ⊢
  induction ks with
  | nil => rfl
  | cons k ks ih =>
    obtain ⟨hk, hks⟩ := List.forall_mem_cons.mp hall
    rw [firstAmong]
    split
    · rename_i htrue
      rw [List.filter_cons_of_pos (fits_iff.mpr htrue)]
      rfl
    · rename_i hfalse
      have hno : ¬ r.fits source k = true := by
        rw [fits_iff, hfalse]
        simp
      rw [List.filter_cons_of_neg hno, ih hks]
    · rename_i he
      rw [he] at hk
      cases hk

/-! ### Patterns that can be read -/

mutual

/-- Every pattern in a rule is well formed. -/
def WellFormed : Rule → Prop
  | ⟨_, _, _, pattern, has, inside, without⟩ =>
    (∀ e, pattern ≠ some (.error e)) ∧ WellFormedIn has ∧ WellFormedIn inside
      ∧ WellFormedIn without

/-- Every pattern in a rule, if there is one, is well formed. -/
def WellFormedIn : Option Rule → Prop
  | none => True
  | some r => r.WellFormed

end

theorem isOk_andThen {first : Except Pattern.Fault Bool}
    {second : Unit → Except Pattern.Fault Bool} (h₁ : first.isOk = true)
    (h₂ : (second ()).isOk = true) :
  (andThen first second).isOk = true
  := by
  cases first with
  | error e => cases h₁
  | ok b =>
    cases b with
    | true => exact h₂
    | false => rfl

theorem isOk_showsPattern {pattern : Option (Except Pattern.Fault Pattern)}
    (h : ∀ e, pattern ≠ some (.error e)) :
  (showsPattern pattern source n).isOk = true
  := by
  rcases pattern with _ | e | p
  · rfl
  · cases h e rfl
  · rfl

mutual

/-- A rule whose patterns are well formed has an answer for every node. -/
theorem WellFormed.isOk : {r : Rule} → r.WellFormed → (source : List Char) → (n : Node) →
    (r.holdsAt source n).isOk = true
  | ⟨kinds, role, text, pattern, has, inside, without⟩, h, source, n => by
    rw [WellFormed] at h
    obtain ⟨hpattern, hhas, hinside, hwithout⟩ := h
    rw [holdsAt]
    split
    · apply isOk_andThen (isOk_showsPattern hpattern)
      apply isOk_andThen (WellFormedIn.isOk hhas source n.descendants)
      apply isOk_andThen (WellFormedIn.isOk hinside source n.ancestors)
      exact WellFormedIn.isOk_refuses hwithout source n
    · rfl

theorem WellFormedIn.isOk : {r : Option Rule} → WellFormedIn r → (source : List Char) →
    (ns : List Node) → (someMatches source r ns).isOk = true
  | none, _, _, _ => by
    rw [someMatches]
    rfl
  | some r, h, source, ns => by
    rw [WellFormedIn] at h
    rw [someMatches]
    exact isOk_anyOf fun n _ => h.isOk source n

theorem WellFormedIn.isOk_refuses : {r : Option Rule} → WellFormedIn r → (source : List Char) →
    (n : Node) → (refuses source r n).isOk = true
  | none, _, _, _ => by
    rw [refuses]
    rfl
  | some r, h, source, n => by
    rw [WellFormedIn] at h
    have hok := h.isOk source n
    rw [refuses]
    cases hr : r.holdsAt source n with
    | ok b => rfl
    | error e =>
      rw [hr] at hok
      cases hok

end

theorem WellFormed.setHas (hp : p.WellFormed) (hq : q.WellFormed) :
  { p with has := some q }.WellFormed
  := by
  obtain ⟨kinds, role, text, pattern, has, inside, without⟩ := p
  rw [WellFormed] at hp ⊢
  obtain ⟨hpattern, -, hrest⟩ := hp
  rw [WellFormedIn]
  exact ⟨hpattern, hq, hrest⟩

theorem WellFormed.setInside (hq : q.WellFormed) (hp : p.WellFormed) :
  { q with inside := some p }.WellFormed
  := by
  obtain ⟨kinds, role, text, pattern, has, inside, without⟩ := q
  rw [WellFormed] at hq ⊢
  obtain ⟨hpattern, hhas, -, hwithout⟩ := hq
  refine ⟨hpattern, hhas, ?_, hwithout⟩
  rw [WellFormedIn]
  exact hp

/-! ### Asking below and asking around -/

theorem eq_true_of_isOk {o : Except Pattern.Fault Bool} (hok : o.isOk = true)
    (h : o ≠ .ok false) :
  o = .ok true
  := by
  cases o with
  | error e => cases hok
  | ok b =>
    cases b with
    | true => rfl
    | false => cases h rfl

theorem andThen_eq_true_iff {first : Except Pattern.Fault Bool}
    {second : Unit → Except Pattern.Fault Bool} :
  andThen first second = .ok true ↔ first = .ok true ∧ second () = .ok true
  := by
  cases first with
  | error e => simp [andThen]
  | ok b => cases b <;> simp [andThen]

/-- A rule matches when all that it states holds. -/
theorem holdsAt_eq_true_iff :
  r.holdsAt source n = .ok true
    ↔ admits r.kinds r.role r.text source n = true ∧ showsPattern r.pattern source n = .ok true
      ∧ someMatches source r.has n.descendants = .ok true
      ∧ someMatches source r.inside n.ancestors = .ok true
      ∧ refuses source r.without n = .ok true
  := by
  obtain ⟨kinds, role, text, pattern, has, inside, without⟩ := r
  rw [holdsAt]
  split
  · simp [*, andThen_eq_true_iff]
  · simp [*]

theorem andThen_true (first : Except Pattern.Fault Bool) :
  (andThen first fun _ => .ok true) = first
  := by
  cases first with
  | error e => rfl
  | ok b => cases b <;> rfl

/-- Where a rule matches, the rule that also asks for something below looks for that only. -/
theorem holdsAt_has (h : p.holdsAt source n = .ok true) :
  { p with has := some q }.holdsAt source n = anyOf (q.holdsAt source) n.descendants
  := by
  obtain ⟨hadmits, hpattern, -, hinside, hwithout⟩ := holdsAt_eq_true_iff.mp h
  rw [holdsAt, if_pos hadmits, hpattern, hinside, hwithout, someMatches]
  exact andThen_true _

/-- Where a rule matches, the rule that also asks for something around looks for that only. -/
theorem holdsAt_inside (h : q.holdsAt source m = .ok true) :
  { q with inside := some p }.holdsAt source m = anyOf (p.holdsAt source) m.ancestors
  := by
  obtain ⟨hadmits, hpattern, hhas, -, hwithout⟩ := holdsAt_eq_true_iff.mp h
  rw [holdsAt, if_pos hadmits, hpattern, hhas, hwithout, someMatches]
  exact andThen_true _

theorem of_holdsAt_has (hp : p.has = none)
    (h : { p with has := some q }.holdsAt source n = .ok true) :
  p.holdsAt source n = .ok true ∧ ∃ m ∈ n.descendants, q.holdsAt source m = .ok true
  := by
  obtain ⟨hadmits, hpattern, hhas, hinside, hwithout⟩ := holdsAt_eq_true_iff.mp h
  rw [someMatches] at hhas
  refine ⟨holdsAt_eq_true_iff.mpr ⟨hadmits, hpattern, ?_, hinside, hwithout⟩, exists_of_anyOf hhas⟩
  rw [hp, someMatches]

theorem of_holdsAt_inside (hq : q.inside = none)
    (h : { q with inside := some p }.holdsAt source m = .ok true) :
  q.holdsAt source m = .ok true ∧ ∃ n ∈ m.ancestors, p.holdsAt source n = .ok true
  := by
  obtain ⟨hadmits, hpattern, hhas, hinside, hwithout⟩ := holdsAt_eq_true_iff.mp h
  rw [someMatches] at hinside
  refine ⟨holdsAt_eq_true_iff.mpr ⟨hadmits, hpattern, hhas, ?_, hwithout⟩, exists_of_anyOf hinside⟩
  rw [hq, someMatches]

section Pairs

variable {t : Tree} (hp : p.has = none) (hq : q.inside = none)

include hp in
/-- Where a node is found that has something below it, a node is found that is inside of
something, unless the search for it fails. -/
theorem exists_inside (hn : n ∈ (Node.root t).preorder)
    (h : { p with has := some q }.holdsAt source n = .ok true) :
  ∃ m ∈ (Node.root t).preorder, { q with inside := some p }.holdsAt source m ≠ .ok false
  := by
  obtain ⟨hpn, m, hm, hqm⟩ := of_holdsAt_has hp h
  refine ⟨m, Node.preorder_subset hn (Node.mem_preorder.mpr (.inr hm)), ?_⟩
  rw [holdsAt_inside hqm]
  exact anyOf_ne_false (Node.mem_ancestors hm) hpn

include hq in
/-- Where a node is found that is inside of something, a node is found that has something below it,
unless the search for it fails. -/
theorem exists_has (hm : m ∈ (Node.root t).preorder)
    (h : { q with inside := some p }.holdsAt source m = .ok true) :
  ∃ n ∈ (Node.root t).preorder, { p with has := some q }.holdsAt source n ≠ .ok false
  := by
  obtain ⟨hqm, n, hn, hpn⟩ := of_holdsAt_inside hq h
  obtain ⟨hlisted, hbelow⟩ := Node.of_mem_ancestors hm hn
  refine ⟨n, hlisted, ?_⟩
  rw [holdsAt_has hpn]
  exact anyOf_ne_false hbelow hqm

include hp hq

/-- Two searches that both have an answer find something in the same trees. -/
theorem isSome_find_has_inside {found found' : Option Node}
    (h : { p with has := some q }.find source (.root t) = .ok found)
    (h' : { q with inside := some p }.find source (.root t) = .ok found') :
  found.isSome = found'.isSome
  := by
  rw [find] at h h'
  cases found with
  | none =>
    cases found' with
    | none => rfl
    | some m =>
      obtain ⟨before, after, hsplit, hm, -⟩ := firstAmong_eq_some_iff.mp h'
      obtain ⟨n, hn, hno⟩ := exists_has hq (t := t) (by rw [hsplit]; simp) hm
      cases hno (firstAmong_eq_none_iff.mp h n hn)
  | some n =>
    cases found' with
    | some m => rfl
    | none =>
      obtain ⟨before, after, hsplit, hn, -⟩ := firstAmong_eq_some_iff.mp h
      obtain ⟨m, hm, hno⟩ := exists_inside hp (t := t) (by rw [hsplit]; simp) hn
      cases hno (firstAmong_eq_none_iff.mp h' m hm)

/-- With well-formed patterns, something is found below a node exactly when something is found
around one. -/
theorem exists_has_iff_inside (hpf : p.WellFormed) (hqf : q.WellFormed) :
  (∃ n ∈ (Node.root t).preorder, { p with has := some q }.holdsAt source n = .ok true)
    ↔ ∃ m ∈ (Node.root t).preorder, { q with inside := some p }.holdsAt source m = .ok true
  := by
  constructor
  · rintro ⟨n, hn, h⟩
    obtain ⟨m, hm, hne⟩ := exists_inside hp hn h
    exact ⟨m, hm, eq_true_of_isOk ((hqf.setInside hpf).isOk source m) hne⟩
  · rintro ⟨m, hm, h⟩
    obtain ⟨n, hn, hne⟩ := exists_has hq hm h
    exact ⟨n, hn, eq_true_of_isOk ((hpf.setHas hqf).isOk source n) hne⟩

end Pairs

/-! ### Queries -/

/-- Queries are exact. The walk with a stack lists the nodes below a node one after the other and
ends, and these are the nodes at the addresses below its own, each of them once and in document
order. All matches are the node and the nodes below it without those that do not match, unless a
pattern is malformed, and the first match is the first of them. A rule that asks for another one
below and that other one asking for the first one around find something in the same trees. -/
theorem queries_exact (source : List Char) :
  (∀ (n : Node) (k : Nat),
    (Traversal.step^[k] (.start n)).listed = n.descendants.take k
      ∧ ((Traversal.step^[k] (.start n)).stack = [] ↔ n.descendants.length ≤ k))
    ∧ (∀ n : Node, ∃ addresses : List (List Nat),
      n.descendants.map some = addresses.map n.at? ∧ addresses.Pairwise Earlier
        ∧ addresses.Nodup ∧ ∀ is, is ∈ addresses ↔ is ≠ [] ∧ (n.at? is).isSome = true)
    ∧ (∀ (r : Rule) (n : Node),
      (∀ ns, r.findAll source n = .ok ns
        ↔ (∀ m ∈ n :: n.descendants, (r.holdsAt source m).isOk = true)
          ∧ (n :: n.descendants).filter (r.fits source) = ns)
        ∧ (r.WellFormed → ∃ ns, r.findAll source n = .ok ns)
        ∧ (∀ ns, r.findAll source n = .ok ns → r.find source n = .ok ns.head?)
        ∧ (r.find source n = .ok none
          ↔ ∀ m ∈ n :: n.descendants, r.holdsAt source m = .ok false)
        ∧ ∀ m, r.find source n = .ok (some m)
          ↔ ∃ before after, n :: n.descendants = before ++ m :: after
            ∧ r.holdsAt source m = .ok true ∧ ∀ k ∈ before, r.holdsAt source k = .ok false)
    ∧ ∀ (t : Tree) (p q : Rule), p.has = none → q.inside = none →
      (∀ found found', { p with has := some q }.find source (.root t) = .ok found →
        { q with inside := some p }.find source (.root t) = .ok found' →
        found.isSome = found'.isSome)
        ∧ (p.WellFormed → q.WellFormed →
          ((∃ n ∈ (Node.root t).preorder, { p with has := some q }.holdsAt source n = .ok true)
            ↔ ∃ m ∈ (Node.root t).preorder,
              { q with inside := some p }.holdsAt source m = .ok true))
  := by
  refine ⟨Traversal.iterate_start, Node.exists_addresses, ?_, ?_⟩
  · intro r n
    refine ⟨fun _ => findAll_eq_ok_iff, ?_, fun _ => find_of_findAll, ?_, ?_⟩
    · intro hr
      exact ⟨_, findAll_eq_ok_iff.mpr ⟨fun m _ => hr.isOk source m, rfl⟩⟩
    · rw [find, Node.preorder_eq_cons, firstAmong_eq_none_iff]
    · intro m
      rw [find, Node.preorder_eq_cons, firstAmong_eq_some_iff]
  · intro t p q hp hq
    exact ⟨fun _ _ => isSome_find_has_inside hp hq, exists_has_iff_inside hp hq⟩

/-- The tree of the call `f(x)`. -/
def lonelyCall : Tree :=
  .node .program none 0 4 [.node .callExpression none 0 4
    [.node .identifier (some .callee) 0 1 [],
      .node .arguments (some .arguments) 1 4
        [.node (.token "(") none 1 2 [], .node .identifier none 2 3 [],
          .node (.token ")") none 3 4 []]]]

/-- A call in a program. -/
def programCall : Rule :=
  { kinds := some ["call_expression"], inside := some { kinds := some ["program"] } }

/-- A name other than that of a function that is called. -/
def plainName : Rule :=
  { kinds := some ["identifier"], text := some ['x'], without := some { role := some "function" } }

/-- A call with a plain name below it is found, so a plain name inside of a call is. -/
theorem queries_exact_call :
  programCall.has = none ∧ plainName.inside = none ∧ programCall.WellFormed ∧ plainName.WellFormed
    ∧ (∃ n ∈ (Node.root lonelyCall).preorder,
      { programCall with has := some plainName }.holdsAt "f(x)".toList n = .ok true)
    ∧ ∃ m ∈ (Node.root lonelyCall).preorder,
      { plainName with inside := some programCall }.holdsAt "f(x)".toList m = .ok true
  := by
  have hcall : programCall.WellFormed := by
    simp [programCall, WellFormed, WellFormedIn]
  have hname : plainName.WellFormed := by
    simp [plainName, WellFormed, WellFormedIn]
  have hfound : ∃ n ∈ (Node.root lonelyCall).preorder,
      { programCall with has := some plainName }.holdsAt "f(x)".toList n = .ok true :=
    ⟨_, List.mem_cons_of_mem _ List.mem_cons_self, rfl⟩
  refine ⟨rfl, rfl, hcall, hname, hfound, ?_⟩
  obtain ⟨-, -, -, hpairs⟩ := queries_exact "f(x)".toList
  exact ((hpairs lonelyCall programCall plainName rfl rfl).2 hcall hname).mp hfound

end Rule

end Codemod
