import Codemod.Grammar.Peg
import Codemod.Proofs.Boundary
import Codemod.Proofs.Order
import Mathlib.Data.List.Basic

/-!
# What an expression reads

The relation `Reads` says which trees an expression may yield between two places, without regard to
the choices it tries before and to how deep expressions nest. Whatever a run yields is read in this
sense. The trees that are read stand in a row between the two places, their spans start and end
between characters, and every tree in them has an origin: a token, a node of the grammar, or a step
by which a tree has grown.
-/

namespace Codemod.Grammar

/-! ### The relation -/

/-- Whether a tree is a comment. -/
def isComment (t : Tree) : Bool :=
  t.kind = .comment

/-- The first child of a grown tree. -/
def grownFrom (role : Option Role) (t : Tree) : Tree :=
  (role.map fun r => t.withRole r).getD t

/-- The tree that has grown from a tree by a step with some trees in its tail. -/
def grown (kind : Kind) (role : Option Role) (t : Tree) (ts : List Tree) : Tree :=
  .node kind none t.start (stopOf t.stop ts) (grownFrom role t :: ts)

/-- An expression may yield some trees between two places. -/
inductive Reads {σ : Type} (rules : σ → Peg σ) :
    Peg σ → Cursor → List Tree → Cursor → Prop where
  | leaf {kind : Kind} {scan : List Char → Nat} {c c' : Cursor} {comments : List Tree}
      {limit n : Nat} (ht : trivia limit c = (comments, c')) (hs : scan c'.rest = n + 1) :
    Reads rules (.leaf kind scan) c (comments ++ [c'.leaf kind (n + 1)]) (c'.advance (n + 1))
  | rawLeaf {kind : Kind} {scan : List Char → Nat} {c : Cursor} {n : Nat}
      (hs : scan c.rest = n + 1) :
    Reads rules (.rawLeaf kind scan) c [c.leaf kind (n + 1)] (c.advance (n + 1))
  | skip {scan : List Char → Nat} {c : Cursor} :
    Reads rules (.skip scan) c [] (c.advance (scan c.rest))
  | check {test : Bool → List Char → Bool} {c : Cursor} (h : test c.enclosed c.rest = true) :
    Reads rules (.check test) c [] c
  | within {enclosed : Bool} {p : Peg σ} {c c' : Cursor} {ts : List Tree}
      (h : Reads rules p { c with enclosed } ts c') :
    Reads rules (.within enclosed p) c ts { c' with enclosed := c.enclosed }
  | seqNil {c : Cursor} :
    Reads rules (.seq []) c [] c
  | seqCons {p : Peg σ} {ps : List (Peg σ)} {c c' c'' : Cursor} {ts us : List Tree}
      (h : Reads rules p c ts c') (hs : Reads rules (.seq ps) c' us c'') :
    Reads rules (.seq (p :: ps)) c (ts ++ us) c''
  | alt {p : Peg σ} {ps : List (Peg σ)} {c c' : Cursor} {ts : List Tree} (hp : p ∈ ps)
      (h : Reads rules p c ts c') :
    Reads rules (.alt ps) c ts c'
  | manyNil {p : Peg σ} {c : Cursor} :
    Reads rules (.many p) c [] c
  | manyCons {p : Peg σ} {c c' c'' : Cursor} {ts us : List Tree} (h : Reads rules p c ts c')
      (hs : Reads rules (.many p) c' us c'') :
    Reads rules (.many p) c (ts ++ us) c''
  | absent {p : Peg σ} {c : Cursor} :
    Reads rules (.absent p) c [] c
  | node {kind : Kind} {p : Peg σ} {c c' : Cursor} {ts : List Tree} (h : Reads rules p c ts c') :
    Reads rules (.node kind p) c (enclose kind ts) c'
  | role {role : Role} {p : Peg σ} {c c' : Cursor} {ts : List Tree} (h : Reads rules p c ts c') :
    Reads rules (.role role p) c (assign role ts) c'
  | growHead {head : Peg σ} {steps : List (Step σ)} {c c' : Cursor} {ts : List Tree}
      (h : Reads rules head c ts c') :
    Reads rules (.grow head steps) c ts c'
  | growStep {head tail : Peg σ} {steps : List (Step σ)} {base : Kind → Bool} {kind : Kind}
      {role : Option Role} {c c' c'' : Cursor} {t : Tree} {ts us : List Tree}
      (h : Reads rules (.grow head steps) c (ts ++ [t]) c')
      (hstep : .mk base kind role tail ∈ steps) (hbase : base t.kind = true)
      (ht : Reads rules tail c' us c'') :
    Reads rules (.grow head steps) c (ts ++ [grown kind role t us]) c''
  | rule {name : σ} {c c' : Cursor} {ts : List Tree} (h : Reads rules (rules name) c ts c') :
    Reads rules (.rule name) c ts c'

/-! ### Runs read -/

section Runs

variable {σ : Type} {rules : σ → Peg σ}

/-- Trees put in front of an outcome. -/
theorem after_eq_done {trees ts : List Tree} {reach r : Nat} {c : Cursor} {o : Outcome}
    (h : o.after trees reach = .done ts c r) :
  ∃ us r', o = .done us c r' ∧ ts = trees ++ us
  := by
  cases o with
  | fail r' => cases h
  | done us c' r' =>
    cases h
    exact ⟨us, r', rfl, rfl⟩

/-- A token is read right at its place. -/
theorem token_eq_done {c c' : Cursor} {kind : Kind} {scan : List Char → Nat} {ts : List Tree}
    {r : Nat} (h : c.token kind scan = .done ts c' r) :
  ∃ n, scan c.rest = n + 1 ∧ ts = [c.leaf kind (n + 1)] ∧ c' = c.advance (n + 1)
  := by
  rw [Cursor.token] at h
  cases hs : scan c.rest with
  | zero => rw [hs] at h; cases h
  | succ n =>
    rw [hs] at h
    cases h
    exact ⟨n, rfl, rfl, rfl⟩

variable {read : Peg σ → Cursor → Outcome}
  (hread : ∀ {p : Peg σ} {c c' : Cursor} {ts : List Tree} {r : Nat},
    read p c = .done ts c' r → Reads rules p c ts c')

include hread

theorem reads_of_inTurn {ps : List (Peg σ)} {c c' : Cursor} {ts : List Tree} {r : Nat}
    (h : inTurn read ps c = .done ts c' r) :
  Reads rules (.seq ps) c ts c'
  := by
  induction ps generalizing c ts r with
  | nil =>
    cases h
    apply Reads.seqNil
  | cons p ps ih =>
    rw [inTurn] at h
    cases hp : read p c with
    | fail r' => rw [hp] at h; cases h
    | done us c₁ r' =>
      rw [hp] at h
      obtain ⟨vs, r'', hvs, rfl⟩ := after_eq_done h
      apply Reads.seqCons (hread hp) (ih hvs)

theorem reads_of_firstOf {ps : List (Peg σ)} {c c' : Cursor} {ts : List Tree} {r : Nat}
    (h : firstOf read ps c = .done ts c' r) :
  ∃ p ∈ ps, Reads rules p c ts c'
  := by
  induction ps generalizing r with
  | nil => cases h
  | cons p ps ih =>
    rw [firstOf] at h
    cases hp : read p c with
    | done us c₁ r' =>
      rw [hp] at h
      cases h
      use p, List.mem_cons_self, hread hp
    | fail r' =>
      rw [hp] at h
      cases hps : firstOf read ps c with
      | fail r'' => simp only [hps] at h; cases h
      | done us c₁ r'' =>
        simp only [hps] at h
        cases h
        obtain ⟨q, hq, hreads⟩ := ih hps
        use q, List.mem_cons_of_mem p hq

theorem reads_of_repeated {p : Peg σ} {limit : Nat} {c c' : Cursor} {ts : List Tree} {r : Nat}
    (h : repeated (read p) limit c = .done ts c' r) :
  Reads rules (.many p) c ts c'
  := by
  induction limit generalizing c ts r with
  | zero =>
    cases h
    apply Reads.manyNil
  | succ limit ih =>
    rw [repeated] at h
    cases hp : read p c with
    | fail r' =>
      rw [hp] at h
      cases h
      apply Reads.manyNil
    | done us c₁ r' =>
      simp only [hp] at h
      split at h
      · cases h
        have hone := Reads.manyCons (hread hp) .manyNil
        rw [List.append_nil] at hone
        apply hone
      · obtain ⟨vs, r'', hvs, rfl⟩ := after_eq_done h
        apply Reads.manyCons (hread hp) (ih hvs)

theorem reads_of_growByFirst {steps : List (Step σ)} {t : Tree} {c c' : Cursor} {ts : List Tree}
    {r : Nat} (h : growByFirst read t steps c = .done ts c' r) :
  ∃ base kind role tail us, .mk base kind role tail ∈ steps ∧ base t.kind = true
    ∧ Reads rules tail c us c' ∧ ts = [grown kind role t us]
  := by
  induction steps generalizing r with
  | nil => cases h
  | cons step steps ih =>
    obtain ⟨base, kind, role, tail⟩ := step
    rw [growByFirst] at h
    cases hstep : growBy read t (.mk base kind role tail) c with
    | done us c₁ r' =>
      rw [hstep] at h
      cases h
      rw [growBy] at hstep
      split at hstep
      · rename_i hbase
        cases htail : read tail c with
        | fail r'' => rw [htail] at hstep; cases hstep
        | done vs c₂ r'' =>
          rw [htail] at hstep
          cases hstep
          exact ⟨base, kind, role, tail, vs, List.mem_cons_self, hbase, hread htail, rfl⟩
      · cases hstep
    | fail r' =>
      rw [hstep] at h
      cases hsteps : growByFirst read t steps c with
      | fail r'' => simp only [hsteps] at h; cases h
      | done us c₁ r'' =>
        simp only [hsteps] at h
        cases h
        obtain ⟨base, kind, role, tail, vs, hmem, hrest⟩ := ih hsteps
        exact ⟨base, kind, role, tail, vs, List.mem_cons_of_mem _ hmem, hrest⟩

theorem reads_of_growing {head : Peg σ} {steps : List (Step σ)} {limit : Nat}
    {c₀ c c' : Cursor} {ts us : List Tree} {r r' : Nat}
    (h₀ : Reads rules (.grow head steps) c₀ ts c)
    (h : growing read steps limit ts c r = .done us c' r') :
  Reads rules (.grow head steps) c₀ us c'
  := by
  induction limit generalizing ts c r with
  | zero =>
    cases h
    apply h₀
  | succ limit ih =>
    rw [growing] at h
    cases hlast : ts.getLast? with
    | none =>
      rw [hlast] at h
      cases h
      apply h₀
    | some t =>
      simp only [hlast] at h
      cases hstep : growByFirst read t steps c with
      | fail r'' =>
        simp only [hstep] at h
        cases h
        apply h₀
      | done vs c₁ r'' =>
        simp only [hstep] at h
        obtain ⟨base, kind, role, tail, ws, hmem, hbase, htail, rfl⟩ :=
          reads_of_growByFirst hread hstep
        rw [← List.dropLast_append_getLast? t hlast] at h₀
        apply ih (Reads.growStep h₀ hmem hbase htail) h

omit hread

/-- Whatever a run yields is read. -/
theorem reads_of_run {fuel : Nat} {p : Peg σ} {c c' : Cursor} {ts : List Tree} {r : Nat}
    (h : run rules fuel p c = .done ts c' r) :
  Reads rules p c ts c'
  := by
  induction fuel generalizing p c c' ts r with
  | zero => cases h
  | succ fuel ih =>
    rw [run.eq_def] at h
    cases p with
    | leaf kind scan =>
      obtain ⟨us, r', htoken, rfl⟩ := after_eq_done h
      obtain ⟨n, hn, rfl, rfl⟩ := token_eq_done htoken
      apply Reads.leaf rfl hn
    | rawLeaf kind scan =>
      obtain ⟨n, hn, rfl, rfl⟩ := token_eq_done h
      apply Reads.rawLeaf hn
    | skip scan =>
      cases h
      apply Reads.skip
    | check test =>
      simp only at h
      split at h
      · rename_i htest
        cases h
        apply Reads.check htest
      · cases h
    | within enclosed p =>
      simp only at h
      cases hp : run rules fuel p { c with enclosed } with
      | fail r' => rw [hp] at h; cases h
      | done us c₁ r' =>
        rw [hp] at h
        cases h
        apply Reads.within (ih hp)
    | seq ps => apply reads_of_inTurn ih h
    | alt ps =>
      obtain ⟨p, hp, hreads⟩ := reads_of_firstOf ih h
      apply Reads.alt hp hreads
    | many p => apply reads_of_repeated ih h
    | absent p =>
      simp only at h
      cases hp : run rules fuel p c with
      | fail r' =>
        rw [hp] at h
        cases h
        apply Reads.absent
      | done us c₁ r' => rw [hp] at h; cases h
    | node kind p =>
      simp only at h
      cases hp : run rules fuel p c with
      | fail r' => rw [hp] at h; cases h
      | done us c₁ r' =>
        rw [hp] at h
        cases h
        apply Reads.node (ih hp)
    | role role p =>
      simp only at h
      cases hp : run rules fuel p c with
      | fail r' => rw [hp] at h; cases h
      | done us c₁ r' =>
        rw [hp] at h
        cases h
        apply Reads.role (ih hp)
    | grow head steps =>
      simp only at h
      cases hp : run rules fuel head c with
      | fail r' => rw [hp] at h; cases h
      | done us c₁ r' =>
        rw [hp] at h
        apply reads_of_growing ih (Reads.growHead (ih hp)) h
    | rule name => apply Reads.rule (ih h)

end Runs

/-! ### Places -/

/-- A place follows another one: what stands between them has been passed. -/
def Cursor.Reaches (c c' : Cursor) : Prop :=
  ∃ passed, c.rest = passed ++ c'.rest ∧ c'.pos = c.pos + Text.byteLength passed

theorem Cursor.Reaches.refl (c : Cursor) :
  c.Reaches c
  := ⟨[], rfl, rfl⟩

theorem Cursor.Reaches.trans {c c' c'' : Cursor} (h : c.Reaches c') (h' : c'.Reaches c'') :
  c.Reaches c''
  := by
  obtain ⟨s, hs, hpos⟩ := h
  obtain ⟨t, ht, hpos'⟩ := h'
  use s ++ t
  rw [hs, ht, hpos', hpos, Text.byteLength_append, List.append_assoc, Nat.add_assoc]
  use rfl

theorem Cursor.Reaches.le {c c' : Cursor} (h : c.Reaches c') :
  c.pos ≤ c'.pos
  := by
  obtain ⟨s, -, hpos⟩ := h
  omega

theorem Cursor.reaches_advance (c : Cursor) (n : Nat) :
  c.Reaches (c.advance n)
  := ⟨c.rest.take n, (List.take_append_drop n c.rest).symm, rfl⟩

/-- Passing a character moves on. -/
theorem Cursor.pos_lt_advance {c : Cursor} (h : c.rest ≠ []) (n : Nat) :
  c.pos < (c.advance (n + 1)).pos
  := by
  obtain ⟨x, xs, hx⟩ := List.exists_cons_of_ne_nil h
  have := x.utf8Size_pos
  simp only [advance, hx, List.take_succ_cons, Text.byteLength_cons]
  omega

/-- A place in a text. -/
def Cursor.At (text : List Char) (c : Cursor) : Prop :=
  (Cursor.start text).Reaches c

theorem Cursor.At.boundary {text : List Char} {c : Cursor} (h : c.At text) :
  Text.Boundary text c.pos
  := by
  obtain ⟨s, hs, hpos⟩ := h
  use s, c.rest, hs
  rw [hpos]
  apply (Nat.zero_add _).symm

/-! ### Rows of trees that are built -/

section Rows

open Codemod.Tree

/-- A row ends where its last tree ends. -/
theorem row_stopOf {lo hi : Nat} {ts : List Tree} (h : Row lo hi ts) :
  Row lo (stopOf lo ts) ts ∧ stopOf lo ts ≤ hi
  := by
  induction ts generalizing lo with
  | nil =>
    use Nat.le_refl lo
    apply h
  | cons t ts ih =>
    obtain ⟨h₁, h₂, h₃⟩ := h
    obtain ⟨h₄, h₅⟩ := ih h₃
    use ⟨h₁, h₂, h₄⟩, h₅

/-- A node around a row that is not empty. -/
theorem row_around {lo hi : Nat} {t : Tree} {ts : List Tree} (h : Row lo hi (t :: ts)) :
  Row t.start (stopOf t.stop ts) (t :: ts) ∧ lo ≤ t.start ∧ t.start < stopOf t.stop ts
    ∧ stopOf t.stop ts ≤ hi
  := by
  obtain ⟨h₁, h₂, h₃⟩ := h
  obtain ⟨h₄, h₅⟩ := row_stopOf h₃
  use ⟨Nat.le_refl _, h₂, h₄⟩, h₁
  have := h₄.le
  omega

/-- A row stays a row when its trees are changed within their spans. -/
theorem row_map {lo hi : Nat} {ts : List Tree} {f : Tree → Tree}
    (hf : ∀ t, (f t).start = t.start ∧ (f t).stop = t.stop) (h : Row lo hi ts) :
  Row lo hi (ts.map f)
  := by
  induction ts generalizing lo with
  | nil => apply h
  | cons t ts ih =>
    obtain ⟨h₁, h₂, h₃⟩ := h
    obtain ⟨hs, he⟩ := hf t
    rw [List.map_cons, Row, hs, he]
    use h₁, h₂, ih h₃

theorem enclose_eq (kind : Kind) (ts : List Tree) :
  enclose kind ts =
    match ts.dropWhile isComment with
    | [] => ts
    | t :: us => ts.takeWhile isComment ++ [.node kind none t.start (stopOf t.stop us) (t :: us)]
  := rfl

/-- A node around some trees leaves the comments at their front outside. -/
theorem enclose_cases (kind : Kind) (ts : List Tree) :
  (ts.dropWhile isComment = [] ∧ enclose kind ts = ts)
  ∨ ∃ t us, ts.dropWhile isComment = t :: us
    ∧ enclose kind ts
      = ts.takeWhile isComment ++ [.node kind none t.start (stopOf t.stop us) (t :: us)]
  := by
  rw [enclose_eq]
  cases ts.dropWhile isComment with
  | nil => exact .inl ⟨rfl, rfl⟩
  | cons t us => exact .inr ⟨t, us, rfl, rfl⟩

/-- What holds of some trees and of a node around some of them holds of them enclosed. -/
theorem forall_mem_enclose {P : Tree → Prop} {kind : Kind} {ts : List Tree} (h : ∀ t ∈ ts, P t)
    (hnode : ∀ u us, (∀ t ∈ u :: us, P t) →
      P (.node kind none u.start (stopOf u.stop us) (u :: us))) :
  ∀ t ∈ enclose kind ts, P t
  := by
  rcases enclose_cases kind ts with ⟨-, heq⟩ | ⟨u, us, hdrop, heq⟩
  · rw [heq]
    apply h
  · rw [heq, List.forall_mem_append, List.forall_mem_singleton]
    constructor
    · intro t ht
      apply h t ((List.takeWhile_prefix _).subset ht)
    · apply hnode u us
      rw [← hdrop]
      intro t ht
      apply h t ((List.dropWhile_suffix _).subset ht)

/-- What stands before a token are comments. -/
theorem forall_mem_trivia {P : Tree → Prop}
    (hcomment : ∀ (c : Cursor) (n : Nat), P (c.leaf .comment n)) (limit : Nat) (c : Cursor) :
  ∀ t ∈ (trivia limit c).1, P t
  := by
  induction limit generalizing c with
  | zero => exact List.forall_mem_nil _
  | succ limit ih =>
    rw [trivia]
    split
    · exact List.forall_mem_nil _
    · split
      · exact ih _
      · split
        · split
          · exact List.forall_mem_nil _
          · exact List.forall_mem_cons.mpr ⟨hcomment c _, ih _⟩
        · exact List.forall_mem_nil _

end Rows

/-! ### Roles -/

section Roles

open Codemod.Tree

variable (r : Role) (t : Tree)

@[simp]
theorem kind_withRole :
  (t.withRole r).kind = t.kind
  := by
  cases t
  rfl

@[simp]
theorem start_withRole :
  (t.withRole r).start = t.start
  := by
  cases t
  rfl

@[simp]
theorem stop_withRole :
  (t.withRole r).stop = t.stop
  := by
  cases t
  rfl

@[simp]
theorem children_withRole :
  (t.withRole r).children = t.children
  := by
  cases t
  rfl

@[simp]
theorem role_withRole :
  (t.withRole r).role = some r
  := by
  cases t
  rfl

/-- Two trees that differ in their roles only. -/
structure SameButRole (u t : Tree) : Prop where
  kind : u.kind = t.kind
  start : u.start = t.start
  stop : u.stop = t.stop
  children : u.children = t.children

theorem SameButRole.refl :
  SameButRole t t
  := ⟨rfl, rfl, rfl, rfl⟩

theorem sameButRole_withRole :
  SameButRole (t.withRole r) t
  := by
  constructor <;> simp

theorem sameButRole_grownFrom (role : Option Role) :
  SameButRole (grownFrom role t) t
  := by
  cases role with
  | none => apply SameButRole.refl
  | some r => apply sameButRole_withRole

/-- What stands below a tree does not depend on the role of the tree. -/
theorem SameButRole.below {u t v : Tree} (h : SameButRole u t) (hv : Below v u) :
  Below v t
  := by
  obtain ⟨w, hw, hpart⟩ := hv.exists_child
  rw [h.children] at hw
  apply hpart.of_child hw

/-- A tree in a role, unless it is a comment. -/
theorem sameButRole_assign :
  SameButRole (if t.kind = .comment then t else t.withRole r) t
  := by
  split
  · apply SameButRole.refl
  · apply sameButRole_withRole

end Roles

/-! ### Where trees come from -/

section Origins

open Codemod.Tree

variable {σ : Type}

mutual

/-- A condition holds of every token, node and growth in an expression. -/
def Peg.Every (Q : Peg σ → Prop) : Peg σ → Prop
  | .leaf kind scan => Q (.leaf kind scan)
  | .rawLeaf kind scan => Q (.rawLeaf kind scan)
  | .skip _ => True
  | .check _ => True
  | .within _ p => p.Every Q
  | .seq ps => Peg.EveryOf Q ps
  | .alt ps => Peg.EveryOf Q ps
  | .many p => p.Every Q
  | .absent _ => True
  | .node kind p => Q (.node kind p) ∧ p.Every Q
  | .role _ p => p.Every Q
  | .grow head steps => Q (.grow head steps) ∧ head.Every Q ∧ Step.EveryOf Q steps
  | .rule _ => True

/-- A condition holds of every token, node and growth in some expressions. -/
def Peg.EveryOf (Q : Peg σ → Prop) : List (Peg σ) → Prop
  | [] => True
  | p :: ps => p.Every Q ∧ Peg.EveryOf Q ps

/-- A condition holds of every token, node and growth in the tails of some steps. -/
def Step.EveryOf (Q : Peg σ → Prop) : List (Step σ) → Prop
  | [] => True
  | .mk _ _ _ tail :: steps => tail.Every Q ∧ Step.EveryOf Q steps

end

theorem Peg.everyOf_iff {Q : Peg σ → Prop} {ps : List (Peg σ)} :
  Peg.EveryOf Q ps ↔ ∀ p ∈ ps, p.Every Q
  := by
  induction ps with
  | nil => simp [Peg.EveryOf]
  | cons p ps ih => simp [Peg.EveryOf, ih]

theorem Step.everyOf_iff {Q : Peg σ → Prop} {steps : List (Step σ)} :
  Step.EveryOf Q steps
    ↔ ∀ base kind role tail, .mk base kind role tail ∈ steps → Peg.Every Q tail
  := by
  induction steps with
  | nil => simp [Step.EveryOf]
  | cons step steps ih =>
    obtain ⟨base, kind, role, tail⟩ := step
    rw [Step.EveryOf, ih]
    constructor
    · rintro ⟨h, hs⟩ base' kind' role' tail' hmem
      rcases List.mem_cons.mp hmem with heq | hmem
      · cases heq
        apply h
      · apply hs base' kind' role' tail' hmem
    · intro h
      use h base kind role tail List.mem_cons_self
      intro base' kind' role' tail' hmem
      apply h base' kind' role' tail' (List.mem_cons_of_mem _ hmem)

variable (rules : σ → Peg σ) (Q : Peg σ → Prop) (text : List Char)

/-- How a tree of a text has come about, by an expression of which a condition holds. -/
inductive Origin (t : Tree) : Prop where
  /-- The tree is a comment. -/
  | comment {c : Cursor} {n : Nat} (hc : c.At text) (hn : commentLength c.rest = n + 1)
      (hkind : t.kind = .comment) (hstart : t.start = c.pos)
      (hstop : t.stop = (c.advance (n + 1)).pos) (hchildren : t.children = [])
  /-- The tree is a token. -/
  | token {c : Cursor} {scan : List Char → Nat} {n : Nat}
      (hq : Q (.leaf t.kind scan) ∨ Q (.rawLeaf t.kind scan)) (hc : c.At text)
      (hn : scan c.rest = n + 1) (hstart : t.start = c.pos)
      (hstop : t.stop = (c.advance (n + 1)).pos) (hchildren : t.children = [])
  /-- The tree is a node around what an expression has read. -/
  | node {p : Peg σ} {c c' : Cursor} {ts us : List Tree} {u : Tree} (hq : Q (.node t.kind p))
      (hc : c.At text) (hreads : Reads rules p c ts c')
      (hdrop : ts.dropWhile isComment = u :: us) (hchildren : t.children = u :: us)
      (hstart : t.start = u.start) (hstop : t.stop = stopOf u.stop us)
  /-- The tree has grown by a step. -/
  | step {head tail : Peg σ} {steps : List (Step σ)} {base : Kind → Bool} {role : Option Role}
      {c c' : Cursor} {u : Tree} {us : List Tree} (hq : Q (.grow head steps))
      (hmem : .mk base t.kind role tail ∈ steps) (hbase : base u.kind = true) (hc : c.At text)
      (hreads : Reads rules tail c us c') (hchildren : t.children = grownFrom role u :: us)
      (hstart : t.start = u.start) (hstop : t.stop = stopOf u.stop us)

/-- A tree with a known origin whose span starts and ends between characters and whose children
stand in a row. -/
structure Known (t : Tree) : Prop where
  start : Text.Boundary text t.start
  stop : Text.Boundary text t.stop
  row : Row t.start t.stop t.children
  origin : Origin rules Q text t

variable {rules Q text}

theorem Known.of_sameButRole {u t : Tree} (h : SameButRole u t) (ht : Known rules Q text t) :
  Known rules Q text u
  := by
  obtain ⟨k, r, s, e, cs⟩ := t
  obtain ⟨k', r', s', e', cs'⟩ := u
  obtain ⟨hk, hs, he, hcs⟩ := h
  simp only [Tree.kind, Tree.start, Tree.stop, Tree.children] at hk hs he hcs
  subst hk hs he hcs
  obtain ⟨h₁, h₂, h₃, h₄⟩ := ht
  constructor
  · apply h₁
  · apply h₂
  · apply h₃
  · cases h₄ with
    | comment hc hn hkind hstart hstop hchildren =>
      exact .comment hc hn hkind hstart hstop hchildren
    | token hq hc hn hstart hstop hchildren => exact .token hq hc hn hstart hstop hchildren
    | node hq hc hreads hdrop hchildren hstart hstop =>
      exact .node hq hc hreads hdrop hchildren hstart hstop
    | step hq hmem hbase hc hreads hchildren hstart hstop =>
      exact .step hq hmem hbase hc hreads hchildren hstart hstop

/-- All trees in some trees are known. -/
def AllKnown (rules : σ → Peg σ) (Q : Peg σ → Prop) (text : List Char) (ts : List Tree) : Prop :=
  ∀ t ∈ ts, ∀ u, Part u t → Known rules Q text u

theorem allKnown_nil :
  AllKnown rules Q text []
  := by
  intro t ht
  cases ht

theorem allKnown_append {ts us : List Tree} :
  AllKnown rules Q text (ts ++ us) ↔ AllKnown rules Q text ts ∧ AllKnown rules Q text us
  := List.forall_mem_append

theorem AllKnown.subset {ts us : List Tree} (h : AllKnown rules Q text ts) (hs : us ⊆ ts) :
  AllKnown rules Q text us
  := by
  intro t ht
  apply h t (hs ht)

/-- A known tree over known trees. -/
theorem Known.all {t : Tree} (h : Known rules Q text t)
    (hs : AllKnown rules Q text t.children) :
  AllKnown rules Q text [t]
  := by
  intro u hu
  rw [List.mem_singleton.mp hu]
  exact forall_part h hs

theorem AllKnown.sameButRole {u t : Tree} (h : SameButRole u t)
    (ht : AllKnown rules Q text [t]) :
  AllKnown rules Q text [u]
  := by
  have hroot := ht t (List.mem_singleton_self t) t (.refl t)
  apply (hroot.of_sameButRole h).all
  intro v hv w hw
  rw [h.children] at hv
  apply ht t (List.mem_singleton_self t) w (.inr (hw.of_child hv))

theorem AllKnown.map {ts : List Tree} {f : Tree → Tree} (hf : ∀ t, SameButRole (f t) t)
    (h : AllKnown rules Q text ts) :
  AllKnown rules Q text (ts.map f)
  := by
  intro u hu
  obtain ⟨t, ht, rfl⟩ := List.mem_map.mp hu
  have hone : AllKnown rules Q text [f t] :=
    (h.subset (by simpa using ht)).sameButRole (hf t)
  apply hone (f t) (List.mem_singleton_self _)

variable (rules Q text) in
/-- From one place to another, known trees in a row. -/
structure Passage (c : Cursor) (ts : List Tree) (c' : Cursor) : Prop where
  reaches : c.Reaches c'
  row : Row c.pos c'.pos ts
  known : AllKnown rules Q text ts

theorem Passage.of_reaches {c c' : Cursor} (h : c.Reaches c') :
  Passage rules Q text c [] c'
  := ⟨h, h.le, allKnown_nil⟩

theorem Passage.nil (c : Cursor) :
  Passage rules Q text c [] c
  := .of_reaches (.refl c)

theorem Passage.append {c c' c'' : Cursor} {ts us : List Tree}
    (ht : Passage rules Q text c ts c') (hu : Passage rules Q text c' us c'') :
  Passage rules Q text c (ts ++ us) c''
  := by
  use ht.reaches.trans hu.reaches, ht.row.append hu.row
  apply allKnown_append.mpr ⟨ht.known, hu.known⟩

/-- A leaf that takes something of the text. -/
theorem Passage.leaf {c : Cursor} (hc : c.At text) (hrest : c.rest ≠ []) {kind : Kind} {n : Nat}
    (h : Origin rules Q text (c.leaf kind (n + 1))) :
  Passage rules Q text c [c.leaf kind (n + 1)] (c.advance (n + 1))
  := by
  have hadvance := c.reaches_advance (n + 1)
  use hadvance
  · use Nat.le_refl _, Cursor.pos_lt_advance hrest n, Nat.le_refl _
  · apply Known.all _ allKnown_nil
    constructor
    · apply hc.boundary
    · have hnext : (c.advance (n + 1)).At text := hc.trans hadvance
      apply hnext.boundary
    · apply hadvance.le
    · apply h

/-- The comments before a token. -/
theorem trivia_passage (limit : Nat) {c : Cursor} (hc : c.At text) :
  Passage rules Q text c (trivia limit c).1 (trivia limit c).2
  := by
  induction limit generalizing c with
  | zero => exact .nil c
  | succ limit ih =>
    rw [trivia]
    split
    · exact .nil c
    · rename_i x xs hrest
      split
      · have hadvance := c.reaches_advance 1
        exact (Passage.of_reaches hadvance).append (ih (hc.trans hadvance))
      · split
        · split
          · exact .nil c
          · rename_i n hn
            have hleaf : Passage rules Q text c [c.leaf .comment (n + 1)] (c.advance (n + 1)) :=
              .leaf hc (by simp [hrest]) (.comment hc hn rfl rfl rfl rfl)
            exact hleaf.append (ih (hc.trans (c.reaches_advance _)))
        · exact .nil c

theorem rest_ne_nil {scan : List Char → Nat} (hscan : scan [] = 0) {c : Cursor} {n : Nat}
    (h : scan c.rest = n + 1) :
  c.rest ≠ []
  := by
  intro hnil
  rw [hnil, hscan] at h
  cases h

theorem AllKnown.boundary_stopOf {t : Tree} {ts : List Tree}
    (h : AllKnown rules Q text (t :: ts)) :
  Text.Boundary text (stopOf t.stop ts)
  := by
  induction ts generalizing t with
  | nil => apply (h t List.mem_cons_self t (.refl t)).stop
  | cons u us ih => apply ih (h.subset (List.subset_cons_self t _))

/-- A node around known trees in a row. -/
theorem known_around {lo hi : Nat} (kind : Kind) {t u : Tree} {us : List Tree}
    (hsame : SameButRole t u) (hrow : Row lo hi (u :: us))
    (hknown : AllKnown rules Q text (u :: us))
    (h : Origin rules Q text (.node kind none u.start (stopOf u.stop us) (t :: us))) :
  AllKnown rules Q text [.node kind none u.start (stopOf u.stop us) (t :: us)]
    ∧ Row lo hi [.node kind none u.start (stopOf u.stop us) (t :: us)]
  := by
  obtain ⟨hinner, h₁, h₂, h₃⟩ := row_around hrow
  have hu : AllKnown rules Q text [u] := hknown.subset (by simp)
  have hus : AllKnown rules Q text us := hknown.subset (List.subset_cons_self u us)
  constructor
  · apply Known.all _ (allKnown_append.mpr ⟨hu.sameButRole hsame, hus⟩)
    constructor
    · apply (hknown u List.mem_cons_self u (.refl u)).start
    · apply hknown.boundary_stopOf
    · change Row u.start (stopOf u.stop us) (t :: us)
      rw [Row, hsame.start, hsame.stop]
      apply hinner
    · apply h
  · use h₁, h₂, h₃

/-- A node around a passage. -/
theorem Passage.node {c c' : Cursor} {ts : List Tree} {kind : Kind} {p : Peg σ}
    (hq : Q (.node kind p)) (hc : c.At text) (hreads : Reads rules p c ts c')
    (h : Passage rules Q text c ts c') :
  Passage rules Q text c (enclose kind ts) c'
  := by
  rcases enclose_cases kind ts with ⟨-, heq⟩ | ⟨t, us, hdrop, heq⟩
  · rw [heq]
    apply h
  · have hsplit := List.takeWhile_append_dropWhile (p := isComment) (l := ts)
    rw [hdrop] at hsplit
    obtain ⟨hreaches, hrow, hknown⟩ := h
    rw [← hsplit] at hknown hrow
    obtain ⟨hfront, hinner⟩ := allKnown_append.mp hknown
    obtain ⟨mid, hrow₁, hrow₂⟩ := hrow.split
    obtain ⟨hknown', hrow'⟩ := known_around kind (.refl t) hrow₂ hinner
      (.node hq hc hreads hdrop rfl rfl rfl)
    rw [heq]
    use hreaches, hrow₁.append hrow'
    apply allKnown_append.mpr ⟨hfront, hknown'⟩

/-- A tree grown at the end of a passage. -/
theorem Passage.grow {c c' c'' : Cursor} {t : Tree} {ts us : List Tree} {head tail : Peg σ}
    {steps : List (Step σ)} {base : Kind → Bool} {kind : Kind} {role : Option Role}
    (hq : Q (.grow head steps)) (hstep : .mk base kind role tail ∈ steps)
    (hbase : base t.kind = true) (hc : c'.At text) (hreads : Reads rules tail c' us c'')
    (h : Passage rules Q text c (ts ++ [t]) c') (hu : Passage rules Q text c' us c'') :
  Passage rules Q text c (ts ++ [grown kind role t us]) c''
  := by
  obtain ⟨hreaches, hrow, hknown⟩ := h.append hu
  rw [List.append_assoc, List.singleton_append] at hrow hknown
  obtain ⟨hfront, hinner⟩ := allKnown_append.mp hknown
  obtain ⟨mid, hrow₁, hrow₂⟩ := hrow.split
  obtain ⟨hknown', hrow'⟩ := known_around kind (sameButRole_grownFrom t role) hrow₂ hinner
    (.step (t := grown kind role t us) hq hstep hbase hc hreads rfl rfl rfl)
  use hreaches, hrow₁.append hrow'
  apply allKnown_append.mpr ⟨hfront, hknown'⟩

/-- What is read is a passage of known trees. -/
theorem Reads.passage (hrules : ∀ name, (rules name).Every Q)
    (hscan : ∀ kind scan, Q (.leaf kind scan) ∨ Q (.rawLeaf kind scan) → scan [] = 0)
    {p : Peg σ} {c c' : Cursor} {ts : List Tree} (h : Reads rules p c ts c') (hp : p.Every Q)
    (hc : c.At text) :
  Passage rules Q text c ts c'
  := by
  induction h with
  | leaf ht hs =>
    rename_i kind scan c c' comments limit n
    rw [Peg.Every] at hp
    have hcomments : Passage rules Q text c (trivia limit c).1 (trivia limit c).2 :=
      trivia_passage limit hc
    rw [ht] at hcomments
    have hc' : c'.At text := hc.trans hcomments.reaches
    apply hcomments.append
    apply Passage.leaf hc' (rest_ne_nil (hscan kind scan (.inl hp)) hs)
    apply Origin.token (.inl hp) hc' hs rfl rfl rfl
  | rawLeaf hs =>
    rw [Peg.Every] at hp
    apply Passage.leaf hc (rest_ne_nil (hscan _ _ (.inr hp)) hs)
    apply Origin.token (.inr hp) hc hs rfl rfl rfl
  | skip => apply Passage.of_reaches (Cursor.reaches_advance _ _)
  | check _ => apply Passage.nil
  | within h ih =>
    rw [Peg.Every] at hp
    obtain ⟨h₁, h₂, h₃⟩ := ih hp hc
    exact ⟨h₁, h₂, h₃⟩
  | seqNil => apply Passage.nil
  | seqCons h hs ih ihs =>
    simp only [Peg.Every, Peg.EveryOf] at hp ihs
    have h₁ := ih hp.1 hc
    apply h₁.append (ihs hp.2 (hc.trans h₁.reaches))
  | alt hmem h ih =>
    rw [Peg.Every] at hp
    apply ih (Peg.everyOf_iff.mp hp _ hmem) hc
  | manyNil => apply Passage.nil
  | manyCons h hs ih ihs =>
    simp only [Peg.Every] at hp ihs
    have h₁ := ih hp hc
    apply h₁.append (ihs hp (hc.trans h₁.reaches))
  | absent => apply Passage.nil
  | node h ih =>
    rw [Peg.Every] at hp
    apply (ih hp.2 hc).node hp.1 hc h
  | role h ih =>
    rw [Peg.Every] at hp
    obtain ⟨h₁, h₂, h₃⟩ := ih hp hc
    use h₁
    · apply row_map _ h₂
      intro t
      exact ⟨(sameButRole_assign _ t).start, (sameButRole_assign _ t).stop⟩
    · apply h₃.map (sameButRole_assign _)
  | growHead h ih =>
    rw [Peg.Every] at hp
    apply ih hp.2.1 hc
  | growStep h hstep hbase ht ih iht =>
    have h₁ := ih hp hc
    rw [Peg.Every] at hp
    have hc' := hc.trans h₁.reaches
    have h₂ := iht (Step.everyOf_iff.mp hp.2.2 _ _ _ _ hstep) hc'
    apply h₁.grow hp.1 hstep hbase hc' ht h₂
  | rule h ih => apply ih (hrules _) hc

end Origins

end Codemod.Grammar
