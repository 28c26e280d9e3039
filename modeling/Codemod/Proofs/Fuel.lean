import Codemod.Grammar.Script
import Codemod.Proofs.Giving

/-!
# The fuel of a run

A run that has fuel enough gives what the grammar gives. How much is enough can be read off the
expressions: as long as no character is passed, they nest only so deep, provided that no rule leads
back to itself before it passes a character. So the fuel is bounded by the number of characters
left times the greatest depth of an expression.
-/

namespace Codemod.Grammar

variable {σ : Type}

/-! ### Expressions that take something -/

mutual

/-- Whatever an expression reads has a character in it. Rules are taken to be such expressions. -/
def Peg.eats : Peg σ → Bool
  | .leaf _ _ => true
  | .rawLeaf _ _ => true
  | .skip _ => false
  | .check _ => false
  | .within _ p => p.eats
  | .seq ps => Peg.someEats ps
  | .alt ps => Peg.allEat ps
  | .many _ => false
  | .absent _ => false
  | .node _ p => p.eats
  | .role _ p => p.eats
  | .grow head _ => head.eats
  | .rule _ => true

/-- One of some expressions takes a character. -/
def Peg.someEats : List (Peg σ) → Bool
  | [] => false
  | p :: ps => p.eats || Peg.someEats ps

/-- Each of some expressions takes a character. -/
def Peg.allEat : List (Peg σ) → Bool
  | [] => true
  | p :: ps => p.eats && Peg.allEat ps

end

/-! ### Depth -/

mutual

/-- How deep expressions nest in an expression before a character is passed, when a rule has the
depth of its rank. -/
def Peg.depth (rank : σ → Nat) : Peg σ → Nat
  | .leaf _ _ => 1
  | .rawLeaf _ _ => 1
  | .skip _ => 1
  | .check _ => 1
  | .within _ p => p.depth rank + 1
  | .seq ps => Peg.depthInTurn rank ps + 1
  | .alt ps => Peg.depthOfAll rank ps + 1
  | .many p => p.depth rank + 1
  | .absent p => p.depth rank + 1
  | .node _ p => p.depth rank + 1
  | .role _ p => p.depth rank + 1
  | .grow head _ => head.depth rank + 1
  | .rule name => rank name + 1

/-- The depth of some expressions, one after the other. -/
def Peg.depthInTurn (rank : σ → Nat) : List (Peg σ) → Nat
  | [] => 0
  | p :: ps => max (p.depth rank) (if p.eats then 0 else Peg.depthInTurn rank ps)

/-- The greatest depth of some expressions. -/
def Peg.depthOfAll (rank : σ → Nat) : List (Peg σ) → Nat
  | [] => 0
  | p :: ps => max (p.depth rank) (Peg.depthOfAll rank ps)

end

mutual

/-- Tokens are not empty, what grows has taken something, and all parts and steps nest no deeper
than a bound. -/
def Peg.fits (rank : σ → Nat) (bound : Nat) : Peg σ → Bool
  | .leaf _ scan => scan [] = 0
  | .rawLeaf _ scan => scan [] = 0
  | .skip _ => true
  | .check _ => true
  | .within _ p => p.fits rank bound
  | .seq ps => Peg.allFit rank bound ps
  | .alt ps => Peg.allFit rank bound ps
  | .many p => p.fits rank bound
  | .absent p => p.fits rank bound
  | .node _ p => p.fits rank bound
  | .role _ p => p.fits rank bound
  | .grow head steps => head.eats && head.fits rank bound && Step.allFit rank bound steps
  | .rule _ => true

/-- Each of some expressions fits. -/
def Peg.allFit (rank : σ → Nat) (bound : Nat) : List (Peg σ) → Bool
  | [] => true
  | p :: ps => p.depth rank ≤ bound && p.fits rank bound && Peg.allFit rank bound ps

/-- The tail of each of some steps fits and takes something. -/
def Step.allFit (rank : σ → Nat) (bound : Nat) : List (Step σ) → Bool
  | [] => true
  | .mk _ _ _ tail :: steps =>
    tail.eats && tail.depth rank ≤ bound && tail.fits rank bound && Step.allFit rank bound steps

end

/-- Each rule of a grammar fits, takes something, and nests no deeper than its rank. -/
structure Ranked (rules : σ → Peg σ) (rank : σ → Nat) (bound : Nat) : Prop where
  fits : ∀ name, (rules name).fits rank bound = true
  eats : ∀ name, (rules name).eats = true
  depth : ∀ name, (rules name).depth rank ≤ rank name
  pos : 0 < bound

section Ranks

variable {rules : σ → Peg σ} {rank : σ → Nat} {bound : Nat}

theorem Peg.depthInTurn_le {ps : List (Peg σ)} (h : Peg.allFit rank bound ps = true) :
  Peg.depthInTurn rank ps ≤ bound
  := by
  induction ps with
  | nil => apply Nat.zero_le
  | cons p ps ih =>
    simp only [Peg.allFit, Bool.and_eq_true, decide_eq_true_eq] at h
    have := ih h.2
    simp only [Peg.depthInTurn]
    split <;> omega

theorem Step.allFit_iff {steps : List (Step σ)} :
  Step.allFit rank bound steps = true
    ↔ ∀ base kind role tail, .mk base kind role tail ∈ steps →
      Peg.eats tail = true ∧ Peg.depth rank tail ≤ bound ∧ Peg.fits rank bound tail = true
  := by
  induction steps with
  | nil => simp [Step.allFit]
  | cons step steps ih =>
    obtain ⟨base, kind, role, tail⟩ := step
    simp only [Step.allFit, Bool.and_eq_true, decide_eq_true_eq, ih, List.mem_cons, and_assoc]
    constructor
    · rintro ⟨heats, hdepth, hfits, hsteps⟩ base' kind' role' tail' (heq | hmem)
      · cases heq
        exact ⟨heats, hdepth, hfits⟩
      · apply hsteps base' kind' role' tail' hmem
    · intro h
      obtain ⟨heats, hdepth, hfits⟩ := h base kind role tail (.inl rfl)
      exact ⟨heats, hdepth, hfits, fun _ _ _ _ hmem => h _ _ _ _ (.inr hmem)⟩

theorem Step.allFit_of_subset {steps steps' : List (Step σ)} (hsub : steps ⊆ steps')
    (h : Step.allFit rank bound steps' = true) :
  Step.allFit rank bound steps = true
  := by
  rw [Step.allFit_iff] at h ⊢
  intro base kind role tail hmem
  apply h base kind role tail (hsub hmem)

theorem Peg.depth_pos (rank : σ → Nat) (p : Peg σ) :
  0 < p.depth rank
  := by
  cases p <;> simp [Peg.depth]

/-- Whether the expressions of a task fit. -/
def Task.fits (rank : σ → Nat) (bound : Nat) : Task σ → Bool
  | .read p => p.fits rank bound
  | .first _ steps => Step.allFit rank bound steps
  | .on _ steps => Step.allFit rank bound steps

/-- Whatever comes of a task has a character in it. -/
def Task.eats : Task σ → Bool
  | .read p => p.eats
  | .first _ _ => true
  | .on _ _ => false

/-- What comes of a task ends at a later place, and some of the text is passed if the task takes
something. -/
theorem Gives.reaches (hrules : Ranked rules rank bound) {task : Task σ} {c c' : Cursor}
    {o : Option (List Tree × Cursor)} {ts : List Tree} (h : Gives rules task c o)
    (hfit : task.fits rank bound = true) (ho : o = some (ts, c')) :
  c.Reaches c' ∧ (task.eats = true → c'.rest.length < c.rest.length)
  := by
  induction h generalizing ts c' with
  | leaf hs =>
    rename_i kind scan c n
    cases ho
    have hne := rest_ne_nil (of_decide_eq_true hfit) hs
    have hnext := c.passes_next.reaches
    refine ⟨hnext.trans (c.next.reaches_advance _), fun _ => ?_⟩
    have := length_advance_lt hne n
    have := hnext.length_le
    omega
  | rawLeaf hs =>
    cases ho
    have hne := rest_ne_nil (of_decide_eq_true hfit) hs
    exact ⟨Cursor.reaches_advance _ _, fun _ => length_advance_lt hne _⟩
  | skip =>
    cases ho
    exact ⟨Cursor.reaches_advance _ _, nofun⟩
  | check h =>
    cases ho
    exact ⟨.refl _, nofun⟩
  | within h ih =>
    cases ho
    apply ih hfit rfl
  | seqNil =>
    cases ho
    exact ⟨.refl _, nofun⟩
  | seqCons h hs ih ihs =>
    cases ho
    simp only [Task.fits, Peg.fits, Peg.allFit, Bool.and_eq_true] at hfit ihs
    obtain ⟨hreach, hless⟩ := ih hfit.1.2 rfl
    obtain ⟨hreachs, hlesss⟩ := ihs hfit.2 rfl
    refine ⟨hreach.trans hreachs, fun heats => ?_⟩
    have := hreach.length_le
    have := hreachs.length_le
    simp only [Task.eats, Peg.eats, Peg.someEats, Bool.or_eq_true] at heats hless hlesss
    rcases heats with heats | heats
    · have := hless heats
      omega
    · have := hlesss heats
      omega
  | altHead h ih =>
    cases ho
    simp only [Task.fits, Peg.fits, Peg.allFit, Bool.and_eq_true] at hfit
    obtain ⟨hreach, hless⟩ := ih hfit.1.2 rfl
    refine ⟨hreach, fun heats => ?_⟩
    simp only [Task.eats, Peg.eats, Peg.allEat, Bool.and_eq_true] at heats
    apply hless heats.1
  | altTail h hs ih ihs =>
    simp only [Task.fits, Peg.fits, Peg.allFit, Bool.and_eq_true] at hfit ihs
    obtain ⟨hreach, hless⟩ := ihs hfit.2 ho
    refine ⟨hreach, fun heats => ?_⟩
    simp only [Task.eats, Peg.eats, Peg.allEat, Bool.and_eq_true] at heats hless
    apply hless heats.2
  | manyStop h ih =>
    cases ho
    exact ⟨.refl _, nofun⟩
  | manyStay h hpos ih =>
    cases ho
    exact ⟨(ih hfit rfl).1, nofun⟩
  | manyMore h hpos hs ih ihs =>
    cases ho
    exact ⟨(ih hfit rfl).1.trans (ihs hfit rfl).1, nofun⟩
  | absent h ih =>
    cases ho
    exact ⟨.refl _, nofun⟩
  | node h ih =>
    cases ho
    apply ih hfit rfl
  | role h ih =>
    cases ho
    apply ih hfit rfl
  | grow h hs ih ihs =>
    simp only [Task.fits, Peg.fits, Bool.and_eq_true] at hfit ih ihs
    obtain ⟨hreach, hless⟩ := ih hfit.1.2 rfl
    obtain ⟨hreachs, -⟩ := ihs hfit.2 ho
    refine ⟨hreach.trans hreachs, fun _ => ?_⟩
    have := hless hfit.1.1
    have := hreachs.length_le
    omega
  | rule h ih =>
    obtain ⟨hreach, hless⟩ := ih (hrules.fits _) ho
    exact ⟨hreach, fun _ => hless (hrules.eats _)⟩
  | firstOther hbase h ih =>
    simp only [Task.fits, Step.allFit, Bool.and_eq_true] at hfit ih
    apply ih hfit.2 ho
  | firstRefused hbase ht h iht ih =>
    simp only [Task.fits, Step.allFit, Bool.and_eq_true] at hfit ih
    apply ih hfit.2 ho
  | firstTaken hbase ht iht =>
    cases ho
    simp only [Task.fits, Step.allFit, Bool.and_eq_true] at hfit iht
    obtain ⟨hreach, hless⟩ := iht hfit.1.2 rfl
    exact ⟨hreach, fun _ => hless hfit.1.1.1⟩
  | onNil =>
    cases ho
    exact ⟨.refl _, nofun⟩
  | onStop hlast h ih =>
    cases ho
    exact ⟨.refl _, nofun⟩
  | onStep hlast h hs ih ihs =>
    exact ⟨(ih hfit rfl).1.trans (ihs hfit ho).1, nofun⟩
  | _ => cases ho

/-! ### Enough fuel -/

/-- What comes of reading an expression, without the reach. -/
def Outcome.yield : Outcome → Option (List Tree × Cursor)
  | .fail _ => none
  | .done ts c _ => some (ts, c)

theorem Cursor.Reaches.pos_eq_iff {c c' : Cursor} (h : c.Reaches c') :
  c'.pos = c.pos ↔ c'.rest.length = c.rest.length
  := by
  obtain ⟨s, hs, hpos⟩ := h
  rw [hpos, hs, List.length_append]
  constructor
  · intro h
    obtain rfl : s = [] := Text.eq_nil_of_byteLength (by omega)
    simp
  · intro h
    obtain rfl : s = [] := List.eq_nil_of_length_eq_zero (by omega)
    simp

theorem yield_growByFirst_cons (read : Peg σ → Cursor → Outcome) (t : Tree) (step : Step σ)
    (steps : List (Step σ)) (c : Cursor) :
  (growByFirst read t (step :: steps) c).yield
    = (growBy read t step c).yield.or (growByFirst read t steps c).yield
  := by
  rw [growByFirst]
  cases growBy read t step c with
  | done ts c' r => rfl
  | fail r => cases growByFirst read t steps c <;> rfl

section Enough

variable {fuel : Nat} (hrules : Ranked rules rank bound)
  (hread : ∀ {p : Peg σ} {c : Cursor}, p.fits rank bound = true →
    bound * c.rest.length + p.depth rank ≤ fuel → Gives rules (.read p) c (run rules fuel p c).yield)

/-- What is left of the fuel when a character is passed is enough for any expression that fits. -/
theorem fuel_of_lt {n m depth : Nat} (hlt : m < n) (hdepth : depth ≤ bound)
    (hfuel : bound * n ≤ fuel) :
  bound * m + depth ≤ fuel
  := by
  have := Nat.mul_le_mul_left bound (Nat.succ_le_of_lt hlt)
  rw [Nat.mul_succ] at this
  omega

include hrules hread

theorem gives_of_inTurn {ps : List (Peg σ)} {c : Cursor} (hfit : Peg.allFit rank bound ps = true)
    (hfuel : bound * c.rest.length + Peg.depthInTurn rank ps ≤ fuel) :
  Gives rules (.read (.seq ps)) c (inTurn (run rules fuel) ps c).yield
  := by
  induction ps generalizing c with
  | nil => apply Gives.seqNil
  | cons p ps ih =>
    simp only [Peg.allFit, Bool.and_eq_true, decide_eq_true_eq] at hfit
    simp only [Peg.depthInTurn] at hfuel
    have hp := hread (c := c) hfit.1.2 (by omega)
    rw [inTurn]
    cases hrun : run rules fuel p c with
    | fail r =>
      rw [hrun] at hp
      apply Gives.noSeq hp
    | done ts c' r =>
      rw [hrun] at hp
      obtain ⟨hreach, hless⟩ := hp.reaches hrules hfit.1.2 rfl
      have hps : Gives rules (.read (.seq ps)) c' (inTurn (run rules fuel) ps c').yield := by
        apply ih hfit.2
        split at hfuel
        next heats =>
          apply fuel_of_lt (hless heats) (Peg.depthInTurn_le hfit.2)
          omega
        next =>
          have := Nat.mul_le_mul_left bound hreach.length_le
          omega
      simp only
      cases hrest : inTurn (run rules fuel) ps c' with
      | fail r' =>
        rw [hrest] at hps
        apply Gives.noSeqTail hp hps
      | done us c'' r' =>
        rw [hrest] at hps
        apply Gives.seqCons hp hps

omit hrules in
theorem gives_of_firstOf {ps : List (Peg σ)} {c : Cursor} (hfit : Peg.allFit rank bound ps = true)
    (hfuel : bound * c.rest.length + Peg.depthOfAll rank ps ≤ fuel) :
  Gives rules (.read (.alt ps)) c (firstOf (run rules fuel) ps c).yield
  := by
  induction ps with
  | nil => apply Gives.altNil
  | cons p ps ih =>
    simp only [Peg.allFit, Bool.and_eq_true, decide_eq_true_eq] at hfit
    simp only [Peg.depthOfAll] at hfuel
    have hp := hread (c := c) hfit.1.2 (by omega)
    have hps := ih hfit.2 (by omega)
    rw [firstOf]
    cases hrun : run rules fuel p c with
    | done ts c' r =>
      rw [hrun] at hp
      apply Gives.altHead hp
    | fail r =>
      rw [hrun] at hp
      simp only
      cases hrest : firstOf (run rules fuel) ps c with
      | fail r' =>
        rw [hrest] at hps
        apply Gives.altTail hp hps
      | done us c'' r' =>
        rw [hrest] at hps
        apply Gives.altTail hp hps

theorem gives_of_repeated {p : Peg σ} {limit : Nat} {c : Cursor} (hfit : p.fits rank bound = true)
    (hfuel : bound * c.rest.length + p.depth rank ≤ fuel) (hlimit : c.rest.length < limit) :
  Gives rules (.read (.many p)) c (repeated (run rules fuel p) limit c).yield
  := by
  induction limit generalizing c with
  | zero => cases hlimit
  | succ limit ih =>
    have hp := hread hfit hfuel
    rw [repeated]
    cases hrun : run rules fuel p c with
    | fail r =>
      rw [hrun] at hp
      apply Gives.manyStop hp
    | done ts c' r =>
      rw [hrun] at hp
      obtain ⟨hreach, -⟩ := hp.reaches hrules hfit rfl
      simp only
      split
      next hpos => apply Gives.manyStay hp hpos
      next hpos =>
        have hle := hreach.length_le
        rw [hreach.pos_eq_iff] at hpos
        have hmul := Nat.mul_le_mul_left bound hle
        have hrest := ih (c := c') (by omega) (by omega)
        rw [← hreach.pos_eq_iff] at hpos
        cases hmany : repeated (run rules fuel p) limit c' with
        | fail r' =>
          rw [hmany] at hrest
          cases hrest
        | done us c'' r' =>
          rw [hmany] at hrest
          apply Gives.manyMore hp hpos hrest

omit hrules in
theorem gives_of_growByFirst {steps : List (Step σ)} {t : Tree} {c : Cursor}
    (hfit : Step.allFit rank bound steps = true) (hfuel : bound * c.rest.length + bound ≤ fuel) :
  Gives rules (.first t steps) c (growByFirst (run rules fuel) t steps c).yield
  := by
  induction steps with
  | nil => apply Gives.firstNil
  | cons step steps ih =>
    obtain ⟨base, kind, role, tail⟩ := step
    simp only [Step.allFit, Bool.and_eq_true, decide_eq_true_eq] at hfit
    have hsteps := ih hfit.2
    rw [yield_growByFirst_cons, growBy]
    cases hbase : base t.kind with
    | false => apply Gives.firstOther hbase hsteps
    | true =>
      have htail := hread (c := c) hfit.1.2 (by omega)
      simp only [if_true]
      cases hrun : run rules fuel tail c with
      | fail r =>
        rw [hrun] at htail
        apply Gives.firstRefused hbase htail hsteps
      | done us c' r =>
        rw [hrun] at htail
        apply Gives.firstTaken hbase htail

theorem gives_of_growing {steps : List (Step σ)} {limit : Nat} {ts : List Tree} {c : Cursor}
    {r : Nat} (hfit : Step.allFit rank bound steps = true)
    (hfuel : bound * c.rest.length + bound ≤ fuel) (hlimit : c.rest.length < limit) :
  Gives rules (.on ts steps) c (growing (run rules fuel) steps limit ts c r).yield
  := by
  induction limit generalizing ts c r with
  | zero => cases hlimit
  | succ limit ih =>
    rw [growing]
    cases hlast : ts.getLast? with
    | none =>
      obtain rfl := List.getLast?_eq_none_iff.mp hlast
      apply Gives.onNil
    | some t =>
      have hfirst := gives_of_growByFirst hread (t := t) hfit hfuel
      simp only
      cases hrun : growByFirst (run rules fuel) t steps c with
      | fail r' =>
        rw [hrun] at hfirst
        apply Gives.onStop hlast hfirst
      | done us c' r' =>
        rw [hrun] at hfirst
        obtain ⟨-, hless⟩ := hfirst.reaches hrules hfit rfl
        have hless := hless rfl
        apply Gives.onStep hlast hfirst
        apply ih
        · apply fuel_of_lt hless (Nat.le_refl _)
          omega
        · omega

end Enough

/-- A run with enough fuel gives what the grammar gives. -/
theorem gives_of_run (hrules : Ranked rules rank bound) {fuel : Nat} {p : Peg σ} {c : Cursor}
    (hfit : p.fits rank bound = true) (hfuel : bound * c.rest.length + p.depth rank ≤ fuel) :
  Gives rules (.read p) c (run rules fuel p c).yield
  := by
  induction fuel generalizing p c with
  | zero =>
    have := p.depth_pos rank
    omega
  | succ fuel ih =>
    have hlength : c.rest.length ≤ bound * c.rest.length := Nat.le_mul_of_pos_left _ hrules.pos
    rw [run.eq_def]
    cases p with
    | leaf kind scan =>
      simp only [Peg.depth] at hfuel
      simp only [Cursor.trivia_of_le (show c.rest.length ≤ fuel by omega), Cursor.token]
      cases hs : scan c.next.rest with
      | zero => apply Gives.noLeaf hs
      | succ n => apply Gives.leaf hs
    | rawLeaf kind scan =>
      simp only [Cursor.token]
      cases hs : scan c.rest with
      | zero => apply Gives.noRawLeaf hs
      | succ n => apply Gives.rawLeaf hs
    | skip scan => apply Gives.skip
    | check test =>
      simp only
      cases htest : test c.enclosed c.rest with
      | false => apply Gives.noCheck htest
      | true => apply Gives.check htest
    | within enclosed p =>
      simp only [Peg.depth] at hfuel
      have hp := ih (p := p) (c := { c with enclosed }) hfit (by simp only; omega)
      simp only
      cases hrun : run rules fuel p { c with enclosed } with
      | fail r =>
        rw [hrun] at hp
        apply Gives.noWithin hp
      | done ts c' r =>
        rw [hrun] at hp
        apply Gives.within hp
    | seq ps =>
      simp only [Peg.depth] at hfuel
      apply gives_of_inTurn hrules ih hfit (by omega)
    | alt ps =>
      simp only [Peg.depth] at hfuel
      apply gives_of_firstOf ih hfit (by omega)
    | many p =>
      simp only [Peg.depth] at hfuel
      have := p.depth_pos rank
      apply gives_of_repeated (p := p) hrules ih hfit (by omega) (by omega)
    | absent p =>
      simp only [Peg.depth] at hfuel
      have hp := ih (p := p) (c := c) hfit (by omega)
      simp only
      cases hrun : run rules fuel p c with
      | fail r =>
        rw [hrun] at hp
        apply Gives.absent hp
      | done ts c' r =>
        rw [hrun] at hp
        apply Gives.noAbsent hp
    | node kind p =>
      simp only [Peg.depth] at hfuel
      have hp := ih (p := p) (c := c) hfit (by omega)
      simp only
      cases hrun : run rules fuel p c with
      | fail r =>
        rw [hrun] at hp
        apply Gives.noNode hp
      | done ts c' r =>
        rw [hrun] at hp
        apply Gives.node hp
    | role role p =>
      simp only [Peg.depth] at hfuel
      have hp := ih (p := p) (c := c) hfit (by omega)
      simp only
      cases hrun : run rules fuel p c with
      | fail r =>
        rw [hrun] at hp
        apply Gives.noRole hp
      | done ts c' r =>
        rw [hrun] at hp
        apply Gives.role hp
    | grow head steps =>
      simp only [Peg.depth] at hfuel
      simp only [Peg.fits, Bool.and_eq_true] at hfit
      have hp := ih (p := head) (c := c) hfit.1.2 (by omega)
      simp only
      cases hrun : run rules fuel head c with
      | fail r =>
        rw [hrun] at hp
        apply Gives.noGrow hp
      | done ts c' r =>
        rw [hrun] at hp
        obtain ⟨-, hless⟩ := hp.reaches hrules hfit.1.2 rfl
        have hless := hless hfit.1.1
        apply Gives.grow hp
        apply gives_of_growing hrules ih hfit.2
        · apply fuel_of_lt hless (Nat.le_refl _)
          omega
        · omega
    | rule name =>
      simp only [Peg.depth] at hfuel
      have := hrules.depth name
      apply Gives.rule
      apply ih (hrules.fits name)
      omega

/-- What a grammar gives is read. -/
theorem Gives.reads (hrules : Ranked rules rank bound) {p : Peg σ} {c c' : Cursor}
    {ts : List Tree} (h : Gives rules (.read p) c (some (ts, c')))
    (hfit : p.fits rank bound = true) :
  Reads rules p c ts c'
  := by
  have hrun := h.unique (gives_of_run hrules hfit (Nat.le_refl _))
  cases hdone : run rules (bound * c.rest.length + p.depth rank) p c with
  | fail r =>
    rw [hdone] at hrun
    cases hrun
  | done us d r =>
    rw [hdone] at hrun
    cases hrun
    apply reads_of_run hdone

end Ranks

/-! ### The fuel of a script -/

namespace Script

/-- A depth that the expression of each phrase keeps to. -/
def rank : Phrase → Nat
  | .statement => 25
  | .expressions => 21
  | .expression => 19
  | .operation _ | .typed => 16
  | .unary | .unionType => 14
  | .intersectionType => 12
  | .access | .instantiated => 11
  | .arrayType => 10
  | .primary | .method => 9
  | .classTail | .primaryType => 8
  | .declaration | .element => 7
  | .pattern => 6
  | .block | .bindingTarget | .string => 4
  | _ => 3

/-- The steps of each level are among those of the lowest one. -/
theorem operatorSteps_subset (level : Nat) :
  operatorSteps level ⊆ operatorSteps 0
  := by
  intro step hstep
  rcases List.mem_append.mp hstep with hstep | hstep
  · apply List.mem_append_left
    obtain ⟨op, hop, rfl⟩ := List.mem_map.mp hstep
    apply List.mem_map_of_mem
    simpa using (List.mem_filter.mp hop).1
  · apply List.mem_append_right
    split at hstep
    · apply hstep
    · cases hstep

/-- The rules nest as deep as their ranks say, whatever the dialect. -/
theorem ranked_rules (dialect : Dialect) :
  Ranked (rules dialect) rank 30
  := by
  constructor
  · intro phrase
    cases phrase with
    | operation level =>
      apply Step.allFit_of_subset (operatorSteps_subset level)
      decide +kernel
    | _ => cases dialect <;> decide +kernel
  · intro phrase
    cases phrase with
    | operation level => rfl
    | _ => cases dialect <;> rfl
  · intro phrase
    cases phrase with
    | operation level => apply Nat.le_refl
    | _ => cases dialect <;> decide +kernel
  · decide

end Script

/-- The fuel of a script is enough. -/
theorem gives_program (dialect : Dialect) (text : List Char) :
  Gives (Script.rules dialect) (.read Script.program) (.start text)
    (run (Script.rules dialect) (256 * (text.length + 4)) Script.program (.start text)).yield
  := by
  apply gives_of_run (Script.ranked_rules dialect)
  · decide +kernel
  · have hdepth : Script.program.depth Script.rank ≤ 30 := by decide +kernel
    simp only [Cursor.start]
    omega

/-- A script is read exactly when the grammar gives some trees and only white space and comments
are left behind them. -/
theorem read_eq_ok_iff {dialect : Dialect} {text : List Char} {t : Tree} :
  read dialect text = .ok t
    ↔ ∃ trees c, Gives (Script.rules dialect) (.read Script.program) (.start text) (some (trees, c))
      ∧ c.next.rest = [] ∧ t = programOf text (trees ++ c.comments)
  := by
  have hgives := gives_program dialect text
  rw [read]
  cases hrun : run (Script.rules dialect) (256 * (text.length + 4)) Script.program (.start text) with
  | fail reach =>
    rw [hrun] at hgives
    constructor
    · intro h
      cases h
    · rintro ⟨trees, c, h, -⟩
      cases h.unique hgives
  | done trees c reach =>
    rw [hrun] at hgives
    obtain ⟨hreaches, -⟩ := hgives.reaches (Script.ranked_rules dialect) (by decide +kernel) rfl
    have hlength : c.rest.length ≤ text.length := hreaches.length_le
    have htrivia : trivia (256 * (text.length + 4)) c = (c.comments, c.next) := by
      apply Cursor.trivia_of_le
      omega
    simp only [htrivia, List.isEmpty_iff]
    constructor
    · intro h
      split at h
      next hrest =>
        cases h
        exact ⟨trees, c, hgives, hrest, rfl⟩
      next => split at h <;> cases h
    · rintro ⟨trees', c', h, hrest, rfl⟩
      cases h.unique hgives
      rw [if_pos hrest]

end Codemod.Grammar
