import Codemod.Proofs.Session
import Mathlib.Data.ENat.Lattice

/-!
# Rounds until nothing is left to do

A repetition makes rounds until nothing is collected any more, or until the limit is reached. The
documents that it comes to do not depend on the session: they are those after no round, after one
round and so on. A repetition in which no round fails stops at the first of them from which nothing
is collected, if this one comes before the limit.
-/

namespace Codemod.Session

variable {collect : Document → Except ChangeError (List Edit)} {d d' : Document} {s : Session}

/-! ### Documents after some rounds -/

/-- The document after some rounds, each with the edits that are collected from the document before
it. A round without edits leaves the document as it is. -/
def documentAfter (collect : Document → Except ChangeError (List Edit)) :
    (rounds : Nat) → Document → Except ChangeError Document
  | 0, d => .ok d
  | k + 1, d =>
    match collect d with
    | .error e => .error e
    | .ok edits =>
      if edits.isEmpty then documentAfter collect k d
      else
        match revise d edits with
        | .error e => .error e
        | .ok d' => documentAfter collect k d'

/-- The numbers of rounds after which nothing is collected. -/
def idleAfter (collect : Document → Except ChangeError (List Edit)) (d : Document) : Set Nat :=
  {k | ∃ d', documentAfter collect k d = .ok d' ∧ collect d' = .ok []}

theorem documentAfter_step {edits : List Edit} (hcollect : collect d = .ok edits)
    (hne : edits ≠ []) (hlead : LeadsTo d edits d') (k : Nat) :
  documentAfter collect (k + 1) d = documentAfter collect k d'
  := by
  rw [documentAfter, hcollect]
  simp only [List.isEmpty_iff, hne, if_false, revise_eq_ok.mpr hlead]

theorem zero_mem_idleAfter :
  0 ∈ idleAfter collect d ↔ collect d = .ok []
  := by
  constructor
  · rintro ⟨d', hd', hidle⟩
    cases hd'
    exact hidle
  · intro hidle
    exact ⟨d, rfl, hidle⟩

theorem succ_mem_idleAfter {edits : List Edit} (hcollect : collect d = .ok edits)
    (hne : edits ≠ []) (hlead : LeadsTo d edits d') {k : Nat} :
  k + 1 ∈ idleAfter collect d ↔ k ∈ idleAfter collect d'
  := by
  simp only [idleAfter, Set.mem_ofPred_eq, documentAfter_step hcollect hne hlead]

/-- A first round that does not fail has nothing to do, or leads to another document. -/
theorem first_round {k : Nat} (h : documentAfter collect (k + 1) d = .ok d') :
  collect d = .ok []
  ∨ ∃ edits d₁, edits ≠ [] ∧ collect d = .ok edits ∧ LeadsTo d edits d₁
    ∧ documentAfter collect k d₁ = .ok d'
  := by
  rw [documentAfter] at h
  cases hcollect : collect d with
  | error e =>
    rw [hcollect] at h
    cases h
  | ok edits =>
    rw [hcollect] at h
    by_cases hne : edits = []
    · exact .inl (congrArg Except.ok hne)
    · simp only [List.isEmpty_iff, hne, if_false] at h
      cases hrevise : revise d edits with
      | error e =>
        rw [hrevise] at h
        cases h
      | ok d₁ =>
        rw [hrevise] at h
        exact .inr ⟨edits, d₁, hne, rfl, revise_eq_ok.mp hrevise, h⟩

/-! ### Where a repetition stops -/

/-- A session that some rounds have led to, all of them with something to do. If there are fewer
than the limit, nothing is left to do. -/
structure Stops (collect : Document → Except ChangeError (List Edit)) (limit : Nat) (s : Session)
    (n : Nat) (s' : Session) : Prop where
  le : n ≤ limit
  busy : ∀ k < n, k ∉ idleAfter collect s.document
  document : documentAfter collect n s.document = .ok s'.document
  rounds : s'.rounds = s.rounds + n
  changed : s'.changed = (s.changed || decide (0 < n))
  idle : n < limit → collect s'.document = .ok []

theorem Stops.here {limit : Nat} (h : 0 < limit → collect s.document = .ok []) :
  Stops collect limit s 0 s
  := ⟨Nat.zero_le limit, nofun, rfl, rfl, by simp, h⟩

theorem Stops.round {limit n : Nat} {edits : List Edit} {s' : Session}
    (hcollect : collect s.document = .ok edits) (hne : edits ≠ [])
    (hlead : LeadsTo s.document edits d)
    (h : Stops collect limit ⟨d, true, s.rounds + 1⟩ n s') :
  Stops collect (limit + 1) s (n + 1) s'
  := by
  refine ⟨Nat.succ_le_succ h.le, ?_, ?_, ?_, ?_, ?_⟩
  · intro k hk
    cases k with
    | zero =>
      rw [zero_mem_idleAfter, hcollect]
      simpa using hne
    | succ k =>
      rw [succ_mem_idleAfter hcollect hne hlead]
      apply h.busy k (Nat.lt_of_succ_lt_succ hk)
  · rw [documentAfter_step hcollect hne hlead]
    apply h.document
  · rw [h.rounds]
    apply Nat.succ_add_eq_add_succ
  · rw [h.changed]
    simp
  · intro hlt
    apply h.idle (Nat.lt_of_succ_lt_succ hlt)

/-- A repetition in which no round fails stops. -/
theorem repeatUpTo_stops {limit : Nat} (committed : Nat)
    (h : documentAfter collect limit s.document = .ok d) :
  ∃ n s', Stops collect limit s n s'
    ∧ repeatUpTo collect limit committed s = (s', .ok ⟨committed + n, decide (n < limit)⟩)
  := by
  induction limit generalizing committed s with
  | zero => exact ⟨0, s, .here nofun, rfl⟩
  | succ limit ih =>
    rw [repeatUpTo]
    rcases first_round h with hcollect | ⟨edits, d₁, hne, hcollect, hlead, hrest⟩
    · refine ⟨0, s, .here fun _ => hcollect, ?_⟩
      rw [hcollect]
      simp [apply]
    · obtain ⟨n, s', hstops, hrepeat⟩ :=
        ih (s := ⟨d₁, true, s.rounds + 1⟩) (committed + 1) hrest
      refine ⟨n + 1, s', hstops.round hcollect hne hlead, ?_⟩
      rw [hcollect]
      simp only [apply, List.isEmpty_iff, hne, if_false, revise_eq_ok.mpr hlead, hrepeat,
        Nat.add_lt_add_iff_right]
      rw [Nat.succ_add_eq_add_succ]

/-- The rounds are counted up to the limit or to the first time that nothing is left to do. -/
theorem Stops.count_eq {limit n : Nat} {s' : Session} (h : Stops collect limit s n s') :
  (n : ℕ∞) = min (limit : ℕ∞) (⨅ k ∈ idleAfter collect s.document, (k : ℕ∞))
  := by
  apply le_antisymm
  · apply le_min (Nat.cast_le.mpr h.le)
    apply le_iInf₂
    intro k hk
    apply Nat.cast_le.mpr
    apply Nat.le_of_not_lt
    intro hlt
    exact h.busy k hlt hk
  · rcases Nat.lt_or_eq_of_le h.le with hlt | rfl
    · apply le_trans (min_le_right _ _)
      exact iInf₂_le n ⟨_, h.document, h.idle hlt⟩
    · apply min_le_left

/-- A repetition that comes to its end below the limit leaves nothing to do. -/
theorem idle_of_settled {s' : Session} {settled : Settled}
    (h : s.applyUntilStable collect = (s', .ok settled)) (hlt : settled.committed < maxRounds) :
  collect s'.document = .ok []
  := by
  obtain ⟨front, s₁, last, s₂, outcome, -, hfront, hcloses, -, hrepeat⟩ :=
    repeatUpTo_cases collect maxRounds 0 s
  rw [applyUntilStable, hrepeat] at h
  cases hcloses with
  | limit hleft =>
    cases h
    rw [Nat.zero_add] at hlt
    exact absurd hleft (Nat.sub_ne_zero_of_lt hlt)
  | stable hidle =>
    cases h
    exact hidle
  | uncollected => cases h
  | failed => cases h

/-- A repetition in which no round fails makes as many rounds as it takes until nothing is left to
do, but no more than the limit. It leaves the document that they lead to. Below the limit nothing is
collected from this document, so that repeating it once more changes nothing. -/
theorem applyUntilStable_first {s : Session} {collect : Document → Except ChangeError (List Edit)}
    {d : Document} (h : documentAfter collect 100 s.document = .ok d) :
  ∃ (n : Nat) (s' : Session),
    s.applyUntilStable collect = (s', .ok ⟨n, decide (n < 100)⟩)
    ∧ (n : ℕ∞) = min 100 (⨅ k ∈ idleAfter collect s.document, (k : ℕ∞))
    ∧ documentAfter collect n s.document = .ok s'.document
    ∧ s'.rounds = s.rounds + n
    ∧ s'.changed = (s.changed || decide (0 < n))
    ∧ (n < 100 → collect s'.document = .ok []
      ∧ s'.applyUntilStable collect = (s', .ok ⟨0, true⟩))
  := by
  obtain ⟨n, s', hstops, hrepeat⟩ := repeatUpTo_stops 0 h
  rw [Nat.zero_add] at hrepeat
  refine ⟨n, s', hrepeat, hstops.count_eq, hstops.document, hstops.rounds, hstops.changed, ?_⟩
  intro hlt
  have hidle := hstops.idle hlt
  refine ⟨hidle, ?_⟩
  rw [applyUntilStable, maxRounds, repeatUpTo, hidle]
  rfl

/-- Takes a letter off the front of a text. -/
def takeOff (letter : Char) (d : Document) : Except ChangeError (List Edit) :=
  .ok (if d.text.head? = some letter then [⟨0, 1, []⟩] else [])

set_option maxRecDepth 100000 in
/-- Three letters to take off, in a session that has made seven rounds. -/
theorem applyUntilStable_first_letters :
  ∃ d d' : Document, Document.parse "aaab;".toList "tsx" none false = .ok d
    ∧ documentAfter (takeOff 'a') 100 d = .ok d'
    ∧ ∃ s', applyUntilStable ⟨d, false, 7⟩ (takeOff 'a') = (s', .ok ⟨3, true⟩)
      ∧ (3 : ℕ∞) = min 100 (⨅ k ∈ idleAfter (takeOff 'a') d, (k : ℕ∞))
      ∧ documentAfter (takeOff 'a') 3 d = .ok s'.document
      ∧ s'.rounds = 10 ∧ s'.changed = true
      ∧ takeOff 'a' s'.document = .ok []
      ∧ s'.applyUntilStable (takeOff 'a') = (s', .ok ⟨0, true⟩)
  := by
  have hrun : ((Document.parse "aaab;".toList "tsx" none false).toOption.map fun d =>
      ((documentAfter (takeOff 'a') 100 d).toOption.isSome,
        (applyUntilStable ⟨d, false, 7⟩ (takeOff 'a')).2))
      = some (true, .ok ⟨3, true⟩) := by
    decide +kernel
  cases hparse : Document.parse "aaab;".toList "tsx" none false with
  | error e =>
    rw [hparse] at hrun
    cases hrun
  | ok d =>
    rw [hparse] at hrun
    obtain ⟨hafter, hsettled⟩ := Prod.mk.inj (Option.some.inj hrun)
    cases hd' : documentAfter (takeOff 'a') 100 d with
    | error e =>
      rw [hd'] at hafter
      cases hafter
    | ok d' =>
      obtain ⟨n, s', happly, hcount, hdocument, hrounds, hchanged, hidle⟩ :=
        applyUntilStable_first (s := ⟨d, false, 7⟩) hd'
      rw [happly] at hsettled
      obtain rfl : n = 3 := congrArg Settled.committed (Except.ok.inj hsettled)
      obtain ⟨hcollect, hagain⟩ := hidle (by decide)
      exact ⟨d, d', rfl, hd', s', happly, hcount, hdocument, hrounds, hchanged, hcollect, hagain⟩

end Codemod.Session
