import Codemod.Session
import Mathlib.Tactic.Common

/-!
# What a session has been through

A session is used by calls, each of which tries one batch of edits or repeats rounds until nothing
is left to do. At any time the document of a session is the one that the batches that succeeded so
far lead to, one after the other from the first document on. A session has been changed when there
is such a batch, and its rounds are the batches that were tried, with or without success.
-/

namespace Codemod

/-- A document keeps what it was read from. -/
theorem Document.eq_of_parse {text : List Char} {language : String} {filename : Option String}
    {lenient : Bool} {d : Document} (h : parse text language filename lenient = .ok d) :
  d.text = text ∧ d.language = language ∧ d.filename = filename ∧ d.lenient = lenient
  := by
  rw [parse] at h
  split at h
  · cases h
  · split at h
    · cases h
      exact ⟨rfl, rfl, rfl, rfl⟩
    · split at h
      · cases h
        exact ⟨rfl, rfl, rfl, rfl⟩
      · cases h

namespace Session

variable {d d' d'' : Document} {s s' s'' : Session} {batch : List Edit}
  {batches batches' kept kept' : List (List Edit)}

/-! ### Batches in turn -/

/-- A batch leads from a document to another one: it can be committed, and the text that comes out
can be read. -/
def LeadsTo (d : Document) (batch : List Edit) (d' : Document) : Prop :=
  ∃ text, Edit.apply d.text batch = .ok text ∧ d.reread text = .ok d'

theorem revise_eq_ok :
  revise d batch = .ok d' ↔ LeadsTo d batch d'
  := by
  rw [revise, LeadsTo]
  cases Edit.apply d.text batch with
  | error e => simp
  | ok text =>
    simp only [Except.ok.injEq, exists_eq_left']
    cases d.reread text <;> simp

theorem not_leadsTo {e : ChangeError} (h : revise d batch = .error e) (d' : Document) :
  ¬ LeadsTo d batch d'
  := by
  intro hlead
  rw [revise_eq_ok.mpr hlead] at h
  cases h

/-- A document that a batch leads to has been read from its own text, in the way of the first
one. -/
theorem LeadsTo.reads (h : LeadsTo d batch d') :
  d'.language = d.language ∧ d'.filename = d.filename ∧ d'.lenient = d.lenient
    ∧ d.reread d'.text = .ok d'
  := by
  obtain ⟨text, -, hread⟩ := h
  obtain ⟨rfl, hlanguage, hfilename, hlenient⟩ := Document.eq_of_parse hread
  exact ⟨hlanguage, hfilename, hlenient, hread⟩

/-- Batches tried one after the other from a document on, with those that succeed and the document
in the end. A batch that fails leaves the document as it was. -/
inductive Tries : Document → List (List Edit) → List (List Edit) → Document → Prop where
  | nothing {d : Document} : Tries d [] [] d
  | success {d d' d'' : Document} {batch : List Edit} {batches kept : List (List Edit)}
      (h : LeadsTo d batch d') (hs : Tries d' batches kept d'') :
    Tries d (batch :: batches) (batch :: kept) d''
  | failure {d d'' : Document} {batch : List Edit} {batches kept : List (List Edit)}
      (h : ∀ d', ¬ LeadsTo d batch d') (hs : Tries d batches kept d'') :
    Tries d (batch :: batches) kept d''

theorem Tries.append (h : Tries d batches kept d') (h' : Tries d' batches' kept' d'') :
  Tries d (batches ++ batches') (kept ++ kept') d''
  := by
  induction h with
  | nothing => apply h'
  | success hlead _ ih => apply Tries.success hlead (ih h')
  | failure hfail _ ih => apply Tries.failure hfail (ih h')

/-- The text in the end is that of committing the batches that succeed, from the first one on. -/
theorem Tries.foldlM_apply (h : Tries d batches kept d') :
  kept.foldlM Edit.apply d.text = .ok d'.text
  := by
  induction h with
  | nothing => rfl
  | success hlead _ ih =>
    obtain ⟨text, happly, hread⟩ := hlead
    obtain ⟨rfl, -⟩ := Document.eq_of_parse hread
    rw [List.foldlM_cons, happly]
    apply ih
  | failure _ _ ih => apply ih

/-- The document in the end has been read from its own text, if the first one has. -/
theorem Tries.reads (h : Tries d batches kept d') (hd : d.reread d.text = .ok d) :
  d.reread d'.text = .ok d'
  := by
  induction h with
  | nothing => apply hd
  | success hlead _ ih =>
    obtain ⟨hlanguage, hfilename, hlenient, hread⟩ := hlead.reads
    rw [Document.reread, ← hlanguage, ← hfilename, ← hlenient]
    apply ih
    rw [Document.reread, hlanguage, hfilename, hlenient]
    apply hread
  | failure _ _ ih => apply ih hd

/-! ### Calls -/

/-- A call on a session. -/
inductive Call where
  /-- One round. -/
  | apply (edits : List Edit)
  /-- Rounds with the edits that are collected from each document. -/
  | untilStable (collect : Document → Except ChangeError (List Edit))

/-- The session that a call leaves. -/
def Call.after (s : Session) : Call → Session
  | .apply edits => (s.apply edits).1
  | .untilStable collect => (s.applyUntilStable collect).1

/-- Why something failed, if it did. -/
def failure? {ε α : Type} : Except ε α → Option ε
  | .error e => some e
  | .ok _ => none

/-- Why a call fails, if it does. -/
def Call.error? (s : Session) : Call → Option ChangeError
  | .apply edits => failure? (s.apply edits).2
  | .untilStable collect => failure? (s.applyUntilStable collect).2

/-- The batches that a repetition tries from a document on: what is collected there, as long as
there is something to do and it can be done. -/
def gathered (collect : Document → Except ChangeError (List Edit)) :
    (limit : Nat) → Document → List (List Edit)
  | 0, _ => []
  | limit + 1, d =>
    match collect d with
    | .error _ => []
    | .ok edits =>
      if edits.isEmpty then []
      else
        match revise d edits with
        | .error _ => [edits]
        | .ok d' => edits :: gathered collect limit d'

theorem ne_nil_of_mem_gathered {collect : Document → Except ChangeError (List Edit)} {limit : Nat}
    (h : batch ∈ gathered collect limit d) :
  batch ≠ []
  := by
  induction limit generalizing d with
  | zero => cases h
  | succ limit ih =>
    rw [gathered] at h
    split at h
    · cases h
    · rename_i edits _
      split at h
      · cases h
      · rename_i hne
        have hedits : edits ≠ [] := by simpa using hne
        split at h
        · rw [List.mem_singleton.mp h]
          apply hedits
        · rcases List.mem_cons.mp h with rfl | h
          · apply hedits
          · apply ih h

/-- The batches that a call tries. An empty batch is not tried. -/
def Call.tried (s : Session) : Call → List (List Edit)
  | .apply edits => if edits.isEmpty then [] else [edits]
  | .untilStable collect => gathered collect maxRounds s.document

theorem Call.ne_nil_of_mem_tried {call : Call} (h : batch ∈ call.tried s) :
  batch ≠ []
  := by
  cases call with
  | apply edits =>
    rw [tried] at h
    split at h
    · cases h
    · rename_i hne
      rw [List.mem_singleton.mp h]
      simpa using hne
  | untilStable collect => apply ne_nil_of_mem_gathered h

/-- The session after some calls, one after the other. -/
def run (s : Session) (calls : List Call) : Session :=
  calls.foldl Call.after s

/-- The batches that some calls try, one after the other. -/
def history (s : Session) : List Call → List (List Edit)
  | [] => []
  | call :: calls => call.tried s ++ history (call.after s) calls

theorem ne_nil_of_mem_history {calls : List Call} (h : batch ∈ history s calls) :
  batch ≠ []
  := by
  induction calls generalizing s with
  | nil => cases h
  | cons call calls ih =>
    rcases List.mem_append.mp h with h | h
    · apply Call.ne_nil_of_mem_tried h
    · apply ih h

/-! ### The account of a session -/

/-- One session comes out of another one by trying some batches, of which some succeed. -/
structure Account (s : Session) (batches kept : List (List Edit)) (s' : Session) : Prop where
  tries : Tries s.document batches kept s'.document
  changed : s'.changed = (s.changed || !kept.isEmpty)
  rounds : s'.rounds = s.rounds + batches.length

theorem Account.refl (s : Session) :
  Account s [] [] s
  := ⟨.nothing, by simp, rfl⟩

theorem Account.trans (h : Account s batches kept s') (h' : Account s' batches' kept' s'') :
  Account s (batches ++ batches') (kept ++ kept') s''
  := by
  constructor
  · apply h.tries.append h'.tries
  · rw [h'.changed, h.changed, Bool.or_assoc]
    congr 1
    cases kept <;> simp
  · rw [h'.rounds, h.rounds, List.length_append, Nat.add_assoc]

/-- A round without edits, one that succeeds, and one that fails. -/
theorem apply_cases (s : Session) (edits : List Edit) :
  (edits = [] ∧ s.apply edits = (s, .ok false))
  ∨ (edits ≠ [] ∧ ∃ d', LeadsTo s.document edits d'
    ∧ s.apply edits = (⟨d', true, s.rounds + 1⟩, .ok true))
  ∨ (edits ≠ [] ∧ ∃ e, revise s.document edits = .error e
    ∧ s.apply edits = ({ s with rounds := s.rounds + 1 }, .error e))
  := by
  rw [apply]
  cases edits with
  | nil => exact .inl ⟨rfl, rfl⟩
  | cons e es =>
    apply Or.inr
    cases hrevise : revise s.document (e :: es) with
    | error error => exact .inr ⟨List.cons_ne_nil e es, error, rfl, rfl⟩
    | ok d' => exact .inl ⟨List.cons_ne_nil e es, d', revise_eq_ok.mp hrevise, rfl⟩

/-- A session in which a round has succeeded. -/
theorem account_succeeded (h : LeadsTo s.document batch d') :
  Account s [batch] [batch] ⟨d', true, s.rounds + 1⟩
  := ⟨.success h .nothing, by simp, rfl⟩

/-- A session in which a round has failed. -/
theorem account_failed {e : ChangeError} (h : revise s.document batch = .error e) :
  Account s [batch] [] { s with rounds := s.rounds + 1 }
  := ⟨.failure (not_leadsTo h) .nothing, by simp, rfl⟩

/-- How a repetition ends that has come to a session and may go on for some more rounds: the batch
that it tries last, the session it leaves, and whether nothing is left to do. -/
inductive Closes (collect : Document → Except ChangeError (List Edit)) (left : Nat) (s : Session) :
    List (List Edit) → Session → Except ChangeError Bool → Prop where
  /-- No more rounds are allowed. -/
  | limit (h : left = 0) : Closes collect left s [] s (.ok false)
  /-- Nothing is collected. -/
  | stable (h : collect s.document = .ok []) : Closes collect left s [] s (.ok true)
  /-- The edits cannot be collected. -/
  | uncollected {e : ChangeError} (h : collect s.document = .error e) :
    Closes collect left s [] s (.error e)
  /-- The edits that are collected fail. -/
  | failed {batch : List Edit} {e : ChangeError} (hcollect : collect s.document = .ok batch)
      (hne : batch ≠ []) (h : revise s.document batch = .error e) :
    Closes collect left s [batch] { s with rounds := s.rounds + 1 } (.error e)

/-- A repetition makes rounds that succeed, and then ends in one of the four ways. -/
theorem repeatUpTo_cases (collect : Document → Except ChangeError (List Edit))
    (limit committed : Nat) (s : Session) :
  ∃ front s₁ last s' outcome, Account s front front s₁ ∧ front.length ≤ limit
    ∧ Closes collect (limit - front.length) s₁ last s' outcome
    ∧ gathered collect limit s.document = front ++ last
    ∧ repeatUpTo collect limit committed s
      = (s', outcome.map fun stable => ⟨committed + front.length, stable⟩)
  := by
  induction limit generalizing committed s with
  | zero => exact ⟨[], s, [], s, _, .refl s, Nat.le_refl 0, .limit rfl, rfl, rfl⟩
  | succ limit ih =>
    rw [repeatUpTo, gathered]
    cases hcollect : collect s.document with
    | error e => exact ⟨[], s, [], s, _, .refl s, Nat.zero_le _, .uncollected hcollect, rfl, rfl⟩
    | ok edits =>
      rcases apply_cases s edits with ⟨rfl, happly⟩ | ⟨hne, d', hlead, happly⟩
          | ⟨hne, e, hrevise, happly⟩
      · refine ⟨[], s, [], s, _, .refl s, Nat.zero_le _, .stable hcollect, rfl, ?_⟩
        simp only [happly]
        rfl
      · obtain ⟨front, s₂, last, s', outcome, hfront, hlength, hcloses, hgathered, hrepeat⟩ :=
          ih (committed + 1) ⟨d', true, s.rounds + 1⟩
        have hrevise := revise_eq_ok.mpr hlead
        refine ⟨edits :: front, s₂, last, s', outcome, (account_succeeded hlead).trans hfront, ?_,
          ?_, ?_, ?_⟩
        · apply Nat.succ_le_succ hlength
        · rw [List.length_cons, Nat.add_sub_add_right]
          apply hcloses
        · simp only [List.isEmpty_iff, hne, if_false, hrevise, hgathered, List.cons_append]
        · simp only [happly, hrepeat, List.length_cons]
          congr 3
          funext stable
          congr 1
          omega
      · refine ⟨[], s, [edits], _, .error e, .refl s, Nat.zero_le _,
          .failed hcollect hne hrevise, ?_, ?_⟩
        · simp only [List.isEmpty_iff, hne, if_false, hrevise, List.nil_append]
        · simp only [happly]
          rfl

/-- What holds of a document and is kept by every round of a repetition holds of the document in
the end, and a repetition that fails does so with the edits that are collected there. -/
theorem repeatUpTo_invariant (collect : Document → Except ChangeError (List Edit))
    {P : Document → Prop}
    (hstep : ∀ {d d' : Document} {edits : List Edit}, P d → collect d = .ok edits →
      LeadsTo d edits d' → P d')
    (limit committed : Nat) (hs : P s.document) :
  P (repeatUpTo collect limit committed s).1.document
    ∧ ∀ e, (repeatUpTo collect limit committed s).2 = .error e →
      collect (repeatUpTo collect limit committed s).1.document = .error e
      ∨ ∃ edits, edits ≠ [] ∧ collect (repeatUpTo collect limit committed s).1.document = .ok edits
        ∧ revise (repeatUpTo collect limit committed s).1.document edits = .error e
  := by
  induction limit generalizing committed s with
  | zero => exact ⟨hs, nofun⟩
  | succ limit ih =>
    rw [repeatUpTo]
    cases hcollect : collect s.document with
    | error e =>
      refine ⟨hs, ?_⟩
      intro e' he
      cases he
      apply Or.inl hcollect
    | ok edits =>
      rcases apply_cases s edits with ⟨rfl, happly⟩ | ⟨hne, d', hlead, happly⟩
          | ⟨hne, e, hrevise, happly⟩
      · simp only [happly]
        exact ⟨hs, nofun⟩
      · simp only [happly]
        apply ih (committed + 1) (hstep hs hcollect hlead)
      · simp only [happly]
        refine ⟨hs, ?_⟩
        intro e' he
        cases he
        exact .inr ⟨edits, hne, hcollect, hrevise⟩

/-! ### What a call does -/

/-- A call makes rounds that succeed, and then perhaps one more that fails. It fails exactly when
it has such a round, or when it cannot collect the edits for one. -/
theorem Call.account (call : Call) (s : Session) :
  ∃ front s₁, Account s front front s₁
    ∧ ((call.tried s = front ∧ call.after s = s₁
        ∧ ∀ e, call.error? s = some e →
          ∃ collect, call = .untilStable collect ∧ collect s₁.document = .error e)
      ∨ ∃ batch e, batch ≠ [] ∧ revise s₁.document batch = .error e
        ∧ call.tried s = front ++ [batch]
        ∧ call.after s = { s₁ with rounds := s₁.rounds + 1 } ∧ call.error? s = some e)
  := by
  cases call with
  | apply edits =>
    rcases apply_cases s edits with ⟨rfl, happly⟩ | ⟨hne, d', hlead, happly⟩
        | ⟨hne, e, hrevise, happly⟩
    · refine ⟨[], s, .refl s, .inl ⟨rfl, rfl, ?_⟩⟩
      intro e he
      rw [error?, happly] at he
      cases he
    · refine ⟨[edits], _, account_succeeded hlead, .inl ⟨?_, ?_, ?_⟩⟩
      · rw [tried, if_neg (by simpa using hne)]
      · rw [after, happly]
      · intro e he
        rw [error?, happly] at he
        cases he
    · refine ⟨[], s, .refl s, .inr ⟨edits, e, hne, hrevise, ?_, ?_, ?_⟩⟩
      · rw [tried, if_neg (by simpa using hne)]
        rfl
      · rw [after, happly]
      · rw [error?, happly]
        rfl
  | untilStable collect =>
    obtain ⟨front, s₁, last, s', outcome, haccount, -, hcloses, hgathered, hrepeat⟩ :=
      repeatUpTo_cases collect maxRounds 0 s
    have hafter : after s (.untilStable collect) = s' := by
      rw [after, applyUntilStable, hrepeat]
    have herror : error? s (.untilStable collect) = failure? outcome := by
      rw [error?, applyUntilStable, hrepeat]
      cases outcome <;> rfl
    refine ⟨front, s₁, haccount, ?_⟩
    rw [tried, hgathered, hafter, herror]
    cases hcloses with
    | limit => exact .inl ⟨List.append_nil front, rfl, nofun⟩
    | stable => exact .inl ⟨List.append_nil front, rfl, nofun⟩
    | uncollected h =>
      refine .inl ⟨List.append_nil front, rfl, ?_⟩
      intro e he
      cases he
      exact ⟨collect, rfl, h⟩
    | failed _ hne h => exact .inr ⟨_, _, hne, h, rfl, rfl, rfl⟩

/-- The batches that a call tries account for what it does. -/
theorem Call.exists_account (call : Call) (s : Session) :
  ∃ kept, Account s (call.tried s) kept (call.after s)
  := by
  obtain ⟨front, s₁, haccount, ⟨htried, hafter, -⟩ | ⟨batch, e, -, hrevise, htried, hafter, -⟩⟩ :=
    call.account s
  · rw [htried, hafter]
    exact ⟨front, haccount⟩
  · rw [htried, hafter]
    exact ⟨front ++ [], haccount.trans (account_failed hrevise)⟩

/-- The batches that some calls try account for what they do. -/
theorem exists_account (s : Session) (calls : List Call) :
  ∃ kept, Account s (history s calls) kept (run s calls)
  := by
  induction calls generalizing s with
  | nil => exact ⟨[], .refl s⟩
  | cons call calls ih =>
    obtain ⟨kept, hcall⟩ := call.exists_account s
    obtain ⟨kept', hcalls⟩ := ih (call.after s)
    exact ⟨kept ++ kept', hcall.trans hcalls⟩

/-- A repetition that finds nothing to do at first leaves the session as it was. -/
theorem after_untilStable {collect : Document → Except ChangeError (List Edit)}
    (h : collect s.document = .ok []) :
  Call.after s (.untilStable collect) = s
  := by
  rw [Call.after, applyUntilStable, maxRounds, repeatUpTo, h]
  rfl

/-- However a session is used, its document can be read from its own text, and this text comes from
the first one by committing the batches that succeeded, in turn. The session has been changed when
there is one, only then it has a result, and its rounds are the batches that were tried, all of
which had edits. A call that fails leaves what its last round that succeeded has left, and nothing
to do changes nothing. -/
theorem run_consistent {text : List Char} {language : String} {filename : Option String}
    {d : Document} (h : Document.parse text language filename false = .ok d) (calls : List Call) :
  let s := run (start d) calls
  let tried := history (start d) calls
  (∃ kept, Tries d tried kept s.document ∧ kept.foldlM Edit.apply text = .ok s.document.text
    ∧ (s.changed = true ↔ kept ≠ []))
  ∧ Document.parse s.document.text language filename false = .ok s.document
  ∧ (s.result = none ↔ s.changed = false)
  ∧ (s.changed = true → s.result = some s.document.text)
  ∧ s.rounds = tried.length
  ∧ (∀ batch ∈ tried, batch ≠ [])
  ∧ (∀ (call : Call) (e : ChangeError), call.error? s = some e →
      ∃ front d', Tries s.document front front d'
        ∧ (call.after s).document = d'
        ∧ (call.after s).changed = (s.changed || !front.isEmpty)
        ∧ ((call.tried s = front
            ∧ ∃ collect, call = .untilStable collect ∧ collect d' = .error e)
          ∨ ∃ batch, call.tried s = front ++ [batch] ∧ revise d' batch = .error e))
  ∧ Call.after s (.apply []) = s
  ∧ ∀ collect, collect s.document = .ok [] → Call.after s (.untilStable collect) = s
  := by
  intro s tried
  obtain ⟨rfl, rfl, rfl, hlenient⟩ := Document.eq_of_parse h
  obtain ⟨kept, haccount⟩ := exists_account (start d) calls
  have hfirst : d.reread d.text = .ok d := by
    rw [Document.reread, hlenient]
    apply h
  have hread : d.reread s.document.text = .ok s.document := haccount.tries.reads hfirst
  rw [Document.reread, hlenient] at hread
  have hchanged : s.changed = !kept.isEmpty := haccount.changed
  have hrounds : s.rounds = tried.length := haccount.rounds.trans (Nat.zero_add _)
  refine ⟨⟨kept, haccount.tries, haccount.tries.foldlM_apply, ?_⟩, hread, ?_, ?_, hrounds,
    fun _ => ne_nil_of_mem_history, ?_, rfl, fun _ => after_untilStable⟩
  · rw [hchanged]
    cases kept <;> simp
  · rw [result]
    cases s.changed <;> simp
  · intro hs
    rw [result, if_pos hs]
  · intro call e he
    obtain ⟨front, s₁, hfront, ⟨htried, hafter, hcause⟩ | ⟨batch, e', -, hrevise, htried, hafter,
      he'⟩⟩ := call.account s
    · rw [htried, hafter]
      exact ⟨front, s₁.document, hfront.tries, rfl, hfront.changed, .inl ⟨rfl, hcause e he⟩⟩
    · rw [he'] at he
      cases he
      rw [htried, hafter]
      exact ⟨front, s₁.document, hfront.tries, rfl, hfront.changed, .inr ⟨batch, rfl, hrevise⟩⟩

/-- A use of a session in which batches succeed, are empty, overlap, go beyond the text, cut a
character or give a text that cannot be read, and in which a repetition fails after two rounds. -/
def mixedCalls : List Call :=
  [.apply [], .apply [⟨0, 1, "b".toList⟩], .apply [⟨0, 2, []⟩, ⟨1, 3, []⟩], .apply [⟨3, 99, []⟩],
    .apply [⟨5, 6, []⟩], .apply [⟨4, 8, []⟩],
    .untilStable fun d =>
      .ok [if d.text.length < 10 then ⟨0, 0, "x".toList⟩ else ⟨0, 0, "(".toList⟩]]

set_option maxRecDepth 100000 in
/-- Of these batches three succeed. -/
theorem run_consistent_mixed :
  ∃ d, Document.parse "a = 'é';".toList "tsx" none false = .ok d
    ∧ (run (start d) mixedCalls).document.text = "xxb = 'é';".toList
    ∧ (run (start d) mixedCalls).changed = true
    ∧ (run (start d) mixedCalls).rounds = 8
    ∧ (∃ kept, Tries d (history (start d) mixedCalls) kept (run (start d) mixedCalls).document
      ∧ kept.foldlM Edit.apply "a = 'é';".toList = .ok "xxb = 'é';".toList)
    ∧ Document.parse "xxb = 'é';".toList "tsx" none false
      = .ok (run (start d) mixedCalls).document
  := by
  have hrun : ((Document.parse "a = 'é';".toList "tsx" none false).toOption.map fun d =>
      ((run (start d) mixedCalls).document.text, (run (start d) mixedCalls).changed,
        (run (start d) mixedCalls).rounds)) = some ("xxb = 'é';".toList, true, 8) := by
    decide +kernel
  cases hparse : Document.parse "a = 'é';".toList "tsx" none false with
  | error e =>
    rw [hparse] at hrun
    cases hrun
  | ok d =>
    rw [hparse] at hrun
    obtain ⟨htext, hrest⟩ := Prod.mk.inj (Option.some.inj hrun)
    obtain ⟨hchanged, hrounds⟩ := Prod.mk.inj hrest
    obtain ⟨⟨kept, htries, hkept, -⟩, hread, -⟩ := run_consistent hparse mixedCalls
    rw [htext] at hkept hread
    exact ⟨d, rfl, htext, hchanged, hrounds, ⟨kept, htries, hkept⟩, hread⟩

end Session

end Codemod
