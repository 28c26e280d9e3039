import Codemod.Document
import Codemod.Edit.Basic
import Codemod.Tree.Rule

/-!
# Sessions

A session changes one document in rounds. Each round commits a batch of edits and reads the text
that comes out, so that the next round works on a fresh tree. A round that fails leaves the
document as it was.
-/

namespace Codemod

/-- Why a change fails. -/
inductive ChangeError where
  | edit (error : EditError)
  | parse (error : ParseError)
  | pattern (fault : Pattern.Fault)
  deriving DecidableEq, Repr

/-- An error in words. -/
def ChangeError.message : ChangeError → String
  | edit e => e.message
  | parse e => e.message
  | pattern _ => "Malformed pattern"

/-- What a reader of the log is told about a change. -/
inductive Notice where
  | roundLimit (rounds : Nat)
  deriving DecidableEq, Repr

/-- A notice in words. -/
def Notice.message : Notice → String
  | roundLimit rounds => s!"Stopped after {rounds} rounds without reaching a fixpoint"

/-- A document, whether it has been changed, and the number of rounds tried. -/
structure Session where
  document : Document
  changed : Bool
  rounds : Nat

namespace Session

/-- The limit on the rounds of one repetition. -/
def maxRounds : Nat := 100

/-- A session that has done nothing yet. -/
def start (d : Document) : Session := ⟨d, false, 0⟩

/-- The document after a batch of edits. -/
def revise (d : Document) (edits : List Edit) : Except ChangeError Document :=
  match Edit.apply d.text edits with
  | .error e => .error (.edit e)
  | .ok text =>
    match d.reread text with
    | .error e => .error (.parse e)
    | .ok d' => .ok d'

/-- One round: whether there was anything to do. -/
def apply (s : Session) (edits : List Edit) : Session × Except ChangeError Bool :=
  if edits.isEmpty then (s, .ok false)
  else
    match revise s.document edits with
    | .error e => ({ s with rounds := s.rounds + 1 }, .error e)
    | .ok d => (⟨d, true, s.rounds + 1⟩, .ok true)

/-- What a repetition comes to: the number of rounds that changed the document, and whether the
last round found nothing more to do. -/
structure Settled where
  committed : Nat
  stable : Bool
  deriving DecidableEq, Repr

/-- Repeats rounds until one finds nothing to do, at most `limit` times. -/
def repeatUpTo (collect : Document → Except ChangeError (List Edit)) :
    (limit committed : Nat) → Session → Session × Except ChangeError Settled
  | 0, committed, s => (s, .ok ⟨committed, false⟩)
  | limit + 1, committed, s =>
    match collect s.document with
    | .error e => (s, .error e)
    | .ok edits =>
      match s.apply edits with
      | (s', .error e) => (s', .error e)
      | (s', .ok false) => (s', .ok ⟨committed, true⟩)
      | (s', .ok true) => repeatUpTo collect limit (committed + 1) s'

/-- Repeats rounds until one finds nothing to do, or the limit is reached. -/
def applyUntilStable (s : Session) (collect : Document → Except ChangeError (List Edit)) :
    Session × Except ChangeError Settled :=
  repeatUpTo collect maxRounds 0 s

/-- The notices of a repetition. -/
def Settled.notices (r : Settled) : List Notice :=
  if r.stable then [] else [.roundLimit maxRounds]

/-- The text of the session, or nothing when it has not been changed. -/
def result (s : Session) : Option (List Char) :=
  if s.changed then some s.document.text else none

end Session

end Codemod
