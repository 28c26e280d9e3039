import Codemod.Pattern.Parse
import Codemod.Tree.Node

/-!
# Rules that select nodes

A rule states what a node must be like: its kind, its role, its text, a pattern in its text, what
stands below it and around it, and what it must not be. A rule matches when all that it states
holds. The statements are taken in this order, so a malformed pattern matters only at a node that
meets the statements before it.
-/

namespace Codemod

/-- A condition on nodes. What is absent is not asked for. -/
structure Rule where
  /-- The names of the admitted kinds. -/
  kinds : Option (List String) := none
  /-- The name of the role for the parent. -/
  role : Option String := none
  /-- The exact text. -/
  text : Option (List Char) := none
  /-- A pattern that occurs in the text. -/
  pattern : Option (Except Pattern.Fault Pattern) := none
  /-- A rule that some node below matches. -/
  has : Option Rule := none
  /-- A rule that some node around matches. -/
  inside : Option Rule := none
  /-- A rule that the node itself does not match. -/
  without : Option Rule := none
  deriving Inhabited

/-- Whether a test that may fail holds of some item. Later items are not tried after one that
passes. -/
def anyOf {ε α : Type} (test : α → Except ε Bool) : List α → Except ε Bool
  | [] => .ok false
  | a :: as =>
    match test a with
    | .ok true => .ok true
    | .ok false => anyOf test as
    | .error e => .error e

/-- The items that pass a test that may fail. -/
def allThat {ε α : Type} (test : α → Except ε Bool) : List α → Except ε (List α)
  | [] => .ok []
  | a :: as =>
    match test a with
    | .ok keep => (allThat test as).map fun rest => if keep then a :: rest else rest
    | .error e => .error e

namespace Rule

/-- The rule for some kinds. -/
def ofKinds (names : List String) : Rule := { kinds := some names }

/-- The statements of a rule about a node itself: its kind, its role and its text. -/
def admits (kinds : Option (List String)) (role : Option String) (text : Option (List Char))
    (source : List Char) (n : Node) : Bool :=
  kinds.all (·.contains n.kind.name) &&
    role.all (n.role?.map Role.spelling = some ·) &&
    text.all (n.text source = ·)

/-- The statement of a rule about a pattern in the text of a node. -/
def showsPattern (pattern : Option (Except Pattern.Fault Pattern)) (source : List Char)
    (n : Node) : Except Pattern.Fault Bool :=
  match pattern with
  | none => .ok true
  | some (.error e) => .error e
  | some (.ok p) => .ok (p.occursIn (n.text source))

/-- Two answers of which the second is only asked for when the first is yes. -/
def andThen (first : Except Pattern.Fault Bool) (second : Unit → Except Pattern.Fault Bool) :
    Except Pattern.Fault Bool :=
  match first with
  | .ok true => second ()
  | other => other

mutual

/-- Whether a rule matches a node of a text. -/
def holdsAt (source : List Char) : Rule → Node → Except Pattern.Fault Bool
  | ⟨kinds, role, text, pattern, has, inside, without⟩, n =>
    if admits kinds role text source n then
      andThen (showsPattern pattern source n) fun _ =>
        andThen (someMatches source has n.descendants) fun _ =>
          andThen (someMatches source inside n.ancestors) fun _ =>
            refuses source without n
    else .ok false

/-- Whether a rule, if there is one, matches one of some nodes. -/
def someMatches (source : List Char) : Option Rule → List Node → Except Pattern.Fault Bool
  | none, _ => .ok true
  | some r, ns => anyOf (r.holdsAt source) ns

/-- Whether a rule, if there is one, does not match a node. -/
def refuses (source : List Char) : Option Rule → Node → Except Pattern.Fault Bool
  | none, _ => .ok true
  | some r, n => (r.holdsAt source n).map (!·)

end

/-- The nodes that match, from a node on in document order. -/
def findAll (r : Rule) (source : List Char) (n : Node) : Except Pattern.Fault (List Node) :=
  allThat (r.holdsAt source) n.preorder

/-- The first of some nodes that matches. -/
def firstAmong (r : Rule) (source : List Char) : List Node → Except Pattern.Fault (Option Node)
  | [] => .ok none
  | n :: ns =>
    match r.holdsAt source n with
    | .ok true => .ok (some n)
    | .ok false => firstAmong r source ns
    | .error e => .error e

/-- The first node that matches, from a node on in document order. -/
def find (r : Rule) (source : List Char) (n : Node) : Except Pattern.Fault (Option Node) :=
  r.firstAmong source n.preorder

/-! ### The source of an import -/

/-- The pattern of a module's name in quotes, and nothing else. -/
def modulePattern (module : List Char) : Pattern :=
  .cat .atStart (.cat .quote (.cat (.literal module) (.cat .quote .atEnd)))

/-- The rule for the string that names a module as the source of an import. -/
def moduleSource (module : List Char) : Rule :=
  { kinds := some ["string"], role := some "source", pattern := some (.ok (modulePattern module)) }

end Rule

end Codemod
