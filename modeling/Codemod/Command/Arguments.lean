import Codemod.Text.Word

/-!
# Arguments of a command

The arguments of a command are switches and places. A switch starts with a dash and may be cut
short as long as it is the only one that starts so. Short switches can be written together. A value
follows its switch, or an equals sign. All arguments behind two dashes are places. Places are taken
in order, and whatever cannot be taken is left over. Nothing is taken behind a switch that asks for
help.
-/

namespace Codemod

/-- A switch with its names. -/
structure Switch where
  names : List (List Char)
  /-- Whether a value belongs to it. -/
  takesValue : Bool
  deriving DecidableEq, Repr

/-- What a place takes. -/
inductive Place where
  /-- One argument. -/
  | one
  /-- At least one argument. -/
  | several
  /-- One argument and everything behind it, switches included. -/
  | everything
  deriving DecidableEq, Repr

/-- What a command takes. -/
structure Usage where
  switches : List Switch
  places : List Place

/-- What has been taken from the arguments of a command. -/
structure Taken where
  /-- The switches in order, by the first of their names, with their values. -/
  switches : List (List Char × Option (List Char))
  /-- The arguments of each place that got some. -/
  places : List (List (List Char))
  /-- The arguments that are left over. -/
  extras : List (List Char)
  deriving DecidableEq, Repr

namespace Usage

/-- What an argument may be. -/
inductive Mark where
  | plain
  | dashes
  /-- A switch, if there is such a one, with the name it is called by and the value it is given. -/
  | option (switch : Option Switch) (name : List Char) (value : Option (List Char))

/-- A switch under one of its names. -/
def named? (u : Usage) (name : List Char) : Option Switch :=
  u.switches.find? (·.names.contains name)

/-- The text before the first equals sign of an argument, and the text behind it. -/
def splitEquals (arg : List Char) : List Char × Option (List Char) :=
  let front := arg.takeWhile (· ≠ '=')
  (front, if front.length < arg.length then some (arg.drop (front.length + 1)) else none)

/-- The switches that an argument may be short for. -/
def candidates (u : Usage) (arg : List Char) : List Mark :=
  let names := u.switches.flatMap fun s => s.names.map fun n => (s, n)
  match arg with
  | _ :: '-' :: _ =>
    let (front, value) := splitEquals arg
    (names.filter fun n => front.isPrefixOf n.2).map fun n => .option (some n.1) n.2 value
  | _ =>
    names.filterMap fun n =>
      if n.2 = arg.take 2 then some (.option (some n.1) n.2 (some (arg.drop 2)))
      else if arg.isPrefixOf n.2 then some (.option (some n.1) n.2 none)
      else none

/-- Whether an argument is a negative number. -/
def isNegative : List Char → Bool
  | '-' :: cs =>
    let whole := cs.takeWhile Text.isDecimal
    match cs.drop whole.length with
    | [] => !whole.isEmpty
    | '.' :: ds => !ds.isEmpty && ds.all Text.isDecimal
    | _ => false
  | _ => false

/-- What an argument is. An argument that may be short for several switches is refused. -/
def mark? (u : Usage) (arg : List Char) : Option Mark :=
  if arg.head? ≠ some '-' then some .plain
  else
    match u.named? arg, splitEquals arg with
    | some s, _ => some (.option (some s) arg none)
    | none, (front, value) =>
      if arg.length = 1 then some .plain
      else
        match u.named? front with
        | some s => some (.option (some s) front value)
        | none =>
          match u.candidates arg with
          | [m] => some m
          | _ :: _ :: _ => none
          | [] =>
            if isNegative arg || arg.contains ' ' then some .plain
            else some (.option none arg none)

/-- What some arguments are. -/
def marks? (u : Usage) : List (List Char) → Option (List (List Char × Mark))
  | [] => some []
  | arg :: args =>
    if arg = ['-', '-'] then some ((arg, .dashes) :: args.map fun a => (a, .plain))
    else (u.mark? arg).bind fun m => (u.marks? args).map ((arg, m) :: ·)

/-- Whether an argument is a switch. -/
def Mark.isOption : Mark → Bool
  | option .. => true
  | _ => false

/-- Whether an argument is a plain one. -/
def Mark.isPlain : Mark → Bool
  | plain => true
  | _ => false

/-- Whether an argument is two dashes. -/
def Mark.isDashes : Mark → Bool
  | dashes => true
  | _ => false

/-! ### Places -/

/-- The number of arguments that a place takes, if it can take any. -/
def placeLength? (p : Place) (args : List (List Char × Mark)) : Option Nat :=
  let lead := (args.takeWhile (·.2.isDashes)).length
  match args.drop lead with
  | (_, m) :: rest =>
    if m.isPlain then
      let more :=
        match p with
        | .one => (rest.takeWhile (·.2.isDashes)).length
        | .several => (rest.takeWhile (!·.2.isOption)).length
        | .everything => rest.length
      some (lead + 1 + more)
    else none
  | [] => none

/-- The arguments of a place without the two dashes among them. -/
def placeValues (p : Place) (args : List (List Char)) : List (List Char) :=
  match p with
  | .everything => args
  | _ => args.erase ['-', '-']

/-- Fills places in order as far as possible: the arguments for each of them, the places that are
left, and the arguments that are left. -/
def fill : List Place → List (List Char × Mark) →
    List (List (List Char)) × List Place × List (List Char × Mark)
  | [], args => ([], [], args)
  | p :: ps, args =>
    match placeLength? p args with
    | none => ([], p :: ps, args)
    | some n =>
      let (filled, left, rest) := fill ps (args.drop n)
      (placeValues p ((args.take n).map Prod.fst) :: filled, left, rest)

/-! ### Switches -/

/-- The switches that are written together behind a first one. -/
def together (u : Usage) : Switch → List Char → Option (List (List Char × Option (List Char)))
  | s, [] => if s.takesValue then none else some [(s.names.head?.getD [], none)]
  | s, c :: cs =>
    if s.takesValue then some [(s.names.head?.getD [], some (c :: cs))]
    else
      match u.named? ['-', c] with
      | none => none
      | some next => (u.together next cs).map ((s.names.head?.getD [], none) :: ·)

/-- What a switch takes: the switches that it stands for, and the arguments behind it. -/
def takeSwitch? (u : Usage) (s : Switch) (name : List Char) (value : Option (List Char))
    (rest : List (List Char × Mark)) :
    Option (List (List Char × Option (List Char)) × List (List Char × Mark)) :=
  let label := s.names.head?.getD []
  match value with
  | some v =>
    if s.takesValue then some ([(label, some v)], rest)
    else if (name.drop 1).head? = some '-' || v.isEmpty then none
    else (u.together s v).map fun ss => (ss, rest)
  | none =>
    if s.takesValue then
      match rest with
      | (arg, .plain) :: rest => some ([(label, some arg)], rest)
      | _ => none
    else some ([(label, none)], rest)

/-- Takes switches and places in turn. -/
def takeFrom (u : Usage) : (limit : Nat) → List Place → List (List Char × Mark) → Option Taken
  | 0, _, _ => none
  | limit + 1, places, args =>
    match args with
    | (arg, .option none _ _) :: rest =>
      (u.takeFrom limit places rest).map fun t => { t with extras := arg :: t.extras }
    | (_, .option (some s) name value) :: rest =>
      (u.takeSwitch? s name value rest).bind fun r =>
        if r.1.any (·.1 = "--help".toList) then some ⟨r.1, [], []⟩
        else (u.takeFrom limit places r.2).map fun t => { t with switches := r.1 ++ t.switches }
    | _ =>
      let (filled, left, rest) := fill places args
      if !filled.isEmpty then
        (u.takeFrom limit left rest).map fun t => { t with places := filled ++ t.places }
      else
        let extra := (args.takeWhile (!·.2.isOption)).map Prod.fst
        if extra.length = args.length then some ⟨[], [], extra⟩
        else
          (u.takeFrom limit places (args.drop extra.length)).map fun t =>
            { t with extras := extra ++ t.extras }

/-- Takes the arguments of a command, unless they cannot be understood. -/
def take? (u : Usage) (args : List (List Char)) : Option Taken :=
  (u.marks? args).bind fun marked => u.takeFrom (2 * args.length + 2) u.places marked

end Usage

namespace Taken

/-- Whether a switch is there. -/
def has (t : Taken) (name : String) : Bool := t.switches.any (·.1 = name.toList)

/-- The last value of a switch. -/
def value? (t : Taken) (name : String) : Option (List Char) :=
  ((t.switches.filter (·.1 = name.toList)).getLast?).bind Prod.snd

end Taken

end Codemod
