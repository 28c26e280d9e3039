import Codemod.Settings.Yaml.Token

/-!
# Values of YAML documents

The tokens of a document give its value. Of several values for one key of a mapping the last one
counts. A key must be a scalar.
-/

namespace Codemod.Yaml

/-- What the tags of the core schema start with. -/
def coreTag : List Char := "tag:yaml.org,2002:".toList

/-- The full name of a tag. -/
def tagName? (handle suffix : List Char) : Option (List Char) :=
  if handle = [] then some suffix
  else if handle = ['!'] then some ('!' :: suffix)
  else if handle = ['!', '!'] then some (coreTag ++ suffix)
  else none

/-- Whether a tag is one of the core schema. -/
def isCore (tag : List Char) (name : String) : Bool := tag = coreTag ++ name.toList

/-- The value of a scalar with a tag. -/
def ofScalar? (tag : Option (List Char)) (text : List Char) (plain : Bool) : Option Value :=
  match tag with
  | none => if plain then resolve? text else some (.text text)
  | some tag =>
    if tag = ['!'] then resolve? text
    else if isCore tag "str" then some (.text text)
    else if isCore tag "null" then some .null
    else if isCore tag "int" then (integer? text).map .int
    else if isCore tag "float" then (decimal? text).map .decimal
    else if isCore tag "bool" then
      (truths.find? (·.1.toList = text.map Char.toLower)).map fun t => .bool t.2
    else none

/-- The value of a list with a tag. -/
def ofItems? (tag : Option (List Char)) (vs : List Value) : Option Value :=
  if tag.all fun t => t = ['!'] || isCore t "seq" then some (.list vs) else none

/-- Whether a value can be a key. -/
def isKey : Value → Bool
  | .list _ | .mapping _ => false
  | _ => true

/-- The value of a mapping with a tag. -/
def ofEntries? (tag : Option (List Char)) (es : List (Value × Value)) : Option Value :=
  if (tag.all fun t => t = ['!'] || isCore t "map") && es.all (isKey ·.1) then
    some (.mapping (es.foldl (fun done e => Value.insertEntry e.1 e.2 done) []))
  else none

/-- What follows the comma between two items in brackets. The first item has no comma. -/
def behindComma (first : Bool) : List Token → Option (List Token)
  | .flowItem :: ts => if first then some (.flowItem :: ts) else some ts
  | ts => if first then some ts else none

/-- A value that is left out. It needs a tag. -/
def leftOut? (tag : Option (List Char)) : Option Value :=
  if tag.isSome then ofScalar? tag [] true else none

mutual

/-- Reads a node, inside of a block or of brackets only. A list in a mapping need not be further in
than its key. -/
def node (block indentless : Bool) : (limit : Nat) → List Token → Option (Value × List Token)
  | 0, _ => none
  | limit + 1, .tag handle suffix :: ts =>
    (tagName? handle suffix).bind fun tag => content (some tag) block indentless limit ts
  | limit + 1, ts => content none block indentless limit ts

/-- Reads a node behind its tag. -/
def content (tag : Option (List Char)) (block indentless : Bool) :
    (limit : Nat) → List Token → Option (Value × List Token)
  | 0, _ => none
  | _ + 1, .scalar text plain :: ts => (ofScalar? tag text plain).map fun v => (v, ts)
  | limit + 1, .flowSequence :: ts =>
    (flowItems true limit ts).bind fun r => (ofItems? tag r.1).map fun v => (v, r.2)
  | limit + 1, .flowMapping :: ts =>
    (flowEntries true limit ts).bind fun r => (ofEntries? tag r.1).map fun v => (v, r.2)
  | limit + 1, t :: ts =>
    if indentless && t = .blockItem then
      (bareItems limit (t :: ts)).bind fun r => (ofItems? tag r.1).map fun v => (v, r.2)
    else if block && t = .blockSequence then
      (blockItems limit ts).bind fun r => (ofItems? tag r.1).map fun v => (v, r.2)
    else if block && t = .blockMapping then
      (blockEntries limit ts).bind fun r => (ofEntries? tag r.1).map fun v => (v, r.2)
    else (leftOut? tag).map fun v => (v, t :: ts)
  | _ + 1, [] => none

/-- Reads a node, or nothing when one of some tokens comes first. -/
def part (stops : List Token) (block indentless : Bool) :
    (limit : Nat) → List Token → Option (Value × List Token)
  | 0, _ => none
  | limit + 1, ts =>
    if ts.head?.any stops.contains then some (.null, ts) else node block indentless limit ts

/-- Reads the items of a block up to its end. -/
def blockItems : (limit : Nat) → List Token → Option (List Value × List Token)
  | 0, _ => none
  | _ + 1, .blockEnd :: ts => some ([], ts)
  | limit + 1, .blockItem :: ts =>
    (part [.blockItem, .blockEnd] true false limit ts).bind fun r =>
      (blockItems limit r.2).map fun rs => (r.1 :: rs.1, rs.2)
  | _ + 1, _ => none

/-- Reads the items of a list that is not further in than its key. -/
def bareItems : (limit : Nat) → List Token → Option (List Value × List Token)
  | 0, _ => none
  | limit + 1, .blockItem :: ts =>
    (part [.blockItem, .key, .value, .blockEnd] true false limit ts).bind fun r =>
      (bareItems limit r.2).map fun rs => (r.1 :: rs.1, rs.2)
  | _ + 1, ts => some ([], ts)

/-- Reads an entry of a mapping from behind the mark of its key on. The tokens that end it are
given. -/
def entry (stops : List Token) (block : Bool) :
    (limit : Nat) → List Token → Option ((Value × Value) × List Token)
  | 0, _ => none
  | limit + 1, ts =>
    (part (.value :: stops) block block limit ts).bind fun k =>
      match k.2 with
      | .value :: rest =>
        (part (if block then .value :: stops else stops) block block limit rest).map fun v =>
          ((k.1, v.1), v.2)
      | rest => some ((k.1, .null), rest)

/-- Reads the entries of a block up to its end. -/
def blockEntries : (limit : Nat) → List Token → Option (List (Value × Value) × List Token)
  | 0, _ => none
  | _ + 1, .blockEnd :: ts => some ([], ts)
  | limit + 1, .key :: ts =>
    (entry [.key, .blockEnd] true limit ts).bind fun e =>
      (blockEntries limit e.2).map fun es => (e.1 :: es.1, es.2)
  | _ + 1, _ => none

/-- Reads the items of a list in brackets up to its end. An entry counts as a mapping of its
own. -/
def flowItems (first : Bool) : (limit : Nat) → List Token → Option (List Value × List Token)
  | 0, _ => none
  | _ + 1, .flowSequenceEnd :: ts => some ([], ts)
  | limit + 1, ts =>
    match behindComma first ts with
    | none => none
    | some (.flowSequenceEnd :: rest) => some ([], rest)
    | some (.key :: rest) =>
      (entry [.flowItem, .flowSequenceEnd] false limit rest).bind fun e =>
        (ofEntries? none [e.1]).bind fun v =>
          (flowItems false limit e.2).map fun rs => (v :: rs.1, rs.2)
    | some rest =>
      (node false false limit rest).bind fun r =>
        (flowItems false limit r.2).map fun rs => (r.1 :: rs.1, rs.2)

/-- Reads the entries of a mapping in brackets up to its end. -/
def flowEntries (first : Bool) :
    (limit : Nat) → List Token → Option (List (Value × Value) × List Token)
  | 0, _ => none
  | _ + 1, .flowMappingEnd :: ts => some ([], ts)
  | limit + 1, ts =>
    match behindComma first ts with
    | none => none
    | some (.flowMappingEnd :: rest) => some ([], rest)
    | some (.key :: rest) =>
      (entry [.flowItem, .flowMappingEnd] false limit rest).bind fun e =>
        (flowEntries false limit e.2).map fun es => (e.1 :: es.1, es.2)
    | some rest =>
      (node false false limit rest).bind fun k =>
        (flowEntries false limit k.2).map fun es => ((k.1, .null) :: es.1, es.2)

end

/-- Whether only ends of the document are left. -/
def isFinished : List Token → Bool
  | [] => true
  | t :: ts => (t = .documentEnd || t = .streamEnd) && isFinished ts

/-- The value of some tokens. An empty document has no value. -/
def ofTokens? (ts : List Token) : Option Value :=
  let limit := 4 * ts.length + 8
  match ts with
  | [.streamEnd] => some .null
  | .documentStart :: rest =>
    match rest with
    | .documentEnd :: _ | .streamEnd :: _ => if isFinished rest then some .null else none
    | _ => (node true false limit rest).bind fun r => if isFinished r.2 then some r.1 else none
  | _ => (node true false limit ts).bind fun r => if isFinished r.2 then some r.1 else none

/-- The value of a document, unless it is malformed. -/
def read? (cs : List Char) : Option Value := (tokens? cs).bind ofTokens?

end Codemod.Yaml
