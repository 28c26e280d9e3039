import Codemod.Settings.Yaml.Scalar

/-!
# Tokens of a YAML document

The indentation of a block shows in tokens that open and close it. What turns out to be a key only
when its colon comes is marked as one afterwards: until then it is kept in mind as a possible key,
which ends with its line.
-/

namespace Codemod.Yaml

/-- A token of a document. -/
inductive Token where
  | documentStart | documentEnd | streamEnd
  | blockSequence | blockMapping | blockEnd
  | flowSequence | flowSequenceEnd | flowMapping | flowMappingEnd
  | blockItem | flowItem | key | value
  | tag (handle suffix : List Char)
  | scalar (text : List Char) (plain : Bool)
  deriving DecidableEq, Repr

/-- A place where a key may have started. -/
structure PossibleKey where
  /-- The number of tokens before it. -/
  tokens : Nat
  /-- Whether there has to be a key. -/
  required : Bool
  index : Nat
  line : Nat
  column : Nat

/-- A document that has been read in part. -/
structure Scan where
  stream : Stream
  /-- The number of open brackets. -/
  flow : Nat
  /-- The column of the innermost block. -/
  indent : Int
  /-- The columns of the blocks around it. -/
  indents : List Int
  /-- Whether a key may start here. -/
  allowKey : Bool
  /-- The possible keys by the number of open brackets. -/
  keys : List (Nat × PossibleKey)
  tokens : List Token

namespace Scan

/-- A document before any of it is read. -/
def start (cs : List Char) : Scan := ⟨.start cs, 0, -1, [], true, [], []⟩

/-- The column that has been reached. -/
def column (s : Scan) : Int := s.stream.column

/-- Adds a token. -/
def push (s : Scan) (t : Token) : Scan := { s with tokens := s.tokens ++ [t] }

/-- Adds a token in front of those that have been read from a number on. -/
def pushAt (s : Scan) (n : Nat) (t : Token) : Scan :=
  { s with tokens := s.tokens.take n ++ t :: s.tokens.drop n }

/-- Adds a token of some characters. -/
def take (s : Scan) (n : Nat) (t : Token) : Scan :=
  { s.push t with stream := s.stream.forward n }

/-- Sets whether a key may start. -/
def allow (s : Scan) (b : Bool) : Scan := { s with allowKey := b }

/-- Skips blanks, comments and the ends of lines. -/
def skipFrom : (limit : Nat) → Scan → Scan
  | 0, s => s
  | limit + 1, s =>
    let s₁ := s.stream.forward (s.stream.rest.takeWhile (· = ' ')).length
    let s₂ := if s₁.sees '#' then s₁.forward (s₁.rest.takeWhile (!isBreak ·)).length else s₁
    match s₂.lineBreak? with
    | none => { s with stream := s₂ }
    | some (_, s₃) => skipFrom limit { s with stream := s₃, allowKey := s.allowKey || s.flow = 0 }

/-- Skips to the next token. A byte order mark at the beginning does not count. -/
def skip (s : Scan) : Scan :=
  let marked := s.stream.index = 0 && s.stream.next?.any (·.val = 0xFEFF)
  let stream := if marked then s.stream.step else s.stream
  skipFrom (stream.rest.length + 1) { s with stream := stream }

/-! ### Possible keys -/

/-- Whether a possible key is none any more: a key ends on its line and has a limited length. -/
def isStale (s : Scan) (k : PossibleKey) : Bool :=
  k.line ≠ s.stream.line || 1024 < s.stream.index - k.index

/-- Forgets possible keys that are none any more. -/
def dropStale (s : Scan) : Option Scan :=
  if s.keys.any fun k => s.isStale k.2 && k.2.required then none
  else some { s with keys := s.keys.filter fun k => !s.isStale k.2 }

/-- The possible key at this depth of brackets. -/
def key? (s : Scan) : Option PossibleKey := (s.keys.find? (·.1 = s.flow)).map Prod.snd

/-- Forgets the possible key at this depth of brackets. -/
def forgetKey (s : Scan) : Scan := { s with keys := s.keys.filter (·.1 ≠ s.flow) }

/-- Forgets the possible key at this depth of brackets, unless there has to be one. -/
def removeKey (s : Scan) : Option Scan :=
  if s.key?.any (·.required) then none else some s.forgetKey

/-- Keeps this place in mind as a possible key. -/
def saveKey (s : Scan) : Option Scan :=
  if s.allowKey then
    s.removeKey.map fun s' =>
      let k := ⟨s.tokens.length, s.flow = 0 && s.indent = s.column, s.stream.index, s.stream.line,
        s.stream.column⟩
      { s' with keys := (s.flow, k) :: s'.keys }
  else some s

/-! ### Indentation -/

/-- The blocks that are still open at a column, and the number of those that are closed. -/
def unwindFrom (column : Int) : (indent : Int) → List Int → Int × List Int × Nat
  | indent, [] => (indent, [], 0)
  | indent, i :: is =>
    if column < indent then
      let (indent', is', n) := unwindFrom column i is
      (indent', is', n + 1)
    else (indent, i :: is, 0)

/-- Closes the blocks that are further in than a column. -/
def unwind (s : Scan) (column : Int) : Scan :=
  if s.flow = 0 then
    let (indent, indents, n) := unwindFrom column s.indent s.indents
    { s with
      indent := indent, indents := indents, tokens := s.tokens ++ List.replicate n .blockEnd }
  else s

/-- Opens a block at a column if it is further in than the innermost one. The token that opens it
is put at a number. -/
def openBlock (s : Scan) (column : Int) (n : Nat) (t : Token) : Scan :=
  if s.indent < column then
    { s.pushAt n t with indent := column, indents := s.indent :: s.indents }
  else s

/-! ### Fetching tokens -/

/-- The end of the text. -/
def fetchEnd (s : Scan) : Option (List Token) :=
  (s.unwind (-1)).removeKey.map fun s' => s'.tokens ++ [.streamEnd]

/-- A line that separates documents. -/
def fetchSeparator (s : Scan) (t : Token) : Option Scan :=
  (s.unwind (-1)).removeKey.map fun s' => (s'.allow false).take 3 t

/-- An opening bracket. -/
def fetchOpen (s : Scan) (t : Token) : Option Scan :=
  s.saveKey.map fun s' => { (s'.allow true).take 1 t with flow := s.flow + 1 }

/-- A closing bracket. -/
def fetchClose (s : Scan) (t : Token) : Option Scan :=
  if s.flow = 0 then none
  else s.removeKey.map fun s' => { (s'.allow false).take 1 t with flow := s.flow - 1 }

/-- A comma. -/
def fetchComma (s : Scan) : Option Scan :=
  s.removeKey.map fun s' => (s'.allow true).take 1 .flowItem

/-- A dash in front of an item. -/
def fetchDash (s : Scan) : Option Scan :=
  if s.flow = 0 && !s.allowKey then none
  else
    let s' := if s.flow = 0 then s.openBlock s.column s.tokens.length .blockSequence else s
    s'.removeKey.map fun s'' => (s''.allow true).take 1 .blockItem

/-- A question mark in front of a key. -/
def fetchQuestion (s : Scan) : Option Scan :=
  if s.flow = 0 && !s.allowKey then none
  else
    let s' := if s.flow = 0 then s.openBlock s.column s.tokens.length .blockMapping else s
    s'.removeKey.map fun s'' => (s''.allow (s.flow = 0)).take 1 .key

/-- A colon behind a key. -/
def fetchColon (s : Scan) : Option Scan :=
  match s.key? with
  | some k =>
    let s' := s.forgetKey.pushAt k.tokens .key
    let s' := if s.flow = 0 then s'.openBlock k.column k.tokens .blockMapping else s'
    some ((s'.allow false).take 1 .value)
  | none =>
    if s.flow = 0 && !s.allowKey then none
    else
      let s' := if s.flow = 0 then s.openBlock s.column s.tokens.length .blockMapping else s
      s'.removeKey.map fun s'' => (s''.allow (s.flow = 0)).take 1 .value

/-- A scalar in quotes. -/
def fetchQuoted (s : Scan) (quote : Char) : Option Scan :=
  s.saveKey.bind fun s' =>
    (quoted quote s.stream).map fun r =>
      { (s'.allow false).push (.scalar r.1 false) with stream := r.2 }

/-- A plain scalar. -/
def fetchPlain (s : Scan) : Option Scan :=
  s.saveKey.map fun s' =>
    let (text, stream, crossed) := plain (s.flow ≠ 0) (s.indent + 1) s.stream
    { (s'.allow crossed).push (.scalar text true) with stream := stream }

/-- Characters of the name of a tag. -/
def isTagChar (c : Char) : Bool :=
  c.isAlphanum || "-;/?:@&=+$,_.!~*'()[]%".toList.contains c

/-- The handle and the rest of a tag, and the number of its characters. -/
def tagParts? (cs : List Char) : Option (List Char × List Char × Nat) :=
  let word := (cs.drop 1).takeWhile fun c => c ≠ ' ' && !isBreak c
  if isGap cs.tail.head? then some ([], ['!'], 1)
  else if word.contains '!' then
    let name := word.takeWhile (· ≠ '!')
    let suffix := (cs.drop (name.length + 2)).takeWhile isTagChar
    if name.all (fun c => c.isAlphanum || c = '-' || c = '_') && !suffix.isEmpty then
      some ('!' :: name ++ ['!'], suffix, name.length + 2 + suffix.length)
    else none
  else
    let suffix := (cs.drop 1).takeWhile isTagChar
    if suffix.isEmpty then none else some (['!'], suffix, suffix.length + 1)

/-- A tag. -/
def fetchTag (s : Scan) : Option Scan :=
  s.saveKey.bind fun s' =>
    match tagParts? s.stream.rest with
    | none => none
    | some (handle, suffix, n) =>
      let after := s.stream.peek n
      if after.all fun c => c = ' ' || isBreak c then
        some ((s'.allow false).take n (.tag handle suffix))
      else none

/-- Characters that do not start a plain scalar. -/
def isIndicator (c : Char) : Bool :=
  "-?:,[]\x7b\x7d#&*!|>'\"%@\x60".toList.contains c

/-- Whether a plain scalar starts with a character in front of another one. -/
def startsPlain (flow : Bool) (c : Char) (next : Option Char) : Bool :=
  (!isGap (some c) && !isIndicator c) ||
    (!isGap next && (c = '-' || (!flow && (c = '?' || c = ':'))))

/-- The next token, which starts with a given character. -/
def fetch (s : Scan) (c : Char) : Option Scan :=
  let next := s.stream.peek 1
  let atMargin := s.stream.column = 0
  let inFlow := s.flow ≠ 0
  if atMargin && s.stream.isMark "---" then s.fetchSeparator .documentStart
  else if atMargin && s.stream.isMark "..." then s.fetchSeparator .documentEnd
  else if c = '[' then s.fetchOpen .flowSequence
  else if c = '\x7b' then s.fetchOpen .flowMapping
  else if c = ']' then s.fetchClose .flowSequenceEnd
  else if c = '\x7d' then s.fetchClose .flowMappingEnd
  else if c = ',' then s.fetchComma
  else if c = '-' && isGap next then s.fetchDash
  else if c = '?' && (inFlow || isGap next) then s.fetchQuestion
  else if c = ':' && (inFlow || isGap next) then s.fetchColon
  else if c = '!' then s.fetchTag
  else if c = '\'' || c = '"' then s.fetchQuoted c
  else if startsPlain inFlow c next then s.fetchPlain
  else none

/-- The tokens of the rest of a document. -/
def scanFrom : (limit : Nat) → Scan → Option (List Token)
  | 0, _ => none
  | limit + 1, s =>
    s.skip.dropStale.bind fun s' =>
      let s' := s'.unwind s'.column
      match s'.stream.next? with
      | none => s'.fetchEnd
      | some c => (s'.fetch c).bind (scanFrom limit)

end Scan

/-- The tokens of a document. -/
def tokens? (cs : List Char) : Option (List Token) :=
  if cs.all isAllowed then Scan.scanFrom (cs.length + 1) (.start cs) else none

end Codemod.Yaml
