import Codemod.Settings.Value
import Codemod.Settings.Yaml.Stream

/-!
# Scalars of a YAML document

Scalars are plain, or in single or double quotes. A line break inside of a scalar counts as a
space, and several of them as one fewer. A plain scalar stands for a number, a truth value, nothing
or a point in time when it is written like one.
-/

namespace Codemod.Yaml

/-! ### Plain scalars -/

/-- Characters that end a plain scalar inside of brackets. -/
def isFlowMark (c : Char) : Bool := ",?[]\x7b\x7d".toList.contains c

/-- Whether a colon in front of a character ends a plain scalar. -/
def endsKey (flow : Bool) (c : Option Char) : Bool :=
  isGap c || (flow && c.any fun c => ",[]\x7b\x7d".toList.contains c)

/-- The number of characters up to the end of a plain scalar or the next gap in it. -/
def plainLength (flow : Bool) : List Char → Nat
  | [] => 0
  | c :: cs =>
    if isGap (some c) || (c = ':' && endsKey flow cs.head?) || (flow && isFlowMark c) then 0
    else plainLength flow cs + 1

/-- The line breaks that follow a first one, blanks between them left out. There are none when a
separator of documents comes first. -/
def plainBreaks : (limit : Nat) → Stream → Option (List Char) × Stream
  | 0, s => (some [], s)
  | limit + 1, s =>
    if s.sees ' ' then plainBreaks limit s.step
    else
      match s.lineBreak? with
      | none => (some [], s)
      | some (b, s') =>
        if s'.isSeparator then (none, s')
        else
          let (bs, s'') := plainBreaks limit s'
          (bs.map (b :: ·), s'')

/-- What some line breaks count for inside of a scalar. -/
def folded (first : Char) (others : List Char) : List Char :=
  if first ≠ '\n' then first :: others else if others.isEmpty then [' '] else others

/-- A gap in a plain scalar: what it counts for, the stream behind it, and whether it goes over the
end of a line. A gap that ends the scalar counts for nothing. -/
def plainGap (s : Stream) : List Char × Stream × Bool :=
  let blanks := s.rest.takeWhile (· = ' ')
  let s₁ := s.forward blanks.length
  match s₁.lineBreak? with
  | none => (blanks, s₁, false)
  | some (b, s₂) =>
    if s₂.isSeparator then ([], s₂, true)
    else
      match plainBreaks s₂.rest.length s₂ with
      | (none, s₃) => ([], s₃, true)
      | (some bs, s₃) => (folded b bs, s₃, true)

/-- Reads a plain scalar: its text, the stream behind it, and whether that is on another line. -/
def plainFrom (flow : Bool) (indent : Int) :
    (limit : Nat) → (gap text : List Char) → (crossed : Bool) → Stream → List Char × Stream × Bool
  | 0, _, text, crossed, s => (text, s, crossed)
  | limit + 1, gap, text, crossed, s =>
    let n := plainLength flow s.rest
    if s.sees '#' || n = 0 then (text, s, crossed)
    else
      let text' := text ++ gap ++ s.rest.take n
      let (gap', s', crossed') := plainGap (s.forward n)
      if gap'.isEmpty || s'.sees '#' || (!flow && s'.column < indent) then (text', s', crossed')
      else plainFrom flow indent limit gap' text' crossed' s'

/-- Reads a plain scalar of a block with an indentation, or one inside of brackets. -/
def plain (flow : Bool) (indent : Int) (s : Stream) : List Char × Stream × Bool :=
  plainFrom flow indent s.rest.length [] [] false s

/-! ### Scalars in quotes -/

/-- The line breaks that follow a first one inside of quotes, blanks around them left out. A
separator of documents must not come. -/
def quotedBreaks : (limit : Nat) → Stream → Option (List Char × Stream)
  | 0, _ => none
  | limit + 1, s =>
    if s.isSeparator then none
    else
      let s' := s.forward (s.rest.takeWhile fun c => c = ' ' || c = '\t').length
      match s'.lineBreak? with
      | none => some ([], s')
      | some (b, s'') => (quotedBreaks limit s'').map fun r => (b :: r.1, r.2)

/-- What white space inside of quotes counts for, and the stream behind it. -/
def quotedGap (s : Stream) : Option (List Char × Stream) :=
  let blanks := s.rest.takeWhile fun c => c = ' ' || c = '\t'
  let s' := s.forward blanks.length
  match s'.lineBreak? with
  | none => some (blanks, s')
  | some (b, s'') =>
    (quotedBreaks (s''.rest.length + 1) s'').map fun r => (folded b r.1, r.2)

/-- The characters that stand for others behind a backslash. -/
def escapes : List (Char × Char) :=
  [('0', '\x00'), ('a', '\x07'), ('b', '\x08'), ('t', '\t'), ('\t', '\t'), ('n', '\n'),
    ('v', '\x0b'), ('f', '\x0c'), ('r', '\r'), ('e', '\x1b'), (' ', ' '), ('"', '"'),
    ('\\', '\\'), ('/', '/'), ('N', '\u0085'), ('_', '\u00a0'), ('L', '\u2028'),
    ('P', '\u2029')]

/-- The numbers of digits of the escapes that give the number of a character. -/
def escapeWidths : List (Char × Nat) := [('x', 2), ('u', 4), ('U', 8)]

/-- The value of a digit. -/
def digit? (base : Nat) (c : Char) : Option Nat :=
  let n := c.toNat
  let value :=
    if c.isDigit then n - 48
    else if 'a' ≤ c && c ≤ 'f' then n - 87
    else if 'A' ≤ c && c ≤ 'F' then n - 55
    else base
  if value < base then some value else none

/-- The number that some digits stand for. Other characters do not count. -/
def number (base : Nat) (cs : List Char) : Nat :=
  (cs.filterMap (digit? base)).foldl (fun n d => n * base + d) 0

/-- The character with a number. -/
def charOf? (n : Nat) : Option Char :=
  if n.isValidChar then some (Char.ofNat n) else none

/-- The character of an escape with a number. -/
def numbered? (width : Nat) (cs : List Char) : Option Char :=
  let ds := cs.take width
  if ds.length = width && ds.all fun c => (digit? 16 c).isSome then charOf? (number 16 ds) else none

/-- What an escape stands for, from behind the backslash on, and the stream behind it. -/
def escape? (s : Stream) : Option (List Char × Stream) :=
  s.next?.bind fun c =>
    match escapes.find? (·.1 = c), escapeWidths.find? (·.1 = c) with
    | some (_, d), _ => some ([d], s.step)
    | none, some (_, width) =>
      (numbered? width s.step.rest).map fun d => ([d], s.step.forward width)
    | none, none =>
      match s.lineBreak? with
      | some (_, s') => quotedBreaks (s'.rest.length + 1) s'
      | none => none

/-- Reads a scalar in quotes from behind the opening quote on. -/
def quotedFrom (quote : Char) : (limit : Nat) → (text : List Char) → Stream →
    Option (List Char × Stream)
  | 0, _, _ => none
  | limit + 1, text, s =>
    match s.next? with
    | none => none
    | some c =>
      if c = quote then
        if quote = '\'' && s.peek 1 = some '\'' then
          quotedFrom quote limit (text ++ ['\'']) (s.forward 2)
        else some (text, s.step)
      else if quote = '"' && c = '\\' then
        match escape? s.step with
        | none => none
        | some (part, s') => quotedFrom quote limit (text ++ part) s'
      else if isGap (some c) then
        match quotedGap s with
        | none => none
        | some (part, s') => quotedFrom quote limit (text ++ part) s'
      else quotedFrom quote limit (text ++ [c]) s.step

/-- Reads a scalar in quotes from the opening quote on. -/
def quoted (quote : Char) (s : Stream) : Option (List Char × Stream) :=
  quotedFrom quote (s.rest.length + 1) [] s.step

/-! ### What a plain scalar stands for -/

/-- The words for truth values. -/
def truths : List (String × Bool) :=
  [("yes", true), ("Yes", true), ("YES", true), ("no", false), ("No", false), ("NO", false),
    ("true", true), ("True", true), ("TRUE", true), ("false", false), ("False", false),
    ("FALSE", false), ("on", true), ("On", true), ("ON", true), ("off", false), ("Off", false),
    ("OFF", false)]

/-- The words for nothing. -/
def nulls : List String := ["", "~", "null", "Null", "NULL"]

/-- A sign and what follows it. -/
def signed : List Char → Int × List Char
  | '-' :: cs => (-1, cs)
  | '+' :: cs => (1, cs)
  | cs => (1, cs)

/-- Whether some characters are digits of a base or underscores, and there is at least one. -/
def areDigits (base : Nat) (cs : List Char) : Bool :=
  !cs.isEmpty && cs.all fun c => c = '_' || (digit? base c).isSome

/-- Some characters that start with a digit. -/
def startsWithDigit (cs : List Char) : Bool := cs.head?.any Char.isDigit

/-- Minutes or seconds: one or two digits up to 59. -/
def isSixtieth : List Char → Bool
  | [a] => a.isDigit
  | [a, b] => '0' ≤ a && a ≤ '5' && b.isDigit
  | _ => false

/-- The parts of a text between colons. -/
def colonParts : List Char → List (List Char)
  | [] => [[]]
  | c :: cs =>
    if c = ':' then [] :: colonParts cs
    else
      match colonParts cs with
      | [] => [[c]]
      | p :: ps => (c :: p) :: ps

/-- A number to the base sixty, with colons between its digits. -/
def sixties (parts : List (List Char)) : Nat :=
  parts.foldl (fun n p => n * 60 + number 10 p) 0

/-- The natural number that a text stands for. -/
def natural? (cs : List Char) : Option Nat :=
  match cs with
  | ['0'] => some 0
  | '0' :: 'b' :: ds => if areDigits 2 ds then some (number 2 ds) else none
  | '0' :: 'x' :: ds => if areDigits 16 ds then some (number 16 ds) else none
  | '0' :: ds => if areDigits 8 ds then some (number 8 ds) else none
  | _ =>
    match colonParts cs with
    | [] => none
    | first :: others =>
      if startsWithDigit first && areDigits 10 first && others.all isSixtieth then
        some (sixties (first :: others))
      else none

/-- The integer that a text stands for. -/
def integer? (cs : List Char) : Option Int :=
  let (sign, rest) := signed cs
  (natural? rest).map fun n => sign * n

/-- The exponent behind the places of a number, if there is one. -/
def exponent? : List Char → Option Int
  | [] => some 0
  | e :: sign :: ds =>
    if (e = 'e' || e = 'E') && (sign = '-' || sign = '+') && !ds.isEmpty && ds.all Char.isDigit then
      some ((signed [sign]).1 * number 10 ds)
    else none
  | _ => none

/-- A number with places behind the point. -/
def pointed (whole : Nat) (fraction : List Char) (exponent : Int) : Decimal :=
  let places := fraction.filter Char.isDigit
  .finite (whole * Decimal.tenTo places.length + number 10 places) (exponent - places.length)

/-- The decimal number that a text without a sign stands for. It needs a point. -/
def unsignedDecimal? (cs : List Char) : Option Decimal :=
  let whole := cs.takeWhile (· ≠ '.')
  match cs.drop whole.length with
  | [] => none
  | _ :: behind =>
    let fraction := behind.takeWhile fun c => c = '_' || c.isDigit
    match colonParts whole, exponent? (behind.drop fraction.length) with
    | first :: others, some e =>
      if startsWithDigit first && areDigits 10 first && others.all isSixtieth &&
          (others.isEmpty || (behind.drop fraction.length).isEmpty) then
        some (pointed (sixties (first :: others)) fraction e)
      else none
    | _, _ => none

/-- The number of a text that starts with its point. -/
def pointFirst? : List Char → Option Decimal
  | '.' :: cs =>
    let fraction := cs.takeWhile fun c => c = '_' || c.isDigit
    if startsWithDigit fraction then
      (exponent? (cs.drop fraction.length)).map (pointed 0 fraction)
    else none
  | _ => none

/-- A number with its sign turned around. -/
def negated : Decimal → Decimal
  | .finite m e => .finite (-m) e
  | .infinite negative => .infinite !negative
  | .undefined => .undefined

/-- The decimal number that a text stands for. -/
def decimal? (cs : List Char) : Option Decimal :=
  let (sign, rest) := signed cs
  if [".inf", ".Inf", ".INF"].any (·.toList = rest) then some (.infinite (sign < 0))
  else if [".nan", ".NaN", ".NAN"].any (·.toList = cs) then some .undefined
  else
    match pointFirst? cs with
    | some d => some d
    | none => (unsignedDecimal? rest).map fun d => if sign < 0 then negated d else d

/-- Whether a text has a given number of digits at its front, at least and at most, and a rest that
passes a test. -/
def digitsThen (least most : Nat) (test : List Char → Bool) (cs : List Char) : Bool :=
  let n := (cs.takeWhile Char.isDigit).length
  least ≤ n && n ≤ most && test (cs.drop n)

/-- Whether a text is a given character and a rest that passes a test. -/
def charThen (c : Char) (test : List Char → Bool) : List Char → Bool
  | [] => false
  | d :: cs => c = d && test cs

/-- Whether a text is a time zone, or nothing. -/
def isZone (cs : List Char) : Bool :=
  match cs.dropWhile fun c => c = ' ' || c = '\t' with
  | [] => cs.isEmpty
  | ['Z'] => true
  | s :: rest =>
    let minutes (r : List Char) : Bool := r.isEmpty || charThen ':' (digitsThen 2 2 List.isEmpty) r
    (s = '-' || s = '+') && digitsThen 1 2 minutes rest

/-- Whether a text is the time of a day with its zone. -/
def isTime (cs : List Char) : Bool :=
  let zone (r : List Char) : Bool :=
    match r with
    | '.' :: r => isZone (r.dropWhile Char.isDigit)
    | r => isZone r
  digitsThen 1 2 (charThen ':' (digitsThen 2 2 (charThen ':' (digitsThen 2 2 zone)))) cs

/-- Whether a text is what stands between a date and a time, and a time. -/
def isTimePart : List Char → Bool
  | 'T' :: cs | 't' :: cs => isTime cs
  | c :: cs => (c = ' ' || c = '\t') && isTime (cs.dropWhile fun c => c = ' ' || c = '\t')
  | [] => false

/-- Whether a text is a date, or a date and a time. -/
def isMoment (cs : List Char) : Bool :=
  digitsThen 4 4 (charThen '-' (digitsThen 2 2 (charThen '-' (digitsThen 2 2 List.isEmpty)))) cs ||
    digitsThen 4 4 (charThen '-' (digitsThen 1 2 (charThen '-' (digitsThen 1 2 isTimePart)))) cs

/-- Texts that have a meaning of their own in a mapping and are no values. -/
def isReserved (cs : List Char) : Bool := cs = ['='] || cs = ['<', '<']

/-- The value that a plain scalar stands for. -/
def resolve? (cs : List Char) : Option Value :=
  if isReserved cs then none
  else if nulls.any (·.toList = cs) then some .null
  else
    match truths.find? (·.1.toList = cs), decimal? cs, integer? cs with
    | some (_, b), _, _ => some (.bool b)
    | _, some d, _ => some (.decimal d)
    | _, _, some n => some (.int n)
    | _, _, _ => some (if isMoment cs then .moment cs else .text cs)

end Codemod.Yaml
