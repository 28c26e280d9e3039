/-!
# Values of settings

Settings are given as plain data: scalars, lists and mappings. Decimal numbers are kept as they are
written, without rounding.
-/

namespace Codemod

/-- A decimal number. -/
inductive Decimal where
  /-- The mantissa times a power of ten. -/
  | finite (mantissa exponent : Int)
  | infinite (negative : Bool)
  | undefined
  deriving DecidableEq, Repr

namespace Decimal

/-- A power of ten. -/
def tenTo (k : Nat) : Nat := Nat.pow 10 k

/-- The integer that a number is equal to. -/
def toInt? : Decimal → Option Int
  | finite m e =>
    if 0 ≤ e then some (m * tenTo e.toNat)
    else
      let scale : Int := tenTo (-e).toNat
      if m % scale = 0 then some (m / scale) else none
  | _ => none

/-- The digits of a natural number in decimal notation with some places behind the point. -/
def places (n k : Nat) : List Char :=
  let ds := Nat.toDigits 10 n
  let ds := List.replicate (k + 1 - ds.length) '0' ++ ds
  ds.take (ds.length - k) ++ '.' :: ds.drop (ds.length - k)

/-- A number in decimal notation. -/
def render : Decimal → List Char
  | finite m e =>
    let sign := if m < 0 then ['-'] else []
    let shown :=
      if 0 ≤ e then places (m.natAbs * tenTo (e.toNat + 1)) 1 else places m.natAbs (-e).toNat
    sign ++ shown
  | infinite negative => if negative then "-inf".toList else "inf".toList
  | undefined => "nan".toList

end Decimal

/-- A value of a setting. -/
inductive Value where
  | null
  | bool (value : Bool)
  | int (value : Int)
  | decimal (value : Decimal)
  | text (value : List Char)
  /-- A date or a point in time, as it is written. -/
  | moment (written : List Char)
  | list (items : List Value)
  | mapping (entries : List (Value × Value))
  deriving Inhabited

/-- Named settings. Of several values for one name the first counts. -/
abbrev Settings := List (List Char × Value)

namespace Settings

/-- The value of a name. -/
def get? (s : Settings) (name : List Char) : Option Value :=
  (s.find? (·.1 = name)).map Prod.snd

/-- Settings with others laid over them. -/
def update (s top : Settings) : Settings := top ++ s

end Settings

namespace Value

/-- Whether a value counts as no value at all: nothing, no, zero, or empty. -/
def isVoid : Value → Bool
  | null => true
  | bool b => !b
  | int n => n = 0
  | decimal d => d.toInt? = some 0
  | text t => t.isEmpty
  | moment _ => false
  | list vs => vs.isEmpty
  | mapping es => es.isEmpty

/-- A number that is equal to an integer, yes and no being one and zero. -/
def toInt? : Value → Option Int
  | bool b => some (if b then 1 else 0)
  | int n => some n
  | decimal d => d.toInt?
  | _ => none

/-- Whether two scalars are the same key of a mapping. -/
def sameKey : Value → Value → Bool
  | null, null => true
  | text s, text t => s = t
  | moment s, moment t => s = t
  | decimal d, decimal e => d = e || (d.toInt?.isSome && d.toInt? = e.toInt?)
  | v, w => v.toInt?.isSome && v.toInt? = w.toInt?

/-- The entries of a mapping with one more. A key that is there already keeps its place and gets
the new value. -/
def insertEntry (key value : Value) : List (Value × Value) → List (Value × Value)
  | [] => [(key, value)]
  | (k, v) :: rest =>
    if k.sameKey key then (k, value) :: rest else (k, v) :: insertEntry key value rest

/-- The settings of a mapping whose keys are all texts. -/
def textEntries? : List (Value × Value) → Option Settings
  | [] => some []
  | (.text t, v) :: rest => (textEntries? rest).map ((t, v) :: ·)
  | _ :: _ => none

end Value

end Codemod
