import Codemod.Text.Quoted

/-!
# UTF-8

The bytes of a text, and the text of some bytes. Bytes that are not the form of a text are refused
with the place and the reason: a byte that cannot start a character, a byte that cannot continue
one, or an end in the middle of one. Overlong forms, surrogates and numbers beyond the last
character are refused at their second byte.
-/

namespace Codemod.Utf8

/-- The bytes of a text. -/
def encode (cs : List Char) : List UInt8 := cs.flatMap String.utf8EncodeChar

/-- Why some bytes are not the form of a text. -/
inductive Reason where
  | invalidStart | invalidContinuation | unexpectedEnd
  deriving DecidableEq, Repr

/-- The offending bytes: the first one, its offset and the offset behind the last one. -/
structure Fault where
  first : UInt8
  start : Nat
  stop : Nat
  reason : Reason
  deriving DecidableEq, Repr

/-- Bytes that continue a character. -/
def isContinuation (b : UInt8) : Bool := 0x80 ≤ b && b ≤ 0xBF

/-- The second bytes that may follow a first byte of three. -/
def isSecondOfThree (first b : UInt8) : Bool :=
  isContinuation b && !(first = 0xE0 && b < 0xA0) && !(first = 0xED && 0xA0 ≤ b)

/-- The second bytes that may follow a first byte of four. -/
def isSecondOfFour (first b : UInt8) : Bool :=
  isContinuation b && !(first = 0xF0 && b < 0x90) && !(first = 0xF4 && 0x90 ≤ b)

/-- The six low bits of a byte that continues a character. -/
def lowBits (b : UInt8) : Nat := b.toNat - 0x80

/-- The text of some bytes that stand at an offset. -/
def decodeAt (offset : Nat) : List UInt8 → Except Fault (List Char)
  | [] => .ok []
  | a :: bs =>
    let refuse (n : Nat) (reason : Reason) : Except Fault (List Char) :=
      .error ⟨a, offset, offset + n, reason⟩
    let char (n : Nat) (rest : Except Fault (List Char)) : Except Fault (List Char) :=
      rest.map (Char.ofNat n :: ·)
    if a < 0x80 then char a.toNat (decodeAt (offset + 1) bs)
    else if a < 0xC2 || 0xF5 ≤ a then refuse 1 .invalidStart
    else if a < 0xE0 then
      match bs with
      | [] => refuse 1 .unexpectedEnd
      | b :: bs =>
        if isContinuation b then
          char ((a.toNat - 0xC0) * 64 + lowBits b) (decodeAt (offset + 2) bs)
        else refuse 1 .invalidContinuation
    else if a < 0xF0 then
      match bs with
      | [] => refuse 1 .unexpectedEnd
      | b :: bs =>
        if isSecondOfThree a b then
          match bs with
          | [] => refuse 2 .unexpectedEnd
          | c :: bs =>
            if isContinuation c then
              char ((a.toNat - 0xE0) * 4096 + lowBits b * 64 + lowBits c)
                (decodeAt (offset + 3) bs)
            else refuse 2 .invalidContinuation
        else refuse 1 .invalidContinuation
    else
      match bs with
      | [] => refuse 1 .unexpectedEnd
      | b :: bs =>
        if isSecondOfFour a b then
          match bs with
          | [] => refuse 2 .unexpectedEnd
          | c :: bs =>
            if isContinuation c then
              match bs with
              | [] => refuse 3 .unexpectedEnd
              | d :: bs =>
                if isContinuation d then
                  char ((a.toNat - 0xF0) * 262144 + lowBits b * 4096 + lowBits c * 64 + lowBits d)
                    (decodeAt (offset + 4) bs)
                else refuse 3 .invalidContinuation
            else refuse 2 .invalidContinuation
        else refuse 1 .invalidContinuation

/-- The text of some bytes. -/
def decode (bytes : List UInt8) : Except Fault (List Char) := decodeAt 0 bytes

/-- A reason in words. -/
def Reason.message : Reason → String
  | .invalidStart => "invalid start byte"
  | .invalidContinuation => "invalid continuation byte"
  | .unexpectedEnd => "unexpected end of data"

/-- A fault in words. -/
def Fault.message (f : Fault) : String :=
  let reason := f.reason.message
  let start := toString f.start
  if f.stop = f.start + 1 then
    let byte := String.ofList (Text.hexDigits 2 f.first.toNat)
    s!"'utf-8' codec can't decode byte 0x{byte} in position {start}: {reason}"
  else
    let last := toString (f.stop - 1)
    s!"'utf-8' codec can't decode bytes in position {start}-{last}: {reason}"

end Codemod.Utf8
