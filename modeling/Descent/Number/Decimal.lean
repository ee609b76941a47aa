import Descent.Element
import Descent.Number.Binary64

namespace Descent.Decimal

def isDigit (c : Int) : Bool := 48 ≤ c && c ≤ 57

def value (digits : List Int) : Nat :=
  digits.foldl (fun n c => 10 * n + (c - 48).toNat) 0

/-- Whether a text begins with a minus sign, and what follows its sign. -/
def unsign : List Int → Bool × List Int
  | 43 :: rest => (false, rest)
  | 45 :: rest => (true, rest)
  | text => (false, text)

def signedValue (text : List Int) : Int :=
  match unsign text with
  | (true, digits) => -value digits
  | (false, digits) => value digits

inductive RangeError
  | tooLarge
  | tooSmall
deriving DecidableEq, Repr

def RangeError.message (text : List Int) (e : RangeError) : String :=
  "invalid number '" ++ ElementKind.byte.describeAll text ++ "': number too "
    ++ (match e with | tooLarge => "large" | tooSmall => "small") ++ " to fit in target type"

def readUnsigned (text : List Int) : Except RangeError Nat :=
  let n := value text
  if n < 0x10000000000000000 then .ok n else .error .tooLarge

def readSigned (text : List Int) : Except RangeError Int :=
  let n := signedValue text
  if n < -0x8000000000000000 then .error .tooSmall
  else if n < 0x8000000000000000 then .ok n
  else .error .tooLarge

/-- The digits after a point, and what follows them. -/
def fraction : List Int → List Int × List Int
  | 46 :: rest => (rest.takeWhile isDigit, rest.dropWhile isDigit)
  | text => ([], text)

def exponent : List Int → Int
  | _ :: rest => signedValue rest
  | [] => 0

def readFloat (text : List Int) : Nat :=
  let (negative, rest) := unsign text
  let whole := rest.takeWhile isDigit
  let (part, rest) := fraction (rest.dropWhile isDigit)
  let digits := whole ++ part
  let bits := Binary64.ofDecimal (value digits) digits.length (exponent rest - part.length)
  if negative then Binary64.signBit + bits else bits

end Descent.Decimal
