import Descent.Grammar.Basic
import Descent.Number.Decimal

namespace Descent.Grammar.Ascii

def bytes (text : String) : List Int := ElementKind.byte.codesOf text

def digit : Grammar := range 48 57
def letter : Grammar := (range 97 122).orElse (range 65 90)
def alphanumeric : Grammar := letter.orElse (range 48 57)
def oneOfChars (text : String) : Grammar := oneOf (bytes text)
def noneOfChars (text : String) : Grammar := noneOf (bytes text)
def whitespace : Grammar := oneOf (bytes " \t\n\r")
def spaces : Grammar := whitespace.many.ignore

/-- Carriage return and line feed together, or one of them alone. -/
def lineEnding : Grammar :=
  ((literal (bytes "\r\n")).orElse (literal (bytes "\n"))).orElse (literal (bytes "\r"))

def digits : Grammar := digit.some.recognize
def sign : Grammar := (oneOf (bytes "+-")).optional
def fractionPart : Grammar := ((is 46).andThen digits).ignore
def exponentPart : Grammar := (((oneOf (bytes "eE")).andThen sign).andThen digits).ignore

/-- A sign, digits, a fraction and an exponent, of which only the digits are required. -/
def floatText : Grammar :=
  (((sign.andThen digits).andThen fractionPart.optional).andThen exponentPart.optional).recognize

def toUnsigned (t : Tree) : Except String Tree :=
  match Decimal.readUnsigned t.elements with
  | .ok n => .ok (.unsigned64 n)
  | .error e => .error (e.message t.elements)

def toSigned (t : Tree) : Except String Tree :=
  match Decimal.readSigned t.elements with
  | .ok n => .ok (.signed64 n)
  | .error e => .error (e.message t.elements)

def toFloat (t : Tree) : Except String Tree :=
  .ok (.float64 (Decimal.readFloat t.elements))

/-- Whether number text has a fraction or an exponent. -/
def isFloatText (text : List Int) : Bool := text.any (bytes ".eE").contains

/-- Text with a fraction or an exponent is a floating-point number, all other an integer. -/
def toNumber (t : Tree) : Except String Tree :=
  if isFloatText t.elements then (toFloat t).map (.tagged "number")
  else (toSigned t).map (.tagged "number")

def unsigned64 : Grammar := tryMap toUnsigned digits
def signed64 : Grammar := tryMap toSigned (sign.andThen digits).recognize
def float64 : Grammar := tryMap toFloat floatText
def number : Grammar := tryMap toNumber floatText

end Descent.Grammar.Ascii
