import Descent.Text.Printable

namespace Descent.Text

def lowerHex (n : Nat) : String := String.ofList (Nat.toDigits 16 n)

def byteHex (n : Nat) : String :=
  let digits := (Nat.toDigits 16 n).map Char.toUpper
  "0x" ++ String.ofList (List.replicate (2 - digits.length) '0' ++ digits)

/-- The text of one character inside quotes: six short escapes, then the code point itself or
its number in braces. -/
def escape (c : Char) : String :=
  match c with
  | '\x00' => "\\0"
  | '\t' => "\\t"
  | '\r' => "\\r"
  | '\n' => "\\n"
  | '\'' => "\\'"
  | '\\' => "\\\\"
  | c => if isPrintable c.toNat then c.toString else "\\u\x7b" ++ lowerHex c.toNat ++ "\x7d"

def quote (c : Char) : String := "'" ++ escape c ++ "'"

end Descent.Text
