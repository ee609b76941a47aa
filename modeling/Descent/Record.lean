import Descent.ParseError

namespace Descent

inductive Record
  | begun (size : Nat)
  | consumedAll (size : Nat)
  | failed (error : ParseError)
  /-- The body of a delayed parser is about to be built. -/
  | building
  /-- An unbounded repetition ended because a match consumed nothing. -/
  | stalled (position : Nat)
deriving DecidableEq, Repr

namespace Record

def level : Record → String
  | failed _ => "DEBUG"
  | _ => "TRACE"

def message : Record → String
  | begun size => s!"parsing input of {size} elements"
  | consumedAll size => s!"parse consumed all {size} elements"
  | failed error => "parse failed: " ++ error.message
  | building => "building delayed parser"
  | stalled position =>
    "repetition stopped at " ++ Position.text position ++ ": match consumed no input"

def text (r : Record) : String := r.level ++ " " ++ r.message

end Record

end Descent
