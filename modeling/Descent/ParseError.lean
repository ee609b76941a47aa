import Descent.Position

namespace Descent

inductive ParseError
  | unexpectedEnd (position : Nat)
  | literalMismatch (reason : String) (position : Nat)
  | rangeMismatch (reason : String) (position : Nat)
  | alternativesExhausted (position : Nat) (left right : ParseError)
  | repetitionBelowMinimum (position : Nat) (min matched : Nat) (cause : ParseError)
  | partialMatch (position stop : Nat)
  | custom (reason : String) (position : Nat)
deriving DecidableEq, Repr, Inhabited

namespace ParseError

def position : ParseError → Nat
  | unexpectedEnd p => p
  | literalMismatch _ p => p
  | rangeMismatch _ p => p
  | alternativesExhausted p _ _ => p
  | repetitionBelowMinimum p _ _ _ => p
  | partialMatch p _ => p
  | custom _ p => p

/-- What went wrong, without the position. -/
def reason : ParseError → String
  | unexpectedEnd _ => "unexpected end of input"
  | literalMismatch reason _ => reason
  | rangeMismatch reason _ => reason
  | alternativesExhausted _ _ _ => "no alternative matched"
  | repetitionBelowMinimum _ min matched _ =>
    s!"expected at least {min} repetitions but matched {matched}"
  | partialMatch _ stop => "unconsumed input before " ++ Position.text stop
  | custom reason _ => reason

/-- The error on one line: reason and position, except that unconsumed input names both ends. -/
def message : ParseError → String
  | partialMatch p stop =>
    "unconsumed input: parsing stopped at " ++ Position.text p
      ++ " but input ends at " ++ Position.text stop
  | e => e.reason ++ " at " ++ Position.text e.position

/-- The failures of the single alternatives from left to right. A cause is not a leaf. -/
def leaves : ParseError → List ParseError
  | alternativesExhausted _ left right => left.leaves ++ right.leaves
  | e => [e]

/-- The leaf that got furthest; the leftmost of several. -/
def furthest : ParseError → ParseError
  | alternativesExhausted _ left right =>
    if left.furthest.position < right.furthest.position then right.furthest else left.furthest
  | e => e

def causes : ParseError → List ParseError
  | repetitionBelowMinimum _ _ _ cause => cause :: cause.causes
  | _ => []

def isBranch : ParseError → Bool
  | alternativesExhausted _ _ _ => true
  | _ => false

theorem isBranch_furthest (e : ParseError) : e.furthest.isBranch = false := by
  induction e with
  | alternativesExhausted p left right ihl ihr =>
    rw [furthest]
    split
    · exact ihr
    · exact ihl
  | _ => rfl

end ParseError

end Descent
