import Descent.Parser.Basic

namespace Descent

/-- The first element of `expected` that the input does not repeat from `p` on, and its place. -/
def Input.mismatch? (w : Input) (p : Nat) : List Int → Option (Nat × Int)
  | [] => none
  | e :: rest => if w.codes[p]? = some e then w.mismatch? (p + 1) rest else some (p, e)

namespace Parser
variable {σ : Type} {w : Input}

/-- One element, if it is accepted; `refusal` is the error that it causes otherwise. -/
def element (accepts : Int → Bool) (refusal : Int → Nat → ParseError) : Parser σ w Int :=
  fun c => match c.element? with
    | none => return .failure (.unexpectedEnd c.position)
    | some x =>
      if accepts x then return .success x c.next
      else return .failure (refusal x c.position)

def any : Parser σ w Int := fun c =>
  match c.element? with
  | none => return .failure (.unexpectedEnd c.position)
  | some x => return .success x c.next

def expectedFound (w : Input) (expected : String) (found : Int) : String :=
  "expected " ++ expected ++ ", found " ++ w.kind.describe found

def is (e : Int) : Parser σ w Int :=
  element (· == e) fun x => .literalMismatch (expectedFound w (w.kind.describe e) x)

def range (low high : Int) : Parser σ w Int :=
  element (fun x => low ≤ x && x ≤ high) fun x => .rangeMismatch <|
    expectedFound w
      ("element in range " ++ w.kind.describe low ++ "-" ++ w.kind.describe high) x

def listed (w : Input) (set : List Int) : String :=
  "[" ++ ", ".intercalate (set.map w.kind.describe) ++ "]"

def oneOf (set : List Int) : Parser σ w Int :=
  element set.contains fun x => .rangeMismatch (expectedFound w ("one of " ++ listed w set) x)

def noneOf (set : List Int) : Parser σ w Int :=
  element (fun x => !set.contains x) fun x =>
    .rangeMismatch (expectedFound w ("none of " ++ listed w set) x)

def satisfy (holds : Int → Bool) (expected : String) : Parser σ w Int :=
  element holds fun x => .rangeMismatch (expectedFound w expected x)

def endOfInput : Parser σ w Unit := fun c =>
  match c.element? with
  | none => return .success () c
  | some x => return .failure (.literalMismatch (expectedFound w "end of input" x) c.position)

/-- The elements of `expected` in a row. The failure lies at the first one that is missing. -/
def literal (expected : List Int) : Parser σ w (List Int) := fun c => do
  Run.checkRange w c.position w.size
  match w.mismatch? c.position expected with
  | none =>
    let codes ← Run.slice w c.position (c.position + expected.length)
    return .success codes (c.advance expected.length)
  | some (p, e) =>
    match w.codes[p]? with
    | none => return .failure (.unexpectedEnd p)
    | some x =>
      let reason := expectedFound w (w.kind.describe e) x ++ " while matching '"
        ++ w.kind.describeAll expected ++ "'"
      return .failure (.literalMismatch reason p)

end Parser

end Descent
