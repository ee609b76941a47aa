import Descent.Cursor

namespace Descent

namespace Input

/-- The input split at its newline elements, which belong to no line. -/
def lines (w : Input) : List (List Int) :=
  w.codes.toList.foldr
    (fun c rest =>
      if w.kind.isNewline c then [] :: rest
      else match rest with
        | [] => [[c]]
        | line :: more => (c :: line) :: more)
    [[]]

end Input

namespace Cursor
variable {w : Input}

def before (c : Cursor w) : List Int := w.slice 0 c.position

def line (c : Cursor w) : Nat := 1 + c.before.countP w.kind.isNewline

def lineOffset (c : Cursor w) : Nat :=
  (c.before.reverse.takeWhile fun x => !w.kind.isNewline x).length

def margin (c : Cursor w) (number : Nat) : String :=
  (if number = c.line then "  > " else "    ") ++ toString number ++ " | "

/-- A line of the excerpt, followed by the pointer if the cursor stands in it. -/
def excerptLine (c : Cursor w) (number : Nat) (line : List Int) : List String :=
  let text := c.margin number ++ w.kind.describeAll line
  if number = c.line then
    let indent := (c.margin number).length + c.lineOffset
    [text, String.ofList (List.replicate indent ' ') ++ "^--- here"]
  else [text]

/-- The cursor's line with up to two lines before and after it, and a pointer below it. -/
def excerpt (c : Cursor w) : List String :=
  let here := c.line
  ((w.lines.zipIdx 1).filter fun l => here ≤ l.2 + 2 ∧ l.2 ≤ here + 2).flatMap
    fun l => c.excerptLine l.2 l.1

end Cursor

namespace ParseError

/-- The error as a report on an input: its furthest leaf, where that lies, the whole error if it
has branches, and the lines around the place. -/
def report (e : ParseError) (w : Input) : String :=
  let leaf := e.furthest
  let c := Cursor.clamp w leaf.position
  leaf.reason ++ " at line " ++ toString c.line ++ ", offset " ++ toString c.lineOffset
    ++ " (absolute position: " ++ toString leaf.position ++ ")\n"
    ++ (if e.isBranch then "  while parsing: " ++ e.message ++ "\n" else "")
    ++ "\n" ++ String.join (c.excerpt.map (· ++ "\n"))

/-- A report mentions the whole error exactly where the leaf that it names is another error. -/
theorem furthest_ne_self_iff (e : ParseError) : e.furthest ≠ e ↔ e.isBranch = true := by
  constructor
  · intro hne
    cases e with
    | alternativesExhausted p left right => rfl
    | _ => exact absurd rfl hne
  · intro hbranch hself
    have hleaf := e.isBranch_furthest
    rw [hself, hbranch] at hleaf
    cases hleaf

end ParseError

end Descent
