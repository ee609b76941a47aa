import Mathlib
import Descent.Proofs.Diagnosis
import Descent.Proofs.Excerpt

namespace Descent.ParseError

theorem leaves_of_not_isBranch {e : ParseError} (h : e.isBranch = false) : e.leaves = [e] := by
  cases e with
  | alternativesExhausted => cases h
  | _ => rfl

def details (e : ParseError) (w : Input) : List String :=
  (if e.isBranch then ["  while parsing: " ++ e.message] else [])
    ++ "" :: (Cursor.clamp w e.furthest.position).excerpt

def MentionsWhole (line : String) : Prop := "  while parsing: ".toList <+: line.toList

theorem MentionsWhole.firstInk?_eq {line : String} (h : MentionsWhole line) :
    firstInk? line = some 'w' := by
  obtain ⟨rest, hrest⟩ := h
  exact firstInk?_of_blanks (n := 2) hrest.symm (by decide)

end Descent.ParseError
