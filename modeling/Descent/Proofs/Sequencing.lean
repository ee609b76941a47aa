import Descent.Proofs.Combinator

namespace Descent
variable {σ : Type} {w : Input} {α β γ : Type}

/-- Parsers to be run in a row, with brackets and what is kept at each of them. -/
inductive Sequence (σ : Type) (w : Input)
  | single (p : Parser σ w Tree)
  | both (keep : Keep) (first second : Sequence σ w)

namespace Sequence

def toList : Sequence σ w → List (Parser σ w Tree)
  | single p => [p]
  | both _ a b => a.toList ++ b.toList

def parser : Sequence σ w → Parser σ w Tree
  | single p => p
  | both keep a b => (Connective.sequence keep).apply a.parser b.parser

end Sequence

namespace Keep

def elements : Keep → List α → List α → List α
  | both, xs, ys => xs ++ ys
  | left, xs, _ => xs
  | right, _, ys => ys
  | neither, _, _ => []

end Keep

section
variable (g : Tree → α) (op : α → α → α)

variable {g op}

end

namespace Parser

variable {p : Parser σ w α} {f : α → Except String β} {c : Cursor w} {t u : Trail σ}

end Parser

end Descent
