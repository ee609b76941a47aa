import Descent.Assembly
import Descent.Grammar.Meaning

/-!
# Running assembled parsers

References are followed through the store, and a cell is built before it is first run. Following a
reference or going on after a `bind` leads one level deeper; a run that would exceed its depth is
cut off without an answer. All else ends by itself.

Throughout, `running` lists the cells that are in use, and `deeper` is how a parser is run one
level deeper, with its own list.
-/

namespace Descent
variable {w : Input}

/-- The parser of a cell, built now if it has not been built before. -/
def Store.force (i : Nat) : Run Store Assembled := do
  match (← get).store.cells[i]? with
  | none => Run.stop .cutOff
  | some cell =>
    match cell.parser? with
    | some p => return p
    | none =>
      Run.record .building
      Run.onStore (Store.construct i cell.definition)

def Handle.dropped (position : Nat) : ParseError :=
  .custom "recursive parser used after its definition was dropped" position

/-- Run the parser of the cell to which a handle leads. The cell is in use as long. -/
def Handle.follow (deeper : List Nat → Assembled → Parser Store w Tree) (running : List Nat)
    (h : Handle) : Parser Store w Tree := fun c => do
  if h.weak && !(← get).store.isAlive running h.cell then
    return .failure (dropped c.position)
  else
    let p ← Store.force h.cell
    deeper (h.cell :: running) p c

/-- Assemble a grammar and run the result. The cells to which it has strong handles are in use as
long. -/
def Grammar.follow (deeper : List Nat → Assembled → Parser Store w Tree) (running : List Nat)
    (scope : Scope) (g : Grammar) : Parser Store w Tree := fun c => do
  let p ← Run.onStore (g.assemble scope)
  deeper (p.holds ++ running) p c

namespace Assembled

def interpret (deeper : List Nat → Assembled → Parser Store w Tree) (running : List Nat) :
    Assembled → Parser Store w Tree
  | terminal t => t.parser
  | modify m p => m.apply (p.interpret deeper running)
  | join k p q => k.apply (p.interpret deeper running) (q.interpret deeper running)
  | between p q r =>
    Parser.between (p.interpret deeper running) (q.interpret deeper running)
      (r.interpret deeper running)
  | bind p scope f =>
    Parser.bind (p.interpret deeper running) fun x => (f x).follow deeper running scope
  | refer h => h.follow deeper running

def run : (depth : Nat) → List Nat → Assembled → Parser Store w Tree
  | 0, _, _ => fun _ => Run.stop .cutOff
  | depth + 1, running, p => p.interpret (run depth) running

end Assembled

def Handle.parser (depth : Nat) (h : Handle) : Parser Store w Tree :=
  h.follow (Assembled.run depth) []

def Grammar.parser (depth : Nat) (g : Grammar) : Parser Store w Tree :=
  g.follow (Assembled.run depth) [] []

end Descent
