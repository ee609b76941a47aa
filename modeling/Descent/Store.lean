import Descent.Grammar.Basic

/-!
# Definitions and handles

Delayed and recursive parsers live in the cells of a store, each with the definition from which it
is built when it is first run. Handles lead to cells. A cell is alive while a strong handle to it
is left: under a registered name, in a parser that is running, or in the built parser of a cell
that is itself alive. Weak handles keep nothing alive.
-/

namespace Descent

structure Handle where
  cell : Nat
  weak : Bool
deriving DecidableEq, Repr

/-- The enclosing recursive definitions, innermost first. -/
abbrev Scope := List (String × Nat)

/-- A parser whose calls have been resolved. What follows a `bind` is still a grammar: it is
assembled in the same scope each time it is needed. -/
inductive Assembled
  | terminal (t : Terminal)
  | modify (m : Modifier) (p : Assembled)
  | join (k : Connective) (p q : Assembled)
  | between (opening content closing : Assembled)
  | bind (p : Assembled) (scope : Scope) (f : Tree → Grammar)
  | refer (h : Handle)

/-- What a cell is built from. -/
structure Definition where
  body : Grammar
  scope : Scope := []
  /-- The name by which the body calls itself. -/
  self? : Option String := none
  /-- The name under which building it is counted. -/
  counted? : Option String := none
  /-- The name under which a weak handle to it is registered when it is built. -/
  escape? : Option String := none

structure Cell where
  definition : Definition
  parser? : Option Assembled := none

/-- The cells made so far, the registered handles, and how often the definitions that are counted
under a name have been built. -/
structure Store where
  cells : Array Cell := #[]
  registry : List (String × Handle) := []
  builds : List (String × Nat) := []

namespace Assembled

/-- The cells to which a parser has strong handles. -/
def holds : Assembled → List Nat
  | terminal _ => []
  | modify _ p => p.holds
  | join _ p q => p.holds ++ q.holds
  | between p q r => p.holds ++ q.holds ++ r.holds
  | bind p _ _ => p.holds
  | refer h => if h.weak then [] else [h.cell]

end Assembled

namespace Store

def register (name : String) (h : Handle) (s : Store) : Store :=
  { s with registry := (name, h) :: s.registry.filter (·.1 != name) }

def unregister (name : String) (s : Store) : Store :=
  { s with registry := s.registry.filter (·.1 != name) }

def handle? (s : Store) (name : String) : Option Handle := s.registry.lookup name

def buildCount (s : Store) (name : String) : Nat := (s.builds.lookup name).getD 0

def count (name : String) (n : Nat) (s : Store) : Store :=
  { s with builds := (name, s.buildCount name + n) :: s.builds.filter (·.1 != name) }

def allocate (d : Definition) (s : Store) : Handle × Store :=
  (⟨s.cells.size, false⟩, { s with cells := s.cells.push { definition := d } })

def parser? (s : Store) (i : Nat) : Option Assembled := s.cells[i]?.bind (·.parser?)

def roots (s : Store) : List Nat :=
  (s.registry.filter fun e => !e.2.weak).map (·.2.cell)

/-- The cells to which the built parser of a cell has strong handles. -/
def heldBy (s : Store) (i : Nat) : List Nat :=
  match s.parser? i with
  | some p => p.holds
  | none => []

/-- Those of `kept` that are among `roots` or that a cell of `kept` holds. -/
def supported (s : Store) (roots kept : List Nat) : List Nat :=
  let held := kept.flatMap s.heldBy
  kept.filter fun i => roots.contains i || held.contains i

/-- Drop unsupported cells until all that are left are supported, at most `n` times. -/
def settle (s : Store) (roots : List Nat) : Nat → List Nat → List Nat
  | 0, kept => kept
  | n + 1, kept =>
    let next := s.supported roots kept
    if next.length = kept.length then kept else s.settle roots n next

/-- All cells that are alive while those of `running` are. -/
def alive (s : Store) (running : List Nat) : List Nat :=
  s.settle (running ++ s.roots) s.cells.size (List.range s.cells.size)

def isAlive (s : Store) (running : List Nat) (i : Nat) : Bool :=
  running.contains i || s.roots.contains i || (s.alive running).contains i

/-- Whether the parser behind a handle has been built. A weak handle does not know it any more
when its definition is gone. -/
def isBuilt (s : Store) (h : Handle) : Bool :=
  (!h.weak || s.isAlive [] h.cell) && (s.parser? h.cell).isSome

end Store

end Descent
