import Descent.Cursor
import Descent.Record

/-!
# Parsers

A parser starts at a cursor and either succeeds with a value at a further cursor or fails with an
error. While it runs it may write log records and use a store; how it fails never depends on the
log. A run that reads a range of the input outside its bounds stops at once, without an outcome.
-/

namespace Descent

inductive Outcome (w : Input) (α : Type)
  | success (value : α) (next : Cursor w)
  | failure (error : ParseError)
deriving DecidableEq

structure Trail (σ : Type) where
  log : Array Record
  store : σ

inductive Stop
  /-- It would have gone deeper than it may. -/
  | cutOff
  /-- It would have read outside the input. -/
  | outOfBounds
deriving DecidableEq, Repr

/-- A computation that extends a trail, unless it stops before its end. -/
abbrev Run (σ α : Type) := StateT (Trail σ) (Except Stop) α

namespace Run
variable {σ : Type}

def record (r : Record) : Run σ Unit :=
  modify fun t => { t with log := t.log.push r }

def onStore {α : Type} (f : σ → α × σ) : Run σ α :=
  modifyGet fun t =>
    let (x, s) := f t.store
    (x, { t with store := s })

def stop {α : Type} (s : Stop) : Run σ α := fun _ => .error s

/-- Look at the elements from `start` up to `stop`, which has to be a range of the input. -/
def checkRange (w : Input) (start stop : Nat) : Run σ Unit :=
  if start ≤ stop ∧ stop ≤ w.size then return () else Run.stop .outOfBounds

def slice (w : Input) (start stop : Nat) : Run σ (List Int) := do
  checkRange w start stop
  return w.slice start stop

end Run

abbrev Parser (σ : Type) (w : Input) (α : Type) := Cursor w → Run σ (Outcome w α)

namespace Parser
variable {σ : Type} {w : Input} {α β γ : Type}

def succeed (x : α) : Parser σ w α := fun c => return .success x c

def fail (reason : String) : Parser σ w α := fun c => return .failure (.custom reason c.position)

/-- Run `p`, then the parser that `f` makes of its value. -/
protected def bind (p : Parser σ w α) (f : α → Parser σ w β) : Parser σ w β := fun c => do
  match ← p c with
  | .failure e => return .failure e
  | .success x next => f x next

protected def map (f : α → β) (p : Parser σ w α) : Parser σ w β := fun c => do
  match ← p c with
  | .failure e => return .failure e
  | .success x next => return .success (f x) next

/-- A value that `f` rejects fails where `p` started. -/
def tryMap (f : α → Except String β) (p : Parser σ w α) : Parser σ w β := fun c => do
  match ← p c with
  | .failure e => return .failure e
  | .success x next =>
    match f x with
    | .ok y => return .success y next
    | .error reason => return .failure (.custom reason c.position)

/-- A value that does not satisfy `holds` fails where `p` started. -/
protected def filter (holds : α → Bool) (reason : String) (p : Parser σ w α) : Parser σ w α :=
  fun c => do
    match ← p c with
    | .failure e => return .failure e
    | .success x next =>
      if holds x then return .success x next
      else return .failure (.custom reason c.position)

def ignore (p : Parser σ w α) : Parser σ w Unit := fun c => do
  match ← p c with
  | .failure e => return .failure e
  | .success _ next => return .success () next

/-- The elements that `p` consumed, in place of its value. -/
def recognize (p : Parser σ w α) : Parser σ w (List Int) := fun c => do
  match ← p c with
  | .failure e => return .failure e
  | .success _ next =>
    let codes ← Run.slice w (min c.position next.position) next.position
    return .success codes next

def spanned (p : Parser σ w α) : Parser σ w (α × Span w) := fun c => do
  match ← p c with
  | .failure e => return .failure e
  | .success x next => return .success (x, ⟨c.position, next.position⟩) next

/-- Negative lookahead: succeed without consuming exactly where `p` fails. -/
def notFollowedBy (p : Parser σ w α) : Parser σ w Unit := fun c => do
  match ← p c with
  | .failure _ => return .success () c
  | .success _ _ =>
    return .failure (.custom "negative lookahead failed: unexpected match" c.position)

/-- Run `p` and then `q`; the first failure ends it. -/
def seqWith (keep : α → β → γ) (p : Parser σ w α) (q : Parser σ w β) : Parser σ w γ :=
  fun c => do
    match ← p c with
    | .failure e => return .failure e
    | .success x middle =>
      match ← q middle with
      | .failure e => return .failure e
      | .success y next => return .success (keep x y) next

def between (opening : Parser σ w α) (content : Parser σ w β) (closing : Parser σ w γ) :
    Parser σ w β := fun c => do
  match ← opening c with
  | .failure e => return .failure e
  | .success _ inside =>
    match ← content inside with
    | .failure e => return .failure e
    | .success x after =>
      match ← closing after with
      | .failure e => return .failure e
      | .success _ next => return .success x next

/-- Ordered choice: `q` is tried where `p` failed to start, and only then. -/
def orWith (left : α → γ) (right : β → γ) (p : Parser σ w α) (q : Parser σ w β) :
    Parser σ w γ := fun c => do
  match ← p c with
  | .success x next => return .success (left x) next
  | .failure e =>
    match ← q c with
    | .success y next => return .success (right y) next
    | .failure e' => return .failure (.alternativesExhausted c.position e e')

/-- Run `p` over the whole input: stopping before its end is a failure. -/
def parseAll (p : Parser σ w α) : Run σ (Except ParseError α) := do
  Run.record (.begun w.size)
  match ← p (Cursor.start w) with
  | .failure e =>
    Run.record (.failed e)
    return .error e
  | .success x c =>
    if c.atEnd then
      Run.record (.consumedAll w.size)
      return .ok x
    else
      let e := ParseError.partialMatch c.position w.size
      Run.record (.failed e)
      return .error e

end Parser

end Descent
