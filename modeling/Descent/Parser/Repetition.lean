import Descent.Parser.Basic

namespace Descent.Parser
variable {σ : Type} {w : Input} {α β : Type}

/-- Repeat `p` from `c` on, after the values `found`. A match that consumed nothing is the last
one, unless there is a maximum to reach or the minimum is not reached yet. -/
def repeatFrom (p : Parser σ w α) (min : Nat) (max : Option Nat) (found : Array α)
    (c : Cursor w) : Run σ (Outcome w (List α)) :=
  if _hmax : max.all (found.size < ·) then do
    match ← p c with
    | .failure e =>
      if min ≤ found.size then return .success found.toList c
      else if found.size = 0 then return .failure e
      else return .failure (.repetitionBelowMinimum c.position min found.size e)
    | .success x next =>
      if _hgo : max.isSome ∨ found.size + 1 < min ∨ c.position < next.position then
        repeatFrom p min max (found.push x) next
      else
        Run.record (.stalled next.position)
        return .success (found.push x).toList next
  else if min ≤ found.size then return .success found.toList c
  else
    return .failure
      (.custom s!"repetition minimum {min} exceeds maximum {max.getD found.size}" c.position)
termination_by (match max with | some m => m - found.size | none => min - found.size,
  w.size - c.position)
decreasing_by
  have hnext := next.le_size
  rw [Prod.lex_def]
  cases max with
  | some m =>
    have hm : found.size < m := by simpa using _hmax
    simp only [Array.size_push]
    omega
  | none =>
    have hadvance : found.size + 1 < min ∨ c.position < next.position := by simpa using _hgo
    simp only [Array.size_push]
    omega

/-- Between `min` and `max` matches of `p`, as many as there are. -/
def repeated (min : Nat) (max : Option Nat) (p : Parser σ w α) : Parser σ w (List α) :=
  repeatFrom p min max #[]

def many (p : Parser σ w α) : Parser σ w (List α) := repeated 0 none p

protected def some (p : Parser σ w α) : Parser σ w (List α) := repeated 1 none p

def atLeast (min : Nat) (p : Parser σ w α) : Parser σ w (List α) := repeated min none p

def exactly (n : Nat) (p : Parser σ w α) : Parser σ w (List α) := repeated n (some n) p

def optional (p : Parser σ w α) : Parser σ w (Option α) :=
  Parser.map List.getLast? (repeated 0 (some 1) p)

/-- Go on with a list after the items `found`, the last of which ended at `c`. A separator and an
item that together consume nothing end the list and are dropped. -/
def separatedFrom (item : Parser σ w α) (separator : Parser σ w β) (found : Array α)
    (c : Cursor w) : Run σ (Outcome w (List α)) := do
  match ← separator c with
  | .failure _ => return .success found.toList c
  | .success _ after =>
    match ← item after with
    | .failure _ => return .success found.toList c
    | .success x next =>
      if _hgo : c.position < next.position then
        separatedFrom item separator (found.push x) next
      else return .success found.toList c
termination_by w.size - c.position
decreasing_by
  have hnext := next.le_size
  omega

/-- One item or more with a separator between them; a separator without an item after it is not
consumed. -/
def separatedList (item : Parser σ w α) (separator : Parser σ w β) : Parser σ w (List α) :=
  fun c => do
    match ← item c with
    | .failure e => return .failure e
    | .success x next => separatedFrom item separator #[x] next

end Descent.Parser
