import Descent.Element
import Descent.ParseError

namespace Descent

/-- The elements to be parsed and their kind. Their number fits a 64-bit word. -/
structure Input where
  kind : ElementKind
  codes : Array Int
  size_lt : codes.size < 0x10000000000000000

namespace Input

def size (w : Input) : Nat := w.codes.size

def slice (w : Input) (start stop : Nat) : List Int :=
  (w.codes.extract start stop).toList

theorem slice_eq (w : Input) (start stop : Nat) :
    w.slice start stop = (w.codes.toList.drop start).take (stop - start) := by
  simp [slice, Array.toList_extract, List.extract_eq_take_drop]

end Input

structure Cursor (w : Input) where
  position : Nat
  le_size : position ≤ w.size
deriving DecidableEq

namespace Cursor
variable {w : Input}

def start (w : Input) : Cursor w := ⟨0, Nat.zero_le _⟩

def clamp (w : Input) (p : Nat) : Cursor w := ⟨min p w.size, Nat.min_le_right _ _⟩

def advance (c : Cursor w) (n : Nat) : Cursor w := clamp w (Position.advance c.position n)

def next (c : Cursor w) : Cursor w := c.advance 1

def element? (c : Cursor w) : Option Int := w.codes[c.position]?

def value (c : Cursor w) : Except ParseError Int :=
  match c.element? with
  | some x => .ok x
  | none => .error (.unexpectedEnd c.position)

def atEnd (c : Cursor w) : Bool := w.size ≤ c.position

def remaining (c : Cursor w) : List Int := w.slice c.position w.size

/-- The elements from `start` to the cursor, none if `start` lies behind it. -/
def sliceFrom (c : Cursor w) (start : Nat) : List Int :=
  w.slice (min start c.position) c.position

@[ext] theorem ext {c d : Cursor w} (h : c.position = d.position) : c = d := by
  cases c; cases d; cases h; rfl

theorem advance_position (c : Cursor w) (n : Nat) :
    (c.advance n).position = min (c.position + n) w.size := by
  have h := w.size_lt
  have hs : w.size = w.codes.size := rfl
  simp only [advance, clamp, Position.advance, Position.last]
  omega

theorem advance_zero (c : Cursor w) : c.advance 0 = c := by
  ext
  rw [advance_position]
  exact Nat.min_eq_left c.le_size

theorem advance_advance (c : Cursor w) (m n : Nat) : (c.advance m).advance n = c.advance (m + n) := by
  ext
  simp only [advance_position]
  omega

theorem element?_eq_none_iff (c : Cursor w) : c.element? = none ↔ c.position = w.size := by
  have h := c.le_size
  simp only [element?, Array.getElem?_eq_none_iff]
  exact ⟨fun k => Nat.le_antisymm h k, fun k => Nat.le_of_eq k.symm⟩

theorem atEnd_iff (c : Cursor w) : c.atEnd = true ↔ c.position = w.size := by
  have hle := c.le_size
  rw [atEnd, decide_eq_true_eq]
  omega

end Cursor

/-- Two positions of an input, in any order and possibly outside it. -/
structure Span (w : Input) where
  start : Nat
  stop : Nat

namespace Span
variable {w : Input}

/-- The elements between the two positions, both moved into the input first. -/
def slice (s : Span w) : List Int :=
  w.slice (min s.start (min s.stop w.size)) (min s.stop w.size)

def length (s : Span w) : Nat := s.slice.length

def isEmpty (s : Span w) : Bool := s.slice.isEmpty

def text (s : Span w) : String := w.kind.describeAll s.slice

end Span

end Descent
