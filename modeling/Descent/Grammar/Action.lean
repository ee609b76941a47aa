import Descent.Element
import Descent.Grammar.Basic

namespace Descent.Grammar

def isEven (c : Int) : Bool := c % 2 == 0

def isAlpha (c : Int) : Bool := (65 ≤ c && c ≤ 90) || (97 ≤ c && c ≤ 122)

def cons : Tree → Tree
  | .pair x (.list rest) => .list (x :: rest)
  | t => t

def orEmpty : Tree → Tree
  | .absent => .list []
  | .present t => t
  | t => t

def first : Tree → Tree
  | .pair x _ => x
  | t => t

def second : Tree → Tree
  | .pair _ y => y
  | t => t

def countItems (t : Tree) : Tree := .number t.length

def addSum (n : Int) (t : Tree) : Tree := .number (t.sum + n)

def render (kind : ElementKind) (t : Tree) : Tree := .text (kind.describeAll t.elements)

def atMost (n : Int) (t : Tree) : Except String Tree :=
  if t.length ≤ n then .ok (.number t.length) else .error s!"too many: {t.length}"

def decimal (max : Int) (t : Tree) : Except String Tree := do
  let n ← t.elements.foldlM (fun n c =>
    if c < 48 ∨ 57 < c then .error s!"not a digit: {c}"
    else if max < n * 10 + (c - 48) then .error s!"value exceeds {max}"
    else .ok (n * 10 + (c - 48))) 0
  return .number n

/-- The operation that an element names. All but three signs mean division toward zero. -/
def operate (sign : Option Int) (n m : Int) : Except String Int :=
  match sign with
  | some 43 => .ok (n + m)
  | some 45 => .ok (n - m)
  | some 42 => .ok (n * m)
  | _ => if m = 0 then .error "division by zero" else .ok (n.tdiv m)

def applyItem (n : Int) (item : Tree) : Except String Int := do
  let result ← operate (first item).elements.head? n (second item).sum
  if -0x8000000000000000 ≤ result ∧ result < 0x8000000000000000 then return result
  else .error "arithmetic overflow"

/-- A first operand and a list of signs with operands, computed from left to right in 64 bits. -/
def arithmetic : Tree → Except String Tree
  | .pair x (.list items) => do
    let n ← items.foldlM applyItem x.sum
    return .number n
  | t => .ok t

/-- As many repetitions of `g` as the tree sums up to beyond `base`. -/
def countedBy (base : Int) (g : Grammar) (t : Tree) : Grammar := g.exactly (t.sum - base).toNat

def sameAgain (t : Tree) : Grammar := literal t.elements

def firstAgain (t : Tree) : Grammar :=
  match t.elements with
  | [] => fail "no element"
  | c :: _ => is c

/-- The first grammar whose number is the sum of the tree. -/
def select (cases : List (Int × Grammar)) (other : Grammar) (t : Tree) : Grammar :=
  match cases.find? fun c => c.1 == t.sum with
  | some c => c.2
  | none => other

end Descent.Grammar
