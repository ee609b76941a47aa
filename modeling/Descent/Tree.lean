namespace Descent

inductive Tree
  | unit
  | element (code : Int)
  | slice (codes : List Int)
  | list (items : List Tree)
  | pair (first second : Tree)
  | absent
  | present (value : Tree)
  | left (value : Tree)
  | right (value : Tree)
  /-- A value with the positions between which it was read, and the elements there. -/
  | spanned (value : Tree) (start stop : Nat) (codes : List Int)
  | unsigned64 (n : Nat)
  | signed64 (n : Int)
  /-- A binary floating-point number of 64 bits, by its bits. -/
  | float64 (bits : Nat)
  | number (n : Int)
  | text (s : String)
  | tagged (name : String) (value : Tree)
deriving Inhabited

namespace Tree

mutual

/-- Append the elements of a tree, from left to right, to those read before. -/
def collect (read : Array Int) : Tree → Array Int
  | element c => read.push c
  | slice codes => read.appendList codes
  | list items => collectAll read items
  | pair first second => collect (collect read first) second
  | present t => collect read t
  | left t => collect read t
  | right t => collect read t
  | spanned t _ _ _ => collect read t
  | tagged _ t => collect read t
  | _ => read

def collectAll (read : Array Int) : List Tree → Array Int
  | [] => read
  | t :: rest => collectAll (collect read t) rest

end

def elements (t : Tree) : List Int := (collect #[] t).toList

mutual

theorem toList_collect (read : Array Int) (t : Tree) :
    (collect read t).toList = read.toList ++ t.elements := by
  cases t with
  | list items =>
    show (collectAll read items).toList = read.toList ++ (collectAll #[] items).toList
    rw [toList_collectAll read, toList_collectAll #[]]
    simp
  | pair a b =>
    show (collect (collect read a) b).toList = read.toList ++ (collect (collect #[] a) b).toList
    rw [toList_collect (collect read a), toList_collect read, toList_collect (collect #[] a),
      toList_collect #[]]
    simp
  | present t => exact toList_collect read t
  | left t => exact toList_collect read t
  | right t => exact toList_collect read t
  | spanned t => exact toList_collect read t
  | tagged _ t => exact toList_collect read t
  | _ => simp [elements, collect]

theorem toList_collectAll (read : Array Int) (ts : List Tree) :
    (collectAll read ts).toList = read.toList ++ ts.flatMap elements := by
  cases ts with
  | nil => simp [collectAll]
  | cons t rest =>
    rw [collectAll, toList_collectAll (collect read t) rest, toList_collect read t]
    simp

end

@[simp] theorem elements_element (c : Int) : (element c).elements = [c] := by
  simp [elements, collect]

@[simp] theorem elements_slice (codes : List Int) : (slice codes).elements = codes := by
  simp [elements, collect]

@[simp] theorem elements_unit : unit.elements = [] := rfl

@[simp] theorem elements_absent : absent.elements = [] := rfl

@[simp] theorem elements_present (t : Tree) : (present t).elements = t.elements := rfl

@[simp] theorem elements_left (t : Tree) : (left t).elements = t.elements := rfl

@[simp] theorem elements_right (t : Tree) : (right t).elements = t.elements := rfl

@[simp] theorem elements_spanned (t : Tree) (start stop : Nat) (codes : List Int) :
    (spanned t start stop codes).elements = t.elements := rfl

@[simp] theorem elements_list (items : List Tree) :
    (list items).elements = items.flatMap elements := by
  rw [elements, collect, toList_collectAll]
  simp

@[simp] theorem elements_pair (a b : Tree) :
    (pair a b).elements = a.elements ++ b.elements :=
  toList_collect (collect #[] a) b

mutual

/-- The sum of the numbers and elements in a tree, added to `n`. -/
def addTo (n : Int) : Tree → Int
  | element c => n + c
  | slice codes => codes.foldl (· + ·) n
  | list items => addAllTo n items
  | pair first second => addTo (addTo n first) second
  | present t => addTo n t
  | left t => addTo n t
  | right t => addTo n t
  | spanned t _ _ _ => addTo n t
  | tagged _ t => addTo n t
  | unsigned64 m => n + m
  | signed64 m => n + m
  | number m => n + m
  | _ => n

def addAllTo (n : Int) : List Tree → Int
  | [] => n
  | t :: rest => addAllTo (addTo n t) rest

end

def sum (t : Tree) : Int := addTo 0 t

theorem foldl_add (n : Int) (codes : List Int) :
    codes.foldl (· + ·) n = n + codes.foldl (· + ·) 0 := by
  induction codes generalizing n with
  | nil => simp
  | cons c rest ih =>
    rw [List.foldl_cons, List.foldl_cons, ih, ih (0 + c)]
    omega

mutual

theorem addTo_eq (n : Int) (t : Tree) : addTo n t = n + t.sum := by
  cases t with
  | slice codes => exact foldl_add n codes
  | list items => exact addAllTo_eq n items
  | pair a b =>
    show addTo (addTo n a) b = n + addTo (addTo 0 a) b
    rw [addTo_eq (addTo n a), addTo_eq n, addTo_eq (addTo 0 a), addTo_eq 0]
    omega
  | present t => exact addTo_eq n t
  | left t => exact addTo_eq n t
  | right t => exact addTo_eq n t
  | spanned t => exact addTo_eq n t
  | tagged _ t => exact addTo_eq n t
  | _ => simp [sum, addTo]

theorem addAllTo_eq (n : Int) (ts : List Tree) : addAllTo n ts = n + addAllTo 0 ts := by
  cases ts with
  | nil => simp [addAllTo]
  | cons t rest =>
    rw [addAllTo, addAllTo, addAllTo_eq (addTo n t) rest, addAllTo_eq (addTo 0 t) rest,
      addTo_eq n t, addTo_eq 0 t]
    omega

end

@[simp] theorem sum_list_nil : (list []).sum = 0 := rfl

@[simp] theorem sum_list_cons (t : Tree) (ts : List Tree) :
    (list (t :: ts)).sum = t.sum + (list ts).sum :=
  addAllTo_eq (addTo 0 t) ts

@[simp] theorem sum_pair (a b : Tree) : (pair a b).sum = a.sum + b.sum :=
  addTo_eq (addTo 0 a) b

/-- The length of a list or slice; everything else counts as one, or as nothing. -/
def length : Tree → Nat
  | list items => items.length
  | slice codes => codes.length
  | unit => 0
  | absent => 0
  | _ => 1

end Tree

end Descent
