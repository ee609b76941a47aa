import Descent.Tree

namespace Descent

inductive Terminal
  | any
  | is (e : Int)
  | range (low high : Int)
  | oneOf (set : List Int)
  | noneOf (set : List Int)
  | satisfy (holds : Int → Bool) (expected : String)
  | endOfInput
  | fail (reason : String)
  | succeed (value : Tree)
  | literal (codes : List Int)

/-- What changes the tree of one grammar, or how often or whether it has to match. -/
inductive Modifier
  | map (f : Tree → Tree)
  | tryMap (f : Tree → Except String Tree)
  | filter (holds : Tree → Bool) (reason : String)
  | ignore
  | recognize
  | spanned
  | optional
  | repeated (min : Nat) (max : Option Nat)
  | notFollowedBy
  /-- Shared use of a grammar, which changes nothing. -/
  | shared

/-- Which trees of a sequence are kept. -/
inductive Keep
  | both
  | left
  | right
  | neither
deriving DecidableEq, Repr

/-- How the tree of a choice tells which alternative it comes from. -/
inductive Choose
  | same
  | either
  | left
  | right
  | neither
deriving DecidableEq, Repr

inductive Connective
  | sequence (keep : Keep)
  | choice (choose : Choose)
  | separatedList

inductive Grammar
  | terminal (t : Terminal)
  | modify (m : Modifier) (g : Grammar)
  | join (k : Connective) (g h : Grammar)
  | between (opening content closing : Grammar)
  /-- What follows a grammar depends on its tree. -/
  | bind (g : Grammar) (f : Tree → Grammar)
  | call (name : String)
  /-- A body that is built when it is first run. -/
  | delay (body : Grammar)
  /-- A delayed body in which calls of `name` refer to itself. -/
  | recursive (name : String) (body : Grammar)

namespace Keep

def combine : Keep → Tree → Tree → Tree
  | both, x, y => .pair x y
  | left, x, _ => x
  | right, _, y => y
  | neither, _, _ => .unit

end Keep

namespace Choose

def onLeft : Choose → Tree → Tree
  | same, x => x
  | either, x => .left x
  | left, x => .present x
  | right, _ => .absent
  | neither, _ => .unit

def onRight : Choose → Tree → Tree
  | same, y => y
  | either, y => .right y
  | left, _ => .absent
  | right, y => .present y
  | neither, _ => .unit

end Choose

namespace Grammar

def any : Grammar := terminal .any
def is (e : Int) : Grammar := terminal (.is e)
def range (low high : Int) : Grammar := terminal (.range low high)
def oneOf (set : List Int) : Grammar := terminal (.oneOf set)
def noneOf (set : List Int) : Grammar := terminal (.noneOf set)
def satisfy (holds : Int → Bool) (expected : String) : Grammar :=
  terminal (.satisfy holds expected)
def endOfInput : Grammar := terminal .endOfInput
def fail (reason : String) : Grammar := terminal (.fail reason)
def succeed (value : Tree) : Grammar := terminal (.succeed value)
def literal (codes : List Int) : Grammar := terminal (.literal codes)

def map (f : Tree → Tree) : Grammar → Grammar := modify (.map f)
def tryMap (f : Tree → Except String Tree) : Grammar → Grammar := modify (.tryMap f)
protected def filter (holds : Tree → Bool) (reason : String) : Grammar → Grammar :=
  modify (.filter holds reason)
def ignore : Grammar → Grammar := modify .ignore
def recognize : Grammar → Grammar := modify .recognize
def spanned : Grammar → Grammar := modify .spanned
def optional : Grammar → Grammar := modify .optional
def repeated (min : Nat) (max : Option Nat) : Grammar → Grammar := modify (.repeated min max)
def many : Grammar → Grammar := repeated 0 none
protected def some : Grammar → Grammar := repeated 1 none
def atLeast (min : Nat) : Grammar → Grammar := repeated min none
def exactly (n : Nat) : Grammar → Grammar := repeated n (some n)
def notFollowedBy : Grammar → Grammar := modify .notFollowedBy
def shared : Grammar → Grammar := modify .shared

def seq (keep : Keep) : Grammar → Grammar → Grammar := join (.sequence keep)
def choice (choose : Choose) : Grammar → Grammar → Grammar := join (.choice choose)
def separatedList : Grammar → Grammar → Grammar := join .separatedList

/-- Both in a row, with a pair as tree. -/
def andThen : Grammar → Grammar → Grammar := seq .both

def orElse : Grammar → Grammar → Grammar := choice .same

end Grammar

end Descent
