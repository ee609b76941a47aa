import Descent.Grammar.Basic
import Descent.Parser.Element
import Descent.Parser.Repetition

namespace Descent
variable {σ : Type} {w : Input}

def Terminal.parser : Terminal → Parser σ w Tree
  | any => Parser.map .element Parser.any
  | is e => Parser.map .element (Parser.is e)
  | range low high => Parser.map .element (Parser.range low high)
  | oneOf set => Parser.map .element (Parser.oneOf set)
  | noneOf set => Parser.map .element (Parser.noneOf set)
  | satisfy holds expected => Parser.map .element (Parser.satisfy holds expected)
  | endOfInput => Parser.map (fun _ => .unit) Parser.endOfInput
  | fail reason => Parser.fail reason
  | succeed value => Parser.succeed value
  | literal codes => Parser.map .slice (Parser.literal codes)

def Tree.ofSpan (t : Tree) (s : Span w) : Tree := .spanned t s.start s.stop s.slice

def Tree.ofOption : Option Tree → Tree
  | none => .absent
  | some t => .present t

def Modifier.apply (m : Modifier) (p : Parser σ w Tree) : Parser σ w Tree :=
  match m with
  | map f => Parser.map f p
  | tryMap f => Parser.tryMap f p
  | filter holds reason => Parser.filter holds reason p
  | ignore => Parser.map (fun _ => .unit) (Parser.ignore p)
  | recognize => Parser.map .slice (Parser.recognize p)
  | spanned => Parser.map (fun x => x.1.ofSpan x.2) (Parser.spanned p)
  | optional => Parser.map Tree.ofOption (Parser.optional p)
  | repeated min max => Parser.map .list (Parser.repeated min max p)
  | notFollowedBy => Parser.map (fun _ => .unit) (Parser.notFollowedBy p)
  | shared => p

def Connective.apply (k : Connective) (p q : Parser σ w Tree) : Parser σ w Tree :=
  match k with
  | sequence keep => Parser.seqWith keep.combine p q
  | choice choose => Parser.orWith choose.onLeft choose.onRight p q
  | separatedList => Parser.map .list (Parser.separatedList p q)

end Descent
