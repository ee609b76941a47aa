import Descent.Execution

namespace Descent

/-- How much of an input a parse has to consume. -/
inductive Extent
  | whole
  /-- As much as the parser takes from a position on, which is moved into the input first. -/
  | startingAt (position : Nat)
deriving DecidableEq, Repr

inductive Answer
  | complete (value : Tree)
  | stopped (value : Tree) (position left : Nat)
  | failed (error : ParseError)

/-- An answer and the records that were logged on the way to it. -/
structure Transcript where
  answer : Answer
  log : List Record

/-- More levels than the stack of any machine holds. -/
def depthLimit : Nat := 1000000000

def Extent.answer {σ : Type} {w : Input} (extent : Extent) (p : Parser σ w Tree) : Run σ Answer := do
  match extent with
  | .whole =>
    match ← Parser.parseAll p with
    | .ok x => return .complete x
    | .error e => return .failed e
  | .startingAt position =>
    match ← p (Cursor.clamp w position) with
    | .success x c => return .stopped x c.position c.remaining.length
    | .failure e => return .failed e

def Store.parse {w : Input} (s : Store) (p : Parser Store w Tree) (extent : Extent) :
    Except Stop (Transcript × Store) := do
  let (answer, trail) ← (extent.answer p).run ⟨#[], s⟩
  return (⟨answer, trail.log.toList⟩, trail.store)

/-- A store in which each rule is registered as a delayed parser. -/
def Store.ofRules (rules : List (String × Grammar)) : Store :=
  rules.foldl (fun s r =>
    let (h, s) := s.allocate { body := r.2 }
    s.register r.1 h) {}

def Grammar.parse (depth : Nat) (rules : List (String × Grammar)) (g : Grammar) (w : Input)
    (extent : Extent) : Except Stop Transcript :=
  ((Store.ofRules rules).parse (w := w) (g.parser depth) extent).map (·.1)

inductive Step
  | define (name : String) (body : Grammar)
  /-- The body may call itself by the name. When it is built, its own handle can be registered
  under a second name. -/
  | defineRecursive (name : String) (body : Grammar) (escape? : Option String)
  | clone (name target : String)
  | drop (name : String)
  | isBuilt (name : String)
  | builds
  | parse (name : String) (w : Input) (extent : Extent)

inductive Reply
  | done
  | existed (answer : Bool)
  | built (answer : Option Bool)
  | builds (counts : List (String × Nat))
  | missing (name : String)
  | parsed (transcript : Transcript)
  | stopped (why : Stop)

namespace Store

/-- Register a new definition, counted under its name from now on. -/
def define (name : String) (d : Definition) (s : Store) : Store :=
  let (h, s) := (s.count name 0).allocate { d with counted? := some name }
  s.register name h

/-- Take one step. A parse that stops without an answer leaves the store as it was. -/
def step (depth : Nat) (s : Store) : Step → Reply × Store
  | .define name body => (.done, s.define name { body })
  | .defineRecursive name body escape? =>
    (.done, s.define name { body, self? := some name, escape? })
  | .clone name target =>
    match s.handle? name with
    | some h => (.existed true, s.register target h)
    | none => (.existed false, s)
  | .drop name => (.existed (s.handle? name).isSome, s.unregister name)
  | .isBuilt name => (.built ((s.handle? name).map s.isBuilt), s)
  | .builds => (.builds s.builds, s)
  | .parse name w extent =>
    match s.handle? name with
    | none => (.missing name, s)
    | some h =>
      match s.parse (w := w) (h.parser depth) extent with
      | .ok (transcript, s) => (.parsed transcript, s)
      | .error why => (.stopped why, s)

def steps (depth : Nat) (s : Store) : List Step → List Reply × Store
  | [] => ([], s)
  | x :: rest =>
    let (reply, s) := s.step depth x
    let (replies, s) := s.steps depth rest
    (reply :: replies, s)

end Store

end Descent
