import Descent.Store

namespace Descent

/-- An enclosing definition is called through a weak handle, a registered one through its handle.
A name that stands for neither fails for good. -/
def Store.resolve (s : Store) (scope : Scope) (name : String) : Assembled :=
  match scope.lookup name with
  | some i => .refer ⟨i, true⟩
  | none =>
    match s.handle? name with
    | some h => .refer h
    | none => .terminal (.fail ("unbound parser " ++ name))

def Grammar.assemble (scope : Scope) : Grammar → StateM Store Assembled
  | terminal t => return .terminal t
  | modify m g => return .modify m (← g.assemble scope)
  | join k g h => do
    let p ← g.assemble scope
    let q ← h.assemble scope
    return .join k p q
  | between opening content closing => do
    let p ← opening.assemble scope
    let q ← content.assemble scope
    let r ← closing.assemble scope
    return .between p q r
  | bind g f => return .bind (← g.assemble scope) scope f
  | call name => return (← get).resolve scope name
  | delay body => return .refer (← modifyGet (Store.allocate { body, scope }))
  | recursive name body =>
    return .refer (← modifyGet (Store.allocate { body, scope, self? := some name }))

/-- The scope of a body: a recursive definition calls itself by its own cell. -/
def Definition.innerScope (d : Definition) (i : Nat) : Scope :=
  match d.self? with
  | some name => (name, i) :: d.scope
  | none => d.scope

def Store.construct (i : Nat) (d : Definition) (s : Store) : Assembled × Store :=
  let s := match d.counted? with
    | some name => s.count name 1
    | none => s
  let s := match d.escape? with
    | some name => s.register name ⟨i, true⟩
    | none => s
  let (p, s) := d.body.assemble (d.innerScope i) s
  (p, { s with cells := s.cells.modify i fun c => { c with parser? := some p } })

end Descent
