import Descent.Session
import Descent.Proofs.Run

namespace Descent
variable {σ : Type} {w : Input} {α : Type}

/-- What an outcome comes to if the whole input has to be consumed. -/
def Outcome.wholly : Outcome w α → Except ParseError α
  | failure e => .error e
  | success x c => if c.atEnd then .ok x else .error (.partialMatch c.position w.size)

def Record.closing (w : Input) : Except ParseError α → Record
  | .ok _ => .consumedAll w.size
  | .error e => .failed e

theorem Parser.parseAll_apply (p : Parser σ w α) (t : Trail σ) :
    parseAll p t = (p (Cursor.start w) { t with log := t.log.push (.begun w.size) }).map fun r =>
      (r.1.wholly, { r.2 with log := r.2.log.push (.closing w r.1.wholly) }) := by
  have hbegun : Run.record (.begun w.size) t =
      .ok ((), { t with log := t.log.push (.begun w.size) }) := rfl
  rw [parseAll, Run.bind_apply, hbegun]
  dsimp only
  rw [Run.bind_apply]
  cases p (Cursor.start w) { t with log := t.log.push (.begun w.size) } with
  | error s => rfl
  | ok r =>
    obtain ⟨o, u⟩ := r
    cases o with
    | failure e => rfl
    | success x c =>
      cases hc : c.atEnd with
      | true =>
        simp only [Except.map, Outcome.wholly, Record.closing, hc, if_true]
        rfl
      | false =>
        simp only [Except.map, Outcome.wholly, Record.closing, hc]
        rfl

namespace Extent

def cursor (w : Input) : Extent → Cursor w
  | whole => Cursor.start w
  | startingAt position => Cursor.clamp w position

def judge : Extent → Outcome w Tree → Answer
  | whole, .success x c =>
    if c.atEnd then .complete x else .failed (.partialMatch c.position w.size)
  | startingAt _, .success x c => .stopped x c.position c.remaining.length
  | _, .failure e => .failed e

def opening (w : Input) : Extent → List Record
  | whole => [.begun w.size]
  | startingAt _ => []

def closing (w : Input) : Extent → Answer → List Record
  | whole, .complete _ => [.consumedAll w.size]
  | whole, .failed e => [.failed e]
  | _, _ => []

theorem answer_apply (extent : Extent) (p : Parser σ w Tree) (t : Trail σ) :
    extent.answer p t =
      (p (extent.cursor w) { t with log := t.log ++ extent.opening w }).map fun r =>
        (extent.judge r.1, { r.2 with log := r.2.log ++ extent.closing w (extent.judge r.1) }) := by
  cases extent with
  | whole =>
    have hopening : t.log.push (.begun w.size) = t.log ++ whole.opening w := by simp [opening]
    rw [answer, Run.bind_apply, Parser.parseAll_apply, hopening, cursor]
    cases p (Cursor.start w) { t with log := t.log ++ whole.opening w } with
    | error s => rfl
    | ok r =>
      obtain ⟨o, u⟩ := r
      cases o with
      | failure e =>
        simp only [Except.map, judge, closing]
        rfl
      | success x c =>
        cases hc : c.atEnd with
        | true =>
          simp only [Except.map, Outcome.wholly, judge, closing, hc, if_true]
          rfl
        | false =>
          simp only [Except.map, Outcome.wholly, judge, closing, hc]
          rfl
  | startingAt position =>
    have hlog : t.log ++ (startingAt position).opening w = t.log := by simp [opening]
    rw [hlog, answer, Run.bind_apply, cursor]
    cases p (Cursor.clamp w position) t with
    | error s => rfl
    | ok r =>
      obtain ⟨o, u⟩ := r
      have hclosing (answer : Answer) :
          u.log ++ (startingAt position).closing w answer = u.log := by simp [closing]
      rw [Except.map, hclosing]
      cases o <;> rfl

end Extent

/-- A parse in a store runs its parser once. -/
theorem Store.parse_eq (s : Store) (p : Parser Store w Tree) (extent : Extent) :
    s.parse p extent = (p (extent.cursor w) ⟨(extent.opening w).toArray, s⟩).map fun r =>
      (⟨extent.judge r.1, r.2.log.toList ++ extent.closing w (extent.judge r.1)⟩, r.2.store) := by
  have hrun : (extent.answer p).run ⟨#[], s⟩ = extent.answer p ⟨#[], s⟩ := rfl
  rw [Store.parse, hrun, Extent.answer_apply]
  have hopening : (#[] : Array Record) ++ extent.opening w = (extent.opening w).toArray := by simp
  rw [hopening]
  cases p (extent.cursor w) ⟨(extent.opening w).toArray, s⟩ with
  | error why => rfl
  | ok r =>
    obtain ⟨o, t⟩ := r
    show Except.ok (_, _) = Except.ok (_, _)
    rw [Array.toList_appendList]

end Descent
