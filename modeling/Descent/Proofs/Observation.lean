import Descent.Session
import Descent.Proofs.Answer
import Descent.Proofs.Liveness
import Descent.Proofs.Unfolding

/-!
# Watching runs

A session can be watched: whenever a parser reaches a cell, the visit is noted, with whether the cell is
built for it. Watching changes nothing, since a watched session that forgets the visits is the session
itself. And it tells all that can happen: in a run, cells are added, visited and built, and between
runs they are defined, shared and dropped.
-/

namespace Descent
variable {w : Input}

/-- A cell has been reached, and `builds` tells whether it is built for that. -/
structure Visit where
  cell : Nat
  builds : Bool
deriving DecidableEq, Repr

/-- A store, and the visits to its cells, the last one at the end. -/
structure Observed where
  store : Store := {}
  visits : List Visit := []

namespace Observed

/-- A run has come to the cell. -/
def Reached (o : Observed) (i : Nat) : Prop := ∃ v ∈ o.visits, v.cell = i

instance (o : Observed) : DecidablePred o.Reached := fun i =>
  inferInstanceAs (Decidable (∃ v ∈ o.visits, v.cell = i))

end Observed

/-- A run that visits no cell. -/
def Observed.inStore {α : Type} (x : Run Store α) : Run Observed α := fun t =>
  (x ⟨t.log, t.store.store⟩).map fun r => (r.1, ⟨r.2.log, { t.store with store := r.2.store }⟩)

/-- Note that a cell is reached, and go on as `Store.force`. -/
def Observed.force (i : Nat) : Run Observed Assembled := do
  Run.onStore fun o => ((), { o with visits := o.visits ++ [⟨i, (o.store.parser? i).isNone⟩] })
  inStore (Store.force i)

def Handle.observe (deeper : List Nat → Assembled → Parser Observed w Tree) (running : List Nat)
    (h : Handle) : Parser Observed w Tree := fun c => do
  if h.weak && !(← get).store.store.isAlive running h.cell then
    return .failure (dropped c.position)
  else
    let p ← Observed.force h.cell
    deeper (h.cell :: running) p c

def Grammar.observe (deeper : List Nat → Assembled → Parser Observed w Tree) (running : List Nat)
    (scope : Scope) (g : Grammar) : Parser Observed w Tree := fun c => do
  let p ← Observed.inStore (Run.onStore (g.assemble scope))
  deeper (p.holds ++ running) p c

namespace Assembled

def observe (deeper : List Nat → Assembled → Parser Observed w Tree) (running : List Nat) :
    Assembled → Parser Observed w Tree
  | terminal t => t.parser
  | modify m p => m.apply (p.observe deeper running)
  | join k p q => k.apply (p.observe deeper running) (q.observe deeper running)
  | between p q r =>
    Parser.between (p.observe deeper running) (q.observe deeper running) (r.observe deeper running)
  | bind p scope f =>
    Parser.bind (p.observe deeper running) fun x => (f x).observe deeper running scope
  | refer h => h.observe deeper running

def observed : (depth : Nat) → List Nat → Assembled → Parser Observed w Tree
  | 0, _, _ => fun _ => Run.stop .cutOff
  | depth + 1, running, p => p.observe (observed depth) running

end Assembled

def Handle.observed (depth : Nat) (h : Handle) : Parser Observed w Tree :=
  h.observe (Assembled.observed depth) []

namespace Observed

/-- As `Store.step`. A parse that stops without an answer leaves the visits as they were, too. -/
def step (depth : Nat) (o : Observed) : Step → Reply × Observed
  | .parse name w extent =>
    match o.store.handle? name with
    | none => (.missing name, o)
    | some h =>
      match extent.answer (w := w) (h.observed depth) ⟨#[], o⟩ with
      | .ok (answer, trail) => (.parsed ⟨answer, trail.log.toList⟩, trail.store)
      | .error why => (.stopped why, o)
  | x => ((o.store.step depth x).1, { o with store := (o.store.step depth x).2 })

def steps (depth : Nat) (o : Observed) : List Step → List Reply × Observed
  | [] => ([], o)
  | x :: rest =>
    let (reply, o) := o.step depth x
    let (replies, o) := o.steps depth rest
    (reply :: replies, o)

end Observed

namespace Observed
variable {L : Nat → Prop} {o o' o'' : Observed}

/-- What can happen in a run that reaches no cells but those in `L`. -/
inductive Event (L : Nat → Prop) (o : Observed) : Observed → Prop
  | assembled (g : Grammar) {scope : Scope} : (∀ i ∈ scope.cells, i < o.store.cells.size) →
      Event L o { o with store := (g.assemble scope o.store).2 }
  | found {i p} : L i → o.store.parser? i = some p →
      Event L o { o with visits := o.visits ++ [⟨i, false⟩] }
  | built {i d} : L i → o.store.definition? i = some d → o.store.parser? i = none →
      Event L o ⟨(Store.construct i d o.store).2, o.visits ++ [⟨i, true⟩]⟩

/-- What can happen in a session. -/
inductive Change (L : Nat → Prop) (o : Observed) : Observed → Prop
  | event {next : Observed} : Event L o next → Change L o next
  | define (name : String) {d : Definition} : d.scope = [] →
      Change L o { o with store := o.store.define name d }
  | share {name h} (target : String) : o.store.handle? name = some h →
      Change L o { o with store := o.store.register target h }
  | drop (name : String) : Change L o { o with store := o.store.unregister name }

/-- A run leads from `o` to `o'`. -/
abbrev Evolves (L : Nat → Prop) : Observed → Observed → Prop := Relation.ReflTransGen (Event L)

namespace Event

theorem closed (h : Event L o o') (ho : o.store.Closed) : o'.store.Closed := by
  cases h with
  | assembled g hscope => exact ho.assemble g hscope
  | found => exact ho
  | built _ hd => exact (ho.construct hd).closed

theorem grows (h : Event L o o') : o.store.Grows o'.store := by
  cases h with
  | assembled g => exact Store.grows_assemble g _ _
  | found => exact .refl _
  | built _ _ hnone => exact Store.grows_construct hnone _

theorem exists_visits (h : Event L o o') :
    ∃ visits, o'.visits = o.visits ++ visits ∧ ∀ v ∈ visits, L v.cell := by
  cases h with
  | assembled => exact ⟨[], (List.append_nil _).symm, List.forall_mem_nil _⟩
  | found hi => exact ⟨_, rfl, List.forall_mem_singleton.mpr hi⟩
  | built hi => exact ⟨_, rfl, List.forall_mem_singleton.mpr hi⟩

end Event

end Observed

namespace Store
variable {s s' : Store}

theorem Closed.define (h : s.Closed) (name : String) {d : Definition} (hd : d.scope = []) :
    (s.define name d).Closed := by
  rw [Store.define, allocate_eq]
  refine ((h.count name 0).allocateAll ?_).register name ?_
  · refine List.forall_mem_singleton.mpr fun j hj => ?_
    rw [hd] at hj
    cases hj
  · rw [size_allocateAll]
    exact Nat.lt_succ_self _

theorem Grows.define (h : s.Grows s') (name : String) (d : Definition) :
    s.Grows (s'.define name d) := by
  rw [Store.define, allocate_eq]
  refine ((h.count name 0).allocateAll _).register name fun _ hlt => ?_
  exact absurd hlt (Nat.not_lt.mpr h.size_le)

end Store

namespace Observed
variable {L : Nat → Prop} {o o' o'' : Observed}

namespace Change

theorem closed (h : Change L o o') (ho : o.store.Closed) : o'.store.Closed := by
  cases h with
  | event h => exact h.closed ho
  | define name hd => exact ho.define name hd
  | share target hh => exact ho.register target (ho.lt_of_handle? hh)
  | drop name => exact ho.unregister name

theorem grows (h : Change L o o') : o.store.Grows o'.store := by
  cases h with
  | event h => exact h.grows
  | define name => exact (Store.Grows.refl _).define name _
  | @share name h target hh =>
    refine (Store.Grows.refl _).register target fun hw _ => ?_
    obtain ⟨cell, weak⟩ := h
    obtain rfl : weak = false := hw
    exact Store.mem_roots_iff.mpr ⟨name, Store.mem_registry_of_handle? hh⟩
  | drop name => exact (Store.Grows.refl _).unregister name

theorem exists_visits (h : Change L o o') :
    ∃ visits, o'.visits = o.visits ++ visits ∧ ∀ v ∈ visits, L v.cell := by
  cases h with
  | event h => exact h.exists_visits
  | _ => exact ⟨[], (List.append_nil _).symm, List.forall_mem_nil _⟩

end Change

/-- A session leads from `o` to `o'`. -/
abbrev Leads (L : Nat → Prop) : Observed → Observed → Prop := Relation.ReflTransGen (Change L)

theorem Leads.of_evolves (h : Evolves L o o') : Leads L o o' :=
  Relation.ReflTransGen.mono (fun _ _ => Change.event) _ _ h

theorem Leads.induct {P : Observed → Prop} (hP : ∀ {o o'}, Change L o o' → P o → P o')
    (h : Leads L o o') (ho : P o) : P o' := by
  induction h with
  | refl => exact ho
  | tail _ hlast ih => exact hP hlast ih

theorem Leads.closed (h : Leads L o o') (ho : o.store.Closed) : o'.store.Closed :=
  h.induct (P := fun o => o.store.Closed) Change.closed ho

theorem Leads.grows (h : Leads L o o') : o.store.Grows o'.store :=
  h.induct (P := fun o' => o.store.Grows o'.store) (fun hc ho => ho.trans hc.grows) (.refl _)

theorem Leads.exists_visits (h : Leads L o o') :
    ∃ visits, o'.visits = o.visits ++ visits ∧ ∀ v ∈ visits, L v.cell := by
  induction h with
  | refl => exact ⟨[], (List.append_nil _).symm, List.forall_mem_nil _⟩
  | tail _ hlast ih =>
    obtain ⟨visits, heq, hL⟩ := ih
    obtain ⟨last, heq', hL'⟩ := hlast.exists_visits
    refine ⟨visits ++ last, ?_, List.forall_mem_append.mpr ⟨hL, hL'⟩⟩
    rw [heq', heq, List.append_assoc]

end Observed

end Descent
