import Descent.Proofs.Following
import Descent.Proofs.Observation

namespace Descent
variable {w : Input}

theorem Observed.force_apply (i : Nat) (t : Trail Observed) :
    Observed.force i t = (Store.force i ⟨t.log, t.store.store⟩).map fun r => (r.1,
      ⟨r.2.log, r.2.store, t.store.visits ++ [⟨i, (t.store.store.parser? i).isNone⟩]⟩) := rfl

namespace Handle
variable {running : List Nat} {h : Handle} {c : Cursor w}

theorem observe_of_dropped (deeper : List Nat → Assembled → Parser Observed w Tree)
    {t : Trail Observed} (hh : (h.weak && !t.store.store.isAlive running h.cell) = true) :
    h.observe deeper running c t = .ok (.failure (dropped c.position), t) := by
  rw [observe, Run.bind_apply, Run.get_apply]
  dsimp only
  rw [if_pos hh]
  rfl

theorem observe_of_alive (deeper : List Nat → Assembled → Parser Observed w Tree)
    {t : Trail Observed} (hh : ¬(h.weak && !t.store.store.isAlive running h.cell) = true) :
    h.observe deeper running c t =
      (Observed.force h.cell >>= fun p => deeper (h.cell :: running) p c) t := by
  rw [observe, Run.bind_apply, Run.get_apply]
  dsimp only
  rw [if_neg hh]

end Handle

namespace Store
variable {s₀ s : Store} {running : List Nat} {i j : Nat}

/-- A run that begins in `s` can reach the cells that are held and those that it makes. -/
def Reachable (s : Store) (i : Nat) : Prop := i < s.cells.size → s.Held [] i

theorem Held.reachable (h : s.Held running i) (hs : s₀.Grows s)
    (hrun : ∀ r ∈ running, s₀.Reachable r) : s₀.Reachable i := fun hi => h.of_grows hs hi hrun

theorem reachable_of_mem_roots (h : i ∈ s.roots) (hs : s₀.Grows s) : s₀.Reachable i :=
  fun hi => .of_mem_roots (hs.roots h hi)

theorem Reachable.of_mem_heldBy (h : s₀.Reachable i) (hs : s₀.Grows s) (hj : j ∈ s.heldBy i) :
    s₀.Reachable j := by
  intro hlt
  rcases hs.heldBy hj hlt with hj | hj
  · obtain ⟨p, hp, _⟩ := mem_heldBy_iff.mp hj
    exact (h (lt_of_parser? hp)).of_mem_heldBy hj
  · exact .of_mem_roots hj

theorem reachable_of_mem_assemble {g : Grammar} {scope : Scope} (hs : s₀.Grows s)
    (hi : i ∈ (g.assemble scope s).1.holds) : s₀.Reachable i := fun hlt =>
  .of_mem_roots (hs.roots (mem_roots_of_mem_holds hi (Nat.lt_of_lt_of_le hlt hs.size_le)) hlt)

end Store

namespace Observed
variable {s₀ : Store} {o o' : Observed} {running : List Nat} {p q r : Assembled} {i : Nat}

/-- A run that began in `s₀` has got to `o` and uses the cells `running`. -/
structure Ready (s₀ : Store) (o : Observed) (running : List Nat) : Prop where
  closed : o.store.Closed
  grows : s₀.Grows o.store
  running : ∀ i ∈ running, s₀.Reachable i

/-- In such a run it is the turn of `p`. -/
structure Admits (s₀ : Store) (o : Observed) (running : List Nat) (p : Assembled) : Prop
    extends Ready s₀ o running where
  within : p.Within o.store.cells.size
  holds : ∀ i ∈ p.holds, s₀.Reachable i

theorem Ready.evolve (h : Ready s₀ o running) (he : Evolves s₀.Reachable o o') :
    Ready s₀ o' running where
  closed := (Leads.of_evolves he).closed h.closed
  grows := h.grows.trans (Leads.of_evolves he).grows
  running := h.running

theorem Admits.evolve (h : Admits s₀ o running p) (he : Evolves s₀.Reachable o o') :
    Admits s₀ o' running p where
  toReady := h.toReady.evolve he
  within := h.within.mono (Leads.of_evolves he).grows.size_le
  holds := h.holds

namespace Admits

theorem of_modify {m : Modifier} (h : Admits s₀ o running (.modify m p)) :
    Admits s₀ o running p := ⟨h.toReady, h.within, h.holds⟩

theorem left {k : Connective} (h : Admits s₀ o running (.join k p q)) : Admits s₀ o running p :=
  ⟨h.toReady, h.within.1, fun i hi => h.holds i (List.mem_append_left _ hi)⟩

theorem right {k : Connective} (h : Admits s₀ o running (.join k p q)) : Admits s₀ o running q :=
  ⟨h.toReady, h.within.2, fun i hi => h.holds i (List.mem_append_right _ hi)⟩

theorem opening (h : Admits s₀ o running (.between p q r)) : Admits s₀ o running p :=
  ⟨h.toReady, h.within.1, fun i hi =>
    h.holds i (List.mem_append_left _ (List.mem_append_left _ hi))⟩

theorem content (h : Admits s₀ o running (.between p q r)) : Admits s₀ o running q :=
  ⟨h.toReady, h.within.2.1, fun i hi =>
    h.holds i (List.mem_append_left _ (List.mem_append_right _ hi))⟩

theorem closing (h : Admits s₀ o running (.between p q r)) : Admits s₀ o running r :=
  ⟨h.toReady, h.within.2.2, fun i hi => h.holds i (List.mem_append_right _ hi)⟩

theorem of_bind {scope : Scope} {f : Tree → Grammar} (h : Admits s₀ o running (.bind p scope f)) :
    Admits s₀ o running p := ⟨h.toReady, h.within.1, h.holds⟩

end Admits

theorem Ready.admits (h : Ready s₀ o running) (hi : s₀.Reachable i)
    (hp : o.store.parser? i = some p) : Admits s₀ o (i :: running) p where
  closed := h.closed
  grows := h.grows
  running := List.forall_mem_cons.mpr ⟨hi, h.running⟩
  within := h.closed.built hp
  holds _ hj := hi.of_mem_heldBy h.grows (Store.mem_heldBy_iff.mpr ⟨p, hp, hj⟩)

theorem Ready.admits_assemble (h : Ready s₀ o running) (g : Grammar) {scope : Scope}
    (hscope : ∀ i ∈ scope.cells, i < o.store.cells.size) :
    Admits s₀ { o with store := (g.assemble scope o.store).2 }
      ((g.assemble scope o.store).1.holds ++ running) (g.assemble scope o.store).1 where
  toReady := by
    have hready := h.evolve (.single (Event.assembled g hscope))
    refine ⟨hready.closed, hready.grows, List.forall_mem_append.mpr ⟨fun i hi => ?_, h.running⟩⟩
    exact Store.reachable_of_mem_assemble h.grows hi
  within := h.closed.within_assemble g hscope
  holds _ hi := Store.reachable_of_mem_assemble h.grows hi

theorem Admits.reachable {h : Handle} (ha : Admits s₀ o running (.refer h))
    (hh : ¬(h.weak && !o.store.isAlive running h.cell) = true) : s₀.Reachable h.cell := by
  cases hw : h.weak with
  | false => exact ha.holds _ (by simp [Assembled.holds, hw])
  | true =>
    have halive : o.store.isAlive running h.cell = true := by simpa [hw] using hh
    exact ((Store.isAlive_iff_held ha.closed).mp halive).reachable ha.grows ha.running

/-- A run that reaches cell `i` at `t` goes on at `t'` with the parser `p` of the cell. It tells no more
than that it has built the cell. -/
structure Forces (L : Nat → Prop) (i : Nat) (t : Trail Observed) (p : Assembled)
    (t' : Trail Observed) : Prop where
  watched : Observed.force i t = .ok (p, t')
  plain : Store.force i ⟨t.log, t.store.store⟩ = .ok (p, ⟨t'.log, t'.store.store⟩)
  event : Event L t.store t'.store
  parser? : t'.store.store.parser? i = some p
  reached : t'.store.Reached i
  log : ∃ records : List Record, t'.log = t.log ++ records ∧ ∀ r ∈ records, r = .building

theorem exists_forces {L : Nat → Prop} {t : Trail Observed} (hi : L i)
    (hlt : i < t.store.store.cells.size) : ∃ p t', Forces L i t p t' := by
  cases hp : t.store.store.parser? i with
  | some p =>
    have hforce : Store.force i ⟨t.log, t.store.store⟩ = .ok (p, ⟨t.log, t.store.store⟩) :=
      Store.force_of_parser? hp
    refine ⟨p, ⟨t.log, { t.store with visits := t.store.visits ++ [⟨i, false⟩] }⟩, ?_, hforce,
      .found hi hp, hp, ⟨⟨i, false⟩, by simp, rfl⟩, [], by simp, List.forall_mem_nil _⟩
    rw [force_apply, hforce, hp]
    rfl
  | none =>
    obtain ⟨d, hd⟩ := Store.exists_definition? hlt
    have hforce := Store.force_of_definition? (t := ⟨t.log, t.store.store⟩) hd hp
    refine ⟨_, ⟨t.log.push .building, (Store.construct i d t.store.store).2,
      t.store.visits ++ [⟨i, true⟩]⟩, ?_, hforce, .built hi hd hp, Store.parser?_construct hlt d,
      ⟨⟨i, true⟩, by simp, rfl⟩, [.building], by simp, by simp⟩
    rw [force_apply, hforce, hp]
    rfl

open Correspondence (same)

/-- A watched run has led from `o` to `t`, and the same run to `u` without being watched. -/
structure Watches (L : Nat → Prop) (o : Observed) (t : Trail Observed) (u : Trail Store) : Prop where
  evolves : Evolves L o t.store
  log : t.log = u.log
  store : t.store.store = u.store

variable {deeper : List Nat → Assembled → Parser Observed w Tree}
  {plain : List Nat → Assembled → Parser Store w Tree}

theorem stalls_watches (L : Nat → Prop) (o : Observed) : (same w).Stalls (Watches L o) := by
  rintro c _ rfl t u h
  refine ⟨trivial, h.evolves, ?_, h.store⟩
  show t.log.push _ = u.log.push _
  rw [h.log]

theorem Watches.after {L : Nat → Prop} {t : Trail Observed} {u : Trail Store}
    (he : Evolves L o o') (h : Watches L o' t u) : Watches L o t u :=
  ⟨he.trans h.evolves, h.log, h.store⟩

theorem Admits.parsers_follow {h : Handle} (ha : Admits s₀ o running (.refer h))
    (hd : ∀ {o running p}, Admits s₀ o running p →
      (same w).Parsers (Watches s₀.Reachable o) Eq (deeper running p) (plain running p)) :
    (same w).Parsers (Watches s₀.Reachable o) Eq (h.observe deeper running)
      (h.follow plain running) := by
  rintro c _ rfl t ⟨log, s⟩ ⟨he, hlog, hstore⟩
  obtain rfl : t.log = log := hlog
  obtain rfl : t.store.store = s := hstore
  have ha := ha.evolve he
  by_cases hh : (h.weak && !t.store.store.isAlive running h.cell) = true
  · rw [Handle.observe_of_dropped _ hh, Handle.follow_of_dropped _ hh]
    exact ⟨rfl, he, rfl, rfl⟩
  · have hi := ha.reachable hh
    obtain ⟨p, t', hforces⟩ := exists_forces hi ha.within
    rw [Handle.observe_of_alive _ hh, Handle.follow_of_alive _ hh, Run.bind_apply, Run.bind_apply,
      hforces.watched, hforces.plain]
    -- Reaching the cell is one event, and the run goes on from there one level deeper.
    have hev := Relation.ReflTransGen.single hforces.event
    have hnext := (ha.toReady.evolve hev).admits hi hforces.parser?
    exact (hd hnext c c rfl t' ⟨t'.log, t'.store.store⟩ ⟨.refl, rfl, rfl⟩).mono
      (fun _ _ h => h.after (he.trans hev)) fun _ _ h => h

theorem Ready.parsers_follow (hr : Ready s₀ o running) (g : Grammar) {scope : Scope}
    (hscope : ∀ i ∈ scope.cells, i < o.store.cells.size)
    (hd : ∀ {o running p}, Admits s₀ o running p →
      (same w).Parsers (Watches s₀.Reachable o) Eq (deeper running p) (plain running p)) :
    (same w).Parsers (Watches s₀.Reachable o) Eq (g.observe deeper running scope)
      (g.follow plain running scope) := by
  rintro c _ rfl t ⟨log, s⟩ ⟨he, hlog, hstore⟩
  obtain rfl : t.log = log := hlog
  obtain rfl : t.store.store = s := hstore
  have hscope : ∀ i ∈ scope.cells, i < t.store.store.cells.size := fun i hi =>
    Nat.lt_of_lt_of_le (hscope i hi) (Leads.of_evolves he).grows.size_le
  have hnext := (hr.evolve he).admits_assemble g hscope
  exact (hd hnext c c rfl ⟨t.log, _⟩ ⟨t.log, _⟩ ⟨.refl, rfl, rfl⟩).mono
    (fun _ _ h => h.after (he.tail (.assembled g hscope))) fun _ _ h => h

theorem Admits.parsers_observe (ha : Admits s₀ o running p)
    (hd : ∀ {o running p}, Admits s₀ o running p →
      (same w).Parsers (Watches s₀.Reachable o) Eq (deeper running p) (plain running p)) :
    (same w).Parsers (Watches s₀.Reachable o) Eq (p.observe deeper running)
      (p.interpret plain running) := by
  induction p with
  | terminal t => exact t.parsers_same
  | modify m p ih => exact m.parsers_same (stalls_watches _ o) (ih ha.of_modify)
  | join k p q ih ih' => exact k.parsers_same (ih ha.left) (ih' ha.right)
  | between p q r ih ih' ih'' => exact (ih ha.opening).between (ih' ha.content) (ih'' ha.closing)
  | bind p scope f ih =>
    refine (ih ha.of_bind).bind ?_
    rintro x _ rfl
    exact ha.toReady.parsers_follow (f x) ha.within.2 hd
  | refer h => exact ha.parsers_follow hd

theorem Admits.parsers_observed (depth : Nat) (ha : Admits s₀ o running p) :
    (same w).Parsers (Watches s₀.Reachable o) Eq (p.observed depth running) (p.run depth running) := by
  induction depth generalizing o running p with
  | zero => exact fun _ _ _ => .stop _
  | succ depth ih => exact ha.parsers_observe ih

theorem admits_registered (ho : o.store.Closed) (hs : s₀.Grows o.store) {name : String} {h : Handle}
    (hh : o.store.handle? name = some h) : Admits s₀ o [] (.refer h) where
  closed := ho
  grows := hs
  running := List.forall_mem_nil _
  within := ho.lt_of_handle? hh
  holds i hi := by
    obtain ⟨cell, weak⟩ := h
    cases weak with
    | true => cases hi
    | false =>
      obtain rfl := List.mem_singleton.mp hi
      have hmem := Store.mem_registry_of_handle? hh
      exact Store.reachable_of_mem_roots (Store.mem_roots_iff.mpr ⟨name, hmem⟩) hs

theorem alike_answer (ho : o.store.Closed) (hs : s₀.Grows o.store) {name : String} {h : Handle}
    (hh : o.store.handle? name = some h) (depth : Nat) (extent : Extent) :
    Run.Alike (Watches s₀.Reachable o) Eq (extent.answer (w := w) (h.observed depth) ⟨#[], o⟩)
      (extent.answer (w := w) (h.parser depth) ⟨#[], o.store⟩) := by
  have hp : (same w).Parsers (Watches s₀.Reachable o) Eq (h.observed depth) (h.parser depth) :=
    (admits_registered ho hs hh).parsers_follow fun ha => ha.parsers_observed depth
  rw [Extent.answer_apply, Extent.answer_apply]
  refine (hp _ _ rfl _ _ ⟨.refl, rfl, rfl⟩).map fun x y t u hx ht => ?_
  rw [(Correspondence.outcomes_same_iff x y).mp hx]
  refine ⟨rfl, ht.evolves, ?_, ht.store⟩
  rw [ht.log]

theorem step_parse {name : String} {h : Handle} (hh : o.store.handle? name = some h) (depth : Nat)
    (extent : Extent) : o.step depth (.parse name w extent) =
      match extent.answer (w := w) (h.observed depth) ⟨#[], o⟩ with
      | .ok (answer, trail) => (.parsed ⟨answer, trail.log.toList⟩, trail.store)
      | .error why => (.stopped why, o) := by
  cases hrun : extent.answer (w := w) (h.observed depth) ⟨#[], o⟩ <;> simp only [step, hh, hrun]

end Observed

theorem Store.step_parse {s : Store} {name : String} {h : Handle} (hh : s.handle? name = some h)
    (depth : Nat) (extent : Extent) : s.step depth (.parse name w extent) =
      match extent.answer (w := w) (h.parser depth) ⟨#[], s⟩ with
      | .ok (answer, trail) => (.parsed ⟨answer, trail.log.toList⟩, trail.store)
      | .error why => (.stopped why, s) := by
  have hrun : (extent.answer (w := w) (h.parser depth)).run ⟨#[], s⟩ =
      extent.answer (h.parser depth) ⟨#[], s⟩ := rfl
  simp only [step, hh, parse, hrun]
  cases extent.answer (w := w) (h.parser depth) ⟨#[], s⟩ <;> rfl

namespace Observed
variable {s₀ : Store} {o : Observed}

theorem parse_spec (depth : Nat) (ho : o.store.Closed) (hs : s₀.Grows o.store) (name : String)
    (w : Input) (extent : Extent) :
    (o.step depth (.parse name w extent)).1 = (o.store.step depth (.parse name w extent)).1 ∧
      (o.step depth (.parse name w extent)).2.store =
        (o.store.step depth (.parse name w extent)).2 ∧
          Evolves s₀.Reachable o (o.step depth (.parse name w extent)).2 := by
  cases hh : o.store.handle? name with
  | none => simp [step, Store.step, hh, Relation.ReflTransGen.refl]
  | some h =>
    have halike := alike_answer (w := w) ho hs hh depth extent
    rw [step_parse hh, Store.step_parse hh]
    cases hobs : extent.answer (w := w) (h.observed depth) ⟨#[], o⟩ with
    | error why =>
      cases hplain : extent.answer (w := w) (h.parser depth) ⟨#[], o.store⟩ with
      | error why' =>
        rw [hobs, hplain] at halike
        obtain rfl : why = why' := halike
        exact ⟨rfl, rfl, .refl⟩
      | ok r =>
        rw [hobs, hplain] at halike
        exact halike.elim
    | ok r =>
      cases hplain : extent.answer (w := w) (h.parser depth) ⟨#[], o.store⟩ with
      | error why =>
        rw [hobs, hplain] at halike
        exact halike.elim
      | ok r' =>
        rw [hobs, hplain] at halike
        obtain ⟨hanswer, hwatch⟩ := halike
        refine ⟨?_, hwatch.store, hwatch.evolves⟩
        dsimp only
        rw [hanswer, hwatch.log]

/-- A step that is not watched gives the same reply and the same store, and all that happens in it is a
change. -/
theorem step_spec (depth : Nat) (ho : o.store.Closed) (hs : s₀.Grows o.store) (x : Step) :
    (o.step depth x).1 = (o.store.step depth x).1 ∧
      (o.step depth x).2.store = (o.store.step depth x).2 ∧
        Leads s₀.Reachable o (o.step depth x).2 := by
  cases x with
  | define name body => exact ⟨rfl, rfl, .single (.define name rfl)⟩
  | defineRecursive name body escape? => exact ⟨rfl, rfl, .single (.define name rfl)⟩
  | clone name target =>
    refine ⟨rfl, rfl, ?_⟩
    cases hh : o.store.handle? name with
    | none =>
      have hsame : (o.step depth (.clone name target)).2 = o := by simp [step, Store.step, hh]
      rw [hsame]
    | some h =>
      have hshare : (o.step depth (.clone name target)).2 =
          { o with store := o.store.register target h } := by simp [step, Store.step, hh]
      rw [hshare]
      exact .single (.share target hh)
  | drop name => exact ⟨rfl, rfl, .single (.drop name)⟩
  | isBuilt name => exact ⟨rfl, rfl, .refl⟩
  | builds => exact ⟨rfl, rfl, .refl⟩
  | parse name w extent =>
    obtain ⟨hreply, hstore, he⟩ := parse_spec depth ho hs name w extent
    exact ⟨hreply, hstore, .of_evolves he⟩

theorem steps_spec (depth : Nat) (ho : o.store.Closed) (hs : s₀.Grows o.store) (xs : List Step) :
    (o.steps depth xs).1 = (o.store.steps depth xs).1 ∧
      (o.steps depth xs).2.store = (o.store.steps depth xs).2 ∧
        Leads s₀.Reachable o (o.steps depth xs).2 := by
  induction xs generalizing o with
  | nil => exact ⟨rfl, rfl, .refl⟩
  | cons x xs ih =>
    obtain ⟨hreply, hstore, hlead⟩ := step_spec depth ho hs x
    obtain ⟨hreplies, hstore', hlead'⟩ := ih (hlead.closed ho) (hs.trans hlead.grows)
    rw [hstore] at hreplies hstore'
    exact ⟨congrArg₂ List.cons hreply hreplies, hstore', hlead.trans hlead'⟩

/-- The store of a session is closed. -/
theorem closed_steps (depth : Nat) (xs : List Step) :
    (Observed.steps depth {} xs).2.store.Closed :=
  (steps_spec depth Store.Closed.empty (Store.Grows.refl {}) xs).2.2.closed Store.Closed.empty

end Observed

end Descent
