import Mathlib
import Descent.Proofs.Composition
import Descent.Proofs.Watching

namespace Descent
variable {w : Input}

namespace Record

def besidesBuilding (log : List Record) : List Record := log.filter (· ≠ .building)

@[simp] theorem besidesBuilding_nil : besidesBuilding [] = [] := rfl

@[simp] theorem besidesBuilding_append (log log' : List Record) :
    besidesBuilding (log ++ log') = besidesBuilding log ++ besidesBuilding log' :=
  List.filter_append ..

theorem besidesBuilding_eq_nil {log : List Record} (h : ∀ r ∈ log, r = building) :
    besidesBuilding log = [] :=
  List.filter_eq_nil_iff.mpr fun r hr => by simp [h r hr]

end Record

namespace Store
variable {s s' s'' : Store}

/-- Runs have led from `s` to `s'` without registering anything. -/
structure Develops (s s' : Store) : Prop extends s.Grows s' where
  registry : s'.registry = s.registry
  closed : s'.Closed

theorem Develops.trans (h : s.Develops s') (h' : s'.Develops s'') : s.Develops s'' :=
  ⟨h.toGrows.trans h'.toGrows, h'.registry.trans h.registry, h'.closed⟩

theorem Develops.isAlive_eq (h : s.Develops s') (hs : s.Closed) {i : Nat} (hi : i < s.cells.size)
    (running : List Nat) : s'.isAlive running i = s.isAlive running i := by
  rw [Bool.eq_iff_iff, isAlive_iff_held h.closed, isAlive_iff_held hs]
  constructor
  · intro hheld
    exact hheld.of_grows h.toGrows hi fun _ hr _ => .of_mem_running hr
  · intro hheld
    exact hheld.grow h.toGrows h.registry

theorem registry_announce {d : Definition} (hd : d.escape? = none) (i : Nat) (s : Store) :
    (s.announce i d).registry = s.registry := by
  rw [announce, hd]
  exact registry_tally d s

theorem registry_construct {d : Definition} (hd : d.escape? = none) (i : Nat) (s : Store) :
    (construct i d s).2.registry = s.registry :=
  (registry_assemble d.body (d.innerScope i) (s.announce i d)).trans (registry_announce hd i s)

end Store

namespace Observed
variable {L : Nat → Prop} {s₀ : Store} {o o' : Observed} {running : List Nat} {p : Assembled}

/-- No definition that has been built makes its handle escape. -/
def Quiet (o : Observed) : Prop :=
  ∀ v ∈ o.visits, v.builds = true → ∀ d, o.store.definition? v.cell = some d → d.escape? = none

/-- In the definitions that have been reached nothing depends on a tree. -/
def BindFree (o : Observed) : Prop :=
  ∀ v ∈ o.visits, ∀ d, o.store.definition? v.cell = some d → d.body.BindFree

theorem Evolves.mem_visits (h : Evolves L o o') {v : Visit} (hv : v ∈ o.visits) : v ∈ o'.visits := by
  obtain ⟨visits, heq, _⟩ := (Leads.of_evolves h).exists_visits
  rw [heq]
  exact List.mem_append_left _ hv

theorem Quiet.of_evolves (hq : o'.Quiet) (h : Evolves L o o') : o.Quiet := fun v hv hb d hd =>
  hq v (h.mem_visits hv) hb d ((Leads.of_evolves h).grows.definition?_eq_some hd)

theorem BindFree.of_evolves (hf : o'.BindFree) (h : Evolves L o o') : o.BindFree := fun v hv d hd =>
  hf v (h.mem_visits hv) d ((Leads.of_evolves h).grows.definition?_eq_some hd)

theorem Event.registry (h : Event L o o') (hq : o'.Quiet) : o'.store.registry = o.store.registry := by
  cases h with
  | assembled g => exact Store.registry_assemble g _ _
  | found => rfl
  | @built i d _ hd hnone =>
    refine Store.registry_construct (hq ⟨i, true⟩ (by simp) rfl d ?_) i o.store
    exact (Store.grows_construct hnone d).definition?_eq_some hd

theorem Evolves.develops (h : Evolves L o o') (ho : o.store.Closed) (hq : o'.Quiet) :
    o.store.Develops o'.store := by
  refine ⟨(Leads.of_evolves h).grows, ?_, (Leads.of_evolves h).closed ho⟩
  induction h with
  | refl => rfl
  | tail _ hlast ih => exact (hlast.registry hq).trans (ih (hq.of_evolves (.single hlast)))

/-- Once the watched run `x` has ended, `y` ends in the same way in every store to which this develops.
It is enough that `B` holds and that what has been reached is free of `bind` and of escapes. -/
def Replays (B : Prop) (s₀ : Store) (o : Observed) (α : Type) (x : Run Observed α) (y : Run Store α) :
    Prop :=
  ∀ t a t', Evolves s₀.Reachable o t.store → x t = .ok (a, t') →
    Evolves s₀.Reachable t.store t'.store ∧ (B → t'.store.BindFree → t'.store.Quiet →
      ∃ records : List Record, t'.log = t.log ++ records ∧ ∀ log s, t'.store.store.Develops s →
        y ⟨log, s⟩ = .ok (a, ⟨log ++ Record.besidesBuilding records, s⟩))

theorem Replays.mono {B B' : Prop} {α : Type} {x : Run Observed α} {y : Run Store α}
    (h : Replays B s₀ o α x y) (hB : B' → B) : Replays B' s₀ o α x y := fun t a t' he hx =>
  ⟨(h t a t' he hx).1, fun hb => (h t a t' he hx).2 (hB hb)⟩

theorem composes_replays (B : Prop) (s₀ : Store) (ho : o.store.Closed) :
    Run.Composes (Replays B s₀ o) where
  pure a t b t' _ hx := by
    obtain ⟨rfl, rfl⟩ := Prod.mk.inj (Except.ok.inj hx)
    exact ⟨.refl, fun _ _ _ => ⟨[], by simp, fun log s _ => by simp; rfl⟩⟩
  bind {α β x y f g} hx hf t b t'' he hrun := by
    rw [Run.bind_apply] at hrun
    cases hfirst : x t with
    | error why =>
      rw [hfirst] at hrun
      cases hrun
    | ok r =>
      obtain ⟨a, t'⟩ := r
      rw [hfirst] at hrun
      obtain ⟨hev, hreplay⟩ := hx t a t' he hfirst
      obtain ⟨hev', hreplay'⟩ := hf a t' b t'' (he.trans hev) hrun
      refine ⟨hev.trans hev', fun hB hfree hquiet => ?_⟩
      obtain ⟨records, hlog, hy⟩ := hreplay hB (hfree.of_evolves hev') (hquiet.of_evolves hev')
      obtain ⟨records', hlog', hg⟩ := hreplay' hB hfree hquiet
      refine ⟨records ++ records', by rw [hlog', hlog, Record.append_append], fun log s hs => ?_⟩
      have hclosed := (Leads.of_evolves (he.trans hev)).closed ho
      rw [Run.bind_apply, hy log s ((hev'.develops hclosed hquiet).trans hs)]
      dsimp only
      rw [hg _ s hs, Record.append_append, Record.besidesBuilding_append]
  stalled position t a t' _ hx := by
    obtain ⟨rfl, rfl⟩ := Prod.mk.inj (Except.ok.inj hx)
    refine ⟨.refl, fun _ _ _ => ⟨[.stalled position], by simp, fun log s _ => ?_⟩⟩
    simp [Record.besidesBuilding]
    rfl

variable {deeper : List Nat → Assembled → Parser Observed w Tree}
  {plain : List Nat → Assembled → Parser Store w Tree}

theorem Admits.replays_follow {h : Handle} (ha : Admits s₀ o running (.refer h))
    (hd : ∀ {o running p} c, Admits s₀ o running p →
      Replays p.BindFree s₀ o _ (deeper running p c) (plain running p c)) (c : Cursor w) :
    Replays True s₀ o _ (h.observe deeper running c) (h.follow plain running c) := by
  intro t a t' he hx
  have ha := ha.evolve he
  by_cases hh : (h.weak && !t.store.store.isAlive running h.cell) = true
  · rw [Handle.observe_of_dropped _ hh] at hx
    obtain ⟨rfl, rfl⟩ := Prod.mk.inj (Except.ok.inj hx)
    refine ⟨.refl, fun _ _ _ => ⟨[], by simp, fun log s hs => ?_⟩⟩
    rw [← hs.isAlive_eq ha.closed ha.within running] at hh
    rw [Handle.follow_of_dropped _ hh]
    simp
  · obtain ⟨p, t₁, hforces⟩ := exists_forces (ha.reachable hh) ha.within
    rw [Handle.observe_of_alive _ hh, Run.bind_apply, hforces.watched] at hx
    have hev : Evolves s₀.Reachable t.store t₁.store := .single hforces.event
    have hnext := (ha.toReady.evolve hev).admits (ha.reachable hh) hforces.parser?
    obtain ⟨hev', hreplay⟩ := hd c hnext t₁ a t' .refl hx
    refine ⟨hev.trans hev', fun _ hfree hquiet => ?_⟩
    have hbody : p.BindFree := by
      obtain ⟨v, hv, hcell⟩ := hforces.reached
      obtain ⟨d, hd⟩ := Store.definition?_of_parser? hforces.parser?
      rw [← hcell] at hd
      exact hnext.closed.bindFree hd (hcell ▸ hforces.parser?) ((hfree.of_evolves hev') v hv d hd)
    obtain ⟨records, hlog, hy⟩ := hreplay hbody hfree hquiet
    obtain ⟨building, hlog₁, hall⟩ := hforces.log
    refine ⟨building ++ records, by rw [hlog, hlog₁, Record.append_append], fun log s hs => ?_⟩
    -- The cell is alive and built in the later store.
    have hdevelops := Evolves.develops (hev.trans hev') ha.closed hquiet
    rw [← (hdevelops.trans hs).isAlive_eq ha.closed ha.within running] at hh
    have hp : (⟨log, s⟩ : Trail Store).store.parser? h.cell = some p :=
      ((hev'.develops hnext.closed hquiet).trans hs).parser? hforces.parser?
    rw [Handle.follow_of_alive _ hh, Run.bind_apply, Store.force_of_parser? hp]
    rw [Record.besidesBuilding_append, Record.besidesBuilding_eq_nil hall, List.nil_append]
    exact hy log s hs

/-- What follows a `bind` is assembled again each time, so nothing is promised but that it evolves. -/
theorem Ready.replays_follow (hr : Ready s₀ o running) (g : Grammar) {scope : Scope}
    (hscope : ∀ i ∈ scope.cells, i < o.store.cells.size)
    (hd : ∀ {o running p} c, Admits s₀ o running p →
      Replays p.BindFree s₀ o _ (deeper running p c) (plain running p c)) (c : Cursor w) :
    Replays False s₀ o _ (g.observe deeper running scope c) (g.follow plain running scope c) := by
  intro t a t' he hx
  have hscope : ∀ i ∈ scope.cells, i < t.store.store.cells.size := fun i hi =>
    Nat.lt_of_lt_of_le (hscope i hi) (Leads.of_evolves he).grows.size_le
  have hnext := (hr.evolve he).admits_assemble g hscope
  refine ⟨?_, False.elim⟩
  exact .head (.assembled g hscope) (hd c hnext _ a t' .refl hx).1

theorem Admits.replays_observe (ha : Admits s₀ o running p)
    (hd : ∀ {o running p} c, Admits s₀ o running p →
      Replays p.BindFree s₀ o _ (deeper running p c) (plain running p c)) (c : Cursor w) :
    Replays p.BindFree s₀ o _ (p.observe deeper running c) (p.interpret plain running c) := by
  have hcomp (B : Prop) := composes_replays B s₀ ha.closed
  induction p generalizing c with
  | terminal t => exact (hcomp _).terminal t c
  | modify m p ih => exact (hcomp _).modifier m (ih ha.of_modify) c
  | join k p q ih ih' =>
    exact (hcomp _).connective k (fun c => (ih ha.left c).mono And.left)
      (fun c => (ih' ha.right c).mono And.right) c
  | between p q r ih ih' ih'' =>
    exact (hcomp _).between (fun c => (ih ha.opening c).mono And.left)
      (fun c => (ih' ha.content c).mono fun h => h.2.1)
      (fun c => (ih'' ha.closing c).mono fun h => h.2.2) c
  | bind p scope f ih =>
    refine Replays.mono (B := False) ?_ And.right
    refine (hcomp _).cases ((ih ha.of_bind c).mono False.elim) (fun x d => ?_) fun _ => (hcomp _).pure _
    exact ha.toReady.replays_follow (f x) ha.within.2 hd d
  | refer h => exact (ha.replays_follow hd c).mono fun _ => trivial

theorem Admits.replays_observed (depth : Nat) (ha : Admits s₀ o running p) (c : Cursor w) :
    Replays p.BindFree s₀ o _ (p.observed depth running c) (p.run depth running c) := by
  induction depth generalizing o running p c with
  | zero =>
    intro t a t' _ hx
    cases hx
  | succ depth ih => exact ha.replays_observe (fun c ha => ih ha c) c

end Observed

namespace Extent

theorem besidesBuilding_opening (extent : Extent) (w : Input) :
    Record.besidesBuilding (extent.opening w) = extent.opening w := by
  cases extent <;> rfl

theorem besidesBuilding_closing (extent : Extent) (w : Input) (answer : Answer) :
    Record.besidesBuilding (extent.closing w answer) = extent.closing w answer := by
  cases extent <;> cases answer <;> rfl

end Extent

namespace Observed
variable {L : Nat → Prop} {s₀ : Store} {o o' : Observed} {transcript : Transcript}

theorem Replays.answer {B : Prop} {p : Parser Observed w Tree} {q : Parser Store w Tree}
    (h : ∀ c, Replays B s₀ o _ (p c) (q c)) (extent : Extent) :
    Replays B s₀ o _ (extent.answer p) (extent.answer q) := by
  intro t a t' he hx
  rw [Extent.answer_apply] at hx
  cases hrun : p (extent.cursor w) { t with log := t.log ++ extent.opening w } with
  | error why =>
    rw [hrun] at hx
    cases hx
  | ok r =>
    obtain ⟨outcome, u⟩ := r
    rw [hrun] at hx
    obtain ⟨rfl, rfl⟩ := Prod.mk.inj (Except.ok.inj hx)
    obtain ⟨hev, hreplay⟩ := h _ { t with log := t.log ++ extent.opening w } outcome u he hrun
    refine ⟨hev, fun hB hfree hquiet => ?_⟩
    obtain ⟨records, hlog, hq⟩ := hreplay hB hfree hquiet
    refine ⟨extent.opening w ++ records ++ extent.closing w (extent.judge outcome), ?_,
      fun log s hs => ?_⟩
    · dsimp only
      rw [hlog, Record.append_append, Record.append_append, List.append_assoc]
    · rw [Extent.answer_apply, hq _ s hs]
      simp only [Except.map, Record.append_append, Record.besidesBuilding_append,
        Extent.besidesBuilding_opening, Extent.besidesBuilding_closing]

/-- A parse that ended with `transcript` ends so again in every later state, without being told of any
building. -/
theorem step_again (depth : Nat) (ho : o.store.Closed) {name : String} {extent : Extent}
    (hfirst : (o.step depth (.parse name w extent)).1 = .parsed transcript)
    (hfree : (o.step depth (.parse name w extent)).2.BindFree)
    (hlater : Evolves L (o.step depth (.parse name w extent)).2 o') (hquiet : o'.Quiet) :
    o'.store.step depth (.parse name w extent) =
      (.parsed ⟨transcript.answer, Record.besidesBuilding transcript.log⟩, o'.store) := by
  cases hh : o.store.handle? name with
  | none =>
    rw [step, hh] at hfirst
    cases hfirst
  | some h =>
    have hreplays (c : Cursor w) :
        Replays True {} o _ (h.observed depth c) (h.parser depth c) :=
      (admits_registered ho (.of_empty _) hh).replays_follow (fun c ha => ha.replays_observed depth c) c
    rw [step_parse hh] at hfirst hfree hlater
    cases hrun : extent.answer (h.observed depth) ⟨#[], o⟩ with
    | error why =>
      rw [hrun] at hfirst
      cases hfirst
    | ok r =>
      obtain ⟨answer, t⟩ := r
      rw [hrun] at hfirst hfree hlater
      obtain rfl := Reply.parsed.inj hfirst
      obtain ⟨hev, hreplay⟩ := Replays.answer hreplays extent ⟨#[], o⟩ answer t .refl hrun
      obtain ⟨records, hlog, hagain⟩ := hreplay trivial hfree (hquiet.of_evolves hlater)
      have hclosed := (Leads.of_evolves hev).closed ho
      have hdevelops := hlater.develops hclosed hquiet
      -- No handle has escaped, so the name still leads to the same cell.
      have hhandle : o'.store.handle? name = some h := by
        have hregistry := ((hev.develops ho (hquiet.of_evolves hlater)).trans hdevelops).registry
        rw [Store.handle?, hregistry]
        exact hh
      rw [Store.step_parse hhandle, hagain #[] o'.store hdevelops]
      simp [hlog]

theorem evolves_parses (depth : Nat) (ho : o.store.Closed) (hs : s₀.Grows o.store) {xs : List Step}
    (hxs : ∀ x ∈ xs, ∃ name w extent, x = .parse name w extent) :
    Evolves s₀.Reachable o (o.steps depth xs).2 := by
  induction xs generalizing o with
  | nil => exact .refl
  | cons x xs ih =>
    obtain ⟨⟨name, w, extent, rfl⟩, hrest⟩ := List.forall_mem_cons.mp hxs
    have hev := (parse_spec depth ho hs name w extent).2.2
    have hlead := Leads.of_evolves hev
    exact hev.trans (ih (hlead.closed ho) (hs.trans hlead.grows) hrest)

/-- In every state of a session, let a parse end and others follow it. If nothing in the definitions that
it reached depends on a tree, and no handle escapes from a definition that is built by any of them,
then the same parse ends with the same answer, and with the same log but for the records of building.
It changes nothing any more. -/
theorem parse_again (depth : Nat) (xs others : List Step) (name : String) (w : Input)
    (extent : Extent) (transcript : Transcript)
    (hothers : ∀ x ∈ others, ∃ name w extent, x = .parse name w extent)
    (hfirst : ((Store.steps depth {} xs).2.step depth (.parse name w extent)).1 = .parsed transcript)
    (hfree : (Observed.step depth ⟨(Store.steps depth {} xs).2, []⟩
      (.parse name w extent)).2.BindFree)
    (hquiet : (Observed.steps depth ⟨(Store.steps depth {} xs).2, []⟩
      (.parse name w extent :: others)).2.Quiet) :
    let later := ((Store.steps depth {} xs).2.steps depth (.parse name w extent :: others)).2
    later.step depth (.parse name w extent) =
      (.parsed ⟨transcript.answer, transcript.log.filter (· ≠ .building)⟩, later) := by
  intro later
  have hclosed : (Store.steps depth {} xs).2.Closed := by
    rw [← (steps_spec (o := {}) depth Store.Closed.empty (.refl _) xs).2.1]
    exact closed_steps depth xs
  obtain ⟨hreply, _, hlead⟩ :=
    step_spec (o := ⟨_, []⟩) depth hclosed (.refl _) (.parse name w extent)
  have hothers := evolves_parses depth (hlead.closed hclosed) (.refl _) hothers
  have hstore :=
    (steps_spec (o := ⟨_, []⟩) depth hclosed (.refl _) (.parse name w extent :: others)).2.1
  rw [← hreply] at hfirst
  have hagain := step_again depth hclosed hfirst hfree hothers hquiet
  have heq : ((Observed.step depth ⟨(Store.steps depth {} xs).2, []⟩ (.parse name w extent)).2.steps
    depth others).2.store = later := hstore
  rw [heq] at hagain
  exact hagain

/-- A recursive definition that runs another one in an alternative that fails, and is entered again
through its weak handle. -/
theorem parse_again_nested :
    let body := (Grammar.call "b").orElse ((Grammar.is 97).andThen (.call "a"))
    let s := (Store.steps 3 {} [.define "b" (.is 98), .defineRecursive "a" body none]).2
    let input : Input := ⟨.byte, #[97, 98], by decide⟩
    let parses : List Step := [.parse "a" input .whole, .parse "b" input .whole]
    let tree := Tree.pair (.element 97) (.element 98)
    (s.step 3 (.parse "a" input .whole)).1 =
        .parsed ⟨.complete tree, [.begun 2, .building, .building, .consumedAll 2]⟩ ∧
      (s.steps 3 parses).2.step 3 (.parse "a" input .whole) =
        (.parsed ⟨.complete tree, [.begun 2, .consumedAll 2]⟩, (s.steps 3 parses).2) := by
  intro body s input parses tree
  have hfirst : (s.step 3 (.parse "a" input .whole)).1 =
      .parsed ⟨.complete tree, [.begun 2, .building, .building, .consumedAll 2]⟩ := by cbv
  have hfree : (Observed.step 3 ⟨s, []⟩ (.parse "a" input .whole)).2.BindFree := by
    have hdefinitions : (Observed.step 3 ⟨s, []⟩ (.parse "a" input .whole)).2.store.cells.toList.map
        (·.definition) = [{ body := .is 98, counted? := some "b" },
          { body, self? := some "a", counted? := some "a" }] := by cbv
    intro v _ d hd
    have hmem := Store.mem_definitions hd
    rw [hdefinitions] at hmem
    rcases List.mem_pair.mp hmem with rfl | rfl
    · trivial
    · exact ⟨trivial, trivial, trivial⟩
  have hquiet : (Observed.steps 3 ⟨s, []⟩ parses).2.Quiet := by
    have hdefinitions : (Observed.steps 3 ⟨s, []⟩ parses).2.store.cells.toList.map
        (·.definition) = [{ body := .is 98, counted? := some "b" },
          { body, self? := some "a", counted? := some "a" }] := by cbv
    intro v _ _ d hd
    have hmem := Store.mem_definitions hd
    rw [hdefinitions] at hmem
    rcases List.mem_pair.mp hmem with rfl | rfl <;> rfl
  refine ⟨hfirst, ?_⟩
  exact parse_again 3 [.define "b" (.is 98), .defineRecursive "a" body none]
    [.parse "b" input .whole] "a" input .whole _ (by simp) hfirst hfree hquiet

end Observed

end Descent
