import Mathlib.Data.Finset.Card
import Descent.Proofs.Watching

namespace Descent

namespace Store
variable {s : Store} {i : Nat} {d : Definition} {name : String}

/-- The cells of the definitions that are counted under a name. -/
def made (s : Store) (name : String) : Finset Nat :=
  (Finset.range s.cells.size).filter fun i => (s.definition? i).bind (·.counted?) = some name

theorem mem_made_iff :
    i ∈ s.made name ↔ ∃ d, s.definition? i = some d ∧ d.counted? = some name := by
  simp only [made, Finset.mem_filter, Finset.mem_range, Option.bind_eq_some_iff]
  exact ⟨And.right, fun h => ⟨h.elim fun _ hd => lt_of_definition? hd.1, h⟩⟩

theorem made_eq {s' : Store} (h : ∀ i, s'.definition? i = s.definition? i) (name : String) :
    s'.made name = s.made name := by
  ext i
  rw [mem_made_iff, mem_made_iff, h]

theorem made_allocateAll {ds : List Definition} (hds : ∀ d ∈ ds, d.counted? = none) (s : Store)
    (name : String) : (s.allocateAll ds).made name = s.made name := by
  ext i
  rw [mem_made_iff, mem_made_iff]
  constructor
  · rintro ⟨d, hd, hcount⟩
    rcases definition?_allocateAll_cases hd with hd | hmem
    · exact ⟨d, hd, hcount⟩
    · rw [hds d hmem] at hcount
      cases hcount
  · rintro ⟨d, hd, hcount⟩
    exact ⟨d, (definition?_allocateAll ds (lt_of_definition? hd)).trans hd, hcount⟩

theorem made_assemble (g : Grammar) (scope : Scope) (s : Store) (name : String) :
    (g.assemble scope s).2.made name = s.made name := by
  obtain ⟨ds, hs, hds⟩ := exists_assemble g scope s
  rw [hs, made_allocateAll fun d hd => (hds d hd).2.1]

theorem made_construct (i : Nat) (d : Definition) (s : Store) (name : String) :
    (construct i d s).2.made name = s.made name := by
  have hann (j : Nat) : (s.announce i d).definition? j = s.definition? j := by
    rw [definition?, cells_announce, definition?]
  rw [construct_eq, made_eq (definition?_fill i _ _), made_assemble, made_eq hann]

theorem size_notMem_made (s : Store) (name : String) : s.cells.size ∉ s.made name := fun h => by
  obtain ⟨d, hd, _⟩ := mem_made_iff.mp h
  exact Nat.lt_irrefl _ (lt_of_definition? hd)

theorem made_define (name : String) (d : Definition) (s : Store) (other : String) :
    (s.define name d).made other =
      if name = other then insert s.cells.size (s.made other) else s.made other := by
  have hnew : (s.define name d).definition? s.cells.size = some { d with counted? := some name } :=
    definition?_allocate _ s
  have hold {i : Nat} (hi : i ≠ s.cells.size) :
      (s.define name d).definition? i = s.definition? i := by
    simp [define, definition?, allocate, register, count, Array.getElem?_push, hi]
  ext i
  by_cases hi : i = s.cells.size
  · subst hi
    have hnot := s.size_notMem_made other
    rw [mem_made_iff, hnew]
    split <;> simp_all
  · rw [mem_made_iff, hold hi, ← mem_made_iff]
    split <;> simp [hi]

theorem card_made_define (name : String) (d : Definition) (s : Store) (other : String) :
    ((s.define name d).made other).card =
      (s.made other).card + if name = other then 1 else 0 := by
  rw [made_define]
  split
  · exact Finset.card_insert_of_notMem (s.size_notMem_made other)
  · rfl

theorem parser?_assemble (g : Grammar) (scope : Scope) (s : Store) (i : Nat) :
    (g.assemble scope s).2.parser? i = s.parser? i := by
  obtain ⟨ds, hs, _⟩ := exists_assemble g scope s
  rw [hs, parser?_allocateAll]

theorem parser?_construct_of_ne {j : Nat} (hne : j ≠ i) (d : Definition) (s : Store) :
    (construct i d s).2.parser? j = s.parser? j := by
  rw [construct_eq, parser?_fill_of_ne hne, parser?_assemble, parser?, cells_announce, parser?]

theorem buildCount_count (name : String) (n : Nat) (s : Store) (other : String) :
    (s.count name n).buildCount other =
      s.buildCount other + if other = name then n else 0 := by
  unfold buildCount count
  dsimp only
  rw [lookup_cons_eq_ite]
  split
  case isTrue h => rw [h, Option.getD_some, buildCount]
  case isFalse h => rw [lookup_filter_ne h, Nat.add_zero]

theorem builds_assemble (g : Grammar) (scope : Scope) (s : Store) :
    (g.assemble scope s).2.builds = s.builds := by
  obtain ⟨ds, hs, _⟩ := exists_assemble g scope s
  rw [hs]
  rfl

theorem buildCount_announce (i : Nat) (d : Definition) (s : Store) (name : String) :
    (s.announce i d).buildCount name =
      s.buildCount name + if d.counted? = some name then 1 else 0 := by
  have htally : (s.announce i d).buildCount name = (s.tally d).buildCount name := by
    unfold announce
    cases d.escape? <;> rfl
  rw [htally, tally]
  cases d.counted? with
  | none => simp
  | some other => simp [buildCount_count, eq_comm]

theorem buildCount_construct (i : Nat) (d : Definition) (s : Store) (name : String) :
    (construct i d s).2.buildCount name =
      s.buildCount name + if d.counted? = some name then 1 else 0 := by
  have hbuilds : (construct i d s).2.builds = (s.announce i d).builds :=
    builds_assemble d.body (d.innerScope i) (s.announce i d)
  rw [buildCount, hbuilds]
  exact buildCount_announce i d s name

end Store

namespace Observed
variable {L : Nat → Prop} {o o' : Observed} {i : Nat}

/-- Cells have been built when they were first reached, and the builds have been counted. -/
structure Orderly (o : Observed) : Prop where
  reached_iff : ∀ i, o.Reached i ↔ (o.store.parser? i).isSome
  builds_iff : ∀ before v after, o.visits = before ++ v :: after →
    (v.builds = true ↔ ∀ u ∈ before, u.cell ≠ v.cell)
  counted : ∀ name, o.store.buildCount name = ((o.store.made name).filter o.Reached).card

theorem Orderly.empty : ({} : Observed).Orderly where
  reached_iff i := by simp [Reached, Store.parser?]
  builds_iff before v after h := by simp at h
  counted name := by simp [Store.buildCount, Store.made]

theorem forall_split_concat {α : Type} {P : List α → α → Prop} {xs : List α} {x : α}
    (h : ∀ before y after, xs = before ++ y :: after → P before y) (hx : P xs x) :
    ∀ before y after, xs ++ [x] = before ++ y :: after → P before y := by
  intro before y after heq
  rcases List.eq_nil_or_concat after with rfl | ⟨rest, z, rfl⟩
  · obtain ⟨rfl, hlast⟩ := List.append_inj' heq rfl
    obtain rfl : x = y := List.singleton_inj.mp hlast
    exact hx
  · rw [List.concat_eq_append, ← List.cons_append, ← List.append_assoc] at heq
    exact h before y rest (List.append_inj' heq rfl).1

theorem reached_concat (v : Visit) (i : Nat) (s : Store) :
    (⟨s, o.visits ++ [v]⟩ : Observed).Reached i ↔ o.Reached i ∨ v.cell = i := by
  simp [Reached, or_and_right, exists_or]

theorem card_reached_concat {v : Visit} (hfresh : ¬o.Reached v.cell) (s : Store) (cells : Finset Nat) :
    (cells.filter (⟨s, o.visits ++ [v]⟩ : Observed).Reached).card =
      (cells.filter o.Reached).card + if v.cell ∈ cells then 1 else 0 := by
  split
  case isTrue hv =>
    rw [← Finset.card_insert_of_notMem (a := v.cell) (by simp [hfresh])]
    congr 1
    ext j
    rw [Finset.mem_insert, Finset.mem_filter, Finset.mem_filter, reached_concat]
    grind
  case isFalse hv =>
    rw [Nat.add_zero]
    congr 1
    ext j
    rw [Finset.mem_filter, Finset.mem_filter, reached_concat]
    grind

namespace Orderly

theorem assembled (ho : o.Orderly) (g : Grammar) (scope : Scope) :
    ({ o with store := (g.assemble scope o.store).2 } : Observed).Orderly := by
  refine ⟨fun i => ?_, ho.builds_iff, fun name => ?_⟩
  · rw [Store.parser?_assemble]
    exact ho.reached_iff i
  · rw [Store.buildCount, Store.builds_assemble, Store.made_assemble]
    exact ho.counted name

theorem found (ho : o.Orderly) (hi : o.Reached i) :
    ({ o with visits := o.visits ++ [⟨i, false⟩] } : Observed).Orderly := by
  have hsame (j : Nat) :
      ({ o with visits := o.visits ++ [⟨i, false⟩] } : Observed).Reached j ↔ o.Reached j := by
    rw [reached_concat]
    exact or_iff_left_of_imp fun heq => heq ▸ hi
  refine ⟨fun j => (hsame j).trans (ho.reached_iff j), forall_split_concat ho.builds_iff ?_,
    fun name => ?_⟩
  · obtain ⟨v, hv, hcell⟩ := hi
    exact ⟨nofun, fun hall => absurd hcell (hall v hv)⟩
  · rw [ho.counted name]
    congr 1
    ext j
    rw [Finset.mem_filter, Finset.mem_filter, hsame]

theorem built (ho : o.Orderly) {d : Definition} (hd : o.store.definition? i = some d)
    (hnone : o.store.parser? i = none) :
    (⟨(Store.construct i d o.store).2, o.visits ++ [⟨i, true⟩]⟩ : Observed).Orderly := by
  have hfresh : ¬o.Reached i := fun hr => by
    have hsome := (ho.reached_iff i).mp hr
    rw [hnone] at hsome
    cases hsome
  refine ⟨fun j => ?_, forall_split_concat ho.builds_iff ?_, fun name => ?_⟩
  · rw [reached_concat]
    by_cases hj : i = j
    · subst hj
      simp [Store.parser?_construct (Store.lt_of_definition? hd)]
    · rw [Store.parser?_construct_of_ne (Ne.symm hj), ho.reached_iff]
      exact or_iff_left hj
  · exact ⟨fun _ v hv hcell => hfresh ⟨v, hv, hcell⟩, fun _ => rfl⟩
  · -- The cell is one of the name exactly if the build is counted under the name.
    have hmem : i ∈ o.store.made name ↔ d.counted? = some name := by simp [Store.mem_made_iff, hd]
    rw [Store.buildCount_construct, Store.made_construct, card_reached_concat hfresh,
      ho.counted name]
    simp only [hmem]

theorem defined (ho : o.Orderly) (name : String) (d : Definition) :
    ({ o with store := o.store.define name d } : Observed).Orderly := by
  have hparser (i : Nat) : (o.store.define name d).parser? i = o.store.parser? i :=
    Store.parser?_allocate _ (o.store.count name 0) i
  have hnew : ¬({ o with store := o.store.define name d } : Observed).Reached
      o.store.cells.size := fun hr => by
    obtain ⟨p, hp⟩ := Option.isSome_iff_exists.mp ((ho.reached_iff _).mp hr)
    exact Nat.lt_irrefl _ (Store.lt_of_parser? hp)
  refine ⟨fun i => ?_, ho.builds_iff, fun other => ?_⟩
  · rw [hparser]
    exact ho.reached_iff i
  · have hcount : (o.store.define name d).buildCount other = o.store.buildCount other := by
      have h := Store.buildCount_count name 0 o.store other
      rwa [ite_self] at h
    rw [hcount, Store.made_define, ho.counted other]
    split
    · rw [Finset.filter_insert, if_neg hnew]
      rfl
    · rfl

end Orderly

theorem Change.orderly (h : Change L o o') (ho : o.Orderly) : o'.Orderly := by
  cases h with
  | event h =>
    cases h with
    | assembled g => exact ho.assembled g _
    | found _ hp => exact ho.found ((ho.reached_iff _).mpr (by rw [hp]; rfl))
    | built _ hd hnone => exact ho.built hd hnone
  | define name => exact ho.defined name _
  | share target _ => exact ⟨ho.reached_iff, ho.builds_iff, ho.counted⟩
  | drop name => exact ⟨ho.reached_iff, ho.builds_iff, ho.counted⟩

theorem Event.made_eq (h : Event L o o') (name : String) :
    o'.store.made name = o.store.made name := by
  cases h with
  | assembled g => exact Store.made_assemble g _ _ name
  | found => rfl
  | built => exact Store.made_construct _ _ _ name

end Observed

def Step.defined? : Step → Option String
  | define name _ => some name
  | defineRecursive name _ _ => some name
  | _ => none

namespace Observed
variable {o : Observed}

theorem card_made_step (depth : Nat) (ho : o.store.Closed) (x : Step) (name : String) :
    ((o.step depth x).2.store.made name).card =
      (o.store.made name).card + if x.defined? = some name then 1 else 0 := by
  cases x with
  | define other body =>
    refine (Store.card_made_define other { body } o.store name).trans ?_
    simp [Step.defined?]
  | defineRecursive other body escape? =>
    refine (Store.card_made_define other { body, self? := some other, escape? } o.store name).trans ?_
    simp [Step.defined?]
  | clone other target =>
    have hcells : (o.step depth (.clone other target)).2.store.cells = o.store.cells := by
      simp only [step, Store.step]
      split <;> rfl
    rw [Store.made_eq (s := o.store) fun i => by rw [Store.definition?, hcells, Store.definition?]]
    rfl
  | drop other => rfl
  | isBuilt other => rfl
  | builds => rfl
  | parse other w extent =>
    have hev := (parse_spec depth ho (.refl _) other w extent).2.2
    have hmade : (o.step depth (.parse other w extent)).2.store.made name = o.store.made name := by
      generalize (o.step depth (.parse other w extent)).2 = o' at hev
      induction hev with
      | refl => rfl
      | tail _ hlast ih => rw [hlast.made_eq, ih]
    rw [hmade]
    rfl

theorem card_made_steps (depth : Nat) (ho : o.store.Closed) (xs : List Step) (name : String) :
    ((o.steps depth xs).2.store.made name).card =
      (o.store.made name).card + xs.countP fun x => x.defined? = some name := by
  induction xs generalizing o with
  | nil => rfl
  | cons x xs ih =>
    have hlead := (step_spec depth ho (.refl _) x).2.2
    have hrest := ih (o := (o.step depth x).2) (hlead.closed ho)
    rw [card_made_step depth ho] at hrest
    rw [List.countP_cons]
    refine hrest.trans ?_
    simp only [decide_eq_true_eq]
    omega

namespace Orderly
variable {i : Nat}

theorem mem_visits_of_reached (ho : o.Orderly) (hi : o.Reached i) : ⟨i, true⟩ ∈ o.visits := by
  obtain ⟨u, hu, hcell⟩ := hi
  have hsome : (o.visits.find? (·.cell == i)).isSome := List.find?_isSome.mpr ⟨u, hu, by simp [hcell]⟩
  obtain ⟨v, hv⟩ := Option.isSome_iff_exists.mp hsome
  obtain ⟨hvi, before, after, hsplit, hbefore⟩ := List.find?_eq_some_iff_append.mp hv
  obtain ⟨cell, builds⟩ := v
  obtain rfl : cell = i := by simpa using hvi
  obtain rfl : builds = true := (ho.builds_iff before _ after hsplit).mpr fun u hu => by
    simpa using hbefore u hu
  simp [hsplit]

theorem count_le_one (ho : o.Orderly) (i : Nat) : o.visits.count ⟨i, true⟩ ≤ 1 := by
  by_cases hi : ⟨i, true⟩ ∈ o.visits
  · obtain ⟨before, after, hsplit⟩ := List.append_of_mem hi
    have hbefore : ⟨i, true⟩ ∉ before := fun hmem =>
      (ho.builds_iff before _ after hsplit).mp rfl _ hmem rfl
    have hafter : ⟨i, true⟩ ∉ after := fun hmem => by
      obtain ⟨middle, rest, rfl⟩ := List.append_of_mem hmem
      rw [← List.cons_append, ← List.append_assoc] at hsplit
      exact (ho.builds_iff _ _ rest hsplit).mp rfl ⟨i, true⟩ (by simp) rfl
    rw [hsplit, List.count_append, List.count_cons_self, List.count_eq_zero_of_not_mem hbefore,
      List.count_eq_zero_of_not_mem hafter]
  · rw [List.count_eq_zero_of_not_mem hi]
    exact Nat.zero_le 1

/-- A handle to a definition that is alive knows whether this has been built. -/
theorem isBuilt_iff (ho : o.Orderly) (hc : o.store.Closed) {h : Handle}
    (hheld : o.store.Held [] h.cell) : o.store.isBuilt h = true ↔ ⟨h.cell, true⟩ ∈ o.visits := by
  have halive := (Store.isAlive_iff_held hc).mpr hheld
  rw [Store.isBuilt, halive, Bool.or_true, Bool.true_and, ← ho.reached_iff]
  exact ⟨ho.mem_visits_of_reached, fun hmem => ⟨_, hmem, rfl⟩⟩

end Orderly

/-- Over every session, a definition is built at the first visit to it and at no other one. As long as
it is alive, each of its handles tells whether it has been visited, so they agree and never take it
back. What is counted under a name are the definitions made under it that have been visited. -/
theorem build_once (depth : Nat) (xs ys : List Step) :
    let o := (Observed.steps depth {} xs).2
    let later := (o.steps depth ys).2
    (Observed.steps depth {} xs).1 = (Store.steps depth {} xs).1 ∧
    o.store = (Store.steps depth {} xs).2 ∧
    (∀ before v after, o.visits = before ++ v :: after →
      (v.builds = true ↔ ∀ u ∈ before, u.cell ≠ v.cell)) ∧
    (∀ i, o.visits.count ⟨i, true⟩ ≤ 1) ∧
    (∀ h, o.store.Held [] h.cell → (o.store.isBuilt h = true ↔ ⟨h.cell, true⟩ ∈ o.visits) ∧
      ∀ h', h'.cell = h.cell → o.store.isBuilt h' = o.store.isBuilt h) ∧
    (∀ h, o.store.isBuilt h = true → later.store.Held [] h.cell →
      later.store.isBuilt h = true) ∧
    ∀ name, o.store.buildCount name = ((o.store.made name).filter o.Reached).card ∧
      (o.store.made name).card = (xs.countP fun x => x.defined? = some name) ∧
      o.store.buildCount name ≤ xs.countP fun x => x.defined? = some name := by
  intro o later
  obtain ⟨hreplies, hstore, hlead⟩ :=
    steps_spec (o := {}) depth Store.Closed.empty (Store.Grows.refl {}) xs
  have hclosed : o.store.Closed := closed_steps depth xs
  have horderly : o.Orderly := hlead.induct (P := Orderly) Change.orderly .empty
  have hlater := (steps_spec depth hclosed (.refl _) ys).2.2
  have hcard (name : String) :
      (o.store.made name).card = xs.countP fun x => x.defined? = some name := by
    simpa [Store.made] using card_made_steps (o := {}) depth Store.Closed.empty xs name
  refine ⟨hreplies, hstore, horderly.builds_iff, horderly.count_le_one, fun h hheld => ?_,
    fun h hbuilt hheld => ?_, fun name => ⟨horderly.counted name, hcard name, ?_⟩⟩
  · have hbuilt := horderly.isBuilt_iff hclosed hheld
    refine ⟨hbuilt, fun h' hcell => ?_⟩
    rw [← hcell] at hheld hbuilt
    rw [Bool.eq_iff_iff, horderly.isBuilt_iff hclosed hheld, hbuilt]
  · have hlate : later.Orderly := hlater.induct (P := Orderly) Change.orderly horderly
    obtain ⟨visits, heq, _⟩ := hlater.exists_visits
    rw [hlate.isBuilt_iff (hlater.closed hclosed) hheld, heq]
    refine List.mem_append_left _ (horderly.mem_visits_of_reached ((horderly.reached_iff _).mpr ?_))
    exact (Bool.and_eq_true_iff.mp hbuilt).2
  · rw [horderly.counted name, ← hcard name]
    exact Finset.card_filter_le _ _

/-- A clone is parsed first and fails, but the definition is built for it. Dropping the name under which
it was made does not take that back. -/
theorem build_once_cloned :
    let input : Input := ⟨.byte, #[97], by decide⟩
    let o := (Observed.steps 1 {} [.define "a" (.is 98), .clone "a" "b", .parse "b" input .whole,
      .parse "a" input .whole]).2
    let later := (o.steps 1 [.drop "a"]).2
    o.visits = [⟨0, true⟩, ⟨0, false⟩] ∧ o.store.Held [] 0 ∧ later.store.Held [] 0 ∧
      o.store.isBuilt ⟨0, false⟩ = true ∧ later.store.isBuilt ⟨0, false⟩ = true ∧
        o.store.buildCount "a" ≤ 1 := by
  intro input o later
  obtain ⟨_, _, _, _, hbuilt, hkept, hcount⟩ := build_once 1 [.define "a" (.is 98), .clone "a" "b",
    .parse "b" input .whole, .parse "a" input .whole] [.drop "a"]
  have hvisits : o.visits = [⟨0, true⟩, ⟨0, false⟩] := by decide
  have hheld : o.store.Held [] 0 := .of_mem_roots (by decide)
  have hlater : later.store.Held [] 0 := .of_mem_roots (by decide)
  have hbuilt : o.store.isBuilt ⟨0, false⟩ = true :=
    (hbuilt ⟨0, false⟩ hheld).1.mpr (hvisits ▸ List.mem_cons_self)
  exact ⟨hvisits, hheld, hlater, hbuilt, hkept _ hbuilt hlater, (hcount "a").2.2⟩

end Observed

end Descent
