import Descent.Proofs.Representation

namespace Descent

namespace Assembled

/-- `H` holds of all handles in a parser, and `S` of the scopes in which it assembles more. -/
def All (H : Handle → Prop) (S : Scope → Prop) : Assembled → Prop
  | terminal _ => True
  | modify _ p => p.All H S
  | join _ p q => p.All H S ∧ q.All H S
  | between p q r => p.All H S ∧ q.All H S ∧ r.All H S
  | bind p scope _ => p.All H S ∧ S scope
  | refer h => H h

theorem All.mono {H H' : Handle → Prop} {S S' : Scope → Prop} {p : Assembled} (h : p.All H S)
    (hH : ∀ h, H h → H' h) (hS : ∀ scope, S scope → S' scope) : p.All H' S' := by
  induction p with
  | terminal t => trivial
  | modify m p ih => exact ih h
  | join k p q ih ih' => exact ⟨ih h.1, ih' h.2⟩
  | between p q r ih ih' ih'' => exact ⟨ih h.1, ih' h.2.1, ih'' h.2.2⟩
  | bind p scope f ih => exact ⟨ih h.1, hS scope h.2⟩
  | refer r => exact hH r h

theorem All.of_mem_holds {P : Nat → Prop} {S : Scope → Prop} {p : Assembled}
    (h : p.All (fun h => h.weak = false → P h.cell) S) {i : Nat} (hi : i ∈ p.holds) : P i := by
  induction p with
  | terminal t => cases hi
  | modify m p ih => exact ih h hi
  | join k p q ih ih' =>
    rcases List.mem_append.mp hi with hi | hi
    · exact ih h.1 hi
    · exact ih' h.2 hi
  | between p q r ih ih' ih'' =>
    rcases List.mem_append.mp hi with hi | hi
    · rcases List.mem_append.mp hi with hi | hi
      · exact ih h.1 hi
      · exact ih' h.2.1 hi
    · exact ih'' h.2.2 hi
  | bind p scope f ih => exact ih h.1 hi
  | refer r =>
    unfold holds at hi
    split at hi
    case isTrue => cases hi
    case isFalse hw =>
      obtain rfl := List.mem_singleton.mp hi
      exact h (by simpa using hw)

def BindFree (p : Assembled) : Prop := p.All (fun _ => True) fun _ => False

end Assembled

namespace Store
variable {s s' s'' : Store} {scope : Scope} {g : Grammar} {i : Nat} {d : Definition} {p : Assembled}

theorem mem_registry_of_handle? {name : String} {h : Handle} (hr : s.handle? name = some h) :
    (name, h) ∈ s.registry := by
  obtain ⟨before, after, hsplit, _⟩ := List.lookup_eq_some_iff.mp hr
  simp [hsplit]

theorem mem_roots_iff : i ∈ s.roots ↔ ∃ name, (name, ⟨i, false⟩) ∈ s.registry := by
  unfold roots
  constructor
  · intro hi
    obtain ⟨⟨name, h⟩, hmem, rfl⟩ := List.mem_map.mp hi
    obtain ⟨hreg, hweak⟩ := List.mem_filter.mp hmem
    obtain ⟨cell, weak⟩ := h
    obtain rfl : weak = false := by simpa using hweak
    exact ⟨name, hreg⟩
  · rintro ⟨name, hreg⟩
    exact List.mem_map.mpr ⟨(name, ⟨i, false⟩), List.mem_filter.mpr ⟨hreg, rfl⟩, rfl⟩

theorem lt_of_definition? (h : s.definition? i = some d) : i < s.cells.size := by
  obtain ⟨cell, hcell, _⟩ := Option.map_eq_some_iff.mp h
  exact (Array.getElem?_eq_some_iff.mp hcell).1

theorem exists_definition? (h : i < s.cells.size) : ∃ d, s.definition? i = some d :=
  ⟨s.cells[i].definition, by simp [definition?, h]⟩

theorem mem_definitions (h : s.definition? i = some d) : d ∈ s.cells.toList.map (·.definition) := by
  obtain ⟨cell, hcell, rfl⟩ := Option.map_eq_some_iff.mp h
  exact List.mem_map_of_mem (Array.mem_toList_iff.mpr (Array.mem_of_getElem? hcell))

theorem lt_of_parser? (h : s.parser? i = some p) : i < s.cells.size := by
  obtain ⟨d, hd⟩ := definition?_of_parser? h
  exact lt_of_definition? hd

def allocateAll (ds : List Definition) (s : Store) : Store :=
  { s with cells := s.cells ++ (ds.map fun d => { definition := d }).toArray }

@[simp] theorem size_allocateAll (ds : List Definition) (s : Store) :
    (s.allocateAll ds).cells.size = s.cells.size + ds.length := by
  simp [allocateAll]

theorem allocateAll_nil (s : Store) : s.allocateAll [] = s := by
  simp [allocateAll]

theorem allocateAll_append (ds ds' : List Definition) (s : Store) :
    s.allocateAll (ds ++ ds') = (s.allocateAll ds).allocateAll ds' := by
  simp [allocateAll, Array.append_assoc]

theorem allocate_eq (d : Definition) (s : Store) :
    s.allocate d = (⟨s.cells.size, false⟩, s.allocateAll [d]) := by
  simp [allocate, allocateAll]

theorem definition?_allocateAll (ds : List Definition) (h : i < s.cells.size) :
    (s.allocateAll ds).definition? i = s.definition? i := by
  simp [definition?, allocateAll, Array.getElem?_append_left h]

theorem definition?_allocateAll_cases {ds : List Definition}
    (h : (s.allocateAll ds).definition? i = some d) : s.definition? i = some d ∨ d ∈ ds := by
  by_cases hi : i < s.cells.size
  · exact .inl ((definition?_allocateAll ds hi).symm.trans h)
  · obtain ⟨cell, hcell, rfl⟩ := Option.map_eq_some_iff.mp h
    rw [allocateAll, Array.getElem?_append_right (Nat.not_lt.mp hi)] at hcell
    have hmem := Array.mem_of_getElem? hcell
    simp only [List.mem_toArray, List.mem_map] at hmem
    obtain ⟨d, hd, rfl⟩ := hmem
    exact .inr hd

theorem parser?_allocateAll (ds : List Definition) (s : Store) (i : Nat) :
    (s.allocateAll ds).parser? i = s.parser? i := by
  by_cases hi : i < s.cells.size
  · simp [parser?, allocateAll, Array.getElem?_append_left hi]
  · have hnone : s.cells[i]? = none := Array.getElem?_eq_none (Nat.not_lt.mp hi)
    rw [parser?, parser?, hnone, allocateAll, Array.getElem?_append_right (Nat.not_lt.mp hi)]
    cases hcell : (ds.map fun d => ({ definition := d } : Cell)).toArray[i - s.cells.size]? with
    | none => rfl
    | some cell =>
      have hmem := Array.mem_of_getElem? hcell
      simp only [List.mem_toArray, List.mem_map] at hmem
      obtain ⟨d, _, rfl⟩ := hmem
      rfl

/-- Assembling a grammar gives cells to definitions that are neither counted nor escape. -/
theorem exists_assemble (g : Grammar) (scope : Scope) (s : Store) :
    ∃ ds, (g.assemble scope s).2 = s.allocateAll ds ∧
      ∀ d ∈ ds, d.scope = scope ∧ d.counted? = none ∧ d.escape? = none := by
  induction g generalizing s with
  | terminal t => exact ⟨[], s.allocateAll_nil.symm, List.forall_mem_nil _⟩
  | modify m g ih => exact ih s
  | join k g h ih ih' =>
    obtain ⟨ds, hs, hds⟩ := ih s
    obtain ⟨ds', hs', hds'⟩ := ih' (g.assemble scope s).2
    refine ⟨ds ++ ds', ?_, List.forall_mem_append.mpr ⟨hds, hds'⟩⟩
    rw [allocateAll_append, ← hs, ← hs']
    rfl
  | between g h k ih ih' ih'' =>
    obtain ⟨ds, hs, hds⟩ := ih s
    obtain ⟨ds', hs', hds'⟩ := ih' (g.assemble scope s).2
    obtain ⟨ds'', hs'', hds''⟩ := ih'' (h.assemble scope (g.assemble scope s).2).2
    refine ⟨ds ++ ds' ++ ds'', ?_, ?_⟩
    · rw [allocateAll_append, allocateAll_append, ← hs, ← hs', ← hs'']
      rfl
    · exact List.forall_mem_append.mpr ⟨List.forall_mem_append.mpr ⟨hds, hds'⟩, hds''⟩
  | bind g f ih => exact ih s
  | call name => exact ⟨[], s.allocateAll_nil.symm, List.forall_mem_nil _⟩
  | delay body =>
    exact ⟨[{ body, scope }], congrArg Prod.snd (allocate_eq _ s), by simp⟩
  | recursive name body =>
    exact ⟨[{ body, scope, self? := some name }], congrArg Prod.snd (allocate_eq _ s), by simp⟩

theorem registry_assemble (g : Grammar) (scope : Scope) (s : Store) :
    (g.assemble scope s).2.registry = s.registry := by
  obtain ⟨ds, hs, _⟩ := exists_assemble g scope s
  rw [hs]
  rfl

theorem size_le_assemble (g : Grammar) (scope : Scope) (s : Store) :
    s.cells.size ≤ (g.assemble scope s).2.cells.size := by
  obtain ⟨ds, hs, _⟩ := exists_assemble g scope s
  rw [hs, size_allocateAll]
  exact Nat.le_add_right _ _

/-- What a parser that was assembled in `scope` may refer to, when there are `n` cells afterwards: an
enclosing definition, what is registered, or a new cell. -/
inductive Refers (s : Store) (scope : Scope) (n : Nat) : Handle → Prop
  | enclosing {cell : Nat} : cell ∈ scope.cells → Refers s scope n ⟨cell, true⟩
  | registered {name : String} {h : Handle} : s.handle? name = some h → Refers s scope n h
  | new {cell : Nat} : s.cells.size ≤ cell → cell < n → Refers s scope n ⟨cell, false⟩

theorem Refers.mono {n n' : Nat} {h : Handle} (hr : s'.Refers scope n h)
    (hreg : s'.registry = s.registry) (hsize : s.cells.size ≤ s'.cells.size) (hn : n ≤ n') :
    s.Refers scope n' h := by
  cases hr with
  | enclosing hi => exact .enclosing hi
  | registered hname =>
    rw [handle?, hreg] at hname
    exact .registered hname
  | new hle hlt => exact .new (Nat.le_trans hsize hle) (Nat.lt_of_lt_of_le hlt hn)

/-- An assembled parser refers to nothing that it could not know, and only a `bind` in the grammar makes
it assemble more. -/
theorem all_assemble (g : Grammar) (scope : Scope) (s : Store) :
    (g.assemble scope s).1.All (s.Refers scope (g.assemble scope s).2.cells.size)
      fun sc => sc = scope ∧ ¬g.BindFree := by
  induction g generalizing s with
  | terminal t => trivial
  | modify m g ih => exact ih s
  | join k g h ih ih' =>
    have hreg := registry_assemble g scope s
    have hsize := size_le_assemble g scope s
    have hsize' := size_le_assemble h scope (g.assemble scope s).2
    refine ⟨(ih s).mono (fun _ hr => ?_) fun _ hb => ⟨hb.1, mt And.left hb.2⟩,
      (ih' _).mono (fun _ hr => ?_) fun _ hb => ⟨hb.1, mt And.right hb.2⟩⟩
    · exact hr.mono rfl (Nat.le_refl _) hsize'
    · exact hr.mono hreg hsize (Nat.le_refl _)
  | between g h k ih ih' ih'' =>
    have hreg := registry_assemble g scope s
    have hreg' := (registry_assemble h scope (g.assemble scope s).2).trans hreg
    have hsize := size_le_assemble g scope s
    have hsize' := size_le_assemble h scope (g.assemble scope s).2
    have hsize'' := size_le_assemble k scope (h.assemble scope (g.assemble scope s).2).2
    refine ⟨(ih s).mono (fun _ hr => ?_) fun _ hb => ⟨hb.1, mt And.left hb.2⟩,
      (ih' _).mono (fun _ hr => ?_) fun _ hb => ⟨hb.1, fun hg => hb.2 hg.2.1⟩,
      (ih'' _).mono (fun _ hr => ?_) fun _ hb => ⟨hb.1, fun hg => hb.2 hg.2.2⟩⟩
    · exact hr.mono rfl (Nat.le_refl _) (Nat.le_trans hsize' hsize'')
    · exact hr.mono hreg hsize hsize''
    · exact hr.mono hreg' (Nat.le_trans hsize hsize') (Nat.le_refl _)
  | bind g f ih => exact ⟨(ih s).mono (fun _ hr => hr) fun _ hb => ⟨hb.1, id⟩, rfl, id⟩
  | call name =>
    show (s.resolve scope name).All (s.Refers scope s.cells.size) _
    unfold resolve
    cases hi : scope.lookup name with
    | some i =>
      obtain ⟨before, after, hsplit, _⟩ := List.lookup_eq_some_iff.mp hi
      exact Refers.enclosing (by simp [Scope.cells, hsplit])
    | none =>
      dsimp only
      cases hr : s.handle? name with
      | some h => exact Refers.registered hr
      | none => trivial
  | delay body =>
    have hnew : s.cells.size < (s.allocate { body, scope }).2.cells.size := by simp [allocate]
    exact Refers.new (Nat.le_refl _) hnew
  | recursive name body =>
    have hnew : s.cells.size < (s.allocate { body, scope, self? := some name }).2.cells.size := by
      simp [allocate]
    exact Refers.new (Nat.le_refl _) hnew

theorem mem_heldBy_iff {j : Nat} : j ∈ s.heldBy i ↔ ∃ p, s.parser? i = some p ∧ j ∈ p.holds := by
  unfold heldBy
  cases s.parser? i <;> simp

/-- `s'` has come from `s` by making, building, sharing and dropping definitions. Strong handles to cells
of `s` are only where they were before, or come from the registry. -/
structure Grows (s s' : Store) : Prop where
  size_le : s.cells.size ≤ s'.cells.size
  definition? : ∀ {i}, i < s.cells.size → s'.definition? i = s.definition? i
  parser? : ∀ {i p}, s.parser? i = some p → s'.parser? i = some p
  roots : ∀ {i}, i ∈ s'.roots → i < s.cells.size → i ∈ s.roots
  heldBy : ∀ {i j}, j ∈ s'.heldBy i → j < s.cells.size → j ∈ s.heldBy i ∨ j ∈ s.roots

namespace Grows

theorem refl (s : Store) : s.Grows s :=
  ⟨Nat.le_refl _, fun _ => rfl, id, fun h _ => h, fun h _ => .inl h⟩

theorem of_empty (s : Store) : ({} : Store).Grows s where
  size_le := Nat.zero_le _
  definition? h := absurd h (Nat.not_lt_zero _)
  parser? h := absurd (lt_of_parser? h) (Nat.not_lt_zero _)
  roots _ h := absurd h (Nat.not_lt_zero _)
  heldBy _ h := absurd h (Nat.not_lt_zero _)

theorem trans (h : s.Grows s') (h' : s'.Grows s'') : s.Grows s'' where
  size_le := Nat.le_trans h.size_le h'.size_le
  definition? hi := (h'.definition? (Nat.lt_of_lt_of_le hi h.size_le)).trans (h.definition? hi)
  parser? hp := h'.parser? (h.parser? hp)
  roots hi hlt := h.roots (h'.roots hi (Nat.lt_of_lt_of_le hlt h.size_le)) hlt
  heldBy hj hlt := by
    rcases h'.heldBy hj (Nat.lt_of_lt_of_le hlt h.size_le) with hj | hj
    · exact h.heldBy hj hlt
    · exact .inr (h.roots hj hlt)

theorem definition?_eq_some (h : s.Grows s') (hd : s.definition? i = some d) :
    s'.definition? i = some d :=
  (h.definition? (lt_of_definition? hd)).trans hd

theorem register (h : s.Grows s') (name : String) {r : Handle}
    (hr : r.weak = false → r.cell < s.cells.size → r.cell ∈ s.roots) :
    s.Grows (s'.register name r) where
  size_le := h.size_le
  definition? := h.definition?
  parser? := h.parser?
  heldBy := h.heldBy
  roots {i} hi hlt := by
    obtain ⟨other, hmem⟩ := mem_roots_iff.mp hi
    rcases List.mem_cons.mp hmem with heq | hmem
    · cases heq
      exact hr rfl hlt
    · exact h.roots (mem_roots_iff.mpr ⟨other, List.mem_of_mem_filter hmem⟩) hlt

theorem unregister (h : s.Grows s') (name : String) : s.Grows (s'.unregister name) where
  size_le := h.size_le
  definition? := h.definition?
  parser? := h.parser?
  heldBy := h.heldBy
  roots hi hlt := by
    obtain ⟨other, hmem⟩ := mem_roots_iff.mp hi
    exact h.roots (mem_roots_iff.mpr ⟨other, List.mem_of_mem_filter hmem⟩) hlt

theorem count (h : s.Grows s') (name : String) (n : Nat) : s.Grows (s'.count name n) :=
  ⟨h.size_le, h.definition?, h.parser?, h.roots, h.heldBy⟩

theorem allocateAll (h : s.Grows s') (ds : List Definition) : s.Grows (s'.allocateAll ds) where
  size_le := by
    rw [size_allocateAll]
    exact Nat.le_add_right_of_le h.size_le
  definition? hi := by
    rw [definition?_allocateAll ds (Nat.lt_of_lt_of_le hi h.size_le), h.definition? hi]
  parser? hp := by
    rw [parser?_allocateAll]
    exact h.parser? hp
  roots := h.roots
  heldBy hj hlt := by
    rw [mem_heldBy_iff] at hj
    simp only [parser?_allocateAll] at hj
    exact h.heldBy (mem_heldBy_iff.mpr hj) hlt

end Grows

theorem grows_assemble (g : Grammar) (scope : Scope) (s : Store) :
    s.Grows (g.assemble scope s).2 := by
  obtain ⟨ds, hs, _⟩ := exists_assemble g scope s
  rw [hs]
  exact (Grows.refl s).allocateAll ds

def tally (d : Definition) (s : Store) : Store :=
  match d.counted? with
  | some name => s.count name 1
  | none => s

/-- What happens before the body of cell `i` is assembled: the build is counted, and a weak handle
escapes. -/
def announce (i : Nat) (d : Definition) (s : Store) : Store :=
  match d.escape? with
  | some name => (s.tally d).register name ⟨i, true⟩
  | none => s.tally d

theorem cells_tally (d : Definition) (s : Store) : (s.tally d).cells = s.cells := by
  unfold tally
  cases d.counted? <;> rfl

theorem registry_tally (d : Definition) (s : Store) : (s.tally d).registry = s.registry := by
  unfold tally
  cases d.counted? <;> rfl

theorem cells_announce (i : Nat) (d : Definition) (s : Store) : (s.announce i d).cells = s.cells := by
  unfold announce
  cases d.escape? <;> exact cells_tally d s

theorem construct_eq (i : Nat) (d : Definition) (s : Store) :
    construct i d s = ((d.body.assemble (d.innerScope i) (s.announce i d)).1,
      (d.body.assemble (d.innerScope i) (s.announce i d)).2.fill i
        (d.body.assemble (d.innerScope i) (s.announce i d)).1) := rfl

theorem grows_announce (i : Nat) (d : Definition) (s : Store) : s.Grows (s.announce i d) := by
  have htally : s.Grows (s.tally d) := by
    unfold tally
    cases d.counted? with
    | none => exact .refl s
    | some name => exact (Grows.refl s).count name 1
  unfold announce
  cases d.escape? with
  | none => exact htally
  | some name => exact htally.register name nofun

theorem mem_roots_of_mem_holds {j : Nat} (hj : j ∈ (g.assemble scope s).1.holds)
    (hlt : j < s.cells.size) : j ∈ s.roots := by
  have hall : (g.assemble scope s).1.All
      (fun h => h.weak = false → h.cell < s.cells.size → h.cell ∈ s.roots) fun _ => True := by
    refine (all_assemble g scope s).mono (fun h hr hw hlt => ?_) fun _ _ => trivial
    cases hr with
    | enclosing => cases hw
    | @registered name h hname =>
      obtain ⟨cell, weak⟩ := h
      obtain rfl : weak = false := hw
      exact mem_roots_iff.mpr ⟨name, mem_registry_of_handle? hname⟩
    | new hle => exact absurd hlt (Nat.not_lt.mpr hle)
  exact hall.of_mem_holds (P := fun j => j < s.cells.size → j ∈ s.roots) hj hlt

theorem parser?_fill_of_ne {j : Nat} (hne : j ≠ i) (p : Assembled) (s : Store) :
    (s.fill i p).parser? j = s.parser? j := by
  simp [parser?, fill, Array.getElem?_modify, hne.symm]

theorem parser?_fill_self (hlt : i < s.cells.size) (p : Assembled) :
    (s.fill i p).parser? i = some p := by
  obtain ⟨cell, hcell⟩ : ∃ cell, s.cells[i]? = some cell := ⟨_, Array.getElem?_eq_getElem hlt⟩
  simp only [parser?, fill, Array.getElem?_modify, hcell, if_true, Option.map_some, Option.bind_some]

@[simp] theorem size_fill (i : Nat) (p : Assembled) (s : Store) :
    (s.fill i p).cells.size = s.cells.size := by
  simp [fill]

theorem grows_construct (hnone : s.parser? i = none) (d : Definition) :
    s.Grows (construct i d s).2 := by
  rw [construct_eq]
  have hann := grows_announce i d s
  have hall := hann.trans (grows_assemble d.body (d.innerScope i) (s.announce i d))
  refine ⟨?_, fun hi => ?_, fun {j p} hp => ?_, hall.roots, fun {k j} hj hlt => ?_⟩
  · rw [size_fill]
    exact hall.size_le
  · rw [definition?_fill]
    exact hall.definition? hi
  · have hne : j ≠ i := by
      rintro rfl
      rw [hnone] at hp
      cases hp
    rw [parser?_fill_of_ne hne]
    exact hall.parser? hp
  · -- Of the cells that there were, the new parser holds only what the registry does.
    obtain ⟨p, hp, hjp⟩ := mem_heldBy_iff.mp hj
    rcases parser?_fill hp with ⟨rfl, rfl⟩ | hp
    · exact .inr (hann.roots (mem_roots_of_mem_holds hjp (Nat.lt_of_lt_of_le hlt hann.size_le)) hlt)
    · exact hall.heldBy (mem_heldBy_iff.mpr ⟨p, hp, hjp⟩) hlt

end Store

end Descent
