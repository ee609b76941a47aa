import Descent.Assembly
import Descent.Proofs.Unfolding

namespace Descent

namespace Store

def definition? (s : Store) (i : Nat) : Option Definition := s.cells[i]?.map (·.definition)

theorem lookup_filter_ne {α : Type} {name other : String} (h : other ≠ name)
    (entries : List (String × α)) :
    (entries.filter (·.1 != name)).lookup other = entries.lookup other := by
  induction entries with
  | nil => rfl
  | cons e rest ih =>
    by_cases he : e.1 = name
    · have hne : (other == e.1) = false := by simpa [he] using h
      rw [List.filter_cons_of_neg (by simp [he]), ih, List.lookup_cons, hne]
    · rw [List.filter_cons_of_pos (by simp [he]), List.lookup_cons, List.lookup_cons, ih]

theorem lookup_cons_eq_ite {α : Type} (name other : String) (x : α)
    (entries : List (String × α)) : List.lookup other ((name, x) :: entries) =
      if other = name then some x else entries.lookup other := by
  by_cases h : other = name
  · simp [h]
  · have hne : (other == name) = false := by simpa using h
    rw [List.lookup_cons, hne, if_neg h]

/-- `s'` has at least the definitions of `s`, and the same registered handles. -/
structure Extends (s s' : Store) : Prop where
  definitions : ∀ {i d}, s.definition? i = some d → s'.definition? i = some d
  registry : s'.registry = s.registry

theorem Extends.refl (s : Store) : s.Extends s := ⟨fun h => h, rfl⟩

theorem Extends.trans {s s' s'' : Store} (h : s.Extends s') (h' : s'.Extends s'') :
    s.Extends s'' :=
  ⟨fun hd => h'.definitions (h.definitions hd), h'.registry.trans h.registry⟩

theorem Extends.handle?_eq {s s' : Store} (h : s.Extends s') (name : String) :
    s'.handle? name = s.handle? name := by
  rw [handle?, handle?, h.registry]

/-- The cells of a scope hold the definitions `frames`. -/
inductive Encloses (s : Store) : Scope → Frames → Prop
  | nil : Encloses s [] []
  | cons {name i d outer frames} : s.definition? i = some d → d.self? = some name →
      d.scope = outer → Encloses s outer frames →
      Encloses s ((name, i) :: outer) ((name, d.body) :: frames)

namespace Encloses
variable {s s' : Store} {scope : Scope} {frames frames' : Frames}

theorem extend (h : s.Encloses scope frames) (hs : s.Extends s') : s'.Encloses scope frames := by
  induction h with
  | nil => exact .nil
  | cons hd hself hscope _ ih => exact .cons (hs.definitions hd) hself hscope ih

theorem unique (h : s.Encloses scope frames) (h' : s.Encloses scope frames') :
    frames = frames' := by
  induction h generalizing frames' with
  | nil =>
    cases h'
    rfl
  | cons hd _ _ _ ih =>
    cases h' with
    | cons hd' _ _ h' =>
      rw [ih h', Option.some.inj (hd.symm.trans hd')]

end Encloses

end Store

def Scope.cells (scope : Scope) : List Nat := scope.map (·.2)

namespace Store
variable {rules : List (String × Grammar)}

/-- The parser that was assembled in `scope` stands for the grammar among `frames`: what it refers
to is in the store. A weak handle leads to a definition around it. -/
inductive Stands (rules : List (String × Grammar)) (s : Store) (scope : Scope) (frames : Frames) :
    Assembled → Grammar → Prop
  | terminal {t} : Stands rules s scope frames (.terminal t) (.terminal t)
  | modify {m p g} : Stands rules s scope frames p g →
      Stands rules s scope frames (.modify m p) (.modify m g)
  | join {k p g p' g'} : Stands rules s scope frames p g → Stands rules s scope frames p' g' →
      Stands rules s scope frames (.join k p p') (.join k g g')
  | between {p g p' g' p'' g''} : Stands rules s scope frames p g →
      Stands rules s scope frames p' g' → Stands rules s scope frames p'' g'' →
      Stands rules s scope frames (.between p p' p'') (.between g g' g'')
  | bind {p g f} : Stands rules s scope frames p g →
      Stands rules s scope frames (.bind p scope f) (.bind g f)
  | unbound {name} : frames.resolve? rules name = none →
      Stands rules s scope frames (.terminal (.fail ("unbound parser " ++ name))) (.call name)
  | refer {h d inner g} : g.target? rules frames = some (inner, d.body) →
      s.definition? h.cell = some d → s.Encloses (d.innerScope h.cell) inner →
      d.scope.cells ⊆ scope.cells → (h.weak → h.cell ∈ scope.cells) →
      Stands rules s scope frames (.refer h) g

theorem Stands.extend {s s' : Store} {scope : Scope} {frames : Frames} {p : Assembled} {g : Grammar}
    (h : s.Stands rules scope frames p g) (hs : s.Extends s') :
    s'.Stands rules scope frames p g := by
  induction h with
  | terminal => exact .terminal
  | modify _ ih => exact .modify ih
  | join _ _ ih ih' => exact .join ih ih'
  | between _ _ _ ih ih' ih'' => exact .between ih ih' ih''
  | bind _ ih => exact .bind ih
  | unbound h => exact .unbound h
  | refer ht hd he hsub hw => exact .refer ht (hs.definitions hd) (he.extend hs) hsub hw

/-- The store holds the rules, and what is built in it stands for what it was built from. -/
structure Coherent (rules : List (String × Grammar)) (s : Store) : Prop where
  /-- Building registers nothing. -/
  quiet : ∀ {i d}, s.definition? i = some d → d.escape? = none
  bound : ∀ {name body}, rules.reverse.lookup name = some body →
    ∃ h d, s.handle? name = some h ∧ h.weak = false ∧ s.definition? h.cell = some d ∧
      d.body = body ∧ d.scope = [] ∧ d.self? = none
  unbound : ∀ {name}, rules.reverse.lookup name = none → s.handle? name = none
  built : ∀ {i d p}, s.definition? i = some d → s.parser? i = some p →
    ∃ frames, s.Encloses (d.innerScope i) frames ∧
      s.Stands rules (d.innerScope i) frames p d.body

theorem definition?_allocate (d : Definition) (s : Store) :
    (s.allocate d).2.definition? s.cells.size = some d := by
  simp [allocate, definition?]

theorem extends_allocate (d : Definition) (s : Store) : s.Extends (s.allocate d).2 := by
  refine ⟨fun {i d'} h => ?_, rfl⟩
  obtain ⟨cell, hcell, hd⟩ := Option.map_eq_some_iff.mp h
  have hlt : i < s.cells.size := (Array.getElem?_eq_some_iff.mp hcell).1
  simp only [definition?, allocate, Array.getElem?_push, if_neg (Nat.ne_of_lt hlt), hcell,
    Option.map_some, hd]

theorem parser?_allocate (d : Definition) (s : Store) (i : Nat) :
    (s.allocate d).2.parser? i = s.parser? i := by
  simp only [parser?, allocate, Array.getElem?_push]
  split
  case isTrue h => simp [h]
  case isFalse => rfl

theorem definition?_of_parser? {s : Store} {i : Nat} {p : Assembled} (h : s.parser? i = some p) :
    ∃ d, s.definition? i = some d := by
  obtain ⟨cell, hcell, _⟩ := Option.bind_eq_some_iff.mp h
  exact ⟨cell.definition, by rw [definition?, hcell, Option.map_some]⟩

theorem definition?_allocate_cases {d d' : Definition} {s : Store} {i : Nat}
    (h : (s.allocate d).2.definition? i = some d') : d' = d ∨ s.definition? i = some d' := by
  simp only [definition?, allocate, Array.getElem?_push] at h
  split at h
  case isTrue => exact .inl (Option.some.inj h).symm
  case isFalse => exact .inr h

/-- A store stays coherent when it is extended without building anything. -/
theorem Coherent.extend {s s' : Store} (h : s.Coherent rules) (hs : s.Extends s')
    (hquiet : ∀ {i d}, s'.definition? i = some d → d.escape? = none)
    (hbuilt : ∀ i, s'.parser? i = s.parser? i) : s'.Coherent rules where
  quiet := hquiet
  bound hname := by
    obtain ⟨r, d, hr, hweak, hd, hrest⟩ := h.bound hname
    exact ⟨r, d, (hs.handle?_eq _).trans hr, hweak, hs.definitions hd, hrest⟩
  unbound hname := (hs.handle?_eq _).trans (h.unbound hname)
  built {i d p} hd hp := by
    rw [hbuilt] at hp
    obtain ⟨d', hd'⟩ := definition?_of_parser? hp
    obtain rfl : d' = d := Option.some.inj ((hs.definitions hd').symm.trans hd)
    obtain ⟨frames, he, hstands⟩ := h.built hd' hp
    exact ⟨frames, he.extend hs, hstands.extend hs⟩

theorem Coherent.allocate {s : Store} (h : s.Coherent rules) {d : Definition}
    (hd : d.escape? = none) : (s.allocate d).2.Coherent rules := by
  refine h.extend (extends_allocate d s) (fun hd' => ?_) fun i => parser?_allocate d s i
  rcases definition?_allocate_cases hd' with rfl | hd'
  · exact hd
  · exact h.quiet hd'

variable (rules) in
theorem Encloses.resolve {s : Store} {scope : Scope} {frames : Frames} (h : s.Encloses scope frames)
    {name : String} {i : Nat} (hi : scope.lookup name = some i) : ∃ d inner,
      frames.resolve? rules name = some (inner, d.body) ∧ s.definition? i = some d ∧
        s.Encloses (d.innerScope i) inner ∧ d.scope.cells ⊆ scope.cells ∧ i ∈ scope.cells := by
  -- The cell that is found holds the innermost definition of the name, whose scope is what is left.
  induction h with
  | nil => cases hi
  | @cons n j d outer frames hd hself hscope he ih =>
    rw [List.lookup_cons] at hi
    rw [Frames.resolve?]
    split at hi
    case h_1 hname =>
      obtain rfl : j = i := Option.some.inj hi
      have hinner : d.innerScope j = (n, j) :: outer := by
        rw [Definition.innerScope, hself, hscope]
      refine ⟨d, (n, d.body) :: frames, if_pos hname, hd, ?_, ?_, ?_⟩
      · rw [hinner]
        exact .cons hd hself hscope he
      · rw [hscope]
        exact List.subset_cons_self _ _
      · exact List.mem_cons_self
    case h_2 hname =>
      obtain ⟨d', inner, hres, hd', he', hsub, hmem⟩ := ih hi
      refine ⟨d', inner, ?_, hd', he', ?_, List.mem_cons_of_mem _ hmem⟩
      · rw [if_neg (by simp [hname])]
        exact hres
      · exact List.Subset.trans hsub (List.subset_cons_self _ _)

variable (rules) in
theorem Encloses.resolve_of_eq_none {s : Store} {scope : Scope} {frames : Frames}
    (h : s.Encloses scope frames) {name : String} (hi : scope.lookup name = none) :
    frames.resolve? rules name = (rules.reverse.lookup name).map fun body => ([], body) := by
  induction h with
  | nil => rfl
  | cons _ _ _ _ ih =>
    rw [List.lookup_cons] at hi
    split at hi
    case h_1 => cases hi
    case h_2 hname =>
      rw [Frames.resolve?, if_neg (by simp [hname])]
      exact ih hi

theorem Coherent.stands_resolve {s : Store} {scope : Scope} {frames : Frames}
    (h : s.Coherent rules) (he : s.Encloses scope frames) (name : String) :
    s.Stands rules scope frames (s.resolve scope name) (.call name) := by
  unfold resolve
  cases hi : scope.lookup name with
  | some i =>
    obtain ⟨d, inner, hres, hd, hinner, hsub, hmem⟩ := he.resolve rules hi
    exact .refer hres hd hinner hsub fun _ => hmem
  | none =>
    have hres := he.resolve_of_eq_none rules hi
    dsimp only
    cases hname : rules.reverse.lookup name with
    | none =>
      rw [h.unbound hname]
      exact .unbound (by rw [hres, hname, Option.map_none])
    | some body =>
      obtain ⟨r, d, hr, hweak, hd, hbody, hscope, hself⟩ := h.bound hname
      have ht : (Grammar.call name).target? rules frames = some ([], d.body) := by
        rw [Grammar.target?, hres, hname, hbody, Option.map_some]
      have hin : s.Encloses (d.innerScope r.cell) [] := by
        rw [Definition.innerScope, hself, hscope]
        exact .nil
      have hsub : d.scope.cells ⊆ scope.cells := by
        rw [hscope]
        exact List.nil_subset _
      rw [hr]
      apply Stands.refer ht hd hin hsub
      intro hw
      rw [hweak] at hw
      cases hw

/-- What holds after a grammar has been assembled in `s` with the result `r`. -/
structure Assembles (rules : List (String × Grammar)) (s : Store) (scope : Scope) (frames : Frames)
    (g : Grammar) (r : Assembled × Store) : Prop where
  extension : s.Extends r.2
  coherent : r.2.Coherent rules
  stands : r.2.Stands rules scope frames r.1 g

theorem Coherent.assembles_allocate {s : Store} {scope : Scope} {frames inner : Frames}
    (h : s.Coherent rules) {d : Definition} {g : Grammar} (hd : d.escape? = none)
    (hscope : d.scope = scope) (ht : g.target? rules frames = some (inner, d.body))
    (he : (s.allocate d).2.Encloses (d.innerScope s.cells.size) inner) :
    s.Assembles rules scope frames g (.refer ⟨s.cells.size, false⟩, (s.allocate d).2) where
  extension := extends_allocate d s
  coherent := h.allocate hd
  stands := by
    refine .refer ht (definition?_allocate d s) he ?_ fun hw => by cases hw
    rw [hscope]
    exact List.Subset.refl _

theorem Coherent.assembles {s : Store} {scope : Scope} {frames : Frames} (h : s.Coherent rules)
    (he : s.Encloses scope frames) (g : Grammar) :
    s.Assembles rules scope frames g (g.assemble scope s) := by
  induction g generalizing s with
  | terminal t => exact ⟨.refl s, h, .terminal⟩
  | modify m g ih =>
    have hg := ih h he
    exact ⟨hg.extension, hg.coherent, .modify hg.stands⟩
  | join k g g' ih ih' =>
    have hg := ih h he
    have hg' := ih' hg.coherent (he.extend hg.extension)
    exact ⟨hg.extension.trans hg'.extension, hg'.coherent,
      .join (hg.stands.extend hg'.extension) hg'.stands⟩
  | between g g' g'' ih ih' ih'' =>
    have hg := ih h he
    have hg' := ih' hg.coherent (he.extend hg.extension)
    have hs := hg.extension.trans hg'.extension
    have hg'' := ih'' hg'.coherent (he.extend hs)
    exact ⟨hs.trans hg''.extension, hg''.coherent,
      .between (hg.stands.extend (hg'.extension.trans hg''.extension))
        (hg'.stands.extend hg''.extension) hg''.stands⟩
  | bind g f ih =>
    have hg := ih h he
    exact ⟨hg.extension, hg.coherent, .bind hg.stands⟩
  | call name => exact ⟨.refl s, h, h.stands_resolve he name⟩
  | delay body =>
    exact h.assembles_allocate (d := { body, scope }) rfl rfl rfl (he.extend (extends_allocate _ s))
  | recursive name body =>
    refine h.assembles_allocate (d := { body, scope, self? := some name }) rfl rfl rfl ?_
    exact .cons (definition?_allocate _ s) rfl rfl (he.extend (extends_allocate _ s))

def fill (i : Nat) (p : Assembled) (s : Store) : Store :=
  { s with cells := s.cells.modify i fun c => { c with parser? := some p } }

theorem definition?_fill (i : Nat) (p : Assembled) (s : Store) (j : Nat) :
    (s.fill i p).definition? j = s.definition? j := by
  simp only [definition?, fill, Array.getElem?_modify]
  split
  · cases s.cells[j]? <;> rfl
  · rfl

theorem parser?_fill {i j : Nat} {p p' : Assembled} {s : Store}
    (h : (s.fill i p).parser? j = some p') : (j = i ∧ p' = p) ∨ s.parser? j = some p' := by
  simp only [parser?, fill, Array.getElem?_modify] at h
  split at h
  case isTrue hij =>
    cases hc : s.cells[j]? with
    | none => simp [hc] at h
    | some cell =>
      rw [hc] at h
      exact .inl ⟨hij.symm, (Option.some.inj h).symm⟩
  case isFalse => exact .inr h

theorem extends_fill (i : Nat) (p : Assembled) (s : Store) : s.Extends (s.fill i p) :=
  ⟨fun h => (definition?_fill i p s _).trans h, rfl⟩

theorem Coherent.fill {s : Store} (h : s.Coherent rules) {i : Nat} {d : Definition}
    {frames : Frames} {p : Assembled} (hd : s.definition? i = some d)
    (he : s.Encloses (d.innerScope i) frames)
    (hp : s.Stands rules (d.innerScope i) frames p d.body) : (s.fill i p).Coherent rules where
  quiet hd' := h.quiet ((definition?_fill i p s _).symm.trans hd')
  bound hname := by
    obtain ⟨r, d', hr, hweak, hd', hrest⟩ := h.bound hname
    exact ⟨r, d', hr, hweak, (definition?_fill i p s _).trans hd', hrest⟩
  unbound hname := h.unbound hname
  built {j d' p'} hd' hp' := by
    have hs := extends_fill i p s
    rw [definition?_fill] at hd'
    rcases parser?_fill hp' with ⟨rfl, rfl⟩ | hp'
    · obtain rfl : d = d' := Option.some.inj (hd.symm.trans hd')
      exact ⟨frames, he.extend hs, hp.extend hs⟩
    · obtain ⟨frames', he', hstands⟩ := h.built hd' hp'
      exact ⟨frames', he'.extend hs, hstands.extend hs⟩

theorem extends_count (name : String) (n : Nat) (s : Store) : s.Extends (s.count name n) :=
  ⟨fun h => h, rfl⟩

/-- Building a cell gives a parser that stands for its body. -/
theorem Coherent.assembles_construct {s : Store} (h : s.Coherent rules) {i : Nat} {d : Definition}
    {frames : Frames} (hd : s.definition? i = some d) (he : s.Encloses (d.innerScope i) frames) :
    s.Assembles rules (d.innerScope i) frames d.body (construct i d s) := by
  -- Counting the build changes nothing that parsers depend on, so it can be left out.
  have build {s : Store} (h : s.Coherent rules) (hd : s.definition? i = some d)
      (he : s.Encloses (d.innerScope i) frames) :
      s.Assembles rules (d.innerScope i) frames d.body
        ((d.body.assemble (d.innerScope i) s).1,
          (d.body.assemble (d.innerScope i) s).2.fill i (d.body.assemble (d.innerScope i) s).1) := by
    have hp := h.assembles he d.body
    have hs := extends_fill i (d.body.assemble (d.innerScope i) s).1
      (d.body.assemble (d.innerScope i) s).2
    exact ⟨hp.extension.trans hs, hp.coherent.fill (hp.extension.definitions hd)
      (he.extend hp.extension) hp.stands, hp.stands.extend hs⟩
  rw [construct, h.quiet hd]
  cases d.counted? with
  | none => exact build h hd he
  | some name =>
    have hs := extends_count name 1 s
    have hb := build (h.extend hs h.quiet fun _ => rfl) (hs.definitions hd) (he.extend hs)
    exact ⟨hs.trans hb.extension, hb.coherent, hb.stands⟩

end Store

end Descent
