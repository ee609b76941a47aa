import Descent.Proofs.Growth

namespace Descent

/-- All that a parser refers to or assembles with lies among the first `n` cells. -/
def Assembled.Within (n : Nat) : Assembled → Prop :=
  All (·.cell < n) fun scope => ∀ i ∈ scope.cells, i < n

theorem Assembled.Within.mono {n n' : Nat} {p : Assembled} (h : p.Within n) (hn : n ≤ n') :
    p.Within n' :=
  All.mono h (fun _ hr => Nat.lt_of_lt_of_le hr hn)
    fun _ hscope i hi => Nat.lt_of_lt_of_le (hscope i hi) hn

theorem Assembled.Within.lt_of_mem_holds {n i : Nat} {p : Assembled} (h : p.Within n)
    (hi : i ∈ p.holds) : i < n :=
  All.of_mem_holds (P := (· < n)) (All.mono h (fun _ hr _ => hr) fun _ hscope => hscope) hi

namespace Store
variable {s : Store} {scope : Scope} {i : Nat} {d : Definition}

/-- All handles lead to cells, and parsers built from definitions without a `bind` assemble nothing. -/
structure Closed (s : Store) : Prop where
  registered : ∀ {name h}, (name, h) ∈ s.registry → h.cell < s.cells.size
  enclosed : ∀ {i d}, s.definition? i = some d → ∀ j ∈ d.scope.cells, j < s.cells.size
  built : ∀ {i p}, s.parser? i = some p → p.Within s.cells.size
  bindFree : ∀ {i d p}, s.definition? i = some d → s.parser? i = some p → d.body.BindFree →
    p.BindFree

namespace Closed

theorem empty : ({} : Store).Closed where
  registered h := by cases h
  enclosed h := by cases h
  built h := by cases h
  bindFree h := by cases h

theorem lt_of_handle? (h : s.Closed) {name : String} {r : Handle} (hr : s.handle? name = some r) :
    r.cell < s.cells.size :=
  h.registered (mem_registry_of_handle? hr)

theorem register (h : s.Closed) (name : String) {r : Handle} (hr : r.cell < s.cells.size) :
    (s.register name r).Closed where
  enclosed := h.enclosed
  built := h.built
  bindFree := h.bindFree
  registered hmem := by
    rcases List.mem_cons.mp hmem with heq | hmem
    · cases heq
      exact hr
    · exact h.registered (List.mem_of_mem_filter hmem)

theorem unregister (h : s.Closed) (name : String) : (s.unregister name).Closed where
  enclosed := h.enclosed
  built := h.built
  bindFree := h.bindFree
  registered hmem := h.registered (List.mem_of_mem_filter hmem)

theorem count (h : s.Closed) (name : String) (n : Nat) : (s.count name n).Closed :=
  ⟨h.registered, h.enclosed, h.built, h.bindFree⟩

theorem allocateAll (h : s.Closed) {ds : List Definition}
    (hds : ∀ d ∈ ds, ∀ j ∈ d.scope.cells, j < s.cells.size) : (s.allocateAll ds).Closed where
  registered hmem := by
    rw [size_allocateAll]
    exact Nat.lt_add_right _ (h.registered hmem)
  enclosed hd j hj := by
    rw [size_allocateAll]
    apply Nat.lt_add_right
    rcases definition?_allocateAll_cases hd with hd | hd
    · exact h.enclosed hd j hj
    · exact hds _ hd j hj
  built hp := by
    rw [parser?_allocateAll] at hp
    exact (h.built hp).mono (by simp)
  bindFree hd hp := by
    rw [parser?_allocateAll] at hp
    rw [definition?_allocateAll ds (lt_of_parser? hp)] at hd
    exact h.bindFree hd hp

theorem assemble (h : s.Closed) (g : Grammar) (hscope : ∀ i ∈ scope.cells, i < s.cells.size) :
    (g.assemble scope s).2.Closed := by
  obtain ⟨ds, hs, hds⟩ := exists_assemble g scope s
  rw [hs]
  refine h.allocateAll fun d hd => ?_
  rw [(hds d hd).1]
  exact hscope

theorem within_assemble (h : s.Closed) (g : Grammar) (hscope : ∀ i ∈ scope.cells, i < s.cells.size) :
    (g.assemble scope s).1.Within (g.assemble scope s).2.cells.size := by
  have hsize := size_le_assemble g scope s
  refine (all_assemble g scope s).mono (fun r hr => ?_) ?_
  · cases hr with
    | enclosing hi => exact Nat.lt_of_lt_of_le (hscope _ hi) hsize
    | registered hname => exact Nat.lt_of_lt_of_le (h.lt_of_handle? hname) hsize
    | new _ hlt => exact hlt
  · rintro _ ⟨rfl, _⟩ i hi
    exact Nat.lt_of_lt_of_le (hscope i hi) hsize

end Closed

theorem bindFree_assemble {g : Grammar} (hg : g.BindFree) (scope : Scope) (s : Store) :
    (g.assemble scope s).1.BindFree :=
  (all_assemble g scope s).mono (fun _ _ => trivial) fun _ hb => hb.2 hg

theorem Closed.announce (h : s.Closed) (hi : i < s.cells.size) (d : Definition) :
    (s.announce i d).Closed := by
  have htally : (s.tally d).Closed := by
    unfold tally
    cases d.counted? with
    | none => exact h
    | some name => exact h.count name 1
  unfold Store.announce
  cases d.escape? with
  | none => exact htally
  | some name => exact htally.register name (by rwa [cells_tally])

theorem Closed.innerScope (h : s.Closed) (hd : s.definition? i = some d) :
    ∀ j ∈ (d.innerScope i).cells, j < s.cells.size := by
  unfold Definition.innerScope
  cases d.self? with
  | none => exact h.enclosed hd
  | some name => exact List.forall_mem_cons.mpr ⟨lt_of_definition? hd, h.enclosed hd⟩

theorem Closed.fill (h : s.Closed) (hd : s.definition? i = some d) {p : Assembled}
    (hp : p.Within s.cells.size) (hfree : d.body.BindFree → p.BindFree) : (s.fill i p).Closed where
  registered hmem := by
    rw [size_fill]
    exact h.registered hmem
  enclosed hd' := by
    rw [definition?_fill] at hd'
    rw [size_fill]
    exact h.enclosed hd'
  built hq := by
    rw [size_fill]
    rcases parser?_fill hq with ⟨_, rfl⟩ | hq
    · exact hp
    · exact h.built hq
  bindFree hd' hq hbody := by
    rw [definition?_fill] at hd'
    rcases parser?_fill hq with ⟨rfl, rfl⟩ | hq
    · obtain rfl := Option.some.inj (hd.symm.trans hd')
      exact hfree hbody
    · exact h.bindFree hd' hq hbody

structure Builds (s : Store) (d : Definition) (r : Assembled × Store) : Prop where
  closed : r.2.Closed
  within : r.1.Within r.2.cells.size
  bindFree : d.body.BindFree → r.1.BindFree

theorem Closed.construct (h : s.Closed) (hd : s.definition? i = some d) :
    s.Builds d (construct i d s) := by
  have hann := h.announce (lt_of_definition? hd) d
  have hgrows := grows_announce i d s
  have hscope : ∀ j ∈ (d.innerScope i).cells, j < (s.announce i d).cells.size := fun j hj =>
    Nat.lt_of_lt_of_le (h.innerScope hd j hj) hgrows.size_le
  have hwithin := hann.within_assemble d.body hscope
  have hfree := fun hbody : d.body.BindFree =>
    bindFree_assemble hbody (d.innerScope i) (s.announce i d)
  have hd' := (hgrows.trans (grows_assemble d.body (d.innerScope i) _)).definition?_eq_some hd
  refine ⟨(hann.assemble d.body hscope).fill hd' hwithin hfree, ?_, hfree⟩
  rw [construct_eq, size_fill]
  exact hwithin

/-- A built cell has the parser that was just assembled for it. -/
theorem parser?_construct (hi : i < s.cells.size) (d : Definition) :
    (construct i d s).2.parser? i = some (construct i d s).1 := by
  rw [construct_eq]
  refine parser?_fill_self (Nat.lt_of_lt_of_le hi ?_) _
  exact ((grows_announce i d s).trans (grows_assemble d.body (d.innerScope i) _)).size_le

end Store

end Descent
