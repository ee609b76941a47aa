import Descent.Proofs.Watching

namespace Descent

namespace Handle
variable {w : Input} {running : List Nat} {i : Nat}

theorem follow_weak (deeper : List Nat → Assembled → Parser Store w Tree) (c : Cursor w)
    {t : Trail Store} (halive : t.store.isAlive running i = true) :
    follow deeper running ⟨i, true⟩ c t = follow deeper running ⟨i, false⟩ c t := by
  rw [follow_of_alive deeper (h := ⟨i, true⟩) (by simp [halive]),
    follow_of_alive deeper (h := ⟨i, false⟩) (by simp)]

end Handle

namespace Store
variable {s : Store} {i : Nat}

theorem isBuilt_weak (halive : s.isAlive [] i = true) : s.isBuilt ⟨i, true⟩ = s.isBuilt ⟨i, false⟩ := by
  rw [isBuilt, isBuilt, halive]
  rfl

theorem isAlive_of_registered {name : String} (h : (name, ⟨i, false⟩) ∈ s.registry)
    (running : List Nat) : s.isAlive running i = true := by
  have hroot : s.roots.contains i = true := List.contains_iff_mem.mpr (mem_roots_iff.mpr ⟨name, h⟩)
  rw [isAlive, hroot, Bool.or_true, Bool.true_or]

end Store

namespace Observed

/-- A cell that was not held when a run began is not alive at any point of it, so a weak handle to it
fails there. -/
theorem Ready.follow_dropped {s₀ : Store} {o : Observed} {running : List Nat} {i : Nat}
    (h : Ready s₀ o running) (hi : i < s₀.cells.size) (hdropped : ¬s₀.Held [] i) {w : Input}
    (deeper : List Nat → Assembled → Parser Store w Tree) (c : Cursor w) (log : Array Record) :
    Handle.follow deeper running ⟨i, true⟩ c ⟨log, o.store⟩ =
      .ok (.failure (Handle.dropped c.position), ⟨log, o.store⟩) := by
  have hdead : o.store.isAlive running i = false := by
    rw [← Bool.not_eq_true, Store.isAlive_iff_held h.closed]
    exact fun hheld => hdropped (hheld.reachable h.grows h.running hi)
  exact Handle.follow_of_dropped deeper (by simp [hdead])

/-- While a strong handle to a cell is registered, every weak handle to it is followed as the strong one,
also in the middle of a run. After every session, a weak handle does as the strong one if the cell is
held. If it is not held, then never again: whatever is done later, no run reaches the cell, and every
weak handle fails where it is called, in the middle of a run as well, builds nothing and tells that
nothing was built. -/
theorem weak_handles (depth : Nat) (xs ys : List Step) (i : Nat) :
    let o := (Observed.steps depth {} xs).2
    let later := (o.steps depth ys).2
    o.store = (Store.steps depth {} xs).2 ∧ later.store = (o.store.steps depth ys).2 ∧
    (∀ (t : Trail Store) (name : String), (name, ⟨i, false⟩) ∈ t.store.registry →
      t.store.isBuilt ⟨i, true⟩ = t.store.isBuilt ⟨i, false⟩ ∧
      ∀ (w : Input) (deeper : List Nat → Assembled → Parser Store w Tree) running c,
        Handle.follow deeper running ⟨i, true⟩ c t = Handle.follow deeper running ⟨i, false⟩ c t) ∧
    (o.store.Held [] i → o.store.isBuilt ⟨i, true⟩ = o.store.isBuilt ⟨i, false⟩ ∧
      ∀ (w : Input) depth (c : Cursor w) log, Handle.parser depth ⟨i, true⟩ c ⟨log, o.store⟩ =
        Handle.parser depth ⟨i, false⟩ c ⟨log, o.store⟩) ∧
    (i < o.store.cells.size → ¬o.store.Held [] i →
      ¬later.store.Held [] i ∧ later.store.isBuilt ⟨i, true⟩ = false ∧
      (∀ (w : Input) depth (c : Cursor w) log, Handle.parser depth ⟨i, true⟩ c ⟨log, later.store⟩ =
        .ok (.failure (.custom "recursive parser used after its definition was dropped" c.position),
          ⟨log, later.store⟩)) ∧
      (∀ o' running, Ready later.store o' running →
        ∀ (w : Input) (deeper : List Nat → Assembled → Parser Store w Tree) c log,
          Handle.follow deeper running ⟨i, true⟩ c ⟨log, o'.store⟩ =
            .ok (.failure (Handle.dropped c.position), ⟨log, o'.store⟩)) ∧
      ∃ visits, later.visits = o.visits ++ visits ∧ ∀ v ∈ visits, v.cell ≠ i) := by
  intro o later
  have hclosed : o.store.Closed := closed_steps depth xs
  obtain ⟨_, hstore, _⟩ := steps_spec (o := {}) depth Store.Closed.empty (.refl _) xs
  obtain ⟨_, hstore', hlater⟩ := steps_spec depth hclosed (.refl o.store) ys
  refine ⟨hstore, hstore', fun t name hreg => ?_, fun hheld => ?_, fun hi hdropped => ?_⟩
  · have halive := Store.isAlive_of_registered hreg
    exact ⟨Store.isBuilt_weak (halive []), fun w deeper running c =>
      Handle.follow_weak deeper c (halive running)⟩
  · have halive := (Store.isAlive_iff_held hclosed).mpr hheld
    exact ⟨Store.isBuilt_weak halive, fun w depth c log => Handle.follow_weak _ c halive⟩
  · -- Whatever a later store holds of the cells of `o`, `o` held already.
    have hnot : ¬later.store.Held [] i := fun hheld =>
      hdropped (hheld.of_grows hlater.grows hi (List.forall_mem_nil _))
    have hlt : i < later.store.cells.size := Nat.lt_of_lt_of_le hi hlater.grows.size_le
    have hready : Ready later.store later [] :=
      ⟨hlater.closed hclosed, .refl _, List.forall_mem_nil _⟩
    have hdead : later.store.isAlive [] i = false := by
      rw [← Bool.not_eq_true, Store.isAlive_iff_held hready.closed]
      exact hnot
    obtain ⟨visits, heq, hvisits⟩ := hlater.exists_visits
    refine ⟨hnot, ?_, fun w depth c log => ?_, fun o' running hrun w deeper c log => ?_, visits, heq,
      ?_⟩
    · rw [Store.isBuilt, hdead]
      rfl
    · exact hready.follow_dropped hlt hnot _ c log
    · exact hrun.follow_dropped hlt hnot deeper c log
    · rintro v hv rfl
      exact hdropped (hvisits v hv hi)

/-- The handle of a definition has escaped, and the definition is dropped. A new definition under its name
does not bring it back. -/
theorem weak_handles_escaped :
    let input : Input := ⟨.byte, #[97], by decide⟩
    let o := (Observed.steps 1 {} [.defineRecursive "a" (.is 97) (some "b"), .parse "a" input .whole,
      .drop "a"]).2
    let later := (o.steps 1 [.define "a" (.is 97), .parse "a" input .whole]).2
    o.visits = [⟨0, true⟩] ∧ ¬o.store.Held [] 0 ∧ later.store.handle? "b" = some ⟨0, true⟩ ∧
      later.store.isBuilt ⟨0, true⟩ = false ∧ ∃ visits, later.visits = o.visits ++ visits ∧
        ∀ v ∈ visits, v.cell ≠ 0 := by
  intro input o later
  have hdropped : ¬o.store.Held [] 0 := by
    rw [← Store.isAlive_iff_held (closed_steps _ _), Bool.not_eq_true]
    decide
  have hsize : 0 < o.store.cells.size := by decide
  obtain ⟨_, hbuilt, _, _, hvisits⟩ := (weak_handles 1 [.defineRecursive "a" (.is 97) (some "b"),
    .parse "a" input .whole, .drop "a"] [.define "a" (.is 97), .parse "a" input .whole] 0).2.2.2.2
    hsize hdropped
  exact ⟨by decide, hdropped, by decide, hbuilt, hvisits⟩

end Observed

end Descent
