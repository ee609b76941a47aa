import Descent.Proofs.Closed

namespace Descent.Store
variable {s s' : Store} {running running' : List Nat} {i j : Nat}

/-- Some cells with `i` among them hold each other, apart from those that are `running` or
registered. -/
def Held (s : Store) (running : List Nat) (i : Nat) : Prop :=
  ∃ K : Nat → Prop, K i ∧ ∀ j, K j → j ∈ running ∨ j ∈ s.roots ∨ ∃ k, K k ∧ j ∈ s.heldBy k

namespace Held

theorem of_mem_running (h : i ∈ running) : s.Held running i :=
  ⟨(· ∈ running), h, fun _ hj => .inl hj⟩

theorem of_mem_roots (h : i ∈ s.roots) : s.Held running i :=
  ⟨(· ∈ s.roots), h, fun _ hj => .inr (.inl hj)⟩

theorem of_mem_heldBy (h : s.Held running i) (hj : j ∈ s.heldBy i) : s.Held running j := by
  obtain ⟨K, hi, hK⟩ := h
  refine ⟨fun k => K k ∨ k = j, .inr rfl, ?_⟩
  rintro k (hk | rfl)
  · rcases hK k hk with hrun | hroot | ⟨m, hm, hkm⟩
    · exact .inl hrun
    · exact .inr (.inl hroot)
    · exact .inr (.inr ⟨m, .inl hm, hkm⟩)
  · exact .inr (.inr ⟨i, .inl hi, hj⟩)

theorem cases (h : s.Held running i) :
    i ∈ running ∨ i ∈ s.roots ∨ ∃ k, s.Held running k ∧ i ∈ s.heldBy k := by
  obtain ⟨K, hi, hK⟩ := h
  rcases hK i hi with hrun | hroot | ⟨k, hk, hik⟩
  · exact .inl hrun
  · exact .inr (.inl hroot)
  · exact .inr (.inr ⟨k, ⟨K, hk, hK⟩, hik⟩)

theorem of_grows (h : s'.Held running' i) (hs : s.Grows s') (hi : i < s.cells.size)
    (hrun : ∀ r ∈ running', r < s.cells.size → s.Held running r) : s.Held running i := by
  obtain ⟨K, hKi, hK⟩ := h
  refine ⟨fun j => (K j ∧ j < s.cells.size) ∨ s.Held running j, .inl ⟨hKi, hi⟩, fun j hj => ?_⟩
  have keep (hj : s.Held running j) : j ∈ running ∨ j ∈ s.roots ∨
      ∃ k, ((K k ∧ k < s.cells.size) ∨ s.Held running k) ∧ j ∈ s.heldBy k := by
    rcases hj.cases with hj | hj | ⟨k, hk, hjk⟩
    · exact .inl hj
    · exact .inr (.inl hj)
    · exact .inr (.inr ⟨k, .inr hk, hjk⟩)
  rcases hj with ⟨hKj, hlt⟩ | hj
  · rcases hK j hKj with hj | hj | ⟨k, hk, hjk⟩
    · exact keep (hrun j hj hlt)
    · exact .inr (.inl (hs.roots hj hlt))
    · rcases hs.heldBy hjk hlt with hjk | hj
      · obtain ⟨p, hp, _⟩ := mem_heldBy_iff.mp hjk
        exact .inr (.inr ⟨k, .inl ⟨hk, lt_of_parser? hp⟩, hjk⟩)
      · exact .inr (.inl hj)
  · exact keep hj

/-- What is held stays held as long as the registry is the same. -/
theorem grow (h : s.Held running i) (hs : s.Grows s') (hreg : s'.registry = s.registry) :
    s'.Held running i := by
  obtain ⟨K, hKi, hK⟩ := h
  refine ⟨K, hKi, fun j hj => ?_⟩
  rcases hK j hj with hj | hj | ⟨k, hk, hjk⟩
  · exact .inl hj
  · refine .inr (.inl ?_)
    rw [roots, hreg]
    exact hj
  · obtain ⟨p, hp, hjp⟩ := mem_heldBy_iff.mp hjk
    exact .inr (.inr ⟨k, hk, mem_heldBy_iff.mpr ⟨p, hs.parser? hp, hjp⟩⟩)

end Held

variable {roots kept : List Nat} {n : Nat}

theorem mem_supported_iff :
    i ∈ s.supported roots kept ↔ i ∈ kept ∧ (i ∈ roots ∨ ∃ k ∈ kept, i ∈ s.heldBy k) := by
  simp [supported]

theorem supported_of_mem_settle (hn : kept.length ≤ n) (h : i ∈ s.settle roots n kept) :
    i ∈ roots ∨ ∃ k ∈ s.settle roots n kept, i ∈ s.heldBy k := by
  induction n generalizing kept with
  | zero =>
    obtain rfl := List.length_eq_zero_iff.mp (Nat.le_zero.mp hn)
    cases h
  | succ n ih =>
    rw [settle] at h ⊢
    split at h
    case isTrue hlen =>
      rw [if_pos hlen]
      -- A filter that leaves as many as there were left all.
      have hall : s.supported roots kept = kept :=
        List.filter_eq_self.mpr (List.length_filter_eq_length_iff.mp hlen)
      rw [← hall] at h
      exact (mem_supported_iff.mp h).2
    case isFalse hlen =>
      rw [if_neg hlen]
      have hle : (s.supported roots kept).length ≤ kept.length := List.length_filter_le _ _
      exact ih (by omega) h

theorem mem_settle {K : Nat → Prop} (hkept : ∀ j, K j → j ∈ kept)
    (hK : ∀ j, K j → j ∈ roots ∨ ∃ k, K k ∧ j ∈ s.heldBy k) (n : Nat) (hi : K i) :
    i ∈ s.settle roots n kept := by
  induction n generalizing kept with
  | zero => exact hkept i hi
  | succ n ih =>
    rw [settle]
    split
    · exact hkept i hi
    · refine ih fun j hj => mem_supported_iff.mpr ⟨hkept j hj, ?_⟩
      rcases hK j hj with hj | ⟨k, hk, hjk⟩
      · exact .inl hj
      · exact .inr ⟨k, hkept k hk, hjk⟩

/-- A cell is alive exactly if it is held. -/
theorem isAlive_iff_held (hs : s.Closed) : s.isAlive running i = true ↔ s.Held running i := by
  simp only [isAlive, Bool.or_eq_true, List.contains_iff_mem]
  constructor
  · rintro ((hi | hi) | hi)
    · exact .of_mem_running hi
    · exact .of_mem_roots hi
    · refine ⟨(· ∈ s.alive running), hi, fun j hj => ?_⟩
      rcases supported_of_mem_settle (by simp) hj with hj | ⟨k, hk, hjk⟩
      · exact (List.mem_append.mp hj).imp_right .inl
      · exact .inr (.inr ⟨k, hk, hjk⟩)
  · intro h
    rcases h.cases with hi | hi | ⟨k, hk, hik⟩
    · exact .inl (.inl hi)
    · exact .inl (.inr hi)
    · refine .inr (mem_settle (K := fun j => s.Held running j ∧ j < s.cells.size) ?_ ?_ _ ?_)
      · exact fun j hj => List.mem_range.mpr hj.2
      · rintro j ⟨hj, _⟩
        rcases hj.cases with hj | hj | ⟨k, hk, hjk⟩
        · exact .inl (List.mem_append_left _ hj)
        · exact .inl (List.mem_append_right _ hj)
        · obtain ⟨p, hp, _⟩ := mem_heldBy_iff.mp hjk
          exact .inr ⟨k, ⟨hk, lt_of_parser? hp⟩, hjk⟩
      · obtain ⟨p, hp, hip⟩ := mem_heldBy_iff.mp hik
        exact ⟨h, (hs.built hp).lt_of_mem_holds hip⟩

end Descent.Store
