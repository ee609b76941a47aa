import Descent.Execution
import Descent.Proofs.Representation

namespace Descent
variable {w : Input}

namespace Store
variable {i : Nat} {t : Trail Store}

theorem force_of_parser? {p : Assembled} (hp : t.store.parser? i = some p) :
    force i t = .ok (p, t) := by
  obtain ⟨cell, hcell, hp⟩ := Option.bind_eq_some_iff.mp hp
  rw [force, Run.bind_apply, Run.get_apply]
  simp only [hcell, hp]
  rfl

theorem force_of_definition? {d : Definition} (hd : t.store.definition? i = some d)
    (hnone : t.store.parser? i = none) : force i t = .ok ((construct i d t.store).1,
      ⟨t.log.push .building, (construct i d t.store).2⟩) := by
  obtain ⟨cell, hcell, rfl⟩ := Option.map_eq_some_iff.mp hd
  have hp : cell.parser? = none := by simpa [parser?, hcell] using hnone
  rw [force, Run.bind_apply, Run.get_apply]
  simp only [hcell, hp]
  rfl

end Store

namespace Handle
variable {running : List Nat} {h : Handle} {c : Cursor w}

theorem follow_of_dropped (deeper : List Nat → Assembled → Parser Store w Tree) {t : Trail Store}
    (hh : (h.weak && !t.store.isAlive running h.cell) = true) :
    h.follow deeper running c t = .ok (.failure (dropped c.position), t) := by
  rw [follow, Run.bind_apply, Run.get_apply]
  dsimp only
  rw [if_pos hh]
  rfl

theorem follow_of_alive (deeper : List Nat → Assembled → Parser Store w Tree) {t : Trail Store}
    (hh : ¬(h.weak && !t.store.isAlive running h.cell) = true) :
    h.follow deeper running c t =
      (Store.force h.cell >>= fun p => deeper (h.cell :: running) p c) t := by
  rw [follow, Run.bind_apply, Run.get_apply]
  dsimp only
  rw [if_neg hh]

end Handle

end Descent
