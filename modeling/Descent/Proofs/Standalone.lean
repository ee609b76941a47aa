import Descent.Proofs.Adequacy

namespace Descent
variable {w : Input}

open Run (Meets)

namespace Grammar

/-- Nothing in the grammar refers to a definition or depends on a tree. -/
def Standalone : Grammar → Prop
  | terminal _ => True
  | modify _ g => g.Standalone
  | join _ g h => g.Standalone ∧ h.Standalone
  | between g h k => g.Standalone ∧ h.Standalone ∧ k.Standalone
  | _ => False

/-- Every run from `c` that may go down at all ends with `o`. -/
def Yields (g : Grammar) (c : Cursor w) (o : Outcome w Tree) : Prop :=
  ∀ depth (t : Trail Store), (g.parser (depth + 1) c t).map (·.1) = .ok o

variable {g : Grammar} {c : Cursor w} {o o' : Outcome w Tree}

theorem Yields.unique (h : g.Yields c o) (h' : g.Yields c o') : o = o' :=
  Except.ok.inj ((h 0 ⟨#[], Store.ofRules []⟩).symm.trans (h' 0 _))

theorem Yields.parse {extent : Extent} (h : g.Yields (extent.cursor w) o) (depth : Nat)
    (rules : List (String × Grammar)) : ∃ transcript,
      g.parse (depth + 1) rules w extent = .ok transcript ∧ transcript.answer = extent.judge o := by
  obtain ⟨trail, hrun⟩ :=
    Run.exists_trail_iff.mpr (h depth ⟨(extent.opening w).toArray, Store.ofRules rules⟩)
  rw [Grammar.parse, Store.parse_eq, hrun]
  exact ⟨_, rfl, rfl⟩

namespace Standalone

theorem meets_interpret (hg : g.Standalone) (scope : Scope) (s : Store)
    (rules : List (String × Grammar)) (frames : Frames)
    (deeper : List Nat → Assembled → Parser Store w Tree) (running : List Nat) (c : Cursor w) :
    Meets (fun _ => True) (fun _ => False) (Derives rules frames g c)
      ((g.assemble scope s).1.interpret deeper running c) := by
  induction g generalizing s c with
  | terminal t => exact (t.meets_matches c).mono fun _ h => .terminal h
  | modify m g ih => exact m.meets_derives (ih hg s) c
  | join k g h ihg ihh => exact k.meets_derives (ihg hg.1 s) (ihh hg.2 (g.assemble scope s).2) c
  | between g h k ihg ihh ihk =>
    exact meets_between (ihg hg.1 s) (ihh hg.2.1 (g.assemble scope s).2)
      (ihk hg.2.2 (h.assemble scope (g.assemble scope s).2).2) c
  | _ => exact hg.elim

theorem meets_run (hg : g.Standalone) (depth : Nat) (c : Cursor w) :
    Meets (fun _ => True) (fun _ => False) (Derives [] [] g c) (g.parser (depth + 1) c) := by
  have hassemble : Meets (fun _ => True) (fun _ => False) (fun p => ∃ s, p = (g.assemble [] s).1)
      (Run.onStore (g.assemble [])) := .onStore fun s _ => ⟨⟨s, rfl⟩, trivial⟩
  refine hassemble.bind ?_
  rintro _ ⟨s, rfl⟩
  exact hg.meets_interpret [] s [] [] _ _ c

theorem yields (hg : g.Standalone) (h : Derives [] [] g c o) : g.Yields c o := by
  intro depth t
  have hmeets := hg.meets_run depth c t trivial
  cases hrun : g.parser (depth + 1) c t with
  | error why =>
    rw [hrun] at hmeets
    exact hmeets.elim
  | ok r =>
    rw [hrun] at hmeets
    rw [← hmeets.1.unique h]
    rfl

end Standalone

end Grammar

end Descent
