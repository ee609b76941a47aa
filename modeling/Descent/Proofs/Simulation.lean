import Mathlib.Data.List.Induction
import Descent.Session
import Descent.Proofs.Following

/-!
# Running in a store

A run in a coherent store ends as a run that unfolds definitions: a handle leads to a cell that is
alive and is or can be built, and what is built stands for the body that would have been unfolded.
The store of a list of rules is coherent, so running a grammar with it is unfolding the grammar. The log
of the run tells besides of each cell that is built.
-/

namespace Descent

namespace Record

def isStalled : Record → Bool
  | stalled _ => true
  | _ => false

/-- The records of repetitions that ended because a match consumed nothing. -/
def stalls (log : Array Record) : List Record := log.toList.filter isStalled

theorem stalls_push (log : Array Record) (r : Record) :
    stalls (log.push r) = stalls log ++ if r.isStalled then [r] else [] := by
  rw [stalls, Array.toList_push, List.filter_append]
  cases hr : r.isStalled <;> simp [stalls, hr]

@[simp] theorem stalls_push_building (log : Array Record) :
    stalls (log.push .building) = stalls log := by
  rw [stalls_push]
  exact List.append_nil _

@[simp] theorem stalls_push_stalled (log : Array Record) (p : Nat) :
    stalls (log.push (.stalled p)) = stalls log ++ [.stalled p] :=
  stalls_push _ _

end Record

namespace Store
variable {rules : List (String × Grammar)}

theorem Coherent.exists_force {t : Trail Store} (h : t.store.Coherent rules) {i : Nat}
    {d : Definition} {frames : Frames} (hd : t.store.definition? i = some d)
    (he : t.store.Encloses (d.innerScope i) frames) : ∃ p t', force i t = .ok (p, t') ∧
      t.store.Assembles rules (d.innerScope i) frames d.body (p, t'.store) ∧
        Record.stalls t'.log = Record.stalls t.log := by
  cases hp : t.store.parser? i with
  | some p =>
    refine ⟨p, t, force_of_parser? hp, ⟨.refl _, h, ?_⟩, rfl⟩
    -- The frames for which it was built are ours, since the scope of a cell determines them.
    obtain ⟨frames', he', hstands⟩ := h.built hd hp
    rw [he.unique he']
    exact hstands
  | none =>
    exact ⟨_, _, force_of_definition? hd hp, h.assembles_construct hd he,
      Record.stalls_push_building _⟩

/-- The trail of a run that had the store `s` and had written `before` about its repetitions, beside
that of a run without a store. -/
structure Grown (rules : List (String × Grammar)) (s : Store) (before : List Record)
    (t : Trail Store) (u : Trail Unit) : Prop where
  extension : s.Extends t.store
  coherent : t.store.Coherent rules
  stalls_eq : Record.stalls t.log = before ++ Record.stalls u.log

theorem stalls_grown {w : Input} (rules : List (String × Grammar)) (s : Store)
    (before : List Record) : (Correspondence.same w).Stalls (Grown rules s before) := by
  rintro c _ rfl t u h
  refine ⟨trivial, h.extension, h.coherent, ?_⟩
  show Record.stalls (t.log.push _) = before ++ Record.stalls (u.log.push _)
  rw [Record.stalls_push_stalled, Record.stalls_push_stalled, h.stalls_eq, List.append_assoc]

end Store

open Correspondence (same)
open Store (Grown)
variable {w : Input} {rules : List (String × Grammar)}

theorem Handle.follow_apply {deeper : List Nat → Assembled → Parser Store w Tree}
    {running : List Nat} {h : Handle} (hw : h.weak → h.cell ∈ running) (c : Cursor w)
    (t : Trail Store) : h.follow deeper running c t =
      (Store.force h.cell >>= fun p => deeper (h.cell :: running) p c) t := by
  -- What is in use is alive, so it need not be known what else keeps the cell.
  have halive : (h.weak && !t.store.isAlive running h.cell) = false := by
    cases hweak : h.weak with
    | false => rfl
    | true => simp [Store.isAlive, hw hweak]
  exact follow_of_alive deeper (by simp [halive])

/-- Parsers that are run one level deeper in a store, beside grammars that are. -/
def Represents (rules : List (String × Grammar))
    (deeper : List Nat → Assembled → Parser Store w Tree)
    (deeper' : Frames → Grammar → Parser Unit w Tree) : Prop :=
  ∀ ⦃s : Store⦄ ⦃scope frames running p g⦄, s.Encloses scope frames → scope.cells ⊆ running →
    s.Stands rules scope frames p g → ∀ before,
      (same w).Parsers (Grown rules s before) Eq (deeper running p) (deeper' frames g)

namespace Represents
variable {deeper : List Nat → Assembled → Parser Store w Tree}
variable {deeper' : Frames → Grammar → Parser Unit w Tree}
variable {s : Store} {scope : Scope} {frames : Frames} {running : List Nat}
variable {before : List Record}

theorem alike_of_grown (hd : Represents rules deeper deeper') {t : Trail Store} {u : Trail Unit}
    (hs : s.Extends t.store) {p : Assembled} {g : Grammar}
    (hp : t.store.Coherent rules ∧ t.store.Stands rules scope frames p g)
    (he : t.store.Encloses scope frames) (hrun : scope.cells ⊆ running)
    (hlog : Record.stalls t.log = before ++ Record.stalls u.log) (c : Cursor w) :
    Run.Alike (Grown rules s before) ((same w).Outcomes Eq) (deeper running p c t)
      (deeper' frames g c u) :=
  (hd he hrun hp.2 before c c rfl t u ⟨.refl _, hp.1, hlog⟩).mono
    (fun _ _ h => ⟨hs.trans h.extension, h.coherent, h.stalls_eq⟩) fun _ _ h => h

theorem parsers_follow (hd : Represents rules deeper deeper') (he : s.Encloses scope frames)
    (hrun : scope.cells ⊆ running) (g : Grammar) :
    (same w).Parsers (Grown rules s before) Eq (g.follow deeper running scope)
      (deeper' frames g) := by
  rintro c _ rfl t u ⟨hs, hc, hlog⟩
  have hp := hc.assembles (he.extend hs) g
  have he' := he.extend (hs.trans hp.extension)
  exact hd.alike_of_grown (t := { t with store := (g.assemble scope t.store).2 })
    (hs.trans hp.extension) ⟨hp.coherent, hp.stands⟩ he'
    (List.subset_append_of_subset_right _ hrun) hlog c

theorem parsers_refer (hd : Represents rules deeper deeper') {h : Handle} {d : Definition}
    {inner : Frames} (hdef : s.definition? h.cell = some d)
    (he : s.Encloses (d.innerScope h.cell) inner) (hsub : d.scope.cells ⊆ running)
    (hw : h.weak → h.cell ∈ running) :
    (same w).Parsers (Grown rules s before) Eq (h.follow deeper running)
      (deeper' inner d.body) := by
  rintro c _ rfl t u ⟨hs, hc, hlog⟩
  -- Building the cell has changed the store, and from there the run goes on one level deeper.
  obtain ⟨p, t', hforce, hp, hstalls⟩ := hc.exists_force (hs.definitions hdef) (he.extend hs)
  rw [Handle.follow_apply hw, Run.bind_apply, hforce]
  have he' := he.extend (hs.trans hp.extension)
  refine hd.alike_of_grown (hs.trans hp.extension) ⟨hp.coherent, hp.stands⟩ he' ?_
    (hstalls.trans hlog) c
  rw [Definition.innerScope]
  split
  · exact List.cons_subset_cons _ hsub
  · exact List.subset_cons_of_subset _ hsub

theorem interpret (hd : Represents rules deeper deeper') :
    Represents rules (fun running p => p.interpret deeper running)
      (fun frames g => g.evaluate rules deeper' frames) := by
  intro s scope frames running p g he hrun h before
  change (same w).Parsers (Grown rules s before) Eq (p.interpret deeper running)
    (g.evaluate rules deeper' frames)
  have hT : (same w).Stalls (Grown rules s before) := Store.stalls_grown rules s before
  induction h with
  | terminal => exact Terminal.parsers_same _
  | modify _ ih => exact Modifier.parsers_same hT ih _
  | join _ _ ih ih' => exact Connective.parsers_same ih ih' _
  | between _ _ _ ih ih' ih'' => exact ih.between ih' ih''
  | bind _ ih =>
    refine ih.bind ?_
    rintro x _ rfl
    exact hd.parsers_follow he hrun _
  | @unbound name h =>
    have hfail : (Grammar.call name).evaluate rules deeper' frames =
        Parser.fail ("unbound parser " ++ name) := by
      rw [Grammar.evaluate, h]
    rw [hfail]
    exact (Terminal.fail _).parsers_same
  | refer ht hdef hin hsub hw =>
    rw [Grammar.evaluate_of_target? ht]
    exact hd.parsers_refer hdef hin (List.Subset.trans hsub hrun) fun h => hrun (hw h)

end Represents

theorem Assembled.represents_run (rules : List (String × Grammar)) (depth : Nat) :
    Represents rules (run depth : List Nat → Assembled → Parser Store w Tree)
      (Grammar.unfolded rules depth) := by
  induction depth with
  | zero => exact fun _ _ _ _ _ _ _ _ _ _ _ _ _ => .stop _
  | succ depth ih => exact ih.interpret

namespace Store

theorem handle?_register (name other : String) (h : Handle) (s : Store) :
    (s.register name h).handle? other = if other = name then some h else s.handle? other := by
  unfold handle? register
  rw [lookup_cons_eq_ite]
  split
  case isTrue => rfl
  case isFalse h => exact lookup_filter_ne h s.registry

theorem definition?_register (name : String) (h : Handle) (s : Store) (i : Nat) :
    (s.register name h).definition? i = s.definition? i := rfl

theorem parser?_register (name : String) (h : Handle) (s : Store) (i : Nat) :
    (s.register name h).parser? i = s.parser? i := rfl

theorem ofRules_concat (rules : List (String × Grammar)) (name : String) (body : Grammar) :
    ofRules (rules ++ [(name, body)]) =
      ((ofRules rules).allocate { body }).2.register name ⟨(ofRules rules).cells.size, false⟩ := by
  simp [ofRules, allocate]

theorem parser?_ofRules (rules : List (String × Grammar)) (i : Nat) :
    (ofRules rules).parser? i = none := by
  induction rules using List.reverseRecOn with
  | nil => rfl
  | append_singleton rules r ih =>
    rw [ofRules_concat, parser?_register, parser?_allocate]
    exact ih

theorem coherent_ofRules (rules : List (String × Grammar)) :
    (ofRules rules).Coherent rules := by
  induction rules using List.reverseRecOn with
  | nil =>
    refine ⟨fun h => ?_, fun h => ?_, fun _ => rfl, fun h => ?_⟩
    · cases h
    · cases h
    · cases h
  | append_singleton rules r ih =>
    obtain ⟨name, body⟩ := r
    have hs := extends_allocate { body } (ofRules rules)
    rw [ofRules_concat]
    refine ⟨fun {i d} h => ?_, fun {other body'} h => ?_, fun {other} h => ?_, fun {i d p} _ h => ?_⟩
    · rw [definition?_register] at h
      rcases definition?_allocate_cases h with rfl | h
      · rfl
      · exact ih.quiet h
    · rw [List.reverse_concat, lookup_cons_eq_ite] at h
      rw [handle?_register]
      by_cases ho : other = name
      · rw [if_pos ho] at h ⊢
        exact ⟨_, _, rfl, rfl, definition?_allocate _ _, Option.some.inj h, rfl, rfl⟩
      · rw [if_neg ho] at h ⊢
        obtain ⟨r, d, hr, hweak, hd, hrest⟩ := ih.bound h
        exact ⟨r, d, hr, hweak, hs.definitions hd, hrest⟩
    · rw [List.reverse_concat, lookup_cons_eq_ite] at h
      rw [handle?_register]
      by_cases ho : other = name
      · rw [if_pos ho] at h
        cases h
      · rw [if_neg ho] at h ⊢
        exact ih.unbound h
    · rw [parser?_register, parser?_allocate, parser?_ofRules] at h
      cases h

end Store

/-- With the store of its rules a grammar is run as by unfolding its definitions, and adds to the log
what that writes about repetitions. -/
theorem Grammar.alike_unfolded (rules : List (String × Grammar)) (depth : Nat) (g : Grammar)
    (c : Cursor w) (log : Array Record) :
    Run.Alike (fun t u => Record.stalls t.log = Record.stalls log ++ Record.stalls u.log)
      ((same w).Outcomes Eq) (g.parser depth c ⟨log, Store.ofRules rules⟩)
      (g.unfolded rules depth [] c (⟨#[], ()⟩ : Trail Unit)) := by
  have hd := Assembled.represents_run (w := w) rules depth
  have he : (Store.ofRules rules).Encloses [] [] := .nil
  have hg : (same w).Parsers (Grown rules (Store.ofRules rules) (Record.stalls log)) Eq
      (g.follow (Assembled.run depth) [] []) (g.unfolded rules depth []) :=
    hd.parsers_follow he (List.nil_subset []) g
  have hstart : Grown rules (Store.ofRules rules) (Record.stalls log)
      ⟨log, Store.ofRules rules⟩ ⟨#[], ()⟩ :=
    ⟨.refl _, Store.coherent_ofRules rules, (List.append_nil _).symm⟩
  exact (hg c c rfl _ _ hstart).mono (fun _ _ h => h.stalls_eq) fun _ _ h => h

theorem Grammar.parser_map_fst (rules : List (String × Grammar)) (depth : Nat) (g : Grammar)
    (c : Cursor w) (log : Array Record) :
    (g.parser depth c ⟨log, Store.ofRules rules⟩).map (·.1) =
      (g.unfolded rules depth [] c (⟨#[], ()⟩ : Trail Unit)).map (·.1) := by
  apply (g.alike_unfolded rules depth c log).map_eq
  intro o o' _ _ ho _
  exact (Correspondence.outcomes_same_iff o o').mp ho

theorem Grammar.parser_ok_iff {rules : List (String × Grammar)} {depth : Nat} {g : Grammar}
    {c : Cursor w} {log : Array Record} {o : Outcome w Tree} :
    (∃ trail, g.parser depth c ⟨log, Store.ofRules rules⟩ = .ok (o, trail)) ↔
      ∃ trail, g.unfolded rules depth [] c (⟨#[], ()⟩ : Trail Unit) = .ok (o, trail) := by
  rw [Run.exists_trail_iff, Run.exists_trail_iff, parser_map_fst]

end Descent
