import Descent.Proofs.Simulation

/-!
# Runs of related grammars

Two grammars of one shape are related when the functions and constants in them are. What is related
runs alike from corresponding places: by unfolding definitions, and therefore in the store of the
rules. A grammar that is related to itself treats related trees alike.
-/

namespace Descent
variable {σ τ : Type} {w v : Input} {V : Tree → Tree → Prop}

inductive Terminal.Alike (V : Tree → Tree → Prop) : Terminal → Terminal → Prop
  | succeed {x y} : V x y → Alike V (succeed x) (succeed y)
  | same {t} : (∀ value, t ≠ succeed value) → Alike V t t

/-- `Grammar.Alike V g g'`: the grammars differ in nothing but functions and constants, which `V`
relates. What follows a `bind` on related trees is related in the same way. -/
inductive Grammar.Alike (V : Tree → Tree → Prop) : Grammar → Grammar → Prop
  | terminal {t t'} : t.Alike V t' → Alike V (terminal t) (terminal t')
  | modify {m m' g g'} : m.Alike V m' → Alike V g g' → Alike V (modify m g) (modify m' g')
  | join {k g g' h h'} : Alike V g g' → Alike V h h' → Alike V (join k g h) (join k g' h')
  | between {g g' h h' k k'} : Alike V g g' → Alike V h h' → Alike V k k' →
      Alike V (between g h k) (between g' h' k')
  | bind {g g' f f'} : Alike V g g' → (∀ x y, V x y → Alike V (f x) (f' y)) →
      Alike V (bind g f) (bind g' f')
  | call {name} : Alike V (call name) (call name)
  | delay {body body'} : Alike V body body' → Alike V (delay body) (delay body')
  | recursive {name body body'} : Alike V body body' →
      Alike V (recursive name body) (recursive name body')

abbrev Frames.Alike (V : Tree → Tree → Prop) : Frames → Frames → Prop :=
  List.Forall₂ fun f f' => f.1 = f'.1 ∧ f.2.Alike V f'.2

theorem Frames.Alike.resolve? {rules : List (String × Grammar)}
    (hrules : ∀ r ∈ rules, r.2.Alike V r.2) {frames frames' : Frames}
    (h : frames.Alike V frames') (name : String) :
    (frames.resolve? rules name = none ∧ frames'.resolve? rules name = none) ∨
      ∃ inner body inner' body', frames.resolve? rules name = some (inner, body) ∧
        frames'.resolve? rules name = some (inner', body') ∧ inner.Alike V inner' ∧
          body.Alike V body' := by
  induction h with
  | nil =>
    cases hr : Frames.resolve? rules name [] with
    | none => exact .inl ⟨rfl, rfl⟩
    | some K =>
      obtain ⟨body, hbody, rfl⟩ := Option.map_eq_some_iff.mp hr
      have halike := Frames.forall_of_resolve? (P := fun g => g.Alike V g) hrules (List.forall_mem_nil _) hr
      exact .inr ⟨_, _, _, _, rfl, rfl, .nil, halike.2⟩
  | @cons f f' outer outer' hf houter ih =>
    obtain ⟨n, body⟩ := f
    obtain ⟨n', body'⟩ := f'
    obtain ⟨rfl, hbody⟩ : n = n' ∧ body.Alike V body' := hf
    rw [Frames.resolve?, Frames.resolve?]
    split
    case isTrue => exact .inr ⟨_, _, _, _, rfl, rfl, .cons ⟨rfl, hbody⟩ houter, hbody⟩
    case isFalse => exact ih

namespace Correspondence
variable {K : Correspondence w v} {T : Trail σ → Trail τ → Prop}
variable {rules : List (String × Grammar)}

/-- What has to be known of a correspondence, of a relation between trees and of the rules. -/
structure Parametric (K : Correspondence w v) (T : Trail σ → Trail τ → Prop)
    (V : Tree → Tree → Prop) (rules : List (String × Grammar)) : Prop where
  trees : K.Trees V
  stalls : K.Stalls T
  terminals {t t' : Terminal} : t.Alike V t' → K.Parsers T V t.parser t'.parser
  rules : ∀ r ∈ rules, r.2.Alike V r.2

namespace Parametric
variable {frames frames' : Frames} {g g' : Grammar}

theorem parsers_evaluate (h : K.Parametric T V rules)
    {deeper : Frames → Grammar → Parser σ w Tree} {deeper' : Frames → Grammar → Parser τ v Tree}
    (hd : ∀ {frames frames' g g'}, frames.Alike V frames' → g.Alike V g' →
      K.Parsers T V (deeper frames g) (deeper' frames' g'))
    (hf : frames.Alike V frames') (hg : g.Alike V g') :
    K.Parsers T V (g.evaluate rules deeper frames) (g'.evaluate rules deeper' frames') := by
  induction hg with
  | terminal ht => exact h.terminals ht
  | modify hm _ ih => exact hm.parsers h.trees h.stalls ih
  | join _ _ ih ih' => exact Connective.parsers_alike h.trees ih ih' _
  | between _ _ _ ih ih' ih'' => exact ih.between ih' ih''
  | bind _ hk ih => exact ih.bind fun x y hx => hd hf (hk x y hx)
  | @call name =>
    unfold Grammar.evaluate
    rcases hf.resolve? h.rules name with ⟨hr, hr'⟩ | ⟨_, _, _, _, hr, hr', hinner, hbody⟩
    · rw [hr, hr']
      exact fun _ _ hc => .pure (K.custom _ hc)
    · rw [hr, hr']
      exact hd hinner hbody
  | delay hbody => exact hd hf hbody
  | recursive hbody => exact hd (.cons ⟨rfl, hbody⟩ hf) hbody

theorem parsers_unfolded (h : K.Parametric T V rules) (depth : Nat)
    (hf : frames.Alike V frames') (hg : g.Alike V g') :
    K.Parsers T V (g.unfolded rules depth frames) (g'.unfolded rules depth frames') := by
  induction depth generalizing frames frames' g g' with
  | zero => exact fun _ _ _ => .stop _
  | succ depth ih => exact h.parsers_evaluate ih hf hg

end Parametric

end Correspondence

/-- In the store of rules that treat related trees alike, related grammars run alike from
corresponding places. -/
theorem Correspondence.Parametric.parsers_alike {K : Correspondence w v}
    {rules : List (String × Grammar)}
    (h : K.Parametric (fun _ _ => True : Trail Unit → Trail Unit → Prop) V rules) {g g' : Grammar}
    (hg : g.Alike V g') {c : Cursor w} {d : Cursor v} (hc : K.cursor c d) (depth : Nat)
    (log log' : Array Record) : Run.Alike (fun _ _ => True) (K.Outcomes V)
      (g.parser depth c ⟨log, Store.ofRules rules⟩)
      (g'.parser depth d ⟨log', Store.ofRules rules⟩) := by
  have hrun := h.parsers_unfolded depth .nil hg c d hc ⟨#[], ()⟩ ⟨#[], ()⟩ trivial
  have hleft := g.alike_unfolded rules depth c log
  have hright := (g'.alike_unfolded rules depth d log').symm
  refine ((hleft.trans hrun).trans hright).mono (fun _ _ _ => trivial) ?_
  rintro o o' ⟨_, ⟨_, heq, ho⟩, heq'⟩
  rw [(outcomes_same_iff _ _).mp heq, (outcomes_same_iff _ _).mp heq']
  exact ho

end Descent
