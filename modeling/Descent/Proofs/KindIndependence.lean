import Descent.Proofs.Answer
import Descent.Proofs.Parametricity

namespace Descent
variable {w : Input} {kind : ElementKind}

def Input.as (w : Input) (kind : ElementKind) : Input := { w with kind }

def Cursor.as (kind' : ElementKind) (c : Cursor (w.as kind)) : Cursor (w.as kind') :=
  ⟨c.position, c.le_size⟩

/-- An error without the reasons of mismatches, in which elements are shown. -/
def ParseError.shape : ParseError → ParseError
  | unexpectedEnd p => unexpectedEnd p
  | literalMismatch _ p => literalMismatch "" p
  | rangeMismatch _ p => rangeMismatch "" p
  | alternativesExhausted p left right => alternativesExhausted p left.shape right.shape
  | repetitionBelowMinimum p min matched cause => repetitionBelowMinimum p min matched cause.shape
  | partialMatch p stop => partialMatch p stop
  | custom reason p => custom reason p

def Answer.shape : Answer → Answer
  | complete x => complete x
  | stopped x p left => stopped x p left
  | failed e => failed e.shape

/-- Outcomes on the same codes: equal values at the same place, or errors of one shape. -/
def Correspondence.kinds (w : Input) (kind kind' : ElementKind) :
    Correspondence (w.as kind) (w.as kind') where
  cursor c d := d = c.as kind'
  error e f := e.shape = f.shape
  advances h h' := by rw [h, h']; rfl
  custom _ h := by rw [h]; rfl
  alternatives h h' h'' := by rw [h, ParseError.shape, ParseError.shape, h', h'']; rfl
  belowMinimum _ _ h h' := by rw [h, ParseError.shape, ParseError.shape, h']; rfl

open Correspondence (kinds)

theorem Spells.as (kind' : ElementKind) {whole rest : List Int} {c : Cursor (w.as kind)}
    {o : Outcome (w.as kind) (List Int)} (h : Spells whole rest c o) :
    ∃ o', Spells whole rest (c.as kind') o' ∧ (kinds w kind kind').Outcomes Eq o o' := by
  induction h with
  | done => exact ⟨_, .done, rfl, rfl⟩
  | go hx _ ih =>
    obtain ⟨o', ho', heq⟩ := ih
    exact ⟨_, .go hx ho', heq.map fun _ _ hxs => congrArg _ hxs⟩
  | differs hx hne => exact ⟨_, .differs hx hne, rfl⟩
  | ended hx => exact ⟨_, .ended hx, rfl⟩

namespace Terminal

theorem Reads.as (kind' : ElementKind) {t : Terminal} {accepts : Int → Prop}
    {refusal : Int → Nat → ParseError} (h : Reads (w.as kind) t accepts refusal) :
    ∃ refusal', Reads (w.as kind') t accepts refusal' ∧
      ∀ x p, (refusal x p).shape = (refusal' x p).shape := by
  cases h with
  | any => exact ⟨_, .any, fun _ _ => rfl⟩
  | is => exact ⟨_, .is, fun _ _ => rfl⟩
  | range => exact ⟨_, .range, fun _ _ => rfl⟩
  | oneOf => exact ⟨_, .oneOf, fun _ _ => rfl⟩
  | noneOf => exact ⟨_, .noneOf, fun _ _ => rfl⟩
  | satisfy => exact ⟨_, .satisfy, fun _ _ => rfl⟩

theorem Matches.as (kind' : ElementKind) {t : Terminal} {c : Cursor (w.as kind)}
    {o : Outcome (w.as kind) Tree} (h : t.Matches c o) :
    ∃ o', t.Matches (c.as kind') o' ∧ (kinds w kind kind').Outcomes Eq o o' := by
  cases h with
  | accept hr hx ha =>
    obtain ⟨_, hr', _⟩ := hr.as kind'
    exact ⟨_, .accept hr' hx ha, rfl, rfl⟩
  | refuse hr hx ha =>
    obtain ⟨_, hr', hshape⟩ := hr.as kind'
    exact ⟨_, .refuse hr' hx ha, hshape _ _⟩
  | ended hr hx =>
    obtain ⟨_, hr', _⟩ := hr.as kind'
    exact ⟨_, .ended hr' hx, rfl⟩
  | atEnd hx => exact ⟨_, .atEnd hx, rfl, rfl⟩
  | beforeEnd hx => exact ⟨_, .beforeEnd hx, rfl⟩
  | fail => exact ⟨_, .fail, rfl⟩
  | succeed => exact ⟨_, .succeed, rfl, rfl⟩
  | literal hs =>
    obtain ⟨o', hs', heq⟩ := hs.as kind'
    exact ⟨_, .literal hs', heq.map fun _ _ hxs => congrArg _ hxs⟩

end Terminal

theorem Grammar.alike_self (g : Grammar) : g.Alike Eq g := by
  induction g with
  | terminal t =>
    cases t with
    | succeed value => exact .terminal (.succeed rfl)
    | _ => exact .terminal (.same nofun)
  | modify m g ih => exact .modify m.alike_self ih
  | join k g h ih ih' => exact .join ih ih'
  | between g h k ih ih' ih'' => exact .between ih ih' ih''
  | bind g f ih ihf =>
    refine .bind ih ?_
    rintro x _ rfl
    exact ihf x
  | call name => exact .call
  | delay body ih => exact .delay ih
  | recursive name body ih => exact .recursive ih

namespace Correspondence

theorem trees_kinds (w : Input) (kind kind' : ElementKind) : (kinds w kind kind').Trees Eq where
  sliceFrom_eq h h' := by
    rw [h, h']
    rfl
  unit := rfl
  element _ := rfl
  slice _ := rfl
  list h := by
    rw [List.forall₂_eq_eq_eq] at h
    rw [h]
  pair h h' := by rw [h, h']
  absent := rfl
  present h := by rw [h]
  left h := by rw [h]
  right h := by rw [h]
  spanned _ h hc hc' := by
    rw [h, hc, hc']
    rfl

theorem parametric_kinds (w : Input) (kind kind' : ElementKind)
    (rules : List (String × Grammar)) :
    (kinds w kind kind').Parametric (fun _ _ => True : Trail Unit → Trail Unit → Prop) Eq rules where
  trees := trees_kinds w kind kind'
  stalls _ _ _ _ _ _ := ⟨trivial, trivial⟩
  terminals {t t'} ht c d hc u u' _ := by
    obtain rfl : t = t' := by
      cases ht with
      | succeed hx => rw [hx]
      | same => rfl
    obtain rfl : d = c.as kind' := hc
    obtain ⟨o, ho⟩ := t.exists_outcome c
    obtain ⟨o', ho', heq⟩ := ho.as kind'
    rw [Terminal.parser_apply ho, Terminal.parser_apply ho']
    exact ⟨heq, trivial⟩
  rules r _ := r.2.alike_self

theorem judge_shape {extent : Extent} {o : Outcome (w.as kind) Tree}
    {o' : Outcome (w.as kind') Tree} (h : (kinds w kind kind').Outcomes Eq o o') :
    (extent.judge o).shape = (extent.judge o').shape := by
  cases o with
  | success x c =>
    cases o' with
    | success y d =>
      obtain ⟨rfl, rfl⟩ := h
      cases extent with
      | whole =>
        have hend : (c.as kind').atEnd = c.atEnd := rfl
        rw [Extent.judge, Extent.judge, hend]
        split <;> rfl
      | startingAt position => rfl
    | failure f => exact h.elim
  | failure e =>
    cases o' with
    | success y d => exact h.elim
    | failure f =>
      cases extent with
      | whole => exact congrArg Answer.failed h
      | startingAt position => exact congrArg Answer.failed h

end Correspondence

/-- On the same codes as elements of two kinds, a grammar gives the same answer: the same tree and the
same end, or errors that differ in the reasons of mismatches only. If it does not return for one kind,
neither does it for the other. -/
theorem Grammar.parse_as (depth : Nat) (rules : List (String × Grammar)) (g : Grammar) (w : Input)
    (kind kind' : ElementKind) (extent : Extent) :
    (g.parse depth rules (w.as kind) extent).map (·.answer.shape) =
      (g.parse depth rules (w.as kind') extent).map (·.answer.shape) := by
  have hstart : (kinds w kind kind').cursor (extent.cursor _) (extent.cursor _) := by
    cases extent <;> rfl
  have h := (Correspondence.parametric_kinds w kind kind' rules).parsers_alike g.alike_self hstart
    depth (extent.opening (w.as kind)).toArray (extent.opening (w.as kind')).toArray
  have hshape := h.map_eq (f := fun r => (extent.judge r.1).shape)
    (g := fun r => (extent.judge r.1).shape) fun _ _ _ _ ho _ => Correspondence.judge_shape ho
  have hparse (v : Input) : (g.parse depth rules v extent).map (·.answer.shape) =
      (g.parser depth (extent.cursor v) ⟨(extent.opening v).toArray, Store.ofRules rules⟩).map
        fun r => (extent.judge r.1).shape := by
    rw [parse, Store.parse_eq]
    cases g.parser depth (extent.cursor v) _ <;> rfl
  rw [hparse, hparse]
  exact hshape

end Descent
