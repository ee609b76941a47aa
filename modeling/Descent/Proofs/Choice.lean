import Descent.Proofs.Combinator
import Descent.Proofs.Diagnosis
import Descent.Proofs.PureParser

namespace Descent
variable {σ : Type} {w : Input} {α β : Type}

/-- Parsers to be tried in order, with brackets. -/
inductive Alternatives (σ : Type) (w : Input) (α : Type)
  | single (p : Parser σ w α)
  | either (first second : Alternatives σ w α)

namespace Alternatives

def toList : Alternatives σ w α → List (Parser σ w α)
  | single p => [p]
  | either a b => a.toList ++ b.toList

def parser : Alternatives σ w α → Parser σ w α
  | single p => p
  | either a b => Parser.orWith id id a.parser b.parser

end Alternatives

/-- Equal successes, or failures of which the same is told. -/
inductive Outcome.Agree : Outcome w α → Outcome w α → Prop
  | success (x d) : Agree (.success x d) (.success x d)
  | failure {e e'} : e.SameDiagnosis e' → Agree (.failure e) (.failure e')

namespace Parser

/-- Try parsers in order at `c`: the first success, or their errors behind those found before. -/
def firstOf (c : Cursor w) (found : List ParseError) :
    List (Parser σ w α) → Run σ (Except (List ParseError) (α × Cursor w))
  | [] => return .error found
  | p :: ps => do
    match ← p c with
    | .success x d => return .ok (x, d)
    | .failure e => firstOf c (found ++ [e]) ps

theorem firstOf_append (c : Cursor w) (found : List ParseError) (ps qs : List (Parser σ w α)) :
    firstOf c found (ps ++ qs) = firstOf c found ps >>= fun r => match r with
      | .ok x => pure (.ok x)
      | .error es => firstOf c es qs := by
  induction ps generalizing found with
  | nil => rw [firstOf, pure_bind, List.nil_append]
  | cons p ps ih =>
    rw [List.cons_append, firstOf, firstOf, bind_assoc]
    refine bind_congr fun o => ?_
    cases o with
    | success x d => rfl
    | failure e => exact ih (found ++ [e])

end Parser

namespace Alternatives

/-- What a chain ends with beside what its parsers end with that are tried in order, after the
errors `found`. -/
inductive Ends (c : Cursor w) (found : List ParseError) :
    Outcome w α → Except (List ParseError) (α × Cursor w) → Prop
  | success (x d) : Ends c found (.success x d) (.ok (x, d))
  | failure {e es fs} : es = found ++ fs → e.Joined c.position fs →
      Ends c found (.failure e) (.error es)

theorem related_firstOf (l : Alternatives σ w α) (c : Cursor w) (found : List ParseError) :
    Run.Related Eq (Ends c found) (l.parser c) (Parser.firstOf c found l.toList) := by
  induction l generalizing found with
  | single p =>
    rintro t _ rfl
    rw [parser, toList, Parser.firstOf, Run.bind_apply]
    cases p c t with
    | error s => rfl
    | ok r =>
      obtain ⟨o, u⟩ := r
      cases o with
      | success x d => exact ⟨.success x d, rfl⟩
      | failure e => exact ⟨.failure rfl (.single e), rfl⟩
  | either a b iha ihb =>
    rw [parser, toList, Parser.firstOf_append]
    refine (iha found).bind fun o r h => ?_
    cases h with
    | success x d => exact .pure (.success x d)
    | @failure e es fs hes he =>
      -- What `b` fails with goes behind what `a` has failed with.
      refine (ihb es).bind_left fun o' r' h' => ?_
      cases h' with
      | success y d => exact .pure (.success y d)
      | failure hes' he' =>
        rw [hes, List.append_assoc] at hes'
        exact .pure (.failure hes' (.branch he he'))

theorem Ends.agree {c : Cursor w} {found : List ParseError} {o o' : Outcome w α}
    {r : Except (List ParseError) (α × Cursor w)} (h : Ends c found o r) (h' : Ends c found o' r) :
    o.Agree o' := by
  cases h with
  | success x d =>
    cases h' with
    | success => exact .success x d
  | failure hes he =>
    cases h' with
    | failure hes' he' =>
      obtain rfl := List.append_cancel_left (hes.symm.trans hes')
      exact .failure (he.sameDiagnosis he')

theorem alike_of_toList_eq {l r : Alternatives σ w α} (h : l.toList = r.toList) (c : Cursor w)
    (t : Trail σ) : Run.Alike Eq Outcome.Agree (l.parser c t) (r.parser c t) := by
  have hl := l.related_firstOf c [] t t rfl
  have hr := r.related_firstOf c [] t t rfl
  rw [h] at hl
  refine (hl.trans hr.symm).mono ?_ ?_
  · rintro t _ ⟨u, rfl, rfl⟩
    rfl
  · rintro o o' ⟨x, ho, ho'⟩
    exact ho.agree ho'

end Alternatives

/-- Three alternatives, or any number of them, run alike however they are bracketed: they succeed
with the same value at the same cursor, or they fail with errors of which the same is told. -/
theorem choice_assoc :
    (∀ (a b c : Parser σ w α) (d : Cursor w) (t : Trail σ), Run.Alike Eq Outcome.Agree
      (Parser.orWith id id (Parser.orWith id id a b) c d t)
      (Parser.orWith id id a (Parser.orWith id id b c) d t)) ∧
    ∀ l r : Alternatives σ w α, l.toList = r.toList → ∀ (c : Cursor w) (t : Trail σ),
      Run.Alike Eq Outcome.Agree (l.parser c t) (r.parser c t) := by
  refine ⟨fun a b c d t => ?_, fun l r h c t => Alternatives.alike_of_toList_eq h c t⟩
  let left : Alternatives σ w α := .either (.either (.single a) (.single b)) (.single c)
  let right : Alternatives σ w α := .either (.single a) (.either (.single b) (.single c))
  have h : left.toList = right.toList := rfl
  exact Alternatives.alike_of_toList_eq h d t

theorem choice_assoc_four :
    let w : Input := ⟨.byte, #[97, 10, 98], by decide⟩
    let fails (reason : String) (p : Nat) : Alternatives Unit w Int :=
      .single fun _ t => .ok (.failure (.custom reason p), t)
    let a := fails "a" 1
    let b := fails "b" 2
    let c := fails "c" 2
    let d := fails "d" 0
    let l : Alternatives Unit w Int := .either (.either a b) (.either c d)
    let r : Alternatives Unit w Int := .either a (.either (.either b c) d)
    l.toList = r.toList ∧ ∃ e e', e ≠ e' ∧ e.SameDiagnosis e' ∧ e.furthest = .custom "b" 2 ∧
      ∀ t, l.parser (Cursor.start w) t = .ok (.failure e, t) ∧
        r.parser (Cursor.start w) t = .ok (.failure e', t) := by
  intro w fails a b c d l r
  have h : l.toList = r.toList := rfl
  have hboth := choice_assoc.2 l r h (Cursor.start w) ⟨#[], ()⟩
  rcases hboth.1 with _ | hsame
  exact ⟨h, _, _, by decide, hsame, rfl, fun t => ⟨rfl, rfl⟩⟩

section
variable {f : Cursor w → Outcome w α} {g h : Cursor w → Outcome w β} {γ : Type} {c : Cursor w}

/-- How errors differ when alternatives are tried from the start of their common part: it has failed
once or twice, or both have failed after it, which is told of there or at the start. -/
inductive Outcome.Refactored (f : Cursor w → Outcome w α) (g h : Cursor w → Outcome w β)
    (c : Cursor w) : ParseError → ParseError → Prop
  | common {e} : f c = .failure e → Refactored f g h c e (.alternativesExhausted c.position e e)
  | after {x d l r} : f c = .success x d → g d = .failure l → h d = .failure r →
      Refactored f g h c (.alternativesExhausted d.position l r)
        (.alternativesExhausted c.position l r)

theorem Outcome.Refactored.furthest_eq {e e' : ParseError} (hr : Refactored f g h c e e') :
    e'.furthest = e.furthest := by
  cases hr with
  | common => exact if_neg (Nat.lt_irrefl _)
  | after => rfl

theorem Outcome.factored (f : Cursor w → Outcome w α) (g h : Cursor w → Outcome w β)
    (keep : α → β → γ) (c : Cursor w) :
    let o := (f c).andThen fun x d => ((g d).orElse d (h d)).map (keep x)
    let o' := ((f c).andThen fun x d => (g d).map (keep x)).orElse c
      ((f c).andThen fun x d => (h d).map (keep x))
    (∃ x d, o = .success x d ∧ o' = .success x d) ∨
      ∃ e e', o = .failure e ∧ o' = .failure e' ∧ Refactored f g h c e e' := by
  intro o o'
  dsimp only [o, o']
  cases hf : f c with
  | failure e => exact .inr ⟨e, _, rfl, rfl, .common hf⟩
  | success x d =>
    cases hg : g d with
    | success y d' => exact .inl ⟨keep x y, d', by simp [hg]⟩
    | failure l =>
      cases hh : h d with
      | success y d' => exact .inl ⟨keep x y, d', by simp [hg, hh]⟩
      | failure r =>
        exact .inr ⟨.alternativesExhausted d.position l r, .alternativesExhausted c.position l r,
          by simp [hg, hh], by simp [hg, hh], .after hf hg hh⟩

variable {a : Parser σ w α} {b b' : Parser σ w β} {mark mark' mark'' : Cursor w → Trail σ → Trail σ}

/-- What the alternatives of pure parsers start with can be taken out of them. Both forms succeed
with the same value at the same cursor, or they fail with errors whose furthest leaf is the same. -/
theorem factoring_safe (ha : a.IsPure f mark) (hb : b.IsPure g mark') (hb' : b'.IsPure h mark'')
    (keep : α → β → γ) (c : Cursor w) (t : Trail σ) :
    (∃ x d, (Parser.seqWith keep a (Parser.orWith id id b b') c t).map (·.1) =
        .ok (.success x d) ∧
      (Parser.orWith id id (Parser.seqWith keep a b) (Parser.seqWith keep a b') c t).map (·.1) =
        .ok (.success x d)) ∨
    ∃ e e', (Parser.seqWith keep a (Parser.orWith id id b b') c t).map (·.1) = .ok (.failure e) ∧
      (Parser.orWith id id (Parser.seqWith keep a b) (Parser.seqWith keep a b') c t).map (·.1) =
        .ok (.failure e') ∧
      e'.furthest = e.furthest ∧ Outcome.Refactored f g h c e e' := by
  have hone := (ha.seqWith (hb.orElse hb') keep).map_fst c t
  have htwo := ((ha.seqWith hb keep).orElse (ha.seqWith hb' keep)).map_fst c t
  rcases Outcome.factored f g h keep c with ⟨x, d, ho, ho'⟩ | ⟨e, e', ho, ho', hr⟩
  · exact .inl ⟨x, d, hone.trans (congrArg _ ho), htwo.trans (congrArg _ ho')⟩
  · exact .inr ⟨e, e', hone.trans (congrArg _ ho), htwo.trans (congrArg _ ho'), hr.furthest_eq, hr⟩

theorem factoring_safe_letter :
    let w : Input := ⟨.byte, #[97, 98], by decide⟩
    let f : Cursor w → Outcome w Int := fun c =>
      if c.element? = some 97 then .success 97 c.next else .failure (.unexpectedEnd c.position)
    let fails (reason : String) : Cursor w → Outcome w Int := fun c =>
      .failure (.custom reason c.position)
    let p (f : Cursor w → Outcome w Int) : Parser Unit w Int := fun c t => .ok (f c, t)
    let c := Cursor.start w
    let t : Trail Unit := ⟨#[], ()⟩
    (∀ f, (p f).IsPure f (fun _ t => t)) ∧ ∃ e e',
      (Parser.seqWith Prod.mk (p f) (Parser.orWith id id (p (fails "b")) (p (fails "c"))) c t).map
        (·.1) = .ok (.failure e) ∧
      (Parser.orWith id id (Parser.seqWith Prod.mk (p f) (p (fails "b")))
        (Parser.seqWith Prod.mk (p f) (p (fails "c"))) c t).map (·.1) = .ok (.failure e') ∧
      e = .alternativesExhausted 1 (.custom "b" 1) (.custom "c" 1) ∧
      e'.furthest = e.furthest ∧ Outcome.Refactored f (fails "b") (fails "c") c e e' := by
  intro w f fails p c t
  have hp (f : Cursor w → Outcome w Int) : (p f).IsPure f (fun _ t => t) := fun _ _ => rfl
  have hone : (Parser.seqWith Prod.mk (p f) (Parser.orWith id id (p (fails "b")) (p (fails "c")))
      c t).map (·.1) =
        .ok (.failure (.alternativesExhausted 1 (.custom "b" 1) (.custom "c" 1))) := by
    cbv
  refine ⟨hp, ?_⟩
  rcases factoring_safe (hp f) (hp (fails "b")) (hp (fails "c")) Prod.mk c t with
    ⟨x, d, hx, -⟩ | ⟨e, e', he, he', hfurthest, hr⟩
  · cases hx.symm.trans hone
  · have h := Outcome.failure.inj (Except.ok.inj (he.symm.trans hone))
    exact ⟨e, e', he, he', h, hfurthest, hr⟩

end

end Descent
