import Descent.Proofs.Repetition

namespace Descent
variable {σ : Type} {w : Input} {α β γ : Type}

namespace Outcome

@[simp] theorem map_id' (o : Outcome w α) : (o.map fun x => x) = o := by
  cases o <;> rfl

def andThen (o : Outcome w α) (k : α → Cursor w → Outcome w β) : Outcome w β :=
  match o with
  | success x d => k x d
  | failure e => failure e

@[simp] theorem andThen_success (x : α) (d : Cursor w) (k : α → Cursor w → Outcome w β) :
    (success x d).andThen k = k x d := rfl

@[simp] theorem andThen_failure (e : ParseError) (k : α → Cursor w → Outcome w β) :
    (failure e).andThen k = failure e := rfl

theorem andThen_eq_success_iff {o : Outcome w α} {k : α → Cursor w → Outcome w β} {y : β}
    {e : Cursor w} :
    o.andThen k = .success y e ↔ ∃ x d, o = .success x d ∧ k x d = .success y e := by
  cases o with
  | success x d =>
    refine ⟨fun h => ⟨x, d, rfl, h⟩, ?_⟩
    rintro ⟨x', d', hx, h⟩
    obtain ⟨rfl, rfl⟩ := Outcome.success.inj hx
    exact h
  | failure e' =>
    refine ⟨fun h => ?_, ?_⟩
    · cases h
    · rintro ⟨x', d', hx, -⟩
      cases hx

def orElse (c : Cursor w) (o o' : Outcome w α) : Outcome w α :=
  match o, o' with
  | success x d, _ => success x d
  | failure _, success y d => success y d
  | failure e, failure e' => failure (.alternativesExhausted c.position e e')

@[simp] theorem orElse_success (c : Cursor w) (x : α) (d : Cursor w) (o : Outcome w α) :
    orElse c (success x d) o = success x d := rfl

@[simp] theorem orElse_failure_success (c : Cursor w) (e : ParseError) (y : α) (d : Cursor w) :
    orElse c (failure e) (success y d) = success y d := rfl

@[simp] theorem orElse_failure_failure (c : Cursor w) (e e' : ParseError) :
    orElse c (failure e) (failure e' : Outcome w α) =
      failure (.alternativesExhausted c.position e e') := rfl

end Outcome

namespace Parser
variable {p p' : Parser σ w α} {q : Parser σ w β} {f f' : Cursor w → Outcome w α}
variable {g : Cursor w → Outcome w β} {mark mark' : Cursor w → Trail σ → Trail σ}

theorem IsPure.map_fst (hp : p.IsPure f mark) (c : Cursor w) (t : Trail σ) :
    (p c t).map (·.1) = .ok (f c) := by
  rw [hp]
  rfl

theorem IsPure.seqWith (hp : p.IsPure f mark) (hq : q.IsPure g mark') (keep : α → β → γ) :
    (Parser.seqWith keep p q).IsPure (fun c => (f c).andThen fun x d => (g d).map (keep x))
      fun c t => match f c with
        | .failure _ => mark c t
        | .success _ d => mark' d (mark c t) := by
  intro c t
  rw [Parser.seqWith, hp.bind_apply]
  dsimp only
  cases f c with
  | failure e => rfl
  | success x d =>
    dsimp only [Outcome.andThen_success]
    rw [hq.bind_apply]
    cases g d <;> rfl

theorem IsPure.orElse (hp : p.IsPure f mark) (hp' : p'.IsPure f' mark') :
    (Parser.orWith id id p p').IsPure (fun c => (f c).orElse c (f' c))
      fun c t => match f c with
        | .failure _ => mark' c (mark c t)
        | .success _ _ => mark c t := by
  intro c t
  rw [Parser.orWith, hp.bind_apply]
  dsimp only
  cases f c with
  | success x d => rfl
  | failure e =>
    dsimp only
    rw [hp'.bind_apply]
    cases f' c <;> rfl

end Parser

/-- From `c` on, matches in a row have the values `xs` and end at `d`. -/
inductive Chain.Row (f : Cursor w → Outcome w α) : Cursor w → List α → Cursor w → Prop
  | nil {c} : Row f c [] c
  | cons {c x d xs e} : f c = .success x d → Row f d xs e → Row f c (x :: xs) e

namespace Chain.Row
variable {f : Cursor w → Outcome w α} {c d e : Cursor w} {xs ys : List α}

theorem append (h : Row f c xs d) (h' : Row f d ys e) : Row f c (xs ++ ys) e := by
  induction h with
  | nil => exact h'
  | cons hx _ ih => exact .cons hx (ih h')

theorem exists_length (f : Cursor w → Outcome w α) (n : Nat) (c : Cursor w) :
    ∃ xs d, Row f c xs d ∧ (xs.length = n ∨ xs.length < n ∧ ∃ e, f d = .failure e) := by
  induction n generalizing c with
  | zero => exact ⟨[], c, .nil, .inl rfl⟩
  | succ n ih =>
    cases hc : f c with
    | failure e => exact ⟨[], c, .nil, .inr ⟨n.succ_pos, e, hc⟩⟩
    | success x d =>
      obtain ⟨xs, d', hrow, hn⟩ := ih d
      refine ⟨x :: xs, d', .cons hc hrow, ?_⟩
      rw [List.length_cons]
      exact hn.imp (congrArg (· + 1)) (And.imp_left Nat.succ_lt_succ)

end Chain.Row

end Descent
