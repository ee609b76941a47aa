import Descent.Grammar.Meaning
import Descent.Proofs.Run

namespace Descent
variable {σ : Type} {w : Input} {α β γ : Type}

namespace Outcome

def map (f : α → β) : Outcome w α → Outcome w β
  | success x next => success (f x) next
  | failure e => failure e

@[simp] theorem map_success (f : α → β) (x : α) (d : Cursor w) :
    (success x d).map f = success (f x) d := rfl

@[simp] theorem map_failure (f : α → β) (e : ParseError) :
    (failure e : Outcome w α).map f = failure e := rfl

@[simp] theorem map_map (g : β → γ) (f : α → β) (o : Outcome w α) :
    (o.map f).map g = o.map fun x => g (f x) := by
  cases o <;> rfl

end Outcome

namespace Parser
open Run (Meets)
variable {I : σ → Prop} {A : Stop → Prop} {p : Parser σ w α} {q : Parser σ w β} {c : Cursor w}
variable {R : Outcome w α → Prop} {Q : Outcome w β → Prop}

theorem meets_cases {K : Outcome w α → Run σ γ} {P : γ → Prop} (hp : Meets I A R (p c))
    (hs : ∀ x d, R (.success x d) → Meets I A P (K (.success x d)))
    (hf : ∀ e, R (.failure e) → Meets I A P (K (.failure e))) : Meets I A P (p c >>= K) := by
  refine hp.bind fun o ho => ?_
  cases o with
  | success x d => exact hs x d ho
  | failure e => exact hf e ho

theorem meets_map {f : α → β} (hp : Meets I A (fun o => Q (o.map f)) (p c)) :
    Meets I A Q (Parser.map f p c) :=
  meets_cases hp (fun _ _ h => .pure h) (fun _ h => .pure h)

theorem meets_bind {f : α → Parser σ w β} (hp : Meets I A R (p c))
    (hf : ∀ x d, R (.success x d) → Meets I A Q (f x d))
    (he : ∀ e, R (.failure e) → Q (.failure e)) : Meets I A Q (Parser.bind p f c) :=
  meets_cases hp (fun x d h => hf x d h) (fun e h => .pure (he e h))

theorem meets_seqWith {keep : α → β → γ} {Q : Outcome w γ → Prop}
    {S : α → Cursor w → Outcome w β → Prop} (hp : Meets I A R (p c))
    (hq : ∀ x d, R (.success x d) → Meets I A (S x d) (q d))
    (he : ∀ e, R (.failure e) → Q (.failure e))
    (hgo : ∀ x d o, R (.success x d) → S x d o → Q (o.map (keep x))) :
    Meets I A Q (seqWith keep p q c) := by
  refine meets_cases hp (fun x d h => ?_) (fun e h => .pure (he e h))
  exact meets_cases (hq x d h) (fun y d' h' => .pure (hgo x d _ h h'))
    (fun e h' => .pure (hgo x d _ h h'))

theorem succeed_bind (x : α) (f : α → Parser σ w β) : Parser.bind (succeed x) f = f x := by
  funext c
  simp only [Parser.bind, succeed, pure_bind]

theorem bind_succeed (p : Parser σ w α) : Parser.bind p succeed = p := by
  funext c
  refine Eq.trans (bind_congr fun o => ?_) (bind_pure (p c))
  cases o <;> rfl

theorem bind_bind (p : Parser σ w α) (f : α → Parser σ w β) (g : β → Parser σ w γ) :
    Parser.bind (Parser.bind p f) g = Parser.bind p fun x => Parser.bind (f x) g := by
  funext c
  simp only [Parser.bind, bind_assoc]
  refine bind_congr fun o => ?_
  cases o with
  | failure e => simp only [pure_bind]
  | success x d => rfl

theorem map_eq_bind (f : α → β) (p : Parser σ w α) :
    Parser.map f p = Parser.bind p fun x => succeed (f x) := by
  funext c
  refine bind_congr fun o => ?_
  cases o <;> rfl

theorem seqWith_eq_bind (keep : α → β → γ) (p : Parser σ w α) (q : Parser σ w β) :
    seqWith keep p q = Parser.bind p fun x => Parser.bind q fun y => succeed (keep x y) := by
  funext c
  refine bind_congr fun o => ?_
  cases o with
  | failure e => rfl
  | success x d =>
    refine bind_congr fun o' => ?_
    cases o' <;> rfl

theorem between_eq_bind (opening : Parser σ w α) (content : Parser σ w β)
    (closing : Parser σ w γ) :
    between opening content closing = Parser.bind opening fun _ => Parser.bind content fun x =>
      Parser.bind closing fun _ => succeed x := by
  funext c
  refine bind_congr fun o => ?_
  cases o with
  | failure e => rfl
  | success x inside =>
    refine bind_congr fun o' => ?_
    cases o' with
    | failure e => rfl
    | success y after =>
      refine bind_congr fun o'' => ?_
      cases o'' <;> rfl

theorem between_eq (opening : Parser σ w α) (content : Parser σ w β) (closing : Parser σ w γ) :
    between opening content closing =
      seqWith (fun _ x => x) opening (seqWith (fun x _ => x) content closing) := by
  simp only [between_eq_bind, seqWith_eq_bind, bind_succeed]

theorem seqWith_assoc {ε ζ : Type} (outer : ε → γ → ζ) (inner : α → β → ε)
    (p : Parser σ w α) (q : Parser σ w β) (r : Parser σ w γ) :
    seqWith outer (seqWith inner p q) r =
      seqWith (fun x yz => outer (inner x yz.1) yz.2) p (seqWith Prod.mk q r) := by
  simp only [seqWith_eq_bind, bind_bind, succeed_bind]

theorem meets_orWith {left : α → γ} {right : β → γ} {Q : Outcome w γ → Prop}
    {S : ParseError → Outcome w β → Prop} (hp : Meets I A R (p c))
    (hq : ∀ e, R (.failure e) → Meets I A (S e) (q c))
    (hl : ∀ x d, R (.success x d) → Q (.success (left x) d))
    (hr : ∀ e y d, R (.failure e) → S e (.success y d) → Q (.success (right y) d))
    (he : ∀ e e', R (.failure e) → S e (.failure e') →
      Q (.failure (.alternativesExhausted c.position e e'))) :
    Meets I A Q (orWith left right p q c) := by
  refine meets_cases hp (fun x d h => .pure (hl x d h)) (fun e h => ?_)
  exact meets_cases (hq e h) (fun y d h' => .pure (hr e y d h h'))
    (fun e' h' => .pure (he e e' h h'))

end Parser

end Descent
