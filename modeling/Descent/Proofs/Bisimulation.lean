import Descent.Proofs.Adequacy

namespace Descent
variable {σ : Type} {w : Input} {rules : List (String × Grammar)}

namespace Grammar

/-- A call of `name` in a grammar refers to no definition in the grammar. -/
def Calls (name : String) : Grammar → Prop
  | terminal _ => False
  | modify _ g => g.Calls name
  | join _ g h => g.Calls name ∨ h.Calls name
  | between g h k => g.Calls name ∨ h.Calls name ∨ k.Calls name
  | bind g f => g.Calls name ∨ ∃ x, (f x).Calls name
  | call other => other = name
  | delay body => body.Calls name
  | recursive other body => other ≠ name ∧ body.Calls name

theorem evaluate_call_congr {frames frames' : Frames} {name : String}
    (h : frames.resolve? rules name = frames'.resolve? rules name)
    (deeper : Frames → Grammar → Parser σ w Tree) :
    (call name).evaluate rules deeper frames = (call name).evaluate rules deeper frames' := by
  unfold evaluate
  rw [h]

theorem unfolded_call_cons_of_ne {frames : Frames} {name other : String} (h : other ≠ name)
    (body : Grammar) (depth : Nat) :
    (call other).unfolded rules depth ((name, body) :: frames) =
      ((call other).unfolded rules depth frames : Parser σ w Tree) := by
  cases depth with
  | zero => rfl
  | succ depth => exact evaluate_call_congr (Frames.resolve?_cons_of_ne rules h body frames) _

theorem unfolded_call_cons_self (frames : Frames) (name : String) (body : Grammar) (depth : Nat) :
    (call name).unfolded rules (depth + 1) ((name, body) :: frames) =
      (body.unfolded rules depth ((name, body) :: frames) : Parser σ w Tree) :=
  evaluate_of_target? (Frames.resolve?_cons_self rules name body frames)

/-- A grammar runs the same among definitions among which the names that it calls do. -/
theorem unfolded_congr (depth : Nat) {frames frames' : Frames} {g : Grammar}
    (h : ∀ name, g.Calls name → ∀ k ≤ depth, (call name).unfolded rules k frames =
      ((call name).unfolded rules k frames' : Parser σ w Tree)) :
    g.unfolded rules depth frames = (g.unfolded rules depth frames' : Parser σ w Tree) := by
  induction depth using Nat.strong_induction_on generalizing frames frames' g with
  | _ depth hd =>
  cases depth with
  | zero => rfl
  | succ d =>
    show g.evaluate rules (unfolded rules d) frames = g.evaluate rules (unfolded rules d) frames'
    induction g with
    | terminal t => rfl
    | modify m g ih => exact congrArg m.apply (ih h)
    | join k g g' ih ih' =>
      have hg := ih fun name hn => h name (.inl hn)
      have hg' := ih' fun name hn => h name (.inr hn)
      exact congrArg₂ k.apply hg hg'
    | between g g' g'' ih ih' ih'' =>
      have hg := ih fun name hn => h name (.inl hn)
      have hg' := ih' fun name hn => h name (.inr (.inl hn))
      have hg'' := ih'' fun name hn => h name (.inr (.inr hn))
      rw [evaluate, evaluate, hg, hg', hg'']
    | bind g f ih =>
      have hg := ih fun name hn => h name (.inl hn)
      have hf (x : Tree) : (f x).unfolded rules d frames = (f x).unfolded rules d frames' :=
        hd d d.lt_succ_self fun name hn k hk => h name (.inr ⟨x, hn⟩) k (by omega)
      exact congrArg₂ Parser.bind hg (funext hf)
    | call name => exact h name rfl (d + 1) le_rfl
    | delay body => exact hd d d.lt_succ_self fun name hn k hk => h name hn k (by omega)
    | recursive name body =>
      -- The body calls itself with one level less each time.
      have hself : ∀ j ≤ d, body.unfolded rules j ((name, body) :: frames) =
          (body.unfolded rules j ((name, body) :: frames') : Parser σ w Tree) := by
        intro j
        induction j using Nat.strong_induction_on with
        | _ j ih =>
        intro hj
        apply hd j (by omega)
        intro other hother k hk
        by_cases ho : other = name
        · subst ho
          cases k with
          | zero => rfl
          | succ k =>
            rw [unfolded_call_cons_self, unfolded_call_cons_self]
            exact ih k (by omega) (by omega)
        · rw [unfolded_call_cons_of_ne ho, unfolded_call_cons_of_ne ho]
          exact h other ⟨Ne.symm ho, hother⟩ k (by omega)
      exact hself d le_rfl

theorem unfolded_of_resolve?_eq {frames frames' : Frames} {g : Grammar}
    (h : ∀ name, g.Calls name → frames.resolve? rules name = frames'.resolve? rules name)
    (depth : Nat) :
    g.unfolded rules depth frames = (g.unfolded rules depth frames' : Parser σ w Tree) := by
  apply unfolded_congr
  intro name hn k _
  cases k with
  | zero => rfl
  | succ k => exact evaluate_call_congr (h name hn) _

end Grammar

theorem Derives.of_resolve?_eq {frames frames' : Frames} {g : Grammar} {c : Cursor w}
    {o : Outcome w Tree} (hd : Derives rules frames' g c o)
    (h : ∀ name, g.Calls name → frames.resolve? rules name = frames'.resolve? rules name) :
    Derives rules frames g c o := by
  obtain ⟨depth, trail, hrun⟩ := Grammar.derives_iff_unfolded.mp hd
  rw [← Grammar.unfolded_of_resolve?_eq h] at hrun
  exact Grammar.derives_iff_unfolded.mpr ⟨depth, trail, hrun⟩

/-- The parts of two grammars, each with its rules, are the same, but for references, which lead to
pairs in `R` or have been followed on one side. -/
inductive Parallel (rules rules' : List (String × Grammar)) (R : Closure → Closure → Prop) :
    Closure → Closure → Prop
  | terminal {F F' t} : Parallel rules rules' R (F, .terminal t) (F', .terminal t)
  | modify {F F' m g g'} : Parallel rules rules' R (F, g) (F', g') →
      Parallel rules rules' R (F, .modify m g) (F', .modify m g')
  | join {F F' k g h g' h'} : Parallel rules rules' R (F, g) (F', g') →
      Parallel rules rules' R (F, h) (F', h') →
      Parallel rules rules' R (F, .join k g h) (F', .join k g' h')
  | between {F F' g h k g' h' k'} : Parallel rules rules' R (F, g) (F', g') →
      Parallel rules rules' R (F, h) (F', h') → Parallel rules rules' R (F, k) (F', k') →
      Parallel rules rules' R (F, .between g h k) (F', .between g' h' k')
  | bind {F F' g g' f f'} : Parallel rules rules' R (F, g) (F', g') →
      (∀ x, Parallel rules rules' R (F, f x) (F', f' x)) →
      Parallel rules rules' R (F, .bind g f) (F', .bind g' f')
  | unbound {F F' name} : Frames.resolve? rules name F = none →
      Frames.resolve? rules' name F' = none →
      Parallel rules rules' R (F, .call name) (F', .call name)
  | refer {K K' L L'} : K.2.target? rules K.1 = some L → K'.2.target? rules' K'.1 = some L' →
      R L L' → Parallel rules rules' R K K'
  | left {K L K'} : K.2.target? rules K.1 = some L → Parallel rules rules' R L K' →
      Parallel rules rules' R K K'
  | right {K K' L'} : K'.2.target? rules' K'.1 = some L' → Parallel rules rules' R K L' →
      Parallel rules rules' R K K'
  /-- Definitions that are not called may be left out. -/
  | among {F F' G G' g g'} :
      (∀ name, g.Calls name → Frames.resolve? rules name F = Frames.resolve? rules name G) →
      (∀ name, g'.Calls name → Frames.resolve? rules' name F' = Frames.resolve? rules' name G') →
      Parallel rules rules' R (G, g) (G', g') → Parallel rules rules' R (F, g) (F', g')

namespace Parallel
variable {rules' : List (String × Grammar)} {R : Closure → Closure → Prop} {K K' : Closure}

theorem symm (h : Parallel rules rules' R K K') :
    Parallel rules' rules (fun L L' => R L' L) K' K := by
  induction h with
  | terminal => exact .terminal
  | modify _ ih => exact .modify ih
  | join _ _ ih ih' => exact .join ih ih'
  | between _ _ _ ih ih' ih'' => exact .between ih ih' ih''
  | bind _ _ ih ihf => exact .bind ih ihf
  | unbound h h' => exact .unbound h' h
  | refer h h' hR => exact .refer h' h hR
  | left h _ ih => exact .right h ih
  | right h _ ih => exact .left h ih
  | among h h' _ ih => exact .among h' h ih

open Run (Meets)
variable {I : Unit → Prop} {A : Stop → Prop}

theorem meets_derives (hA : A .cutOff) (hR : ∀ {L L'}, R L L' → Parallel rules rules' R L L')
    (depth : Nat) (h : Parallel rules rules' R K K') (c : Cursor w) :
    Meets I A (Derives rules' K'.1 K'.2 c)
      ((K.2.unfolded rules depth K.1 : Parser Unit w Tree) c) := by
  -- Each reference that is followed on the left costs a level; what is followed on the right alone
  -- makes the rest of the match smaller.
  induction depth generalizing K K' c with
  | zero => exact .stop hA
  | succ depth hd =>
    show Meets I A (Derives rules' K'.1 K'.2 c)
      (K.2.evaluate rules (Grammar.unfolded rules depth) K.1 c)
    induction h generalizing c with
    | @terminal F F' t => exact (t.meets_matches c).mono fun _ ht => .terminal ht
    | @modify F F' m g g' _ ih => exact m.meets_derives ih c
    | @join F F' k g h g' h' _ _ ih ih' => exact k.meets_derives ih ih' c
    | between _ _ _ ih ih' ih'' => exact Grammar.meets_between ih ih' ih'' c
    | bind _ hf ih =>
      apply Parser.meets_bind (ih c)
      · exact fun x d hx => (hd (hf x) d).mono fun _ hy => .bind hx hy
      · exact fun _ he => .bindFails he
    | @unbound F F' name h h' =>
      unfold Grammar.evaluate
      rw [h]
      exact .pure (.unbound h')
    | @refer K K' L L' h h' hL =>
      rw [Grammar.evaluate_of_target? h]
      exact (hd (hR hL) c).mono fun _ ho => .unfold h' ho
    | left h hL =>
      rw [Grammar.evaluate_of_target? h]
      exact hd hL c
    | right h' _ ih => exact (ih c).mono fun _ ho => .unfold h' ho
    | @among F F' G G' g g' h h' _ ih =>
      have hrun : g.evaluate rules (Grammar.unfolded rules depth) F =
          g.evaluate rules (Grammar.unfolded rules depth : Frames → Grammar → Parser Unit w Tree) G :=
        Grammar.unfolded_of_resolve?_eq h (depth + 1)
      rw [hrun]
      exact (ih c).mono fun _ ho => ho.of_resolve?_eq h'

theorem derives (hR : ∀ {L L'}, R L L' → Parallel rules rules' R L L')
    (h : Parallel rules rules' R K K') {c : Cursor w} {o : Outcome w Tree}
    (ho : Derives rules K.1 K.2 c o) : Derives rules' K'.1 K'.2 c o := by
  obtain ⟨depth, trail, hrun⟩ := Grammar.derives_iff_unfolded.mp ho
  have hm := h.meets_derives (I := fun _ => True) (A := fun _ => True) trivial hR depth c
  exact hm.of_ok trivial hrun

/-- If all pairs in `R` run in parallel, those that run in parallel derive the same. -/
theorem derives_iff (hR : ∀ {L L'}, R L L' → Parallel rules rules' R L L')
    (h : Parallel rules rules' R K K') (c : Cursor w) (o : Outcome w Tree) :
    Derives rules K.1 K.2 c o ↔ Derives rules' K'.1 K'.2 c o :=
  ⟨h.derives hR, h.symm.derives fun hL => (hR hL).symm⟩

end Parallel

end Descent
