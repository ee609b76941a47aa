import Mathlib.Data.Nat.Init
import Descent.Proofs.Loop

namespace Descent
variable {σ : Type} {w : Input} {α : Type}

/-- Induction from the end of the input. -/
@[elab_as_elim]
theorem Cursor.backward_induction {P : Cursor w → Prop} (c : Cursor w)
    (step : ∀ c, (∀ d : Cursor w, c.position < d.position → P d) → P c) : P c := by
  induction hleft : w.size - c.position using Nat.strong_induction_on generalizing c with
  | _ left ih =>
  subst hleft
  refine step c fun d hgo => ih (w.size - d.position) ?_ d rfl
  have hd := d.le_size
  omega

theorem Repeats.exists_success {R : Cursor w → Outcome w α → Prop} {n : Nat} {c : Cursor w}
    {o : Outcome w (List α)} (h : Repeats R 0 none n c o) : ∃ xs d, o = .success xs d := by
  induction h with
  | full hm => cases hm
  | exceeds hm => cases hm
  | enough => exact ⟨_, _, rfl⟩
  | nothing _ _ hmin => exact absurd hmin (Nat.lt_irrefl 0)
  | tooFew _ _ _ hmin => exact absurd hmin (Nat.not_lt_zero _)
  | more _ _ _ _ ih =>
    obtain ⟨xs, d, rfl⟩ := ih
    exact ⟨_, _, rfl⟩
  | stalled => exact ⟨_, _, rfl⟩

namespace Parser

/-- One match of `p` and then what `rest` matches, or nothing. -/
def oneMore (p : Parser σ w α) (rest : Parser σ w (List α)) : Parser σ w (List α) :=
  orWith id id (Parser.map (fun x => x.1 :: x.2) (seqWith Prod.mk p rest)) (succeed [])

/-- No run of `p` succeeds where it started. -/
def Advances (p : Parser σ w α) : Prop :=
  ∀ c t x d u, p c t = .ok (.success x d, u) → c.position < d.position

theorem repeatFrom_eq_map (p : Parser σ w α) {min : Nat} (found : Array α) (hmin : min ≤ found.size)
    (c : Cursor w) :
    repeatFrom p min none found c = Outcome.map (found.toList ++ ·) <$> many p c := by
  -- The two loops have found different values, so the induction of the loop does not serve.
  induction c using Cursor.backward_induction generalizing min found with
  | step c ih =>
  rw [many, repeated, repeatFrom, repeatFrom, dif_pos (by simp), dif_pos (by simp), map_bind]
  refine bind_congr fun o => ?_
  cases o with
  | failure e => simp [hmin]
  | success x d =>
    dsimp only
    by_cases hgo : c.position < d.position
    · rw [dif_pos (by simp [hgo]), dif_pos (by simp [hgo]), ih d hgo _ (by simp; omega),
        ih d hgo _ (by simp)]
      simp [Functor.map_map]
    · rw [dif_neg (by simp [hgo]; omega), dif_neg (by simp [hgo])]
      simp

theorem many_apply (p : Parser σ w α) (c : Cursor w) : many p c = p c >>= fun o => match o with
    | .failure _ => pure (.success [] c)
    | .success x d =>
      if c.position < d.position then Outcome.map (x :: ·) <$> many p d
      else Run.record (.stalled d.position) >>= fun _ => pure (.success [x] d) := by
  rw [many, repeated, repeatFrom, dif_pos (by simp)]
  refine bind_congr fun o => ?_
  cases o with
  | failure e => simp
  | success x d =>
    dsimp only
    by_cases hgo : c.position < d.position
    · rw [dif_pos (by simp [hgo]), if_pos hgo, repeatFrom_eq_map p _ (by simp)]
      rfl
    · rw [dif_neg (by simp [hgo]), if_neg hgo]
      rfl

theorem some_eq {p : Parser σ w α} (hp : p.Advances) :
    Parser.some p = Parser.map (fun x => x.1 :: x.2) (seqWith Prod.mk p (many p)) := by
  funext c t
  rw [Parser.some, repeated, repeatFrom, dif_pos (by simp), Parser.map, seqWith, bind_assoc,
    Run.bind_apply, Run.bind_apply]
  cases h : p c t with
  | error why => rfl
  | ok r =>
    obtain ⟨o, u⟩ := r
    cases o with
    | failure e => rfl
    | success x d =>
      have hgo := hp c t x d u h
      dsimp only
      rw [dif_pos (by simp [hgo]), repeatFrom_eq_map p _ (by simp), bind_assoc, map_eq_pure_bind]
      refine congrFun (bind_congr fun o => ?_) u
      cases o <;> rfl

theorem optional_eq (p : Parser σ w α) :
    optional p = orWith id id (Parser.map Option.some p) (succeed none) := by
  funext c
  rw [optional, Parser.map, repeated, repeatFrom, dif_pos (by simp), orWith, Parser.map, bind_assoc,
    bind_assoc]
  refine bind_congr fun o => ?_
  cases o with
  | failure e => rfl
  | success x d =>
    dsimp only
    rw [dif_pos (by simp), repeatFrom, dif_neg (by simp)]
    rfl

section
variable {p : Parser σ w α} {rest : Parser σ w (List α)} {c d : Cursor w} {t u u' : Trail σ} {x : α}

theorem oneMore_of_failure {e : ParseError} (h : p c t = .ok (.failure e, u)) :
    p.oneMore rest c t = .ok (.success [] c, u) := by
  simp only [oneMore, orWith, Parser.map, seqWith, bind_assoc, Run.bind_apply, h]
  rfl

theorem oneMore_of_success {xs : List α} {d' : Cursor w} (h : p c t = .ok (.success x d, u))
    (hrest : rest d u = .ok (.success xs d', u')) :
    p.oneMore rest c t = .ok (.success (x :: xs) d', u') := by
  simp only [oneMore, orWith, Parser.map, seqWith, bind_assoc, Run.bind_apply, h, hrest]
  rfl

theorem oneMore_of_error {why : Stop} (h : p c t = .error why) :
    p.oneMore rest c t = .error why := by
  simp only [oneMore, orWith, Parser.map, seqWith, bind_assoc, Run.bind_apply, h]

theorem oneMore_of_success_error {why : Stop} (h : p c t = .ok (.success x d, u))
    (hrest : rest d u = .error why) : p.oneMore rest c t = .error why := by
  simp only [oneMore, orWith, Parser.map, seqWith, bind_assoc, Run.bind_apply, h, hrest]

end

theorem meets_many (p : Parser σ w α) (c : Cursor w) : Run.Meets (fun _ => True) (fun _ => True)
    (fun o => ∃ xs d, o = .success xs d) (many p c) := by
  have hp (c : Cursor w) : Run.Meets (fun _ => True) (fun _ => True) (fun _ => True) (p c) := by
    intro t _
    cases p c t <;> trivial
  refine (repeatFrom_sound hp 0 none #[] c).mono ?_
  rintro _ ⟨o, hr, rfl⟩
  obtain ⟨xs, d, rfl⟩ := hr.exists_success
  exact ⟨_, _, rfl⟩

/-- Where every match advances, to repeat is to match once more or to stop. -/
theorem many_eq {p : Parser σ w α} (hp : p.Advances) : many p = p.oneMore (many p) := by
  funext c t
  rw [many_apply, Run.bind_apply]
  cases h : p c t with
  | error why => exact (oneMore_of_error h).symm
  | ok r =>
    obtain ⟨o, u⟩ := r
    cases o with
    | failure e => exact (oneMore_of_failure h).symm
    | success x d =>
      dsimp only
      rw [if_pos (hp c t x d u h), map_eq_pure_bind, Run.bind_apply]
      cases hrest : many p d u with
      | error why => exact (oneMore_of_success_error h hrest).symm
      | ok r =>
        obtain ⟨o, u'⟩ := r
        obtain ⟨xs, d', rfl⟩ := (meets_many p d).of_ok trivial hrest
        exact (oneMore_of_success h hrest).symm

end Parser

end Descent
