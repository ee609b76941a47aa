import Descent.Proofs.Loop

namespace Descent
variable {σ : Type} {w : Input} {α : Type}

theorem Span.slice_eq_sliceFrom (c d : Cursor w) :
    (⟨c.position, d.position⟩ : Span w).slice = d.sliceFrom c.position := by
  rw [Span.slice, Cursor.sliceFrom, Nat.min_eq_left d.le_size]

namespace Modifier

/-- Whether a failure of the part is a failure of the whole. -/
def PassesFailures : Modifier → Prop
  | optional => False
  | notFollowedBy => False
  | repeated _ _ => False
  | _ => True

/-- `Turns c m o o'`: started at `c`, the modifier `m` turns the outcome `o` of its part into `o'`.
What is rejected fails at `c`, and what is not consumed leaves off at `c`. -/
inductive Turns (c : Cursor w) : Modifier → Outcome w Tree → Outcome w Tree → Prop
  | map {f x d} : Turns c (map f) (.success x d) (.success (f x) d)
  | accept {f x d y} : f x = .ok y → Turns c (tryMap f) (.success x d) (.success y d)
  | reject {f x d reason} : f x = .error reason →
      Turns c (tryMap f) (.success x d) (.failure (.custom reason c.position))
  | keep {holds reason x d} : holds x = true →
      Turns c (filter holds reason) (.success x d) (.success x d)
  | refuse {holds reason x d} : holds x = false →
      Turns c (filter holds reason) (.success x d) (.failure (.custom reason c.position))
  | ignore {x d} : Turns c ignore (.success x d) (.success .unit d)
  | recognize {x d} :
      Turns c recognize (.success x d) (.success (.slice (d.sliceFrom c.position)) d)
  | spanned {x d} : Turns c spanned (.success x d)
      (.success (.spanned x c.position d.position (d.sliceFrom c.position)) d)
  | present {x d} : Turns c optional (.success x d) (.success (.present x) d)
  | absent {e} : Turns c optional (.failure e) (.success .absent c)
  | absence {e} : Turns c notFollowedBy (.failure e) (.success .unit c)
  | presence {x d} : Turns c notFollowedBy (.success x d)
      (.failure (.custom "negative lookahead failed: unexpected match" c.position))
  | shared {x d} : Turns c shared (.success x d) (.success x d)
  | fails {m e} : m.PassesFailures → Turns c m (.failure e) (.failure e)

theorem Turns.unique {m : Modifier} {c : Cursor w} {o o' o'' : Outcome w Tree}
    (h : Turns c m o o') (h' : Turns c m o o'') : o' = o'' := by
  cases h <;> cases h' <;> simp_all [PassesFailures]

open Run (Meets)
variable {I : σ → Prop} {A : Stop → Prop} {p : Parser σ w Tree} {c : Cursor w}
variable {R : Outcome w Tree → Prop}

theorem meets_optional (hp : Meets I A R (p c)) :
    Meets I A (fun o' => ∃ o, R o ∧ Turns c optional o o') (optional.apply p c) := by
  refine Parser.meets_map (Parser.meets_map ?_)
  refine Parser.meets_repeatFrom (fun _ => hp) ?_ ?_ ?_ ?_ ?_ ?_ ?_
  · intro m hm hle
    obtain rfl : 1 = m := Option.some.inj hm
    simp at hle
  · intro m hm hle
    obtain rfl : 1 = m := Option.some.inj hm
    simp at hle
  · intro e _ h _
    exact ⟨_, h, .absent⟩
  · intro e _ _ _ hmin
    omega
  · intro e _ _ hpos
    simp at hpos
  · intro x d _ h _
    rw [Parser.repeatFrom, dif_neg (by simp), if_pos (Nat.zero_le _)]
    exact .pure ⟨_, h, .present⟩
  · intro x d hnone
    cases hnone

/-- A modifier that is no repetition does what `Turns` says. -/
theorem meets_apply {m : Modifier} (hm : ∀ min max, m ≠ repeated min max)
    (hp : Meets I A R (p c)) :
    Meets I A (fun o' => ∃ o, R o ∧ Turns c m o o') (m.apply p c) := by
  cases m with
  | map f =>
    exact Parser.meets_cases hp (fun x d h => .pure ⟨_, h, .map⟩)
      (fun e h => .pure ⟨_, h, .fails trivial⟩)
  | tryMap f =>
    refine Parser.meets_cases hp (fun x d h => ?_) (fun e h => .pure ⟨_, h, .fails trivial⟩)
    dsimp only
    cases hf : f x with
    | ok y => exact .pure ⟨_, h, .accept hf⟩
    | error reason => exact .pure ⟨_, h, .reject hf⟩
  | filter holds reason =>
    refine Parser.meets_cases hp (fun x d h => ?_) (fun e h => .pure ⟨_, h, .fails trivial⟩)
    dsimp only
    cases hx : holds x with
    | true => exact .pure ⟨_, h, .keep hx⟩
    | false => exact .pure ⟨_, h, .refuse hx⟩
  | ignore =>
    refine Parser.meets_map (Parser.meets_cases hp (fun x d h => ?_) (fun e h => ?_))
    · exact .pure ⟨_, h, .ignore⟩
    · exact .pure ⟨_, h, .fails trivial⟩
  | recognize =>
    refine Parser.meets_map (Parser.meets_cases hp (fun x d h => ?_) (fun e h => ?_))
    · refine (Meets.slice ⟨Nat.min_le_right _ _, d.le_size⟩).bind ?_
      rintro _ rfl
      exact .pure ⟨_, h, .recognize⟩
    · exact .pure ⟨_, h, .fails trivial⟩
  | spanned =>
    refine Parser.meets_map (Parser.meets_cases hp (fun x d h => .pure ?_) (fun e h => ?_))
    · refine ⟨_, h, ?_⟩
      rw [Outcome.map_success, Tree.ofSpan, Span.slice_eq_sliceFrom]
      exact .spanned
    · exact .pure ⟨_, h, .fails trivial⟩
  | optional => exact meets_optional hp
  | repeated min max => exact absurd rfl (hm min max)
  | notFollowedBy =>
    refine Parser.meets_map (Parser.meets_cases hp (fun x d h => ?_) (fun e h => ?_))
    · exact .pure ⟨_, h, .presence⟩
    · exact .pure ⟨_, h, .absence⟩
  | shared =>
    refine hp.mono fun o h => ⟨o, h, ?_⟩
    cases o with
    | success x d => exact .shared
    | failure e => exact .fails trivial

end Modifier

end Descent
