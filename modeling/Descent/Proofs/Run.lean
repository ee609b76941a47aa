import Mathlib.Logic.Relation
import Descent.Parser.Basic

namespace Descent

theorem Record.append_append (log : Array Record) (records records' : List Record) :
    log ++ records ++ records' = log ++ (records ++ records') :=
  Array.ext' (by simp)

namespace Run
variable {σ τ α β γ δ : Type} {w : Input}

theorem bind_apply (x : Run σ α) (f : α → Run σ β) (t : Trail σ) :
    (x >>= f) t = match x t with
      | .ok (a, u) => f a u
      | .error s => .error s := by
  show (StateT.bind x f) t = _
  unfold StateT.bind
  cases x t <;> rfl

theorem bind_congr_of_ok {x : Run σ α} {f g : α → Run σ β}
    (h : ∀ t a u, x t = .ok (a, u) → f a u = g a u) : x >>= f = x >>= g := by
  funext t
  rw [bind_apply, bind_apply]
  cases hx : x t with
  | error s => rfl
  | ok r => exact h t r.1 r.2 hx

theorem get_apply (t : Trail σ) : (MonadState.get : Run σ (Trail σ)) t = .ok (t, t) := rfl

theorem checkRange_apply {start stop : Nat} (h : start ≤ stop ∧ stop ≤ w.size) (t : Trail σ) :
    checkRange w start stop t = .ok ((), t) := by
  rw [checkRange, if_pos h]
  rfl

theorem slice_apply {start stop : Nat} (h : start ≤ stop ∧ stop ≤ w.size) (t : Trail σ) :
    slice w start stop t = .ok (w.slice start stop, t) := by
  rw [slice, bind_apply, checkRange_apply h]
  rfl

theorem exists_trail_iff {x : Except Stop (α × Trail σ)} {a : α} :
    (∃ t, x = .ok (a, t)) ↔ x.map (·.1) = .ok a := by
  cases x with
  | error s =>
    refine ⟨fun ⟨_, h⟩ => ?_, fun h => ?_⟩
    · cases h
    · cases h
  | ok r =>
    refine ⟨fun ⟨_, h⟩ => ?_, fun h => ⟨r.2, ?_⟩⟩
    · cases h
      rfl
    · cases h
      rfl

/-- From a store in `I`, the run ends with a value in `P` and a store in `I` again, unless it stops
for a reason in `A`. -/
def Meets (I : σ → Prop) (A : Stop → Prop) (P : α → Prop) (x : Run σ α) : Prop :=
  ∀ t, I t.store → match x t with
    | .ok (a, u) => P a ∧ I u.store
    | .error s => A s

namespace Meets
variable {I J : σ → Prop} {A : Stop → Prop} {P : α → Prop} {Q : β → Prop}

theorem of_ok {x : Run σ α} (hx : Meets I A P x) {t u : Trail σ} {a : α} (hI : I t.store)
    (h : x t = .ok (a, u)) : P a := by
  have ht := hx t hI
  rw [h] at ht
  exact ht.1

theorem pure {a : α} (h : P a) : Meets I A P (Pure.pure a) := fun _ hI => ⟨h, hI⟩

theorem stop {s : Stop} (h : A s) : Meets I A P (Run.stop s) := fun _ _ => h

theorem bind {x : Run σ α} {f : α → Run σ β} (hx : Meets I A P x)
    (hf : ∀ a, P a → Meets I A Q (f a)) : Meets I A Q (x >>= f) := by
  intro t hI
  have h := hx t hI
  rw [bind_apply]
  cases hr : x t with
  | error s => rw [hr] at h; exact h
  | ok r => rw [hr] at h; exact hf r.1 h.1 r.2 h.2

theorem bind_eq {a : α} {x : Run σ α} {f : α → Run σ β} (hx : Meets I A (· = a) x)
    (hf : Meets I A Q (f a)) : Meets I A Q (x >>= f) := by
  apply hx.bind
  intro b hb
  rw [hb]
  exact hf

theorem mono {P' : α → Prop} {x : Run σ α} (hx : Meets I A P x) (h : ∀ a, P a → P' a) :
    Meets I A P' x := by
  intro t hI
  have hr := hx t hI
  cases hv : x t with
  | error s => rw [hv] at hr; exact hr
  | ok r => rw [hv] at hr; exact ⟨h r.1 hr.1, hr.2⟩

theorem record (r : Record) : Meets I A (fun _ => True) (Run.record r) :=
  fun _ hI => ⟨trivial, hI⟩

theorem get : Meets I A (fun t : Trail σ => I t.store) (MonadState.get : Run σ (Trail σ)) :=
  fun _ hI => ⟨hI, hI⟩

theorem onStore {f : σ → α × σ} (h : ∀ s, I s → P (f s).1 ∧ I (f s).2) :
    Meets I A P (Run.onStore f) :=
  fun t hI => h t.store hI

theorem slice {start stop : Nat} (h : start ≤ stop ∧ stop ≤ w.size) :
    Meets I A (· = w.slice start stop) (Run.slice w start stop) := by
  intro t hI
  rw [slice_apply h]
  exact ⟨rfl, hI⟩

end Meets

/-- Two runs either stopped for the same reason or ended with values related by `P` and trails
related by `T`. -/
def Alike (T : Trail σ → Trail τ → Prop) (P : α → β → Prop) :
    Except Stop (α × Trail σ) → Except Stop (β × Trail τ) → Prop
  | .ok (a, t), .ok (b, u) => P a b ∧ T t u
  | .error s, .error s' => s = s'
  | _, _ => False

/-- From trails related by `T`, the two runs end alike. -/
def Related (T : Trail σ → Trail τ → Prop) (P : α → β → Prop) (x : Run σ α) (y : Run τ β) : Prop :=
  ∀ t u, T t u → Alike T P (x t) (y u)

namespace Alike
variable {ρ ε : Type} {T T' : Trail σ → Trail τ → Prop} {P P' : α → β → Prop}
variable {x : Except Stop (α × Trail σ)} {y : Except Stop (β × Trail τ)}

theorem mono (h : Alike T P x y) (hT : ∀ t u, T t u → T' t u) (hP : ∀ a b, P a b → P' a b) :
    Alike T' P' x y := by
  cases x with
  | error s =>
    cases y with
    | error s' => exact h
    | ok r => exact h
  | ok r =>
    cases y with
    | error s' => exact h
    | ok r' => exact ⟨hP _ _ h.1, hT _ _ h.2⟩

theorem exists_ok {r : α × Trail σ} (h : Alike T P x y) (hx : x = .ok r) :
    ∃ r', y = .ok r' ∧ P r.1 r'.1 ∧ T r.2 r'.2 := by
  subst hx
  cases y with
  | error s => exact h.elim
  | ok r' => exact ⟨r', rfl, h⟩

theorem symm (h : Alike T P x y) : Alike (fun u t => T t u) (fun b a => P a b) y x := by
  cases x with
  | error s =>
    cases y with
    | error s' => exact Eq.symm h
    | ok r => exact h
  | ok r =>
    cases y with
    | error s' => exact h
    | ok r' => exact h

theorem trans {U : Trail τ → Trail ρ → Prop} {Q : β → ε → Prop} {z : Except Stop (ε × Trail ρ)}
    (h : Alike T P x y) (h' : Alike U Q y z) :
    Alike (Relation.Comp T U) (Relation.Comp P Q) x z := by
  cases y with
  | error s =>
    cases x with
    | ok r => exact h.elim
    | error s' =>
      obtain rfl : s' = s := h
      cases z with
      | ok r => exact h'
      | error s'' => exact h'
  | ok r =>
    cases x with
    | error s => exact h.elim
    | ok r' =>
      cases z with
      | error s => exact h'
      | ok r'' => exact ⟨⟨_, h.1, h'.1⟩, _, h.2, h'.2⟩

theorem map {T' : Trail ρ → Trail ε → Prop} {Q : γ → δ → Prop} {f : α × Trail σ → γ × Trail ρ}
    {g : β × Trail τ → δ × Trail ε} (h : Alike T P x y) (hfg : ∀ a b t u, P a b → T t u →
      Q (f (a, t)).1 (g (b, u)).1 ∧ T' (f (a, t)).2 (g (b, u)).2) :
    Alike T' Q (x.map f) (y.map g) := by
  cases x with
  | error s =>
    cases y with
    | error s' => exact h
    | ok r => exact h.elim
  | ok r =>
    cases y with
    | error s' => exact h.elim
    | ok r' => exact hfg _ _ _ _ h.1 h.2

theorem map_eq {f : α × Trail σ → γ} {g : β × Trail τ → γ} (h : Alike T P x y)
    (hfg : ∀ a b t u, P a b → T t u → f (a, t) = g (b, u)) : x.map f = y.map g := by
  cases x with
  | error s =>
    cases y with
    | error s' => exact congrArg Except.error h
    | ok r => exact h.elim
  | ok r =>
    cases y with
    | error s' => exact h.elim
    | ok r' => exact congrArg Except.ok (hfg _ _ _ _ h.1 h.2)

end Alike

namespace Related
variable {T : Trail σ → Trail τ → Prop} {P : α → β → Prop} {Q : γ → δ → Prop}

theorem pure {a : α} {b : β} (h : P a b) : Related T P (Pure.pure a) (Pure.pure b) :=
  fun _ _ hT => ⟨h, hT⟩

theorem stop (s : Stop) : Related T P (Run.stop s) (Run.stop s) := fun _ _ _ => rfl

theorem refl (x : Run σ α) : Related Eq Eq x x := by
  rintro t _ rfl
  cases x t with
  | error s => rfl
  | ok r => exact ⟨rfl, rfl⟩

theorem eq {x y : Run σ α} (h : Related Eq Eq x y) : x = y := by
  funext t
  have ht := h t t rfl
  cases hx : x t with
  | error s =>
    cases hy : y t with
    | error s' => rw [hx, hy] at ht; exact congrArg Except.error ht
    | ok r => rw [hx, hy] at ht; exact ht.elim
  | ok r =>
    cases hy : y t with
    | error s => rw [hx, hy] at ht; exact ht.elim
    | ok r' => rw [hx, hy] at ht; exact congrArg Except.ok (Prod.ext ht.1 ht.2)

theorem bind {x : Run σ α} {y : Run τ β} {f : α → Run σ γ} {g : β → Run τ δ}
    (hx : Related T P x y) (hf : ∀ a b, P a b → Related T Q (f a) (g b)) :
    Related T Q (x >>= f) (y >>= g) := by
  intro t u hT
  have h := hx t u hT
  rw [bind_apply, bind_apply]
  cases hr : x t with
  | error s =>
    cases hs : y u with
    | error s' => rw [hr, hs] at h; exact h
    | ok r => rw [hr, hs] at h; exact h.elim
  | ok r =>
    cases hs : y u with
    | error s' => rw [hr, hs] at h; exact h.elim
    | ok r' => rw [hr, hs] at h; exact hf r.1 r'.1 h.1 r.2 r'.2 h.2

theorem bind_left {x : Run σ α} {y : Run τ β} {f : α → Run σ γ} {R : γ → β → Prop}
    (hx : Related T P x y) (hf : ∀ a b, P a b → Related T R (f a) (Pure.pure b)) :
    Related T R (x >>= f) y := by
  have h := hx.bind hf
  rw [bind_pure] at h
  exact h

end Related

end Run

end Descent
