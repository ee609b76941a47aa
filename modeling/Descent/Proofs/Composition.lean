import Descent.Proofs.Terminal

namespace Descent
variable {σ τ : Type} {w : Input} {α β γ : Type}

namespace Run

structure Composes (R : ∀ α : Type, Run σ α → Run τ α → Prop) : Prop where
  pure {δ : Type} (a : δ) : R δ (Pure.pure a) (Pure.pure a)
  bind {δ ε : Type} {x : Run σ δ} {y : Run τ δ} {f : δ → Run σ ε} {g : δ → Run τ ε} :
    R δ x y → (∀ a, R ε (f a) (g a)) → R ε (x >>= f) (y >>= g)
  stalled (position : Nat) : R Unit (record (.stalled position)) (record (.stalled position))

theorem slice_eq_pure {start stop : Nat} (h : start ≤ stop ∧ stop ≤ w.size) :
    (slice w start stop : Run σ (List Int)) = Pure.pure (w.slice start stop) :=
  funext fun t => slice_apply h t

end Run

theorem Terminal.parser_eq_pure {t : Terminal} {c : Cursor w} {o : Outcome w Tree}
    (h : t.Matches c o) : (t.parser c : Run σ (Outcome w Tree)) = Pure.pure o :=
  funext fun u => parser_apply h u

namespace Run.Composes
variable {R : ∀ α : Type, Run σ α → Run τ α → Prop}
variable {p : Parser σ w α} {q : Parser τ w α} {p' : Parser σ w β} {q' : Parser τ w β}

theorem cases (h : Composes R) {k : Outcome w α → Run σ β} {l : Outcome w α → Run τ β}
    {c : Cursor w} (hp : R _ (p c) (q c)) (hs : ∀ x d, R _ (k (.success x d)) (l (.success x d)))
    (hf : ∀ e, R _ (k (.failure e)) (l (.failure e))) : R _ (p c >>= k) (q c >>= l) := by
  refine h.bind hp fun o => ?_
  cases o with
  | success x d => exact hs x d
  | failure e => exact hf e

theorem map (h : Composes R) (f : α → β) (hp : ∀ c, R _ (p c) (q c)) (c : Cursor w) :
    R _ (Parser.map f p c) (Parser.map f q c) :=
  h.cases (hp c) (fun _ _ => h.pure _) fun _ => h.pure _

theorem repeatFrom (h : Composes R) (hp : ∀ c, R _ (p c) (q c)) (min : Nat) (max : Option Nat)
    (found : Array α) (c : Cursor w) :
    R _ (Parser.repeatFrom p min max found c) (Parser.repeatFrom q min max found c) := by
  induction found, c using Parser.repeatFrom.induct min max with
  | case1 found c hroom ih =>
    rw [Parser.repeatFrom, Parser.repeatFrom, dif_pos hroom, dif_pos hroom]
    refine h.cases (hp c) (fun x d => ?_) fun e => ?_
    · dsimp only
      split
      case isTrue hgo => exact ih x d hgo
      case isFalse => exact h.bind (h.stalled d.position) fun _ => h.pure _
    · dsimp only
      split
      · exact h.pure _
      · split <;> exact h.pure _
  | case2 found c hfull hmin =>
    rw [Parser.repeatFrom, Parser.repeatFrom, dif_neg hfull, dif_neg hfull, if_pos hmin, if_pos hmin]
    exact h.pure _
  | case3 found c hfull hmin =>
    rw [Parser.repeatFrom, Parser.repeatFrom, dif_neg hfull, dif_neg hfull, if_neg hmin, if_neg hmin]
    exact h.pure _

theorem separatedFrom (h : Composes R) (hp : ∀ c, R _ (p c) (q c)) (hp' : ∀ c, R _ (p' c) (q' c))
    (found : Array α) (c : Cursor w) :
    R _ (Parser.separatedFrom p p' found c) (Parser.separatedFrom q q' found c) := by
  induction found, c using Parser.separatedFrom.induct with
  | case1 found c ih =>
    rw [Parser.separatedFrom, Parser.separatedFrom]
    refine h.cases (hp' c) (fun _ after => ?_) fun _ => h.pure _
    refine h.cases (hp after) (fun x d => ?_) fun _ => h.pure _
    dsimp only
    split
    case isTrue hgo => exact ih x d hgo
    case isFalse => exact h.pure _

theorem seqWith (h : Composes R) (keep : α → β → γ) (hp : ∀ c, R _ (p c) (q c))
    (hp' : ∀ c, R _ (p' c) (q' c)) (c : Cursor w) :
    R _ (Parser.seqWith keep p p' c) (Parser.seqWith keep q q' c) := by
  refine h.cases (hp c) (fun x d => ?_) fun _ => h.pure _
  exact h.cases (hp' d) (fun _ _ => h.pure _) fun _ => h.pure _

theorem orWith (h : Composes R) (left : α → γ) (right : β → γ) (hp : ∀ c, R _ (p c) (q c))
    (hp' : ∀ c, R _ (p' c) (q' c)) (c : Cursor w) :
    R _ (Parser.orWith left right p p' c) (Parser.orWith left right q q' c) := by
  refine h.cases (hp c) (fun _ _ => h.pure _) fun e => ?_
  exact h.cases (hp' c) (fun _ _ => h.pure _) fun _ => h.pure _

theorem between (h : Composes R) {p'' : Parser σ w γ} {q'' : Parser τ w γ}
    (hp : ∀ c, R _ (p c) (q c)) (hp' : ∀ c, R _ (p' c) (q' c)) (hp'' : ∀ c, R _ (p'' c) (q'' c))
    (c : Cursor w) : R _ (Parser.between p p' p'' c) (Parser.between q q' q'' c) := by
  rw [Parser.between_eq, Parser.between_eq]
  exact h.seqWith _ hp (h.seqWith _ hp' hp'') c

theorem terminal (h : Composes R) (t : Terminal) (c : Cursor w) : R _ (t.parser c) (t.parser c) := by
  obtain ⟨o, ho⟩ := t.exists_outcome c
  rw [Terminal.parser_eq_pure ho, Terminal.parser_eq_pure ho]
  exact h.pure o

end Run.Composes

namespace Run.Composes
variable {R : ∀ α : Type, Run σ α → Run τ α → Prop}
variable {p p' : Parser σ w Tree} {q q' : Parser τ w Tree}

theorem modifier (h : Composes R) (m : Modifier) (hp : ∀ c, R _ (p c) (q c)) (c : Cursor w) :
    R _ (m.apply p c) (m.apply q c) := by
  cases m with
  | map f => exact h.map f hp c
  | tryMap f =>
    refine h.cases (hp c) (fun x d => ?_) fun _ => h.pure _
    dsimp only
    cases f x <;> exact h.pure _
  | filter holds reason =>
    refine h.cases (hp c) (fun x d => ?_) fun _ => h.pure _
    dsimp only
    split <;> exact h.pure _
  | ignore =>
    refine h.map _ (fun c => ?_) c
    exact h.cases (hp c) (fun _ _ => h.pure _) fun _ => h.pure _
  | recognize =>
    refine h.map _ (fun c => ?_) c
    refine h.cases (hp c) (fun x d => ?_) fun _ => h.pure _
    dsimp only
    rw [slice_eq_pure ⟨Nat.min_le_right _ _, d.le_size⟩,
      slice_eq_pure ⟨Nat.min_le_right _ _, d.le_size⟩]
    exact h.bind (h.pure _) fun _ => h.pure _
  | spanned =>
    refine h.map _ (fun c => ?_) c
    exact h.cases (hp c) (fun _ _ => h.pure _) fun _ => h.pure _
  | optional => exact h.map _ (h.map _ (h.repeatFrom hp 0 (some 1) #[])) c
  | repeated min max => exact h.map _ (h.repeatFrom hp min max #[]) c
  | notFollowedBy =>
    refine h.map _ (fun c => ?_) c
    exact h.cases (hp c) (fun _ _ => h.pure _) fun _ => h.pure _
  | shared => exact hp c

theorem connective (h : Composes R) (k : Connective) (hp : ∀ c, R _ (p c) (q c))
    (hp' : ∀ c, R _ (p' c) (q' c)) (c : Cursor w) : R _ (k.apply p p' c) (k.apply q q' c) := by
  cases k with
  | sequence keep => exact h.seqWith _ hp hp' c
  | choice choose => exact h.orWith _ _ hp hp' c
  | separatedList =>
    refine h.map _ (fun c => ?_) c
    refine h.cases (hp c) (fun x d => ?_) fun _ => h.pure _
    exact h.separatedFrom hp hp' #[x] d

end Run.Composes

end Descent
