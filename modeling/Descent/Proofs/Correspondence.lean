import Mathlib.Data.List.Forall2
import Descent.Parser.Repetition
import Descent.Proofs.Combinator

namespace Descent
variable {σ τ : Type} {w v : Input} {α α' β β' γ γ' : Type}

/-- Which cursors and which errors of two inputs belong together. -/
structure Correspondence (w v : Input) where
  cursor : Cursor w → Cursor v → Prop
  error : ParseError → ParseError → Prop
  advances {c c' d d'} : cursor c d → cursor c' d' →
    (c.position < c'.position ↔ d.position < d'.position)
  custom {c d} (reason : String) : cursor c d →
    error (.custom reason c.position) (.custom reason d.position)
  alternatives {c d e e' f f'} : cursor c d → error e f → error e' f' →
    error (.alternativesExhausted c.position e e') (.alternativesExhausted d.position f f')
  belowMinimum {c d e f} (min matched : Nat) : cursor c d → error e f →
    error (.repetitionBelowMinimum c.position min matched e)
      (.repetitionBelowMinimum d.position min matched f)

namespace Correspondence

/-- Every cursor and every error belongs to itself. -/
def same (w : Input) : Correspondence w w where
  cursor := Eq
  error := Eq
  advances h h' := by rw [h, h']
  custom _ h := by rw [h]
  alternatives h h' h'' := by rw [h, h', h'']
  belowMinimum _ _ h h' := by rw [h, h']

def Outcomes (K : Correspondence w v) (V : α → β → Prop) : Outcome w α → Outcome v β → Prop
  | .success x c, .success y d => V x y ∧ K.cursor c d
  | .failure e, .failure f => K.error e f
  | _, _ => False

/-- From corresponding cursors and related trails, the runs of both parsers end alike. -/
def Parsers (K : Correspondence w v) (T : Trail σ → Trail τ → Prop) (V : α → β → Prop)
    (p : Parser σ w α) (q : Parser τ v β) : Prop :=
  ∀ c d, K.cursor c d → Run.Related T (K.Outcomes V) (p c) (q d)

theorem outcomes_same_iff (o o' : Outcome w α) : (same w).Outcomes Eq o o' ↔ o = o' := by
  cases o <;> cases o' <;> simp [Outcomes, same]

theorem Outcomes.map {K : Correspondence w v} {V : α → β → Prop} {U : γ → γ' → Prop} {f : α → γ}
    {g : β → γ'} {o : Outcome w α} {o' : Outcome v β} (h : K.Outcomes V o o')
    (hf : ∀ x y, V x y → U (f x) (g y)) : K.Outcomes U (o.map f) (o'.map g) := by
  cases o with
  | success x c =>
    cases o' with
    | success y d => exact ⟨hf x y h.1, h.2⟩
    | failure f => exact h.elim
  | failure e =>
    cases o' with
    | success y d => exact h.elim
    | failure f => exact h

open Run (Related)
variable {K : Correspondence w v} {T : Trail σ → Trail τ → Prop}
variable {V : α → β → Prop} {V' : α' → β' → Prop} {U : γ → γ' → Prop}
variable {p : Parser σ w α} {q : Parser τ v β} {p' : Parser σ w α'} {q' : Parser τ v β'}

theorem Parsers.cases {k : Outcome w α → Run σ γ} {l : Outcome v β → Run τ γ'} {c : Cursor w}
    {d : Cursor v} (h : K.Parsers T V p q) (hc : K.cursor c d)
    (hs : ∀ x y c' d', V x y → K.cursor c' d' →
      Related T U (k (.success x c')) (l (.success y d')))
    (hf : ∀ e f, K.error e f → Related T U (k (.failure e)) (l (.failure f))) :
    Related T U (p c >>= k) (q d >>= l) := by
  refine (h c d hc).bind fun o o' ho => ?_
  cases o with
  | success x c' =>
    cases o' with
    | success y d' => exact hs x y c' d' ho.1 ho.2
    | failure f => exact ho.elim
  | failure e =>
    cases o' with
    | success y d' => exact ho.elim
    | failure f => exact hf e f ho

theorem Parsers.map {f : α → γ} {g : β → γ'} (h : K.Parsers T V p q)
    (hf : ∀ x y, V x y → U (f x) (g y)) : K.Parsers T U (Parser.map f p) (Parser.map g q) :=
  fun _ _ hc => h.cases hc (fun x y _ _ hx hd => .pure ⟨hf x y hx, hd⟩) fun _ _ he => .pure he

theorem Parsers.tryMap {f : α → Except String γ} {g : β → Except String γ'}
    (h : K.Parsers T V p q) (hf : ∀ x y, V x y →
      (∃ x' y', f x = .ok x' ∧ g y = .ok y' ∧ U x' y') ∨
        ∃ reason, f x = .error reason ∧ g y = .error reason) :
    K.Parsers T U (Parser.tryMap f p) (Parser.tryMap g q) := by
  intro c d hc
  refine h.cases hc (fun x y c' d' hx hd => ?_) fun _ _ he => .pure he
  dsimp only
  rcases hf x y hx with ⟨x', y', hx', hy', hu⟩ | ⟨reason, hx', hy'⟩
  · rw [hx', hy']
    exact .pure ⟨hu, hd⟩
  · rw [hx', hy']
    exact .pure (K.custom reason hc)

theorem Parsers.filter {holds : α → Bool} {holds' : β → Bool} (reason : String)
    (h : K.Parsers T V p q) (hh : ∀ x y, V x y → holds x = holds' y) :
    K.Parsers T V (Parser.filter holds reason p) (Parser.filter holds' reason q) := by
  intro c d hc
  refine h.cases hc (fun x y c' d' hx hd => ?_) fun _ _ he => .pure he
  dsimp only
  rw [hh x y hx]
  split
  · exact .pure ⟨hx, hd⟩
  · exact .pure (K.custom reason hc)

theorem Parsers.ignore (h : K.Parsers T V p q) :
    K.Parsers T Eq (Parser.ignore p) (Parser.ignore q) :=
  fun _ _ hc => h.cases hc (fun _ _ _ _ _ hd => .pure ⟨rfl, hd⟩) fun _ _ he => .pure he

theorem Parsers.recognize {L : List Int → List Int → Prop} (h : K.Parsers T V p q)
    (hL : ∀ c d c' d', K.cursor c d → K.cursor c' d' →
      L (c'.sliceFrom c.position) (d'.sliceFrom d.position)) :
    K.Parsers T L (Parser.recognize p) (Parser.recognize q) := by
  intro c d hc
  refine h.cases hc (fun x y c' d' _ hd => ?_) fun _ _ he => .pure he
  have hs : Related T L (Run.slice w (min c.position c'.position) c'.position)
      (Run.slice v (min d.position d'.position) d'.position) := by
    intro t u ht
    rw [Run.slice_apply ⟨Nat.min_le_right _ _, c'.le_size⟩,
      Run.slice_apply ⟨Nat.min_le_right _ _, d'.le_size⟩]
    exact ⟨hL c d c' d' hc hd, ht⟩
  exact hs.bind fun _ _ hl => .pure ⟨hl, hd⟩

theorem Parsers.spanned {U : α × Span w → β × Span v → Prop} (h : K.Parsers T V p q)
    (hU : ∀ x y c d c' d', V x y → K.cursor c d → K.cursor c' d' →
      U (x, ⟨c.position, c'.position⟩) (y, ⟨d.position, d'.position⟩)) :
    K.Parsers T U (Parser.spanned p) (Parser.spanned q) :=
  fun c d hc => h.cases hc
    (fun x y c' d' hx hd => .pure ⟨hU x y c d c' d' hx hc hd, hd⟩) fun _ _ he => .pure he

theorem Parsers.notFollowedBy (h : K.Parsers T V p q) :
    K.Parsers T Eq (Parser.notFollowedBy p) (Parser.notFollowedBy q) :=
  fun _ _ hc => h.cases hc (fun _ _ _ _ _ _ => .pure (K.custom _ hc))
    fun _ _ _ => .pure ⟨rfl, hc⟩

theorem Parsers.bind {f : α → Parser σ w γ} {g : β → Parser τ v γ'} (h : K.Parsers T V p q)
    (hf : ∀ x y, V x y → K.Parsers T U (f x) (g y)) :
    K.Parsers T U (Parser.bind p f) (Parser.bind q g) :=
  fun _ _ hc => h.cases hc (fun x y c' d' hx hd => hf x y hx c' d' hd) fun _ _ he => .pure he

theorem Parsers.seqWith {keep : α → α' → γ} {keep' : β → β' → γ'} (h : K.Parsers T V p q)
    (h' : K.Parsers T V' p' q') (hk : ∀ x y x' y', V x y → V' x' y' → U (keep x x') (keep' y y')) :
    K.Parsers T U (Parser.seqWith keep p p') (Parser.seqWith keep' q q') := by
  intro c d hc
  refine h.cases hc (fun x y c' d' hx hd => ?_) fun _ _ he => .pure he
  exact h'.cases hd (fun x' y' _ _ hx' hd' => .pure ⟨hk x y x' y' hx hx', hd'⟩)
    fun _ _ he => .pure he

theorem Parsers.between {r : Parser σ w γ} {r' : Parser τ v γ'} (h : K.Parsers T V p q)
    (h' : K.Parsers T V' p' q') (h'' : K.Parsers T U r r') :
    K.Parsers T V' (Parser.between p p' r) (Parser.between q q' r') := by
  rw [Parser.between_eq, Parser.between_eq]
  exact h.seqWith (h'.seqWith h'' fun _ _ _ _ hx _ => hx) fun _ _ _ _ _ hx => hx

theorem Parsers.orWith {left : α → γ} {left' : β → γ'} {right : α' → γ} {right' : β' → γ'}
    (h : K.Parsers T V p q) (h' : K.Parsers T V' p' q')
    (hl : ∀ x y, V x y → U (left x) (left' y)) (hr : ∀ x y, V' x y → U (right x) (right' y)) :
    K.Parsers T U (Parser.orWith left right p p') (Parser.orWith left' right' q q') := by
  intro c d hc
  refine h.cases hc (fun x y _ _ hx hd => .pure ⟨hl x y hx, hd⟩) fun e f he => ?_
  exact h'.cases hc (fun x y _ _ hx hd => .pure ⟨hr x y hx, hd⟩)
    fun e' f' he' => .pure (K.alternatives hc he he')

/-- Both runs tell of a repetition that stalls at corresponding cursors. -/
def Stalls (K : Correspondence w v) (T : Trail σ → Trail τ → Prop) : Prop :=
  ∀ c d, K.cursor c d → Related T (fun _ _ => True) (Run.record (.stalled c.position))
    (Run.record (.stalled d.position))

theorem forall₂_push {found : Array α} {found' : Array β} {x : α} {y : β}
    (h : List.Forall₂ V found.toList found'.toList) (hx : V x y) :
    List.Forall₂ V (found.push x).toList (found'.push y).toList := by
  rw [Array.toList_push, Array.toList_push]
  exact List.rel_append h (.cons hx .nil)

theorem Parsers.repeatFrom (hT : K.Stalls T) (h : K.Parsers T V p q) (min : Nat)
    (max : Option Nat) (found : Array α) (c : Cursor w) {found' : Array β} {d : Cursor v}
    (hf : List.Forall₂ V found.toList found'.toList) (hc : K.cursor c d) :
    Related T (K.Outcomes (List.Forall₂ V)) (Parser.repeatFrom p min max found c)
      (Parser.repeatFrom q min max found' d) := by
  have hsize {found : Array α} {found' : Array β}
      (hf : List.Forall₂ V found.toList found'.toList) : found'.size = found.size := by
    simpa using hf.length_eq.symm
  have full {found : Array α} {c : Cursor w} {found' : Array β} {d : Cursor v}
      (hf : List.Forall₂ V found.toList found'.toList) (hc : K.cursor c d)
      (hfull : ¬max.all (found.size < ·)) :
      Related T (K.Outcomes (List.Forall₂ V)) (Parser.repeatFrom p min max found c)
        (Parser.repeatFrom q min max found' d) := by
    rw [Parser.repeatFrom, Parser.repeatFrom, hsize hf, dif_neg hfull, dif_neg hfull]
    split
    · exact .pure ⟨hf, hc⟩
    · exact .pure (K.custom _ hc)
  -- The other loop goes wherever the corresponding turns lead it.
  induction found, c using Parser.repeatFrom.induct min max generalizing found' d with
  | case1 found c hroom ih =>
    rw [Parser.repeatFrom, Parser.repeatFrom, hsize hf, dif_pos hroom, dif_pos hroom]
    refine h.cases hc (fun x y c' d' hx hd => ?_) fun e f he => ?_
    · dsimp only
      have hiff := K.advances hc hd
      by_cases hgo : max.isSome ∨ found.size + 1 < min ∨ c.position < c'.position
      · rw [dif_pos hgo, dif_pos (by rwa [hiff] at hgo)]
        exact ih x c' hgo (forall₂_push hf hx) hd
      · rw [dif_neg hgo, dif_neg (by rwa [hiff] at hgo)]
        exact (hT c' d' hd).bind fun _ _ _ => .pure ⟨forall₂_push hf hx, hd⟩
    · dsimp only
      split
      · exact .pure ⟨hf, hc⟩
      · split
        · exact .pure he
        · exact .pure (K.belowMinimum _ _ hc he)
  | case2 found c hfull _ => exact full hf hc hfull
  | case3 found c hfull _ => exact full hf hc hfull

theorem Parsers.separatedFrom (h : K.Parsers T V p q) (h' : K.Parsers T V' p' q')
    (found : Array α) (c : Cursor w) {found' : Array β} {d : Cursor v}
    (hf : List.Forall₂ V found.toList found'.toList) (hc : K.cursor c d) :
    Related T (K.Outcomes (List.Forall₂ V)) (Parser.separatedFrom p p' found c)
      (Parser.separatedFrom q q' found' d) := by
  induction found, c using Parser.separatedFrom.induct generalizing found' d with
  | case1 found c ih =>
    rw [Parser.separatedFrom, Parser.separatedFrom]
    refine h'.cases hc (fun _ _ c' d' _ hd => ?_) fun _ _ _ => .pure ⟨hf, hc⟩
    refine h.cases hd (fun x y c'' d'' hx hd' => ?_) fun _ _ _ => .pure ⟨hf, hc⟩
    dsimp only
    have hiff := K.advances hc hd'
    by_cases hgo : c.position < c''.position
    · rw [dif_pos hgo, dif_pos (hiff.mp hgo)]
      exact ih x c'' hgo (forall₂_push hf hx) hd'
    · rw [dif_neg hgo, dif_neg (fun hgo' => hgo (hiff.mpr hgo'))]
      exact .pure ⟨hf, hc⟩

theorem Parsers.repeated (hT : K.Stalls T) (h : K.Parsers T V p q) (min : Nat)
    (max : Option Nat) :
    K.Parsers T (List.Forall₂ V) (Parser.repeated min max p) (Parser.repeated min max q) :=
  fun c _ hc => h.repeatFrom hT min max #[] c .nil hc

theorem Parsers.separatedList (h : K.Parsers T V p q) (h' : K.Parsers T V' p' q') :
    K.Parsers T (List.Forall₂ V) (Parser.separatedList p p') (Parser.separatedList q q') :=
  fun _ _ hc => h.cases hc
    (fun x _ c' _ hx hd => h.separatedFrom h' #[x] c' (.cons hx .nil) hd) fun _ _ he => .pure he

end Correspondence

end Descent
