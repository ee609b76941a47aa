import Descent.Proofs.Correspondence
import Descent.Proofs.Modifier

namespace Descent
variable {σ τ : Type} {w v : Input} {V : Tree → Tree → Prop}

namespace Correspondence

/-- At corresponding places the same is read, and trees made of related trees there are related. -/
structure Trees (K : Correspondence w v) (V : Tree → Tree → Prop) : Prop where
  sliceFrom_eq {c c' d d'} : K.cursor c d → K.cursor c' d' →
    c'.sliceFrom c.position = d'.sliceFrom d.position
  unit : V .unit .unit
  element (code : Int) : V (.element code) (.element code)
  slice (codes : List Int) : V (.slice codes) (.slice codes)
  list {xs ys} : List.Forall₂ V xs ys → V (.list xs) (.list ys)
  pair {x y x' y'} : V x y → V x' y' → V (.pair x x') (.pair y y')
  absent : V .absent .absent
  present {x y} : V x y → V (.present x) (.present y)
  left {x y} : V x y → V (.left x) (.left y)
  right {x y} : V x y → V (.right x) (.right y)
  spanned {x y c c' d d'} (codes : List Int) : V x y → K.cursor c d → K.cursor c' d' →
    V (.spanned x c.position c'.position codes) (.spanned y d.position d'.position codes)

end Correspondence

/-- Conversions of related trees either have related results or are refused for the same reason. -/
def ConvertAlike (V : Tree → Tree → Prop) (a b : Except String Tree) : Prop :=
  (∃ x y, a = .ok x ∧ b = .ok y ∧ V x y) ∨ ∃ reason, a = .error reason ∧ b = .error reason

/-- Modifiers of one kind whose functions do the same to related trees. -/
inductive Modifier.Alike (V : Tree → Tree → Prop) : Modifier → Modifier → Prop
  | map {f f'} : (∀ x y, V x y → V (f x) (f' y)) → Alike V (map f) (map f')
  | tryMap {f f'} : (∀ x y, V x y → ConvertAlike V (f x) (f' y)) → Alike V (tryMap f) (tryMap f')
  | filter {holds holds' reason} : (∀ x y, V x y → holds x = holds' y) →
      Alike V (filter holds reason) (filter holds' reason)
  | ignore : Alike V ignore ignore
  | recognize : Alike V recognize recognize
  | spanned : Alike V spanned spanned
  | optional : Alike V optional optional
  | repeated {min max} : Alike V (repeated min max) (repeated min max)
  | notFollowedBy : Alike V notFollowedBy notFollowedBy
  | shared : Alike V shared shared

namespace Correspondence.Trees
variable {K : Correspondence w v} {x y x' y' : Tree}

theorem combine (h : K.Trees V) (keep : Keep) (hx : V x y) (hx' : V x' y') :
    V (keep.combine x x') (keep.combine y y') := by
  cases keep with
  | both => exact h.pair hx hx'
  | left => exact hx
  | right => exact hx'
  | neither => exact h.unit

theorem onLeft (h : K.Trees V) (choose : Choose) (hx : V x y) :
    V (choose.onLeft x) (choose.onLeft y) := by
  cases choose with
  | same => exact hx
  | either => exact h.left hx
  | left => exact h.present hx
  | right => exact h.absent
  | neither => exact h.unit

theorem onRight (h : K.Trees V) (choose : Choose) (hx : V x y) :
    V (choose.onRight x) (choose.onRight y) := by
  cases choose with
  | same => exact hx
  | either => exact h.right hx
  | left => exact h.absent
  | right => exact h.present hx
  | neither => exact h.unit

theorem ofSpan (h : K.Trees V) {c c' : Cursor w} {d d' : Cursor v} (hx : V x y)
    (hc : K.cursor c d) (hc' : K.cursor c' d') :
    V (x.ofSpan (⟨c.position, c'.position⟩ : Span w))
      (y.ofSpan (⟨d.position, d'.position⟩ : Span v)) := by
  rw [Tree.ofSpan, Tree.ofSpan, Span.slice_eq_sliceFrom, Span.slice_eq_sliceFrom,
    h.sliceFrom_eq hc hc']
  exact h.spanned _ hx hc hc'

theorem ofLast (h : K.Trees V) {xs ys : List Tree} (hxs : List.Forall₂ V xs ys) :
    V (Tree.ofOption xs.getLast?) (Tree.ofOption ys.getLast?) := by
  induction hxs with
  | nil => exact h.absent
  | @cons x y xs ys hx hxs ih =>
    cases hxs with
    | nil => exact h.present hx
    | cons hx' hxs' =>
      rw [List.getLast?_cons_cons, List.getLast?_cons_cons]
      exact ih

end Correspondence.Trees

variable {K : Correspondence w v} {T : Trail σ → Trail τ → Prop}

theorem Modifier.Alike.parsers (hV : K.Trees V) (hT : K.Stalls T) {p : Parser σ w Tree}
    {q : Parser τ v Tree} (h : K.Parsers T V p q) {m m' : Modifier} (hm : m.Alike V m') :
    K.Parsers T V (m.apply p) (m'.apply q) := by
  cases hm with
  | map hf => exact h.map hf
  | tryMap hf => exact h.tryMap hf
  | filter hh => exact h.filter _ hh
  | ignore => exact h.ignore.map fun _ _ _ => hV.unit
  | recognize =>
    have hs := h.recognize (L := Eq) fun c d c' d' hc hc' => hV.sliceFrom_eq hc hc'
    refine hs.map ?_
    rintro codes _ rfl
    exact hV.slice codes
  | spanned =>
    have hs := h.spanned (U := fun s s' => V (s.1.ofSpan s.2) (s'.1.ofSpan s'.2))
      fun x y c d c' d' hx hc hc' => hV.ofSpan hx hc hc'
    exact hs.map fun _ _ hx => hx
  | optional =>
    have hs := (h.repeated hT 0 (some 1)).map (U := fun x y => V (.ofOption x) (.ofOption y))
      fun _ _ hxs => hV.ofLast hxs
    exact hs.map fun _ _ hx => hx
  | repeated => exact (h.repeated hT _ _).map fun _ _ hxs => hV.list hxs
  | notFollowedBy => exact h.notFollowedBy.map fun _ _ _ => hV.unit
  | shared => exact h

theorem Connective.parsers_alike (hV : K.Trees V) {p p' : Parser σ w Tree} {q q' : Parser τ v Tree}
    (h : K.Parsers T V p q) (h' : K.Parsers T V p' q') (k : Connective) :
    K.Parsers T V (k.apply p p') (k.apply q q') := by
  cases k with
  | sequence keep => exact h.seqWith h' fun _ _ _ _ hx hx' => hV.combine keep hx hx'
  | choice choose =>
    exact h.orWith h' (fun _ _ hx => hV.onLeft choose hx) fun _ _ hx => hV.onRight choose hx
  | separatedList => exact (h.separatedList h').map fun _ _ hxs => hV.list hxs

end Descent
