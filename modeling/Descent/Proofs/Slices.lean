import Mathlib
import Descent.Proofs.Losslessness
import Descent.Proofs.Spelling
import Descent.Proofs.Splitting

namespace Descent
variable {σ : Type} {w : Input} {α β γ : Type}

/-- No run of `p` that succeeds has gone back. -/
def Parser.Forward (p : Parser σ w α) : Prop :=
  ∀ c t x d u, p c t = .ok (.success x d, u) → c.position ≤ d.position

theorem Parser.Sound.forward {p : Parser σ w α} (hp : p.Sound) : p.Forward :=
  fun c _ _ _ _ h => (hp c).of_ok trivial h

theorem Grammar.forward_parser (depth : Nat) (g : Grammar) :
    (g.parser depth : Parser Store w Tree).Forward :=
  Parser.Sound.forward (g.parser_sound depth)

/-- The spans lie end to end between two positions. -/
def Span.Abut : Nat → List (Span w) → Nat → Prop
  | start, [], stop => start = stop
  | start, s :: rest, stop => s.start = start ∧ Abut s.stop rest stop

namespace Parser

theorem recognize_eq_map (p : Parser σ w α) (c : Cursor w) : recognize p c =
    (fun o => o.andThen fun _ d => .success (d.sliceFrom c.position) d) <$> p c := by
  funext t
  rw [map_eq_pure_bind, Run.bind_apply]
  cases h : p c t with
  | error why => rw [recognize, Run.bind_apply, h]
  | ok r => exact recognize_apply h

theorem spanned_eq_map (p : Parser σ w α) (c : Cursor w) : spanned p c =
    (fun o => o.andThen fun x d => .success (x, ⟨c.position, d.position⟩) d) <$> p c := by
  rw [map_eq_pure_bind, spanned]
  refine bind_congr fun o => ?_
  cases o <;> rfl

theorem spanned_apply {p : Parser σ w α} {c : Cursor w} {o : Outcome w α} {t u : Trail σ}
    (h : p c t = .ok (o, u)) : spanned p c t =
      .ok (o.andThen fun x d => .success (x, ⟨c.position, d.position⟩) d, u) := by
  rw [spanned_eq_map, map_eq_pure_bind, Run.bind_apply, h]
  rfl

end Parser

theorem Span.length_of_le {c d : Cursor w} (h : c.position ≤ d.position) :
    (⟨c.position, d.position⟩ : Span w).length = d.position - c.position := by
  have hd := d.le_size
  have hsize : w.size = w.codes.toList.length := rfl
  rw [length, slice_eq_sliceFrom, Cursor.sliceFrom_eq h, Input.slice_eq, List.length_take,
    List.length_drop]
  omega

/-- From `c` to `d` there are matches with the values `xs`, none of which goes back, and `ys` is what
`f` tells of them. -/
inductive Pieces (f : Cursor w → α → Cursor w → β) : Cursor w → List α → List β → Cursor w → Prop
  | nil (c) : Pieces f c [] [] c
  | cons {c x d xs ys e} : c.position ≤ d.position → Pieces f d xs ys e →
      Pieces f c (x :: xs) (f c x d :: ys) e

namespace Pieces
variable {f : Cursor w → α → Cursor w → β} {c d e : Cursor w} {xs : List α} {ys : List β} {x : α}

theorem length_eq (h : Pieces f c xs ys d) : ys.length = xs.length := by
  induction h with
  | nil => rfl
  | cons _ _ ih => rw [List.length_cons, List.length_cons, ih]

theorem position_le (h : Pieces f c xs ys d) : c.position ≤ d.position := by
  induction h with
  | nil => exact Nat.le_refl _
  | cons hle _ ih => exact Nat.le_trans hle ih

theorem concat (h : Pieces f c xs ys d) (hle : d.position ≤ e.position) :
    Pieces f c (xs ++ [x]) (ys ++ [f d x e]) e := by
  induction h with
  | nil c => exact .cons hle (.nil e)
  | cons hle' _ ih => exact .cons hle' (ih hle)

theorem flatten_slices {ys : List (List Int)}
    (h : Pieces (fun c _ d => d.sliceFrom c.position) c xs ys d) :
    ys.flatten = d.sliceFrom c.position := by
  induction h with
  | nil c => rw [Cursor.sliceFrom_eq (Nat.le_refl _), Input.slice_self, List.flatten_nil]
  | cons hle hrest ih =>
    rw [List.flatten_cons, ih, Cursor.sliceFrom_eq hle, Cursor.sliceFrom_eq hrest.position_le,
      Input.slice_append hle hrest.position_le,
      Cursor.sliceFrom_eq (Nat.le_trans hle hrest.position_le)]

theorem abut_spans {ys : List (α × Span w)}
    (h : Pieces (fun c x d => (x, ⟨c.position, d.position⟩)) c xs ys d) :
    ys.map (·.1) = xs ∧ Span.Abut c.position (ys.map (·.2)) d.position := by
  induction h with
  | nil c => exact ⟨rfl, rfl⟩
  | cons _ _ ih => exact ⟨congrArg _ ih.1, rfl, ih.2⟩

end Pieces

/-- The outcomes of two repetitions, of which the second tells what `f` does. -/
inductive Outcome.Pieced (f : Cursor w → α → Cursor w → β) (c : Cursor w) :
    Outcome w (List α) → Outcome w (List β) → Prop
  | success {xs ys d} : Pieces f c xs ys d → Pieced f c (.success xs d) (.success ys d)
  | failure (e) : Pieced f c (.failure e) (.failure e)

namespace Parser
variable {p : Parser σ w α} {f : Cursor w → α → Cursor w → β} {q : Parser σ w β}

theorem Forward.related (hp : p.Forward) (c : Cursor w)
    (hq : q c = (fun o => o.andThen fun x d => .success (f c x d) d) <$> p c) :
    Run.Related Eq (fun o o' => o' = (o.andThen fun x d => .success (f c x d) d) ∧
      ∀ x d, o = .success x d → c.position ≤ d.position) (p c) (q c) := by
  rintro t _ rfl
  rw [hq, map_eq_pure_bind, Run.bind_apply]
  cases h : p c t with
  | error why => rfl
  | ok r =>
    refine ⟨⟨rfl, fun x d hx => hp c t x d r.2 ?_⟩, rfl⟩
    rw [h, ← hx]

/-- Beside a repetition of `p` runs one of a parser that tells more of the same matches. -/
theorem Forward.related_repeatFrom (hp : p.Forward)
    (hq : ∀ c, q c = (fun o => o.andThen fun x d => .success (f c x d) d) <$> p c) (min : Nat)
    (max : Option Nat) (start : Cursor w) (found : Array α) (c : Cursor w) (found' : Array β)
    (h : Pieces f start found.toList found'.toList c) :
    Run.Related Eq (Outcome.Pieced f start) (repeatFrom p min max found c)
      (repeatFrom q min max found' c) := by
  have hsize (found : Array α) (found' : Array β) (c : Cursor w)
      (h : Pieces f start found.toList found'.toList c) : found'.size = found.size := by
    simpa using h.length_eq
  -- At the maximum nothing is matched, so there is no turn on which to induct.
  have full {found : Array α} (hfull : ¬max.all (found.size < ·)) (c : Cursor w)
      (found' : Array β) (h : Pieces f start found.toList found'.toList c) :
      Run.Related Eq (Outcome.Pieced f start) (repeatFrom p min max found c)
        (repeatFrom q min max found' c) := by
    rw [repeatFrom, repeatFrom, hsize found found' c h, dif_neg hfull, dif_neg hfull]
    split
    · exact .pure (.success h)
    · exact .pure (.failure _)
  induction found, c using repeatFrom.induct min max generalizing found' with
  | case1 found c hroom ih =>
    rw [repeatFrom, repeatFrom, hsize found found' c h, dif_pos hroom, dif_pos hroom]
    refine (hp.related c (hq c)).bind ?_
    rintro o _ ⟨rfl, hle⟩
    cases o with
    | failure e =>
      dsimp only [Outcome.andThen_failure]
      split
      · exact .pure (.success h)
      · split
        · exact .pure (.failure _)
        · exact .pure (.failure _)
    | success x d =>
      have hnext : Pieces f start (found.push x).toList (found'.push (f c x d)).toList d := by
        rw [Array.toList_push, Array.toList_push]
        exact h.concat (hle x d rfl)
      dsimp only [Outcome.andThen_success]
      split
      case isTrue hgo => exact ih x d hgo _ hnext
      case isFalse => exact (Run.Related.refl _).bind fun _ _ _ => .pure (.success hnext)
  | case2 found c hfull _ => exact full hfull c found' h
  | case3 found c hfull _ => exact full hfull c found' h

theorem Forward.related_repeated (hp : p.Forward)
    (hq : ∀ c, q c = (fun o => o.andThen fun x d => .success (f c x d) d) <$> p c) (min : Nat)
    (max : Option Nat) (c : Cursor w) : Run.Related Eq (Outcome.Pieced f c)
      (repeated min max p c) (repeated min max q c) :=
  hp.related_repeatFrom hq min max c #[] c #[] (.nil c)

theorem Forward.recognize_repeated (hp : p.Forward) (min : Nat) (max : Option Nat) :
    recognize (repeated min max p) =
      Parser.map List.flatten (repeated min max (recognize p)) := by
  funext c
  rw [recognize_eq_map, map_eq_pure_bind]
  refine ((hp.related_repeated (recognize_eq_map p) min max c).bind fun o o' h => ?_).eq
  cases h with
  | failure e => exact .pure rfl
  | success h => exact .pure (by rw [Outcome.andThen_success, h.flatten_slices])

theorem Forward.spanned_repeated (hp : p.Forward) {min : Nat} {max : Option Nat} {c d : Cursor w}
    {t u : Trail σ} {xs : List α} (h : repeated min max p c t = .ok (.success xs d, u)) :
    ∃ ys, repeated min max (spanned p) c t = .ok (.success ys d, u) ∧ ys.map (·.1) = xs ∧
      Span.Abut c.position (ys.map (·.2)) d.position := by
  have hboth := hp.related_repeated (spanned_eq_map p) min max c t t rfl
  obtain ⟨⟨o, u'⟩, hrun, hpieced, rfl⟩ := hboth.exists_ok h
  cases hpieced with
  | success hpieces => exact ⟨_, hrun, hpieces.abut_spans⟩

theorem Forward.recognize_seqWith (hp : p.Forward) {q : Parser σ w β} (hq : q.Forward)
    (keep : α → β → γ) :
    recognize (seqWith keep p q) = append (recognize p) (recognize q) := by
  funext c
  rw [append_apply, recognize_eq_map, recognize_eq_map, seqWith]
  simp only [map_eq_pure_bind, bind_assoc]
  refine Run.bind_congr_of_ok fun t o u h => ?_
  cases o with
  | failure e => simp only [pure_bind, Outcome.andThen_failure]
  | success x d =>
    have hle := hp c t x d u h
    simp only [pure_bind, bind_assoc, Outcome.andThen_success, recognize_eq_map, map_eq_pure_bind]
    refine congrFun (Run.bind_congr_of_ok fun t' o' u' h' => ?_) u
    cases o' with
    | failure e => simp only [pure_bind, Outcome.andThen_failure, Outcome.map_failure]
    | success y e =>
      have hle' := hq d t' y e u' h'
      simp only [pure_bind, Outcome.andThen_success, Outcome.map_success, Cursor.sliceFrom_eq hle,
        Cursor.sliceFrom_eq hle', Cursor.sliceFrom_eq (Nat.le_trans hle hle'),
        Input.slice_append hle hle']

theorem seqWith_spanned_apply {p : Parser σ w α} {q : Parser σ w β} {c m d : Cursor w}
    {t u u' : Trail σ} {x : α} {y : β} (h : p c t = .ok (.success x m, u))
    (h' : q m u = .ok (.success y d, u')) : seqWith Prod.mk (spanned p) (spanned q) c t =
      .ok (.success ((x, ⟨c.position, m.position⟩), y, ⟨m.position, d.position⟩) d, u') := by
  rw [seqWith, Run.bind_apply, spanned_apply h]
  dsimp only [Outcome.andThen_success]
  rw [Run.bind_apply, spanned_apply h']
  rfl

/-- Let `p` never go back. Where it succeeds its slice is the input between start and end, and its
span names both, has the same slice and is as long as it; where it fails the error passes through.
The slice of a sequence is that of its first part and then that of its second part, whose spans abut.
The slice of a repetition, of whatever bounds, is made of the slices of its matches in order, whose
spans lie end to end. -/
theorem slices_compose {p : Parser σ w α} (hp : p.Forward) :
    (∀ c t x d u, p c t = .ok (.success x d, u) →
      recognize p c t = .ok (.success (w.slice c.position d.position) d, u) ∧
      ∃ s : Span w, spanned p c t = .ok (.success (x, s) d, u) ∧ s.start = c.position ∧
        s.stop = d.position ∧ s.slice = w.slice c.position d.position ∧
        s.length = d.position - c.position) ∧
    (∀ c t e u, p c t = .ok (.failure e, u) →
      recognize p c t = .ok (.failure e, u) ∧ spanned p c t = .ok (.failure e, u)) ∧
    (∀ {β γ : Type} (q : Parser σ w β) (keep : α → β → γ), q.Forward →
      recognize (seqWith keep p q) = append (recognize p) (recognize q) ∧
      ∀ c t x m u y d u', p c t = .ok (.success x m, u) → q m u = .ok (.success y d, u') →
        ∃ s s' : Span w,
          seqWith Prod.mk (spanned p) (spanned q) c t = .ok (.success ((x, s), y, s') d, u') ∧
          s.start = c.position ∧ s.stop = s'.start ∧ s'.stop = d.position) ∧
    ∀ min max,
      recognize (repeated min max p) =
        Parser.map List.flatten (repeated min max (recognize p)) ∧
      ∀ c t xs d u, repeated min max p c t = .ok (.success xs d, u) →
        ∃ ys, repeated min max (spanned p) c t = .ok (.success ys d, u) ∧ ys.map (·.1) = xs ∧
          Span.Abut c.position (ys.map (·.2)) d.position := by
  refine ⟨fun c t x d u h => ?_, fun c t e u h => ⟨recognize_apply h, spanned_apply h⟩,
    fun q keep hq => ⟨hp.recognize_seqWith hq keep, fun c t x m u y d u' h h' =>
      ⟨_, _, seqWith_spanned_apply h h', rfl, rfl, rfl⟩⟩,
    fun min max => ⟨hp.recognize_repeated min max, fun c t xs d u h => hp.spanned_repeated h⟩⟩
  have hle := hp c t x d u h
  have hslice := Cursor.sliceFrom_eq hle
  refine ⟨?_, ⟨c.position, d.position⟩, spanned_apply h, rfl, rfl, ?_, Span.length_of_le hle⟩
  · rw [recognize_apply h, Outcome.andThen_success, hslice]
  · rw [Span.slice_eq_sliceFrom, hslice]

theorem slices_compose_optional :
    let w : Input := ⟨.byte, #[120, 97, 97, 98], by decide⟩
    let f : Cursor w → Outcome w Bool := fun c =>
      if c.element? = some 97 then .success true c.next else .success false c
    let p : Parser Unit w Bool := fun c t => .ok (f c, t)
    let c : Cursor w := ⟨1, by decide⟩
    let d : Cursor w := ⟨3, by decide⟩
    let t : Trail Unit := ⟨#[], ()⟩
    p.Forward ∧ (∃ x e, p c t = .ok (.success x e, t)) ∧
      recognize p c t = .ok (.success [97] ⟨2, by decide⟩, t) ∧
      recognize (seqWith Prod.mk p p) = append (recognize p) (recognize p) ∧
      repeated 3 (some 3) p c t = .ok (.success [true, true, false] d, t) ∧
      repeated 3 (some 3) (recognize p) c t = .ok (.success [[97], [97], []] d, t) ∧
      recognize (repeated 3 (some 3) p) c t = .ok (.success [97, 97] d, t) ∧
      ∃ ys, repeated 3 (some 3) (spanned p) c t = .ok (.success ys d, t) ∧
        ys.map (·.1) = [true, true, false] ∧ Span.Abut 1 (ys.map (·.2)) 3 := by
  intro w f p c d t
  have hp : p.Forward := by
    intro c t x d u h
    have h : f c = .success x d := (Prod.mk.inj (Except.ok.inj h)).1
    dsimp only [f] at h
    split at h
    case isTrue =>
      cases h
      exact c.position_le_next
    case isFalse =>
      cases h
      exact Nat.le_refl _
  have hone : p c t = .ok (.success true ⟨2, by decide⟩, t) := by cbv
  have hvalues : repeated 3 (some 3) p c t = .ok (.success [true, true, false] d, t) := by cbv
  have hpieces : repeated 3 (some 3) (recognize p) c t =
      .ok (.success [[97], [97], []] d, t) := by
    cbv
  obtain ⟨hmatch, -, hseq, hrepeated⟩ := slices_compose hp
  obtain ⟨hslices, hspans⟩ := hrepeated 3 (some 3)
  refine ⟨hp, ⟨_, _, hone⟩, (hmatch c t true _ t hone).1, (hseq p Prod.mk hp).1, hvalues, hpieces,
    ?_, hspans c t _ d t hvalues⟩
  rw [hslices, Parser.map, Run.bind_apply, hpieces]
  rfl

end Parser

end Descent
