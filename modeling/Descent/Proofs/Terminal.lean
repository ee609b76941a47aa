import Descent.Grammar.Meaning
import Descent.Proofs.Combinator

namespace Descent
variable {σ : Type} {w : Input}

namespace Input

theorem le_size_of_mismatch?_eq_none {p : Nat} {codes : List Int} (hp : p ≤ w.size)
    (h : w.mismatch? p codes = none) : p + codes.length ≤ w.size := by
  induction codes generalizing p with
  | nil => simpa using hp
  | cons e rest ih =>
    rw [mismatch?] at h
    split at h
    case isTrue he =>
      have hlt : p < w.codes.size := (Array.getElem?_eq_some_iff.mp he).1
      have hrest := ih hlt h
      simp only [List.length_cons]
      omega
    case isFalse => simp at h

theorem slice_eq_of_mismatch?_eq_none {p : Nat} {codes : List Int}
    (h : w.mismatch? p codes = none) : w.slice p (p + codes.length) = codes := by
  rw [slice_eq, Nat.add_sub_cancel_left]
  induction codes generalizing p with
  | nil => simp
  | cons e rest ih =>
    rw [mismatch?] at h
    split at h
    case isTrue he =>
      obtain ⟨hlt, he⟩ := Array.getElem?_eq_some_iff.mp he
      have hdrop : w.codes.toList.drop p = e :: w.codes.toList.drop (p + 1) := by
        rw [List.drop_eq_getElem_cons (by simpa using hlt)]
        simp [he]
      rw [hdrop, List.length_cons, List.take_succ_cons, ih h]
    case isFalse => simp at h

/-- What a literal expected where it fails is an element of its own, and the input repeats all
elements before that one. -/
theorem getElem_of_mismatch?_eq_some {p q : Nat} {e : Int} {codes : List Int}
    (h : w.mismatch? p codes = some (q, e)) : ∃ n, ∃ hn : n < codes.length,
      q = p + n ∧ codes[n] = e ∧ w.codes[q]? ≠ some e ∧
        ∀ i (hi : i < n), w.codes[p + i]? = some codes[i] := by
  induction codes generalizing p with
  | nil => cases h
  | cons c rest ih =>
    rw [mismatch?] at h
    split at h
    case isTrue hc =>
      obtain ⟨n, hn, hq, he, hne, hbefore⟩ := ih h
      refine ⟨n + 1, Nat.succ_lt_succ hn, by omega, he, hne, fun i hi => ?_⟩
      cases i with
      | zero => exact hc
      | succ i =>
        have hplace : p + (i + 1) = p + 1 + i := by omega
        rw [hplace]
        exact hbefore i (Nat.lt_of_succ_lt_succ hi)
    case isFalse hc =>
      cases h
      exact ⟨0, Nat.succ_pos _, rfl, rfl, hc, fun i hi => absurd hi (Nat.not_lt_zero i)⟩

end Input

namespace Cursor

theorem next_position_of_element? {c : Cursor w} {x : Int} (h : c.element? = some x) :
    c.next.position = c.position + 1 := by
  have hlt : c.position < w.size := (Array.getElem?_eq_some_iff.mp h).1
  rw [next, advance_position]
  omega

theorem next_advance (c : Cursor w) (n : Nat) : c.next.advance n = c.advance (n + 1) := by
  ext
  simp only [next, advance_position]
  omega

end Cursor

/-- `Spells whole rest c o`: what is left of a literal `whole`, matched from `c`, has the
outcome `o`. -/
inductive Spells (whole : List Int) : List Int → Cursor w → Outcome w (List Int) → Prop
  | done {c} : Spells whole [] c (.success [] c)
  | go {e rest c o} : c.element? = some e → Spells whole rest c.next o →
      Spells whole (e :: rest) c (o.map (e :: ·))
  | differs {e rest c x} : c.element? = some x → x ≠ e → Spells whole (e :: rest) c
      (.failure (.literalMismatch (Parser.expectedFound w (w.kind.describe e) x
        ++ " while matching '" ++ w.kind.describeAll whole ++ "'") c.position))
  | ended {e rest c} : c.element? = none →
      Spells whole (e :: rest) c (.failure (.unexpectedEnd c.position))

namespace Terminal

/-- The terminals that read one element: those that satisfy `accepts` match, and any other causes
the error `refusal` at its position. -/
inductive Reads (w : Input) : Terminal → (Int → Prop) → (Int → Nat → ParseError) → Prop
  | any : Reads w any (fun _ => True) fun _ => .unexpectedEnd
  | is {e} : Reads w (is e) (· = e) fun x =>
      .literalMismatch (Parser.expectedFound w (w.kind.describe e) x)
  | range {low high} : Reads w (range low high) (fun x => low ≤ x ∧ x ≤ high) fun x =>
      .rangeMismatch (Parser.expectedFound w
        ("element in range " ++ w.kind.describe low ++ "-" ++ w.kind.describe high) x)
  | oneOf {set} : Reads w (oneOf set) (· ∈ set) fun x =>
      .rangeMismatch (Parser.expectedFound w ("one of " ++ Parser.listed w set) x)
  | noneOf {set} : Reads w (noneOf set) (· ∉ set) fun x =>
      .rangeMismatch (Parser.expectedFound w ("none of " ++ Parser.listed w set) x)
  | satisfy {holds expected} : Reads w (satisfy holds expected) (holds · = true) fun x =>
      .rangeMismatch (Parser.expectedFound w expected x)

/-- The outcome of a terminal at a cursor. -/
inductive Matches : Terminal → Cursor w → Outcome w Tree → Prop
  | accept {t accepts refusal c x} : Reads w t accepts refusal → c.element? = some x →
      accepts x → Matches t c (.success (.element x) c.next)
  | refuse {t accepts refusal c x} : Reads w t accepts refusal → c.element? = some x →
      ¬accepts x → Matches t c (.failure (refusal x c.position))
  | ended {t accepts refusal c} : Reads w t accepts refusal → c.element? = none →
      Matches t c (.failure (.unexpectedEnd c.position))
  | atEnd {c} : c.element? = none → Matches endOfInput c (.success .unit c)
  | beforeEnd {c x} : c.element? = some x → Matches endOfInput c
      (.failure (.literalMismatch (Parser.expectedFound w "end of input" x) c.position))
  | fail {reason c} : Matches (fail reason) c (.failure (.custom reason c.position))
  | succeed {value c} : Matches (succeed value) c (.success value c)
  | literal {codes c o} : Spells codes codes c o → Matches (literal codes) c (o.map .slice)

end Terminal

namespace Spells

theorem exists_outcome (whole rest : List Int) (c : Cursor w) : ∃ o, Spells whole rest c o := by
  induction rest generalizing c with
  | nil => exact ⟨_, .done⟩
  | cons e rest ih =>
    cases hx : c.element? with
    | none => exact ⟨_, .ended hx⟩
    | some x =>
      by_cases he : x = e
      · subst he
        obtain ⟨o, ho⟩ := ih c.next
        exact ⟨_, .go hx ho⟩
      · exact ⟨_, .differs hx he⟩

theorem eq_of_mismatch? {whole rest : List Int} {c : Cursor w} {o : Outcome w (List Int)}
    (h : Spells whole rest c o) :
    o = match w.mismatch? c.position rest with
      | none => .success rest (c.advance rest.length)
      | some (p, e) => match w.codes[p]? with
        | none => .failure (.unexpectedEnd p)
        | some x => .failure (.literalMismatch (Parser.expectedFound w (w.kind.describe e) x
            ++ " while matching '" ++ w.kind.describeAll whole ++ "'") p) := by
  induction h with
  | @done c =>
    have hc : c.advance 0 = c := by
      ext
      rw [Cursor.advance_position]
      exact Nat.min_eq_left c.le_size
    simp [Input.mismatch?, hc]
  | @go e rest c o hx _ ih =>
    rw [Input.mismatch?, if_pos (show w.codes[c.position]? = some e from hx),
      ← Cursor.next_position_of_element? hx, ih]
    cases w.mismatch? c.next.position rest with
    | none => simp [Cursor.next_advance]
    | some r =>
      dsimp only
      cases w.codes[r.1]? <;> rfl
  | @differs e rest c x hx hne =>
    have hne' : ¬w.codes[c.position]? = some e := by
      intro he
      exact hne (Option.some.inj (hx.symm.trans he))
    rw [Input.mismatch?, if_neg hne']
    simp only [show w.codes[c.position]? = some x from hx]
  | @ended e rest c hx =>
    have hx' : w.codes[c.position]? = none := hx
    rw [Input.mismatch?, if_neg (by simp [hx'])]
    simp only [hx']

end Spells

namespace Parser

theorem element_apply_of_accepts {accepts : Int → Bool} {refusal : Int → Nat → ParseError}
    {c : Cursor w} {x : Int} (hx : c.element? = some x) (ha : accepts x = true) (u : Trail σ) :
    element accepts refusal c u = .ok (.success x c.next, u) := by
  rw [element, hx]
  dsimp only
  rw [if_pos ha]
  rfl

theorem element_apply_of_refuses {accepts : Int → Bool} {refusal : Int → Nat → ParseError}
    {c : Cursor w} {x : Int} (hx : c.element? = some x) (ha : ¬accepts x = true) (u : Trail σ) :
    element accepts refusal c u = .ok (.failure (refusal x c.position), u) := by
  rw [element, hx]
  dsimp only
  rw [if_neg ha]
  rfl

theorem element_apply_of_eq_none {accepts : Int → Bool} {refusal : Int → Nat → ParseError}
    {c : Cursor w} (hx : c.element? = none) (u : Trail σ) :
    element accepts refusal c u = .ok (.failure (.unexpectedEnd c.position), u) := by
  rw [element, hx]
  rfl

theorem literal_apply {codes : List Int} {c : Cursor w} {o : Outcome w (List Int)}
    (h : Spells codes codes c o) (u : Trail σ) : literal codes c u = .ok (o, u) := by
  rw [literal, Run.bind_apply, Run.checkRange_apply ⟨c.le_size, Nat.le_refl _⟩, h.eq_of_mismatch?]
  dsimp only
  cases hm : w.mismatch? c.position codes with
  | none =>
    dsimp only
    have hle := Input.le_size_of_mismatch?_eq_none c.le_size hm
    rw [Run.bind_apply, Run.slice_apply ⟨Nat.le_add_right _ _, hle⟩,
      Input.slice_eq_of_mismatch?_eq_none hm]
    rfl
  | some r =>
    dsimp only
    cases w.codes[r.1]? <;> rfl

theorem map_apply {α β : Type} {f : α → β} {p : Parser σ w α} {c : Cursor w} {o : Outcome w α}
    {t u : Trail σ} (h : p c t = .ok (o, u)) : Parser.map f p c t = .ok (o.map f, u) := by
  rw [Parser.map, Run.bind_apply, h]
  cases o <;> rfl

end Parser

namespace Terminal

/-- The terminals that read one element are all run alike. -/
theorem Reads.parser_eq {t : Terminal} {accepts : Int → Prop} {refusal : Int → Nat → ParseError}
    (h : Reads w t accepts refusal) (σ : Type) : ∃ test : Int → Bool, (∀ x, test x = true ↔ accepts x) ∧
      (t.parser : Parser σ w Tree) = Parser.map .element (Parser.element test refusal) := by
  cases h with
  | any =>
    refine ⟨fun _ => true, by simp, ?_⟩
    have hany : (Parser.any : Parser σ w Int) = Parser.element (fun _ => true) fun _ =>
        .unexpectedEnd := by
      funext c
      rw [Parser.any, Parser.element]
      cases c.element? <;> rfl
    rw [parser, hany]
  | is => exact ⟨_, by simp, rfl⟩
  | range => exact ⟨_, by simp, rfl⟩
  | oneOf => exact ⟨_, by simp, rfl⟩
  | noneOf => exact ⟨_, by simp, rfl⟩
  | satisfy => exact ⟨_, by simp, rfl⟩

theorem Reads.exists_outcome {t : Terminal} {accepts : Int → Prop}
    {refusal : Int → Nat → ParseError} (h : Reads w t accepts refusal) (c : Cursor w) :
    ∃ o, t.Matches c o := by
  cases hx : c.element? with
  | none => exact ⟨_, .ended h hx⟩
  | some x =>
    by_cases ha : accepts x
    · exact ⟨_, .accept h hx ha⟩
    · exact ⟨_, .refuse h hx ha⟩

theorem exists_outcome (t : Terminal) (c : Cursor w) : ∃ o, t.Matches c o := by
  cases t with
  | any => exact Reads.any.exists_outcome c
  | is e => exact Reads.is.exists_outcome c
  | range low high => exact Reads.range.exists_outcome c
  | oneOf set => exact Reads.oneOf.exists_outcome c
  | noneOf set => exact Reads.noneOf.exists_outcome c
  | satisfy holds expected => exact Reads.satisfy.exists_outcome c
  | endOfInput =>
    cases hx : c.element? with
    | none => exact ⟨_, .atEnd hx⟩
    | some x => exact ⟨_, .beforeEnd hx⟩
  | fail reason => exact ⟨_, .fail⟩
  | succeed value => exact ⟨_, .succeed⟩
  | literal codes =>
    obtain ⟨o, ho⟩ := Spells.exists_outcome codes codes c
    exact ⟨_, .literal ho⟩

/-- A terminal has the outcome of its rules and leaves no trail. -/
theorem parser_apply {t : Terminal} {c : Cursor w} {o : Outcome w Tree} (h : t.Matches c o)
    (u : Trail σ) : t.parser c u = .ok (o, u) := by
  cases h with
  | accept hr hx ha =>
    obtain ⟨test, htest, hp⟩ := hr.parser_eq σ
    rw [hp]
    exact Parser.map_apply (Parser.element_apply_of_accepts hx ((htest _).mpr ha) u)
  | refuse hr hx ha =>
    obtain ⟨test, htest, hp⟩ := hr.parser_eq σ
    rw [hp]
    exact Parser.map_apply (Parser.element_apply_of_refuses hx (fun h => ha ((htest _).mp h)) u)
  | ended hr hx =>
    obtain ⟨test, _, hp⟩ := hr.parser_eq σ
    rw [hp]
    exact Parser.map_apply (Parser.element_apply_of_eq_none hx u)
  | atEnd hx =>
    refine Parser.map_apply (o := .success () _) ?_
    rw [Parser.endOfInput, hx]
    rfl
  | beforeEnd hx =>
    refine Parser.map_apply (o := .failure _) ?_
    rw [Parser.endOfInput, hx]
    rfl
  | fail => rfl
  | succeed => rfl
  | literal hs => exact Parser.map_apply (Parser.literal_apply hs u)

theorem meets_matches {I : σ → Prop} {A : Stop → Prop} (t : Terminal) (c : Cursor w) :
    Run.Meets I A (t.Matches c) (t.parser c) := by
  intro u hI
  obtain ⟨o, ho⟩ := t.exists_outcome c
  rw [parser_apply ho]
  exact ⟨ho, hI⟩

theorem Matches.unique {t : Terminal} {c : Cursor w} {o o' : Outcome w Tree} (h : t.Matches c o)
    (h' : t.Matches c o') : o = o' := by
  have hr := (parser_apply h (⟨#[], ()⟩ : Trail Unit)).symm.trans (parser_apply h' _)
  simpa using hr

end Terminal

end Descent
