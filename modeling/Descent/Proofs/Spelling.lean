import Mathlib
import Descent.Proofs.Containment
import Descent.Proofs.PureParser

namespace Descent
variable {σ : Type} {w : Input}

/-- The number of elements from the start on in which two lists agree. -/
def agreement (xs ys : List Int) : Nat := ((xs.zip ys).takeWhile fun p => p.1 == p.2).length

@[simp] theorem agreement_nil_left (ys : List Int) : agreement [] ys = 0 := rfl

@[simp] theorem agreement_nil_right (xs : List Int) : agreement xs [] = 0 := by
  cases xs <;> rfl

@[simp] theorem agreement_cons_self (x : Int) (xs ys : List Int) :
    agreement (x :: xs) (x :: ys) = agreement xs ys + 1 := by
  simp [agreement]

theorem agreement_cons_of_ne {x y : Int} (h : x ≠ y) (xs ys : List Int) :
    agreement (x :: xs) (y :: ys) = 0 := by
  simp [agreement, h]

theorem take_agreement (xs ys : List Int) :
    xs.take (agreement xs ys) = ys.take (agreement xs ys) := by
  induction xs generalizing ys with
  | nil => simp
  | cons x xs ih =>
    cases ys with
    | nil => simp
    | cons y ys =>
      by_cases h : x = y
      · subst h
        simp [ih]
      · simp [agreement_cons_of_ne h]

theorem agreement_le (xs ys : List Int) :
    agreement xs ys ≤ xs.length ∧ agreement xs ys ≤ ys.length := by
  have h : agreement xs ys ≤ (xs.zip ys).length := (List.takeWhile_sublist _).length_le
  rw [List.length_zip] at h
  omega

theorem ne_of_getElem?_agreement {xs ys : List Int} {x y : Int}
    (hx : xs[agreement xs ys]? = some x) (hy : ys[agreement xs ys]? = some y) : x ≠ y := by
  induction xs generalizing ys with
  | nil => simp at hx
  | cons x' xs ih =>
    cases ys with
    | nil => simp at hy
    | cons y' ys =>
      by_cases h : x' = y'
      · subst h
        exact ih (by simpa using hx) (by simpa using hy)
      · rw [agreement_cons_of_ne h] at hx hy
        cases hx
        cases hy
        exact h

/-- The agreement is the length of the longest common prefix. -/
theorem length_le_agreement {xs ys zs : List Int} (hx : zs <+: xs) (hy : zs <+: ys) :
    zs.length ≤ agreement xs ys := by
  obtain ⟨xs, rfl⟩ := hx
  obtain ⟨ys, rfl⟩ := hy
  induction zs with
  | nil => exact Nat.zero_le _
  | cons z zs ih => simpa using ih

theorem agreement_eq_length_iff {xs ys : List Int} : agreement xs ys = ys.length ↔ ys <+: xs := by
  constructor
  · intro h
    have htake := take_agreement xs ys
    rw [h, List.take_length] at htake
    exact List.prefix_iff_eq_take.mpr htake.symm
  · intro h
    exact Nat.le_antisymm (agreement_le xs ys).2 (length_le_agreement h (List.prefix_refl ys))

theorem getElem?_agreement_eq_none_iff {xs ys : List Int} :
    ys[agreement xs ys]? = none ↔ ys <+: xs := by
  rw [List.getElem?_eq_none_iff, ← agreement_eq_length_iff]
  exact ⟨Nat.le_antisymm (agreement_le xs ys).2, fun h => Nat.le_of_eq h.symm⟩

namespace Cursor

theorem remaining_of_element? {c : Cursor w} {x : Int} (h : c.element? = some x) :
    c.remaining = x :: c.next.remaining := by
  obtain ⟨hlt, hx⟩ := Array.getElem?_eq_some_iff.mp h
  rw [remaining_eq_drop, remaining_eq_drop, next_position_of_element? h,
    List.drop_eq_getElem_cons (by simpa using hlt)]
  simp [hx]

theorem remaining_of_eq_none {c : Cursor w} (h : c.element? = none) : c.remaining = [] := by
  rw [remaining_eq_drop, (element?_eq_none_iff c).mp h]
  exact List.drop_of_length_le (by simp [Input.size])

theorem remaining_inj {c d : Cursor w} : c.remaining = d.remaining ↔ c = d := by
  refine ⟨fun h => ext ?_, fun h => by rw [h]⟩
  have hlength := congrArg List.length h
  rw [length_remaining, length_remaining] at hlength
  have hc := c.le_size
  have hd := d.le_size
  omega

theorem element?_of_remaining {c : Cursor w} {x : Int} {xs : List Int}
    (h : c.remaining = x :: xs) : c.element? = some x ∧ c.next.remaining = xs := by
  cases hx : c.element? with
  | none =>
    rw [remaining_of_eq_none hx] at h
    cases h
  | some y =>
    rw [remaining_of_element? hx] at h
    obtain ⟨rfl, rfl⟩ := List.cons.inj h
    exact ⟨rfl, rfl⟩

/-- Match `codes` from `c` as far as they agree with what remains there. Where an element differs,
`refusal` makes an error of the one expected and the one found. -/
def spell (refusal : Int → Int → Nat → ParseError) (codes : List Int) (c : Cursor w) :
    Outcome w (List Int) :=
  let n := agreement c.remaining codes
  match codes[n]?, c.remaining[n]? with
  | none, _ => .success codes (c.advance codes.length)
  | some _, none => .failure (.unexpectedEnd (c.position + n))
  | some e, some x => .failure (refusal e x (c.position + n))

variable {refusal : Int → Int → Nat → ParseError} {codes : List Int} {c : Cursor w}

theorem spell_nil : spell refusal [] c = .success [] c := by
  simp [spell, advance_zero]

theorem spell_cons_of_eq {e : Int} (h : c.element? = some e) :
    spell refusal (e :: codes) c = (spell refusal codes c.next).map (e :: ·) := by
  rw [spell, remaining_of_element? h, agreement_cons_self, spell]
  simp only [List.getElem?_cons_succ, next_position_of_element? h, Nat.add_right_comm _ 1,
    ← Nat.add_assoc]
  cases codes[agreement c.next.remaining codes]? with
  | none => simp [next_advance]
  | some e' =>
    cases c.next.remaining[agreement c.next.remaining codes]? <;> rfl

theorem spell_cons_of_ne {e x : Int} (h : c.element? = some x) (hne : x ≠ e) :
    spell refusal (e :: codes) c = .failure (refusal e x c.position) := by
  rw [spell, remaining_of_element? h, agreement_cons_of_ne hne]
  rfl

theorem spell_cons_of_eq_none {e : Int} (h : c.element? = none) :
    spell refusal (e :: codes) c = .failure (.unexpectedEnd c.position) := by
  rw [spell, remaining_of_eq_none h]
  rfl

theorem spell_append (codes codes' : List Int) (c : Cursor w) :
    spell refusal (codes ++ codes') c =
      (spell refusal codes c).andThen fun xs d => (spell refusal codes' d).map (xs ++ ·) := by
  induction codes generalizing c with
  | nil =>
    rw [spell_nil, Outcome.andThen_success]
    exact (Outcome.map_id' _).symm
  | cons e codes ih =>
    rw [List.cons_append]
    cases hx : c.element? with
    | none => rw [spell_cons_of_eq_none hx, spell_cons_of_eq_none hx, Outcome.andThen_failure]
    | some x =>
      by_cases he : x = e
      · subst he
        rw [spell_cons_of_eq hx, spell_cons_of_eq hx, ih]
        cases spell refusal codes c.next with
        | success xs d => simp
        | failure e' => simp
      · rw [spell_cons_of_ne hx he, spell_cons_of_ne hx he, Outcome.andThen_failure]

theorem advance_position_of_isPrefix {c : Cursor w} {codes : List Int} (h : codes <+: c.remaining) :
    (c.advance codes.length).position = c.position + codes.length := by
  have hle := h.length_le
  have hc := c.le_size
  rw [length_remaining] at hle
  rw [advance_position]
  omega

theorem eq_of_advance_eq {c : Cursor w} {xs ys : List Int} (hx : xs <+: c.remaining)
    (hy : ys <+: c.remaining) (h : c.advance xs.length = c.advance ys.length) : xs = ys := by
  have hposition := congrArg position h
  rw [advance_position_of_isPrefix hx, advance_position_of_isPrefix hy] at hposition
  have hlength : xs.length = ys.length := Nat.add_left_cancel hposition
  exact (List.prefix_of_prefix_length_le hx hy hlength.le).eq_of_length hlength

theorem remaining_advance {c : Cursor w} {xs ys : List Int} (h : c.remaining = xs ++ ys) :
    (c.advance xs.length).remaining = ys := by
  have hprefix : xs <+: c.remaining := ⟨ys, h.symm⟩
  rw [remaining_eq_drop, advance_position_of_isPrefix hprefix, ← List.drop_drop,
    ← remaining_eq_drop, h, List.drop_left]

theorem sliceFrom_of_isPrefix {c : Cursor w} {codes : List Int} (h : codes <+: c.remaining) :
    (c.advance codes.length).sliceFrom c.position = codes := by
  rw [sliceFrom, advance_position_of_isPrefix h, Nat.min_eq_left (Nat.le_add_right _ _),
    Input.slice_eq, Nat.add_sub_cancel_left, ← remaining_eq_drop]
  exact (List.prefix_iff_eq_take.mp h).symm

end Cursor

def elementRefusal (w : Input) (e x : Int) : Nat → ParseError :=
  .literalMismatch (Parser.expectedFound w (w.kind.describe e) x)

def literalRefusal (w : Input) (codes : List Int) (e x : Int) : Nat → ParseError :=
  .literalMismatch (Parser.expectedFound w (w.kind.describe e) x
    ++ " while matching '" ++ w.kind.describeAll codes ++ "'")

theorem Spells.eq_spell {whole rest : List Int} {c : Cursor w} {o : Outcome w (List Int)}
    (h : Spells whole rest c o) : o = c.spell (literalRefusal w whole) rest := by
  induction h with
  | done => rw [Cursor.spell_nil]
  | go hx _ ih => rw [Cursor.spell_cons_of_eq hx, ih]
  | differs hx hne => rw [Cursor.spell_cons_of_ne hx hne, literalRefusal]
  | ended hx => rw [Cursor.spell_cons_of_eq_none hx]

theorem Parser.literal_apply_spell (codes : List Int) (c : Cursor w) (t : Trail σ) :
    literal codes c t = .ok (c.spell (literalRefusal w codes) codes, t) := by
  obtain ⟨o, ho⟩ := Spells.exists_outcome codes codes c
  rw [literal_apply ho t, ho.eq_spell]

theorem Parser.recognize_apply {α : Type} {p : Parser σ w α} {c : Cursor w} {o : Outcome w α}
    {t u : Trail σ} (h : p c t = .ok (o, u)) : recognize p c t =
      .ok (o.andThen fun _ d => .success (d.sliceFrom c.position) d, u) := by
  rw [recognize, Run.bind_apply, h]
  cases o with
  | failure e => rfl
  | success x d =>
    dsimp only
    rw [Run.bind_apply, Run.slice_apply ⟨Nat.min_le_right _ _, d.le_size⟩]
    rfl

/-- Parsers of single elements, put together to a sequence with brackets. -/
inductive Spelling
  | nothing
  | single (e : Int)
  | both (keep : Keep) (first second : Spelling)

namespace Spelling

def toList : Spelling → List Int
  | nothing => []
  | single e => [e]
  | both _ a b => a.toList ++ b.toList

def parser : Spelling → Parser σ w Tree
  | nothing => Terminal.parser (.succeed .unit)
  | single e => Terminal.parser (.is e)
  | both keep a b => Connective.apply (.sequence keep) a.parser b.parser

/-- The elements of a list one after the other, grouped to the left. -/
def ofList : List Int → Spelling
  | [] => nothing
  | e :: es => es.foldl (fun s e => both .both s (single e)) (single e)

theorem toList_ofList (codes : List Int) : (ofList codes).toList = codes := by
  have hfoldl (s : Spelling) (es : List Int) :
      (es.foldl (fun s e => both .both s (single e)) s).toList = s.toList ++ es := by
    induction es generalizing s with
    | nil => simp
    | cons e es ih => simp [ih, toList]
  cases codes with
  | nil => rfl
  | cons e es => exact hfoldl (single e) es

/-- A sequence ends where its elements end, and fails where the first of them fails. -/
theorem parser_apply (s : Spelling) (c : Cursor w) (t : Trail σ) : ∃ o, s.parser c t = .ok (o, t) ∧
    o.map (fun _ => ()) = (c.spell (elementRefusal w) s.toList).map fun _ => () := by
  induction s generalizing c with
  | nothing =>
    refine ⟨_, rfl, ?_⟩
    rw [toList, Cursor.spell_nil]
    rfl
  | single e =>
    rw [toList]
    cases hx : c.element? with
    | none =>
      refine ⟨_, Terminal.parser_apply (.ended .is hx) t, ?_⟩
      rw [Cursor.spell_cons_of_eq_none hx]
      rfl
    | some x =>
      by_cases he : x = e
      · refine ⟨_, Terminal.parser_apply (.accept .is hx he) t, ?_⟩
        rw [Cursor.spell_cons_of_eq (he ▸ hx), Cursor.spell_nil]
        rfl
      · refine ⟨_, Terminal.parser_apply (.refuse .is hx he) t, ?_⟩
        rw [Cursor.spell_cons_of_ne hx he]
        rfl
  | both keep a b iha ihb =>
    obtain ⟨o, ho, hoa⟩ := iha c
    rw [toList, Cursor.spell_append, parser, Connective.apply, Parser.seqWith, Run.bind_apply, ho]
    cases hs : c.spell (elementRefusal w) a.toList with
    | failure e =>
      rw [hs] at hoa
      cases o with
      | failure e' => exact ⟨.failure e', rfl, hoa⟩
      | success x d => cases hoa
    | success xs d =>
      rw [hs] at hoa
      cases o with
      | failure e' => cases hoa
      | success x d' =>
        -- The second part starts where the elements of the first one end.
        obtain rfl : d' = d := (Outcome.success.inj hoa).2
        obtain ⟨o', ho', hob⟩ := ihb d'
        dsimp only
        rw [Run.bind_apply, ho', Outcome.andThen_success, Outcome.map_map, ← hob]
        cases o' with
        | failure e' => exact ⟨.failure e', rfl, rfl⟩
        | success y d => exact ⟨.success (keep.combine x y) d, rfl, rfl⟩

end Spelling

/-- How a literal ends at `c` and, beside it, its elements in a row. -/
inductive Compared (codes : List Int) (c : Cursor w) :
    Outcome w (List Int) → Outcome w (List Int) → Prop
  /-- All of it remains. -/
  | whole {d} : codes <+: c.remaining → d.position = c.position + codes.length →
      d.sliceFrom c.position = codes → Compared codes c (.success codes d) (.success codes d)
  /-- The input ends within it. -/
  | cut : c.remaining <+: codes → c.remaining ≠ codes → Compared codes c
      (.failure (.unexpectedEnd w.size)) (.failure (.unexpectedEnd w.size))
  /-- After `n` elements `e` was expected and `x` found. -/
  | parted {n e x} : codes.take n = c.remaining.take n → codes[n]? = some e →
      c.remaining[n]? = some x → x ≠ e → Compared codes c
      (.failure (.literalMismatch (Parser.expectedFound w (w.kind.describe e) x
        ++ " while matching '" ++ w.kind.describeAll codes ++ "'") (c.position + n)))
      (.failure (.literalMismatch (Parser.expectedFound w (w.kind.describe e) x) (c.position + n)))

theorem compared_spell (codes : List Int) (c : Cursor w) :
    Compared codes c (c.spell (literalRefusal w codes) codes)
      (c.spell (elementRefusal w) codes) := by
  have htake := take_agreement c.remaining codes
  have hle := agreement_le c.remaining codes
  rw [Cursor.spell, Cursor.spell]
  cases he : codes[agreement c.remaining codes]? with
  | none =>
    have hall : codes <+: c.remaining := getElem?_agreement_eq_none_iff.mp he
    exact .whole hall (Cursor.advance_position_of_isPrefix hall) (Cursor.sliceFrom_of_isPrefix hall)
  | some e =>
    cases hx : c.remaining[agreement c.remaining codes]? with
    | none =>
      have hlength := Nat.le_antisymm hle.1 (List.getElem?_eq_none_iff.mp hx)
      have hend : c.position + agreement c.remaining codes = w.size := by
        rw [hlength, c.length_remaining]
        exact Nat.add_sub_cancel' c.le_size
      have hcut : c.remaining <+: codes := by
        rw [hlength, List.take_length] at htake
        exact List.prefix_iff_eq_take.mpr htake
      have hne : c.remaining ≠ codes := by
        intro heq
        rw [heq] at hx
        rw [heq, hx] at he
        cases he
      dsimp only
      rw [hend]
      exact .cut hcut hne
    | some x => exact .parted htake.symm he hx (ne_of_getElem?_agreement hx he)

theorem Compared.success_iff {codes : List Int} {c : Cursor w} {o o' : Outcome w (List Int)}
    (h : Compared codes c o o') : (∃ x d, o = .success x d) ↔ codes <+: c.remaining := by
  cases h with
  | whole hall => exact iff_of_true ⟨_, _, rfl⟩ hall
  | cut hcut hne =>
    refine iff_of_false (fun ⟨x, d, h⟩ => by cases h) fun hall => hne ?_
    exact hcut.eq_of_length (Nat.le_antisymm hcut.length_le hall.length_le)
  | @parted n e x htake he hx hne =>
    refine iff_of_false (fun ⟨x, d, h⟩ => by cases h) fun hall => hne ?_
    obtain ⟨rest, hrest⟩ := hall
    rw [← hrest, List.getElem?_append_left (List.getElem?_eq_some_iff.mp he).1, he] at hx
    exact (Option.some.inj hx).symm

/-- A literal succeeds exactly if it is a prefix of what remains. It ends as its elements do in a
row, whichever way these are put together, but for the reason of a mismatch. -/
theorem literal_as_elements (codes : List Int) (c : Cursor w) (t : Trail σ) :
    ((∃ x d u, Parser.literal codes c t = .ok (.success x d, u)) ↔ codes <+: c.remaining) ∧
      (Spelling.ofList codes).toList = codes ∧
      ∃ o o', Compared codes c o o' ∧ Parser.literal codes c t = .ok (o, t) ∧
        ∀ s : Spelling, s.toList = codes → Parser.recognize s.parser c t = .ok (o', t) := by
  have hcompared := compared_spell codes c
  have hliteral := Parser.literal_apply_spell codes c t
  refine ⟨?_, Spelling.toList_ofList codes, _, _, hcompared, hliteral, fun s hs => ?_⟩
  · rw [← hcompared.success_iff, hliteral]
    refine ⟨fun ⟨x, d, u, h⟩ => ?_, fun ⟨x, d, h⟩ => ⟨x, d, t, by rw [h]⟩⟩
    exact ⟨x, d, congrArg Prod.fst (Except.ok.inj h)⟩
  · obtain ⟨o, ho, hends⟩ := s.parser_apply c t
    rw [hs] at hends
    rw [Parser.recognize_apply ho]
    generalize c.spell (literalRefusal w codes) codes = ol at hcompared
    generalize c.spell (elementRefusal w) codes = os at hcompared hends
    cases hcompared with
    | whole hall hposition hslice =>
      cases o with
      | failure e => cases hends
      | success x d =>
        obtain rfl := (Outcome.success.inj hends).2
        rw [Outcome.andThen_success, hslice]
    | _ =>
      cases o with
      | failure e => rw [Outcome.failure.inj hends, Outcome.andThen_failure]
      | success x d => cases hends

theorem literal_as_elements_brackets :
    let w : Input := ⟨.byte, #[120, 97, 98, 100], by decide⟩
    let s : Spelling := .both .right (.single 97) (.both .both (.both .left .nothing (.single 98))
      (.single 99))
    let c : Cursor w := (Cursor.start w).next
    s.toList = [97, 98, 99] ∧ ∀ t : Trail Unit,
      Parser.literal [97, 98, 99] c t =
        .ok (.failure (.literalMismatch "expected 'c', found 'd' while matching 'abc'" 3), t) ∧
      Parser.recognize s.parser c t =
        .ok (.failure (.literalMismatch "expected 'c', found 'd'" 3), t) := by
  intro w s c
  have hs : s.toList = [97, 98, 99] := by decide
  refine ⟨hs, fun t => ?_⟩
  obtain ⟨-, -, o, o', hcompared, hliteral, hrecognize⟩ := literal_as_elements [97, 98, 99] c t
  have hremaining : c.remaining = [97, 98, 100] := by decide
  have hmessage : Parser.expectedFound w (w.kind.describe 99) 100 = "expected 'c', found 'd'" ∧
      w.kind.describeAll [97, 98, 99] = "abc" := by
    decide +kernel
  rw [hliteral, hrecognize s hs]
  cases hcompared with
  | whole hall =>
    rw [hremaining] at hall
    exact absurd hall (by decide)
  | cut hcut =>
    rw [hremaining] at hcut
    exact absurd hcut (by decide)
  | @parted n e x htake he hx hne =>
    rw [hremaining] at hx
    match n with
    | 0 =>
      cases he
      exact absurd (Option.some.inj hx).symm hne
    | 1 =>
      cases he
      exact absurd (Option.some.inj hx).symm hne
    | 2 =>
      cases he
      cases hx
      rw [hmessage.1, hmessage.2]
      exact ⟨rfl, rfl⟩
    | n + 3 => cases he
end Descent
