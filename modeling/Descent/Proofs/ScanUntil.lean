import Mathlib
import Descent.Proofs.Losslessness
import Descent.Proofs.SeparatedList
import Descent.Proofs.Spelling

namespace Descent
variable {σ : Type} {w : Input} {α : Type}

/-- The positions from `c` on at which `f` succeeds, the end of the input included. -/
def Cursor.matchesFrom (f : Cursor w → Outcome w α) (c : Cursor w) : Set Nat :=
  {i | c.position ≤ i ∧ ∃ a : Cursor w, a.position = i ∧ ∃ x b, f a = .success x b}

/-- Take elements until `p` matches or none is left, and yield them as a slice. -/
def Parser.scanUntil (p : Parser σ w α) : Parser σ w (List Int) :=
  recognize (many (andRight (notFollowedBy p) any))

namespace Outcome

def negated (c : Cursor w) : Outcome w α → Outcome w Unit
  | failure _ => success () c
  | success _ _ => failure (.custom "negative lookahead failed: unexpected match" c.position)

/-- The element at `c`. -/
def ofElement (c : Cursor w) : Outcome w Int :=
  match c.element? with
  | none => failure (.unexpectedEnd c.position)
  | some x => success x c.next

theorem ofElement_of_some {c : Cursor w} {x : Int} (h : c.element? = some x) :
    ofElement c = success x c.next := by
  rw [ofElement, h]

theorem ofElement_of_none {c : Cursor w} (h : c.element? = none) :
    ofElement c = failure (.unexpectedEnd c.position) := by
  rw [ofElement, h]

end Outcome

namespace Parser
variable {p : Parser σ w α} {f : Cursor w → Outcome w α} {mark : Cursor w → Trail σ → Trail σ}

theorem IsPure.notFollowedBy (hp : p.IsPure f mark) :
    (Parser.notFollowedBy p).IsPure (fun c => (f c).negated c) mark := by
  intro c t
  rw [Parser.notFollowedBy, hp.bind_apply]
  dsimp only
  cases f c <;> rfl

theorem isPure_any : (any : Parser σ w Int).IsPure Outcome.ofElement fun _ t => t := by
  intro c t
  rw [any, Outcome.ofElement]
  cases c.element? <;> rfl

theorem IsPure.untilMatch (hp : p.IsPure f mark) :
    (Parser.andRight (Parser.notFollowedBy p) any).IsPure
      (fun c => ((f c).negated c).andThen fun _ d => Outcome.ofElement d) mark := by
  intro c t
  rw [hp.notFollowedBy.andRight isPure_any]
  dsimp only
  cases f c <;> rfl

end Parser

/-- A scan from `c` for what `f` tells stops at `q`. -/
structure Cursor.Scan (f : Cursor w → Outcome w α) (c q : Cursor w) : Prop where
  le : c.position ≤ q.position
  before : ∀ a : Cursor w, c.position ≤ a.position → a.position < q.position →
    ∃ e, f a = .failure e
  stops : (∃ x d, f q = .success x d) ∨ q.position = w.size

namespace Cursor.Scan
variable {f : Cursor w → Outcome w α} {c q : Cursor w}

theorem here (h : (∃ x d, f c = .success x d) ∨ c.position = w.size) : Scan f c c :=
  ⟨Nat.le_refl _, fun _ hca hac => absurd hac (Nat.not_lt_of_le hca), h⟩

theorem skip {x : Int} {e : ParseError} (hx : c.element? = some x) (he : f c = .failure e)
    (h : Scan f c.next q) : Scan f c q := by
  have hnext := next_position_of_element? hx
  have hle := h.le
  refine ⟨by omega, fun a hca haq => ?_, h.stops⟩
  rcases Nat.eq_or_lt_of_le hca with heq | hlt
  · exact ⟨e, Cursor.ext heq ▸ he⟩
  · exact h.before a (by omega) haq

theorem not_mem_of_lt (h : Scan f c q) {i : Nat} (hi : i < q.position) : i ∉ c.matchesFrom f := by
  rintro ⟨hci, a, rfl, x, b, hx⟩
  obtain ⟨e, he⟩ := h.before a hci hi
  cases hx.symm.trans he

theorem isLeast (h : Scan f c q) {x : α} {d : Cursor w} (hx : f q = .success x d) :
    IsLeast (c.matchesFrom f) q.position :=
  ⟨⟨h.le, q, rfl, x, d, hx⟩, fun _ hi => Nat.le_of_not_lt fun hlt => h.not_mem_of_lt hlt hi⟩

theorem eq_empty (h : Scan f c q) {e : ParseError} (he : f q = .failure e) :
    c.matchesFrom f = ∅ ∧ q.position = w.size := by
  have hend : q.position = w.size := by
    refine h.stops.resolve_left ?_
    rintro ⟨x, d, hx⟩
    cases hx.symm.trans he
  refine ⟨Set.eq_empty_iff_forall_notMem.mpr fun i hi => ?_, hend⟩
  rcases Nat.lt_or_ge i q.position with hlt | hge
  · exact h.not_mem_of_lt hlt hi
  · obtain ⟨-, a, rfl, x, b, hx⟩ := hi
    have ha := a.le_size
    obtain rfl : a = q := Cursor.ext (by omega)
    cases hx.symm.trans he

theorem first_or_end (h : Scan f c q) : IsLeast (c.matchesFrom f) q.position ∨
    c.matchesFrom f = ∅ ∧ q.position = w.size := by
  cases hq : f q with
  | success x d => exact .inl (h.isLeast hq)
  | failure e => exact .inr (h.eq_empty hq)

/-- Where a scan stops there is a match exactly if there is one anywhere. -/
theorem success_iff (h : Scan f c q) : (∃ x d, f q = .success x d) ↔
    ∃ a : Cursor w, c.position ≤ a.position ∧ ∃ x b, f a = .success x b := by
  refine ⟨fun hq => ⟨q, h.le, hq⟩, fun ⟨a, hle, hsome⟩ => ?_⟩
  cases hq : f q with
  | success x d => exact ⟨x, d, rfl⟩
  | failure e =>
    have hmem : a.position ∈ c.matchesFrom f := ⟨hle, a, rfl, hsome⟩
    rw [(h.eq_empty hq).1] at hmem
    exact hmem.elim

end Cursor.Scan

namespace Parser
variable {p : Parser σ w α} {f : Cursor w → Outcome w α} {mark : Cursor w → Trail σ → Trail σ}

theorem IsPure.many_untilMatch (hp : p.IsPure f mark) (c : Cursor w) (t : Trail σ) :
    ∃ xs q u, Cursor.Scan f c q ∧
      many (Parser.andRight (Parser.notFollowedBy p) any) c t = .ok (.success xs q, u) := by
  -- Every element taken leaves less of the input, so the loop never stops for want of progress.
  induction c using Cursor.backward_induction generalizing t with
  | step c ih =>
  rw [many_apply, hp.untilMatch.bind_apply]
  cases hc : f c with
  | success x d => exact ⟨[], c, mark c t, .here (.inl ⟨x, d, hc⟩), rfl⟩
  | failure e =>
    dsimp only [Outcome.negated, Outcome.andThen_success]
    cases hx : c.element? with
    | none =>
      rw [Outcome.ofElement_of_none hx]
      exact ⟨[], c, mark c t, .here (.inr (c.element?_eq_none_iff.mp hx)), rfl⟩
    | some x =>
      have hgo : c.position < c.next.position := by
        rw [Cursor.next_position_of_element? hx]
        exact Nat.lt_succ_self _
      obtain ⟨xs, q, u, hscan, hmany⟩ := ih c.next hgo (mark c t)
      rw [Outcome.ofElement_of_some hx]
      dsimp only
      rw [if_pos hgo, map_eq_pure_bind, Run.bind_apply, hmany]
      exact ⟨x :: xs, q, u, hscan.skip hx hc, rfl⟩

theorem IsPure.scanUntil_apply (hp : p.IsPure f mark) (c : Cursor w) (t : Trail σ) :
    ∃ q u, Cursor.Scan f c q ∧
      Parser.scanUntil p c t = .ok (.success (w.slice c.position q.position) q, u) := by
  obtain ⟨xs, q, u, hscan, hmany⟩ := hp.many_untilMatch c t
  refine ⟨q, u, hscan, ?_⟩
  rw [Parser.scanUntil, recognize_apply hmany, Outcome.andThen_success,
    Cursor.sliceFrom_eq hscan.le]

/-- A scan for a pure parser succeeds wherever it starts, and consumes exactly the input up to the
least position at which the parser succeeds, or up to the end if there is none. With the parser
behind it, it ends as the parser does from there, and has the text before as a slice; so it succeeds
exactly if the parser does at some position from its start on, the end included. -/
theorem scanUntil_finds_first (hp : p.IsPure f mark) (c : Cursor w) (t : Trail σ) :
    ∃ q u, c.position ≤ q.position ∧
      (IsLeast (c.matchesFrom f) q.position ∨
        c.matchesFrom f = ∅ ∧ q.position = w.size) ∧
      scanUntil p c t = .ok (.success (w.slice c.position q.position) q, u) ∧
      seqWith Prod.mk (scanUntil p) p c t =
        .ok ((f q).map (Prod.mk (w.slice c.position q.position)), mark q u) ∧
      ((∃ r d u', seqWith Prod.mk (scanUntil p) p c t = .ok (.success r d, u')) ↔
        ∃ a : Cursor w, c.position ≤ a.position ∧ ∃ x b, f a = .success x b) := by
  obtain ⟨q, u, hscan, hrun⟩ := hp.scanUntil_apply c t
  have hboth : seqWith Prod.mk (scanUntil p) p c t =
      .ok ((f q).map (Prod.mk (w.slice c.position q.position)), mark q u) := by
    rw [seqWith, Run.bind_apply, hrun]
    dsimp only
    rw [hp.bind_apply]
    cases f q <;> rfl
  refine ⟨q, u, hscan.le, hscan.first_or_end, hrun, hboth, ?_⟩
  rw [← hscan.success_iff, hboth]
  cases f q with
  | success x d => exact ⟨fun _ => ⟨x, d, rfl⟩, fun _ => ⟨_, d, _, rfl⟩⟩
  | failure e =>
    constructor
    · rintro ⟨r, d, u', h⟩
      cases h
    · rintro ⟨x, d, h⟩
      cases h

/-- A comment is read up to the first of two ends; an asterisk alone does not end it. -/
theorem scanUntil_finds_first_comment :
    let w : Input := ⟨.byte, #[97, 42, 98, 42, 47, 42, 47], by decide⟩
    let p : Parser Unit w (List Int) := literal [42, 47]
    let f : Cursor w → Outcome w (List Int) := fun c => c.spell (literalRefusal w [42, 47]) [42, 47]
    let c := Cursor.start w
    let t : Trail Unit := ⟨#[], ()⟩
    p.IsPure f (fun _ t => t) ∧
      scanUntil p c t = .ok (.success [97, 42, 98] ⟨3, by decide⟩, t) ∧
      IsLeast (c.matchesFrom f) 3 ∧
      ∃ r d u', seqWith Prod.mk (scanUntil p) p c t = .ok (.success r d, u') := by
  intro w p f c t
  have hp : p.IsPure f (fun _ t => t) := literal_apply_spell [42, 47]
  have hend : f ⟨3, by decide⟩ = .success [42, 47] ⟨5, by decide⟩ := by cbv
  have hrun : scanUntil p c t = .ok (.success [97, 42, 98] ⟨3, by decide⟩, t) := by cbv
  obtain ⟨q, u, -, hfirst, hscan, -, hiff⟩ := scanUntil_finds_first hp c t
  have hq : ⟨3, by decide⟩ = q := by
    have h := Except.ok.inj (hrun.symm.trans hscan)
    exact (Outcome.success.inj (Prod.mk.inj h).1).2
  refine ⟨hp, hrun, ?_, hiff.mpr ⟨⟨3, by decide⟩, Nat.zero_le 3, _, _, hend⟩⟩
  rw [← hq] at hfirst
  rcases hfirst with hleast | ⟨-, hsize⟩
  · exact hleast
  · exact absurd hsize (by decide)

end Parser

end Descent
