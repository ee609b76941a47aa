import Descent.Proofs.Containment
import Descent.Proofs.Repetition

namespace Descent
variable {σ : Type} {w : Input} {α : Type}

namespace Chain
variable {f : Cursor w → Outcome w α} {c d : Cursor w} {i j n : Nat}

/-- The match after `i` others consumes something. -/
def Advances (f : Cursor w → Outcome w α) (c : Cursor w) (i : Nat) : Prop :=
  (cursor f c i).position < (cursor f c (i + 1)).position

theorem cursor_of_fixed (h : (f d).leaves d = d) (n : Nat) : cursor f d n = d :=
  Function.iterate_fixed h n

theorem cursor_add (f : Cursor w → Outcome w α) (c : Cursor w) (i n : Nat) :
    cursor f c (i + n) = cursor f (cursor f c i) n := by
  rw [Nat.add_comm, cursor, Function.iterate_add_apply]
  rfl

theorem add_le_position (h : ∀ i < n, Advances f c i) :
    c.position + n ≤ (cursor f c n).position := by
  induction n with
  | zero => exact Nat.le_refl _
  | succ n ih =>
    have hn := ih fun i hi => h i (Nat.lt_succ_of_lt hi)
    have hlast : (cursor f c n).position < (cursor f c (n + 1)).position := h n n.lt_succ_self
    omega

section
variable (hforward : ∀ c x d, f c = .success x d → c.position ≤ d.position)
include hforward

theorem position_le_succ (c : Cursor w) (i : Nat) :
    (cursor f c i).position ≤ (cursor f c (i + 1)).position := by
  rw [cursor_succ]
  cases h : f (cursor f c i) with
  | failure e => exact Nat.le_refl _
  | success x d => exact hforward _ x d h

theorem cursor_eq_of_not_advances (h : ¬Advances f c i) (hij : i ≤ j) :
    cursor f c j = cursor f c i := by
  have hsame : cursor f c (i + 1) = cursor f c i :=
    Cursor.ext (Nat.le_antisymm (Nat.le_of_not_lt h) (position_le_succ hforward c i))
  obtain ⟨n, rfl⟩ := Nat.exists_eq_add_of_le hij
  rw [cursor_add]
  rw [cursor_succ] at hsame
  exact cursor_of_fixed hsame n

theorem Advances.of_le (h : Advances f c j) (hij : i ≤ j) : Advances f c i := by
  by_contra hno
  have hj := cursor_eq_of_not_advances hforward hno hij
  have hj' := cursor_eq_of_not_advances hforward hno (Nat.le_succ_of_le hij)
  rw [Advances, hj, hj'] at h
  exact Nat.lt_irrefl _ h

end

end Chain

namespace Repetition
open Chain (Advances)
variable {f : Cursor w → Outcome w α} {min : Nat} {c d : Cursor w} {xs ys : List α}
variable {o : Outcome w (List α)}

/-- Below the minimum a repetition does not stall, and above it only the last match consumes
nothing. -/
theorem advances_of_lt (h : Repetition f min none c xs o) {i : Nat} (hmin : min ≤ i + 1)
    (hi : i + 1 < xs.length) : Advances f c i := by
  by_contra hno
  have hhalt : Chain.Halts f min none c (i + 1) := .inr (.inr ⟨rfl, i.succ_pos, hmin, hno⟩)
  exact Nat.not_le_of_lt hi (h.least.2 hhalt)

theorem eq_of_success (h : Repetition f min none c xs o) (ho : o = .success ys d) :
    min ≤ xs.length ∧ ys = xs ∧ d = Chain.cursor f c xs.length := by
  have hmin : min ≤ xs.length := by
    by_contra hless
    have hless := Nat.lt_of_not_le hless
    rcases h.least.1 with hfull | ⟨e, he⟩ | hstall
    · cases hfull
    · rcases Nat.eq_zero_or_pos xs.length with hzero | hpos
      · rw [h.nothing e hless (by simp) he hzero] at ho
        cases ho
      · rw [h.tooFew e hless (by simp) he hpos] at ho
        cases ho
    · exact Nat.not_le_of_lt hless hstall.2.2.1
  rw [h.enough hmin] at ho
  obtain ⟨rfl, rfl⟩ := Outcome.success.inj ho
  exact ⟨hmin, rfl, rfl⟩

section
variable (hforward : ∀ c x d, f c = .success x d → c.position ≤ d.position)
include hforward

theorem length_le (h : Repetition f min none c xs o) :
    xs.length ≤ max min (c.remaining.length + 1) := by
  by_contra hlt
  obtain ⟨hmin, hrest⟩ := Nat.max_lt.mp (Nat.lt_of_not_le hlt)
  obtain ⟨n, hn⟩ := Nat.exists_eq_add_of_lt hrest
  -- The last match but one advances, so all before it do, and there is not room for them.
  have hlast : Advances f c (xs.length - 2) := h.advances_of_lt (by omega) (by omega)
  have hle := Chain.add_le_position fun i (hi : i < xs.length - 1) =>
    hlast.of_le hforward (by omega)
  have hsize := (Chain.cursor f c (xs.length - 1)).le_size
  rw [c.length_remaining] at hrest
  omega

theorem values_eq (h : Repetition f min none c xs o) {i j : Nat} (hi : i < xs.length)
    (hj : j < xs.length) (hij : i ≤ j) (hno : ¬Advances f c i) : xs[j] = xs[i] := by
  have hxi := h.values i hi
  have hxj := h.values j hj
  rw [Chain.cursor_eq_of_not_advances hforward hno hij, hxi] at hxj
  exact (Outcome.success.inj hxj).1.symm

/-- Where a repetition succeeds nothing more can be consumed. -/
theorem stays (h : Repetition f min none c xs o) (ho : o = .success ys d) :
    (∃ e, f d = .failure e) ∨ ∃ x, f d = .success x d := by
  obtain ⟨-, rfl, rfl⟩ := h.eq_of_success ho
  rcases h.least.1 with hfull | hfails | ⟨-, hpos, -, hno⟩
  · cases hfull
  · exact .inl hfails
  · obtain ⟨k, hk⟩ := Nat.exists_eq_succ_of_ne_zero (Nat.ne_of_gt hpos)
    rw [hk, Nat.succ_sub_one] at hno
    have hx := h.values k (by omega)
    have hsame := Chain.cursor_eq_of_not_advances hforward hno k.le_succ
    rw [hk, hsame]
    rw [hsame] at hx
    exact .inr ⟨_, hx⟩

end

end Repetition

namespace Parser
variable {p : Parser σ w α} {f : Cursor w → Outcome w α} {mark : Cursor w → Trail σ → Trail σ}

theorem IsPure.many_stays (hp : p.IsPure f mark) {d : Cursor w}
    (h : (∃ e, f d = .failure e) ∨ ∃ x, f d = .success x d) (t : Trail σ) :
    ∃ xs u, many p d t = .ok (.success xs d, u) := by
  have hfixed : (f d).leaves d = d := by
    rcases h with ⟨e, he⟩ | ⟨x, hx⟩
    · rw [he, Outcome.leaves]
    · rw [hx, Outcome.leaves]
  obtain ⟨xs, o, hrep, hrun⟩ := hp.repeated_apply 0 none d t
  have ho := hrep.enough (Nat.zero_le _)
  rw [Chain.cursor_of_fixed hfixed] at ho
  exact ⟨xs, _, by rw [many, hrun, ho]⟩

/-- Let a pure parser never go back. At least `min` matches of it, of which `many` and `some` are the
cases 0 and 1, always end, after no more matches than needed or than there are elements left and one.
First come those that advance, then those that do not, with one value; these are needed for the
minimum, except one at the end. Where a repetition succeeds the parser fails or consumes nothing, so
that repeating it again leads no further. -/
theorem atLeast_is_greedy (hp : p.IsPure f mark)
    (hforward : ∀ c x d, f c = .success x d → c.position ≤ d.position) (min : Nat) (c : Cursor w)
    (t : Trail σ) : ∃ xs o u, atLeast min p c t = .ok (o, u) ∧ Repetition f min none c xs o ∧
      xs.length ≤ max min (c.remaining.length + 1) ∧
      (∀ i j, i ≤ j → Chain.Advances f c j → Chain.Advances f c i) ∧
      (∀ i j (_ : i < xs.length) (_ : j < xs.length), i ≤ j → ¬Chain.Advances f c i →
        xs[j] = xs[i]) ∧
      (min ≤ 1 → ∀ i < xs.length, ¬Chain.Advances f c i → i + 1 = xs.length) ∧
      ∀ ys d, o = .success ys d → ys = xs ∧
        ((∃ e, f d = .failure e) ∨ ∃ x, f d = .success x d) ∧
        ∀ t', ∃ zs u', many p d t' = .ok (.success zs d, u') := by
  obtain ⟨xs, o, h, hrun⟩ := hp.repeated_apply min none c t
  refine ⟨xs, o, _, hrun, h, h.length_le hforward, fun i j hij hj => hj.of_le hforward hij,
    fun i j hi hj hij hno => h.values_eq hforward hi hj hij hno, fun hmin i hi hno => ?_,
    fun ys d ho => ?_⟩
  · by_contra hne
    exact hno (h.advances_of_lt (by omega) (by omega))
  · have hstays := h.stays hforward ho
    exact ⟨(h.eq_of_success ho).2.1, hstays, fun t' => hp.many_stays hstays t'⟩

/-- Four letters are asked for where there are two. From then on nothing is consumed. -/
theorem atLeast_is_greedy_nullable :
    let w : Input := ⟨.byte, #[97, 97, 98], by decide⟩
    let f : Cursor w → Outcome w Bool := fun c =>
      if c.element? = some 97 then .success true c.next else .success false c
    let p : Parser Unit w Bool := fun c t => .ok (f c, t)
    let c := Cursor.start w
    p.IsPure f (fun _ t => t) ∧ (∀ c x d, f c = .success x d → c.position ≤ d.position) ∧
      atLeast 4 p c ⟨#[], ()⟩ =
        .ok (.success [true, true, false, false] ⟨2, by decide⟩, ⟨#[.stalled 2], ()⟩) ∧
      ∃ xs o u, atLeast 4 p c ⟨#[], ()⟩ = .ok (o, u) ∧ Repetition f 4 none c xs o ∧
        xs.length ≤ max 4 (c.remaining.length + 1) ∧
        (∀ i j (_ : i < xs.length) (_ : j < xs.length), i ≤ j → ¬Chain.Advances f c i →
          xs[j] = xs[i]) := by
  intro w f p c
  have hp : p.IsPure f (fun _ t => t) := fun _ _ => rfl
  have hforward (c : Cursor w) (x : Bool) (d : Cursor w) (h : f c = .success x d) :
      c.position ≤ d.position := by
    dsimp only [f] at h
    split at h
    case isTrue =>
      cases h
      exact c.position_le_next
    case isFalse =>
      cases h
      exact Nat.le_refl _
  have hrun : atLeast 4 p c ⟨#[], ()⟩ =
      .ok (.success [true, true, false, false] ⟨2, by decide⟩, ⟨#[.stalled 2], ()⟩) := by
    cbv
  obtain ⟨xs, o, u, hu, h, hlen, -, hsame, -⟩ := atLeast_is_greedy hp hforward 4 c ⟨#[], ()⟩
  exact ⟨hp, hforward, hrun, xs, o, u, hu, h, hlen, hsame⟩

end Parser

end Descent
