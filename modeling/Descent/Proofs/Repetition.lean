import Mathlib
import Descent.Proofs.Loop

namespace Descent
variable {σ : Type} {w : Input} {α : Type}

/-- A run of `p` ends with what `f` tells of its cursor, and does to the trail what `mark` tells. -/
def Parser.IsPure (p : Parser σ w α) (f : Cursor w → Outcome w α)
    (mark : Cursor w → Trail σ → Trail σ) : Prop :=
  ∀ c t, p c t = .ok (f c, mark c t)

def Outcome.leaves (c : Cursor w) : Outcome w α → Cursor w
  | success _ d => d
  | failure _ => c

namespace Chain

/-- The cursor after `i` matches in a row from `c` on. -/
def cursor (f : Cursor w → Outcome w α) (c : Cursor w) (i : Nat) : Cursor w :=
  (fun d => (f d).leaves d)^[i] c

/-- What `n` runs in a row from `c` on do to the trail. -/
def trail (f : Cursor w → Outcome w α) (mark : Cursor w → Trail σ → Trail σ) (c : Cursor w) :
    Nat → Trail σ → Trail σ
  | 0, t => t
  | n + 1, t => mark (cursor f c n) (trail f mark c n t)

/-- The last of `i` matches of an unbounded repetition consumed nothing, and they are enough. -/
def Stalls (f : Cursor w → Outcome w α) (min : Nat) (max : Option Nat) (c : Cursor w) (i : Nat) :
    Prop :=
  max = none ∧ 0 < i ∧ min ≤ i ∧ ¬(cursor f c (i - 1)).position < (cursor f c i).position

instance (f : Cursor w → Outcome w α) (min : Nat) (max : Option Nat) (c : Cursor w) (i : Nat) :
    Decidable (Stalls f min max c i) :=
  inferInstanceAs (Decidable (_ ∧ _ ∧ _ ∧ _))

/-- There is a reason to halt after `i` matches. -/
def Halts (f : Cursor w → Outcome w α) (min : Nat) (max : Option Nat) (c : Cursor w) (i : Nat) :
    Prop :=
  max = some i ∨ (∃ e, f (cursor f c i) = .failure e) ∨ Stalls f min max c i

/-- The trail of a repetition that halts after `k` matches. A failure takes one run more; a stall
is put on record. -/
def after (f : Cursor w → Outcome w α) (mark : Cursor w → Trail σ → Trail σ) (min : Nat)
    (max : Option Nat) (c : Cursor w) (k : Nat) (t : Trail σ) : Trail σ :=
  if max = some k then trail f mark c k t
  else if Stalls f min max c k then
    { trail f mark c k t with
      log := (trail f mark c k t).log.push (.stalled (cursor f c k).position) }
  else trail f mark c (k + 1) t

variable {f : Cursor w → Outcome w α} {c : Cursor w} {i : Nat}

theorem cursor_succ (f : Cursor w → Outcome w α) (c : Cursor w) (i : Nat) :
    cursor f c (i + 1) = (f (cursor f c i)).leaves (cursor f c i) :=
  Function.iterate_succ_apply' _ i c

theorem cursor_succ_of_success {x : α} {d : Cursor w} (h : f (cursor f c i) = .success x d) :
    cursor f c (i + 1) = d := by
  rw [cursor_succ, h, Outcome.leaves]

theorem stalls_succ_iff {min : Nat} {max : Option Nat} {x : α} {d : Cursor w}
    (h : f (cursor f c i) = .success x d) : Stalls f min max c (i + 1) ↔
      max = none ∧ min ≤ i + 1 ∧ ¬(cursor f c i).position < d.position := by
  rw [Stalls, Nat.add_sub_cancel, cursor_succ_of_success h]
  simp only [Nat.succ_pos, true_and]

section
variable {mark : Cursor w → Trail σ → Trail σ} {min k : Nat} {max : Option Nat}

theorem after_of_full (h : max = some k) (t : Trail σ) :
    after f mark min max c k t = trail f mark c k t := by
  rw [after, if_pos h]

theorem after_of_stall (h : Stalls f min max c k) (t : Trail σ) :
    after f mark min max c k t = { trail f mark c k t with
      log := (trail f mark c k t).log.push (.stalled (cursor f c k).position) } := by
  rw [after, if_neg (by simp [h.1]), if_pos h]

theorem after_of_failure (hroom : max ≠ some k) (h : ¬Stalls f min max c k) (t : Trail σ) :
    after f mark min max c k t = trail f mark c (k + 1) t := by
  rw [after, if_neg hroom, if_neg h]

end

end Chain

open Chain (Halts Stalls)

/-- The matches that a repetition makes from `c` on, and how it ends: `xs` are the values of all
matches before the first reason to halt. -/
structure Repetition (f : Cursor w → Outcome w α) (min : Nat) (max : Option Nat) (c : Cursor w)
    (xs : List α) (o : Outcome w (List α)) : Prop where
  least : IsLeast {i | Halts f min max c i} xs.length
  values : ∀ i (hi : i < xs.length),
    f (Chain.cursor f c i) = .success xs[i] (Chain.cursor f c (i + 1))
  enough : min ≤ xs.length → o = .success xs (Chain.cursor f c xs.length)
  exceeds : xs.length < min → max = some xs.length →
    o = .failure (.custom s!"repetition minimum {min} exceeds maximum {xs.length}"
      (Chain.cursor f c xs.length).position)
  nothing : ∀ e, xs.length < min → max ≠ some xs.length →
    f (Chain.cursor f c xs.length) = .failure e → xs.length = 0 → o = .failure e
  tooFew : ∀ e, xs.length < min → max ≠ some xs.length →
    f (Chain.cursor f c xs.length) = .failure e → 0 < xs.length →
    o = .failure (.repetitionBelowMinimum (Chain.cursor f c xs.length).position min xs.length e)

/-- All of `found` was matched from `c` on without a reason to halt, unless it is there now. -/
structure Chain.Reached (f : Cursor w → Outcome w α) (min : Nat) (max : Option Nat) (c : Cursor w)
    (found : Array α) : Prop where
  values : ∀ i (hi : i < found.size),
    f (cursor f c i) = .success found[i] (cursor f c (i + 1))
  earlier : ∀ i < found.size, ¬Halts f min max c i
  advanced : ¬Stalls f min max c found.size

section
variable {f : Cursor w → Outcome w α} {min : Nat} {max : Option Nat} {c d : Cursor w}
variable {found : Array α} {x : α} {e : ParseError}

namespace Chain.Reached

theorem nil : Reached f min max c #[] where
  values i hi := absurd hi (Nat.not_lt_zero i)
  earlier i hi := absurd hi (Nat.not_lt_zero i)
  advanced h := Nat.not_lt_zero 0 h.2.1

theorem isLeast (h : Reached f min max c found) (hhalt : Halts f min max c found.size) :
    IsLeast {i | Halts f min max c i} found.toList.length := by
  rw [Array.length_toList]
  refine ⟨hhalt, fun i hi => ?_⟩
  by_contra hlt
  exact h.earlier i (Nat.lt_of_not_le hlt) hi

theorem values_push (h : Reached f min max c found)
    (hx : f (cursor f c found.size) = .success x d) (i : Nat) (hi : i < (found.push x).size) :
    f (cursor f c i) = .success (found.push x)[i] (cursor f c (i + 1)) := by
  rw [Array.getElem_push]
  split
  case isTrue hold => exact h.values i hold
  case isFalse hnew =>
    obtain rfl : i = found.size := by
      rw [Array.size_push] at hi
      omega
    rw [cursor_succ_of_success hx]
    exact hx

theorem earlier_push (h : Reached f min max c found) (hroom : max ≠ some found.size)
    (hx : f (cursor f c found.size) = .success x d) (i : Nat) (hi : i < (found.push x).size) :
    ¬Halts f min max c i := by
  rw [Array.size_push] at hi
  rcases Nat.lt_succ_iff_lt_or_eq.mp hi with hold | rfl
  · exact h.earlier i hold
  · rintro (hfull | ⟨e, he⟩ | hstall)
    · exact hroom hfull
    · rw [hx] at he
      cases he
    · exact h.advanced hstall

/-- One more match, after which the repetition goes on. -/
theorem push (h : Reached f min max c found) (hroom : max ≠ some found.size)
    (hx : f (cursor f c found.size) = .success x d)
    (hgo : max.isSome ∨ found.size + 1 < min ∨ (cursor f c found.size).position < d.position) :
    Reached f min max c (found.push x) where
  values := h.values_push hx
  earlier := h.earlier_push hroom hx
  advanced := by
    rw [Array.size_push, stalls_succ_iff hx]
    rintro ⟨rfl, hmin, hno⟩
    rcases hgo with hsome | hless | hadvance
    · cases hsome
    · omega
    · exact hno hadvance

theorem eq_of_full (h : Reached f min max c found) (hfull : ¬max.all (found.size < ·)) :
    max = some found.size := by
  obtain ⟨m, rfl, hle⟩ := exists_max_le hfull
  by_contra hne
  have hlt : m < found.size := Nat.lt_of_le_of_ne hle fun heq => hne (by rw [heq])
  exact h.earlier m hlt (.inl rfl)

theorem values_toList (h : ∀ i (hi : i < found.size),
      f (cursor f c i) = .success found[i] (cursor f c (i + 1)))
    (i : Nat) (hi : i < found.toList.length) :
    f (cursor f c i) = .success found.toList[i] (cursor f c (i + 1)) := by
  rw [Array.getElem_toList]
  exact h i (by simpa using hi)

end Chain.Reached

namespace Repetition
open Chain (Reached)

theorem of_full (h : Reached f min max c found) (hfull : max = some found.size) :
    Repetition f min max c found.toList
      (if min ≤ found.size then .success found.toList (Chain.cursor f c found.size)
      else .failure (.custom s!"repetition minimum {min} exceeds maximum {found.size}"
        (Chain.cursor f c found.size).position)) where
  least := h.isLeast (.inl hfull)
  values := Reached.values_toList h.values
  enough hmin := by
    rw [Array.length_toList] at hmin ⊢
    rw [if_pos hmin]
  exceeds hless _ := by
    rw [Array.length_toList] at hless ⊢
    rw [if_neg (Nat.not_le_of_lt hless)]
  nothing _ _ hroom := absurd hfull (by simpa using hroom)
  tooFew _ _ hroom := absurd hfull (by simpa using hroom)

theorem of_failure (h : Reached f min max c found) (hroom : max ≠ some found.size)
    (he : f (Chain.cursor f c found.size) = .failure e) :
    Repetition f min max c found.toList
      (if min ≤ found.size then .success found.toList (Chain.cursor f c found.size)
      else if found.size = 0 then .failure e
      else .failure (.repetitionBelowMinimum (Chain.cursor f c found.size).position min
        found.size e)) where
  least := h.isLeast (.inr (.inl ⟨e, he⟩))
  values := Reached.values_toList h.values
  enough hmin := by
    rw [Array.length_toList] at hmin ⊢
    rw [if_pos hmin]
  exceeds _ hfull := absurd (by simpa using hfull) hroom
  nothing e' hless _ he' hzero := by
    rw [Array.length_toList] at hless he' hzero
    obtain rfl := Outcome.failure.inj (he.symm.trans he')
    rw [if_neg (Nat.not_le_of_lt hless), if_pos hzero]
  tooFew e' hless _ he' hpos := by
    rw [Array.length_toList] at hless he' hpos ⊢
    obtain rfl := Outcome.failure.inj (he.symm.trans he')
    rw [if_neg (Nat.not_le_of_lt hless), if_neg (Nat.ne_of_gt hpos)]

theorem of_stall (h : Reached f min max c found) (hnone : max = none)
    (hx : f (Chain.cursor f c found.size) = .success x d)
    (hstall : Stalls f min max c (found.push x).size) :
    Repetition f min max c (found.push x).toList (.success (found.push x).toList d) := by
  have hroom : max ≠ some found.size := by simp [hnone]
  have hmin : min ≤ (found.push x).toList.length := by simpa using hstall.2.2.1
  have hless (hless : (found.push x).toList.length < min) : False := by omega
  refine ⟨⟨?_, fun i hi => ?_⟩, ?_, fun _ => ?_, ?_, ?_, ?_⟩
  · rw [Array.length_toList]
    exact .inr (.inr hstall)
  · rw [Array.length_toList]
    by_contra hlt
    exact h.earlier_push hroom hx i (Nat.lt_of_not_le hlt) hi
  · exact Reached.values_toList (h.values_push hx)
  · rw [Array.length_toList, Array.size_push, Chain.cursor_succ_of_success hx]
  · exact fun h => (hless h).elim
  · exact fun _ h => (hless h).elim
  · exact fun _ h => (hless h).elim

end Repetition

end

namespace Parser
variable {p : Parser σ w α} {f : Cursor w → Outcome w α} {mark : Cursor w → Trail σ → Trail σ}

theorem IsPure.bind_apply {β : Type} (hp : p.IsPure f mark) (c : Cursor w)
    (k : Outcome w α → Run σ β) (t : Trail σ) : (p c >>= k) t = k (f c) (mark c t) := by
  rw [Run.bind_apply, hp]

/-- A repetition that has come along the chain without a reason to halt goes on to the first one. -/
theorem IsPure.repeatFrom_apply (hp : p.IsPure f mark) {min : Nat} {max : Option Nat} {c : Cursor w}
    {t : Trail σ} (found : Array α) (d : Cursor w) (hd : d = Chain.cursor f c found.size)
    (h : Chain.Reached f min max c found) :
    ∃ xs o, Repetition f min max c xs o ∧
      repeatFrom p min max found d (Chain.trail f mark c found.size t) =
        .ok (o, Chain.after f mark min max c xs.length t) := by
  -- A turn that goes on leaves no reason to halt behind it, so what is found stays on the chain.
  induction found, d using repeatFrom.induct min max with
  | case1 found d hroom ih =>
    have hroom' : max ≠ some found.size := by
      rintro rfl
      simp at hroom
    rw [repeatFrom, dif_pos hroom, hp.bind_apply, hd]
    cases hf : f (Chain.cursor f c found.size) with
    | failure e =>
      refine ⟨_, _, .of_failure h hroom' hf, ?_⟩
      rw [Array.length_toList, Chain.after_of_failure hroom' h.advanced, Chain.trail]
      dsimp only
      split
      · rfl
      · split <;> rfl
    | success x next =>
      dsimp only
      split
      case isTrue hgo =>
        have hnext := Chain.cursor_succ_of_success hf
        rw [← hd] at hgo
        have ih := ih x next hgo
        rw [Array.size_push, hnext] at ih
        rw [hd] at hgo
        exact ih rfl (h.push hroom' hf hgo)
      case isFalse hno =>
        have hnone := Option.not_isSome_iff_eq_none.mp fun h => hno (.inl h)
        have hstall : Stalls f min max c (found.push x).size := by
          rw [Array.size_push, Chain.stalls_succ_iff hf]
          exact ⟨hnone, by omega, fun h => hno (.inr (.inr h))⟩
        refine ⟨_, _, .of_stall h hnone hf hstall, ?_⟩
        rw [Array.length_toList, Chain.after_of_stall hstall, Array.size_push,
          Chain.cursor_succ_of_success hf]
        rfl
  | case2 found d hroom hmin =>
    have hfull := h.eq_of_full hroom
    refine ⟨_, _, .of_full h hfull, ?_⟩
    rw [repeatFrom, dif_neg hroom, if_pos hmin, if_pos hmin, hd, Array.length_toList,
      Chain.after_of_full hfull]
    rfl
  | case3 found d hroom hmin =>
    have hfull := h.eq_of_full hroom
    refine ⟨_, _, .of_full h hfull, ?_⟩
    rw [repeatFrom, dif_neg hroom, if_neg hmin, if_neg hmin, hd, Array.length_toList,
      Chain.after_of_full hfull, hfull]
    rfl

theorem IsPure.repeated_apply (hp : p.IsPure f mark) (min : Nat) (max : Option Nat) (c : Cursor w)
    (t : Trail σ) : ∃ xs o, Repetition f min max c xs o ∧
      repeated min max p c t = .ok (o, Chain.after f mark min max c xs.length t) :=
  hp.repeatFrom_apply #[] c rfl .nil

/-- A repetition of a pure parser always ends, as its chain tells. It runs the parser once for each
match and once more if a failure ends it, at the cursors of the chain, and puts it on record if the
last match stalled. -/
theorem repeated_follows_chain (hp : p.IsPure f mark) (min : Nat) (max : Option Nat) (c : Cursor w)
    (t : Trail σ) : ∃ xs o u, repeated min max p c t = .ok (o, u) ∧ Repetition f min max c xs o ∧
      (max = some xs.length → u = Chain.trail f mark c xs.length t) ∧
      (Stalls f min max c xs.length → u = { Chain.trail f mark c xs.length t with
        log := (Chain.trail f mark c xs.length t).log.push
          (.stalled (Chain.cursor f c xs.length).position) }) ∧
      (max ≠ some xs.length → ¬Stalls f min max c xs.length →
        (∃ e, f (Chain.cursor f c xs.length) = .failure e) ∧
        u = Chain.trail f mark c (xs.length + 1) t) := by
  obtain ⟨xs, o, h, hrun⟩ := hp.repeated_apply min max c t
  refine ⟨xs, o, _, hrun, h, fun hfull => Chain.after_of_full hfull t,
    fun hstall => Chain.after_of_stall hstall t,
    fun hroom hgo => ⟨?_, Chain.after_of_failure hroom hgo t⟩⟩
  rcases h.least.1 with hfull | hfails | hstall
  · exact absurd hfull hroom
  · exact hfails
  · exact absurd hstall hgo

/-- Three matches are asked for. The second one and the third one consume nothing. -/
theorem repeated_follows_chain_stalled :
    let w : Input := ⟨.byte, #[97, 98], by decide⟩
    let f : Cursor w → Outcome w Bool := fun c =>
      if c.element? = some 97 then .success true c.next else .success false c
    let mark : Cursor w → Trail Nat → Trail Nat := fun _ t => { t with store := t.store + 1 }
    let p : Parser Nat w Bool := fun c t => .ok (f c, mark c t)
    let c := Cursor.start w
    p.IsPure f mark ∧
      repeated 3 none p c ⟨#[], 0⟩ =
        .ok (.success [true, false, false] ⟨1, by decide⟩, ⟨#[.stalled 1], 3⟩) ∧
      ∃ xs o u, repeated 3 none p c ⟨#[], 0⟩ = .ok (o, u) ∧ Repetition f 3 none c xs o ∧
        (Stalls f 3 none c xs.length → u = { Chain.trail f mark c xs.length ⟨#[], 0⟩ with
          log := (Chain.trail f mark c xs.length ⟨#[], 0⟩).log.push
            (.stalled (Chain.cursor f c xs.length).position) }) := by
  intro w f mark p c
  have hp : p.IsPure f mark := fun _ _ => rfl
  have hrun : repeated 3 none p c ⟨#[], 0⟩ =
      .ok (.success [true, false, false] ⟨1, by decide⟩, ⟨#[.stalled 1], 3⟩) := by
    cbv
  obtain ⟨xs, o, u, hu, h, -, hstalled, -⟩ := repeated_follows_chain hp 3 none c ⟨#[], 0⟩
  exact ⟨hp, hrun, xs, o, u, hu, h, hstalled⟩

end Parser

end Descent
