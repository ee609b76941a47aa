import Descent.Proofs.Combinator

namespace Descent
variable {σ : Type} {w : Input} {α β : Type}

theorem all_lt_iff {max : Option Nat} {n : Nat} :
    max.all (n < ·) = true ↔ ∀ m ∈ max, n < m := by
  simp only [Option.all_eq_true, decide_eq_true_eq, Option.mem_def]

theorem exists_max_le {max : Option Nat} {n : Nat} (h : ¬max.all (n < ·)) :
    ∃ m, max = some m ∧ m ≤ n := by
  cases max with
  | none => simp at h
  | some m => exact ⟨m, rfl, by simpa using h⟩

/-- `Repeats R min max n c o`: after `n` matches, the last of which ended at `c`, the rest of a
repetition has the outcome `o`, with the values of the further matches. -/
inductive Repeats (R : Cursor w → Outcome w α → Prop) (min : Nat) (max : Option Nat) :
    Nat → Cursor w → Outcome w (List α) → Prop
  | full {n m c} : max = some m → m ≤ n → min ≤ n → Repeats R min max n c (.success [] c)
  | exceeds {n m c} : max = some m → m ≤ n → n < min → Repeats R min max n c
      (.failure (.custom s!"repetition minimum {min} exceeds maximum {m}" c.position))
  | enough {n c e} : (∀ m ∈ max, n < m) → R c (.failure e) → min ≤ n →
      Repeats R min max n c (.success [] c)
  | nothing {c e} : (∀ m ∈ max, 0 < m) → R c (.failure e) → 0 < min →
      Repeats R min max 0 c (.failure e)
  | tooFew {n c e} : (∀ m ∈ max, n < m) → R c (.failure e) → 0 < n → n < min →
      Repeats R min max n c (.failure (.repetitionBelowMinimum c.position min n e))
  /-- An unbounded repetition that has its minimum goes on only after a match that advanced. -/
  | more {n c x d o} : (∀ m ∈ max, n < m) → R c (.success x d) →
      (max.isSome ∨ n + 1 < min ∨ c.position < d.position) → Repeats R min max (n + 1) d o →
      Repeats R min max n c (o.map (x :: ·))
  | stalled {n c x d} : max = none → R c (.success x d) → min ≤ n + 1 →
      ¬c.position < d.position → Repeats R min max n c (.success [x] d)

/-- `Continues R S c xs e`: after an item that ended at `c`, a list has the further items `xs` and
ends at `e`. Items end as `R` says and separators as `S` says. -/
inductive Continues (R : Cursor w → Outcome w α → Prop) (S : Cursor w → Outcome w β → Prop) :
    Cursor w → List α → Cursor w → Prop
  | noSeparator {c e} : S c (.failure e) → Continues R S c [] c
  | noItem {c y d e} : S c (.success y d) → R d (.failure e) → Continues R S c [] c
  | stalled {c y d x d'} : S c (.success y d) → R d (.success x d') → d'.position = c.position →
      Continues R S c [] c
  | more {c y d x d' xs e} : S c (.success y d) → R d (.success x d') →
      d'.position ≠ c.position → Continues R S d' xs e → Continues R S c (x :: xs) e

namespace Parser
open Run (Meets)
variable {I : σ → Prop} {A : Stop → Prop} {p : Parser σ w α} {q : Parser σ w β}

theorem meets_repeatFrom {min : Nat} {max : Option Nat} {found : Array α} {c : Cursor w}
    {R : Outcome w α → Prop} {Q : Outcome w (List α) → Prop}
    (hp : (∀ m ∈ max, found.size < m) → Meets I A R (p c))
    (hfull : ∀ m, max = some m → m ≤ found.size → min ≤ found.size →
      Q (.success found.toList c))
    (hexceeds : ∀ m, max = some m → m ≤ found.size → found.size < min →
      Q (.failure (.custom s!"repetition minimum {min} exceeds maximum {m}" c.position)))
    (henough : ∀ e, (∀ m ∈ max, found.size < m) → R (.failure e) → min ≤ found.size →
      Q (.success found.toList c))
    (hnothing : ∀ e, (∀ m ∈ max, found.size < m) → R (.failure e) → found.size = 0 → 0 < min →
      Q (.failure e))
    (htooFew : ∀ e, (∀ m ∈ max, found.size < m) → R (.failure e) → 0 < found.size →
      found.size < min → Q (.failure (.repetitionBelowMinimum c.position min found.size e)))
    (hmore : ∀ x d, (∀ m ∈ max, found.size < m) → R (.success x d) →
      (max.isSome ∨ found.size + 1 < min ∨ c.position < d.position) →
      Meets I A Q (repeatFrom p min max (found.push x) d))
    (hstalled : ∀ x d, max = none → R (.success x d) → min ≤ found.size + 1 →
      ¬c.position < d.position → Q (.success (found.push x).toList d)) :
    Meets I A Q (repeatFrom p min max found c) := by
  rw [repeatFrom]
  split
  case isTrue hroom =>
    have hroom' := all_lt_iff.mp hroom
    refine meets_cases (hp hroom') (fun x d h => ?_) (fun e h => ?_)
    · dsimp only
      split
      case isTrue hgo => exact hmore x d hroom' h hgo
      case isFalse hno =>
        have hnone := Option.not_isSome_iff_eq_none.mp fun h => hno (.inl h)
        exact (Meets.record _).bind fun _ _ =>
          .pure (hstalled x d hnone h (by omega) (by omega))
    · dsimp only
      split
      case isTrue hmin => exact .pure (henough e hroom' h hmin)
      case isFalse hmin =>
        split
        case isTrue hzero => exact .pure (hnothing e hroom' h hzero (by omega))
        case isFalse hzero => exact .pure (htooFew e hroom' h (by omega) (by omega))
  case isFalse hroom =>
    obtain ⟨m, hm, hle⟩ := exists_max_le hroom
    split
    case isTrue hmin => exact .pure (hfull m hm hle hmin)
    case isFalse hmin =>
      rw [hm]
      exact .pure (hexceeds m hm hle (by omega))

/-- What the rules let a repetition from `c` end with that has the values `found`. -/
def Rest (R : Cursor w → Outcome w α → Prop) (min : Nat) (max : Option Nat) (found : Array α)
    (c : Cursor w) (o : Outcome w (List α)) : Prop :=
  ∃ o', Repeats R min max found.size c o' ∧ o = o'.map (found.toList ++ ·)

theorem meets_rest_of_more {R : Cursor w → Outcome w α → Prop} {min : Nat} {max : Option Nat}
    {found : Array α} {c : Cursor w} (hp : Meets I A (R c) (p c))
    (hmore : ∀ x d, (∀ m ∈ max, found.size < m) →
      (max.isSome ∨ found.size + 1 < min ∨ c.position < d.position) →
      Meets I A (Rest R min max (found.push x) d) (repeatFrom p min max (found.push x) d)) :
    Meets I A (Rest R min max found c) (repeatFrom p min max found c) := by
  refine meets_repeatFrom (fun _ => hp) ?_ ?_ ?_ ?_ ?_ ?_ ?_
  · intro m hm hle hmin
    exact ⟨_, .full hm hle hmin, by simp⟩
  · intro m hm hle hmin
    exact ⟨_, .exceeds hm hle hmin, rfl⟩
  · intro e hroom h hmin
    exact ⟨_, .enough hroom h hmin, by simp⟩
  · intro e hroom h hzero hmin
    refine ⟨.failure e, ?_, rfl⟩
    rw [hzero] at hroom ⊢
    exact .nothing hroom h hmin
  · intro e hroom h hpos hmin
    exact ⟨_, .tooFew hroom h hpos hmin, rfl⟩
  · intro x d hroom h hgo
    refine (hmore x d hroom hgo).mono ?_
    rintro o ⟨o', hr, rfl⟩
    rw [Array.size_push] at hr
    exact ⟨_, .more hroom h hgo hr, by simp⟩
  · intro x d hnone h hmin hno
    exact ⟨_, .stalled hnone h hmin hno, by simp⟩

/-- A repetition ends as the rules say. -/
theorem repeatFrom_sound {R : Cursor w → Outcome w α → Prop} (hp : ∀ c, Meets I A (R c) (p c))
    (min : Nat) (max : Option Nat) (found : Array α) (c : Cursor w) :
    Meets I A (Rest R min max found c) (repeatFrom p min max found c) := by
  -- At the maximum nothing is matched, so there is no turn on which to induct.
  have full {found : Array α} (hfull : ¬max.all (found.size < ·)) (c : Cursor w) :
      Meets I A (Rest R min max found c) (repeatFrom p min max found c) := by
    exact meets_rest_of_more (hp c) fun x d hroom _ => absurd (all_lt_iff.mpr hroom) hfull
  induction found, c using repeatFrom.induct min max with
  | case1 found c _ ih => exact meets_rest_of_more (hp c) fun x d _ hgo => ih x d hgo
  | case2 found c hfull _ => exact full hfull c
  | case3 found c hfull _ => exact full hfull c

theorem repeatFrom_complete {R : Cursor w → Outcome w α → Prop}
    (hp : ∀ c o, R c o → Meets I A (· = o) (p c)) {min : Nat} {max : Option Nat} {n : Nat}
    {c : Cursor w} {o : Outcome w (List α)} (h : Repeats R min max n c o) (found : Array α)
    (hn : found.size = n) :
    Meets I A (· = o.map (found.toList ++ ·)) (repeatFrom p min max found c) := by
  induction h generalizing found with
  | full hm hle hmin =>
    subst hm hn
    rw [repeatFrom, dif_neg (by simpa using hle), if_pos hmin]
    exact .pure (by simp)
  | exceeds hm hle hmin =>
    subst hm hn
    rw [repeatFrom, dif_neg (by simpa using hle), if_neg (by omega)]
    exact .pure rfl
  | enough hroom hR hmin =>
    subst hn
    rw [repeatFrom, dif_pos (all_lt_iff.mpr hroom)]
    apply (hp _ _ hR).bind_eq
    dsimp only
    rw [if_pos hmin]
    exact .pure (by simp)
  | nothing hroom hR hmin =>
    rw [← hn] at hroom
    rw [repeatFrom, dif_pos (all_lt_iff.mpr hroom)]
    apply (hp _ _ hR).bind_eq
    dsimp only
    rw [if_neg (by omega), if_pos hn]
    exact .pure rfl
  | tooFew hroom hR hpos hmin =>
    subst hn
    rw [repeatFrom, dif_pos (all_lt_iff.mpr hroom)]
    apply (hp _ _ hR).bind_eq
    dsimp only
    rw [if_neg (by omega), if_neg (by omega)]
    exact .pure rfl
  | more hroom hR hgo _ ih =>
    subst hn
    rw [repeatFrom, dif_pos (all_lt_iff.mpr hroom)]
    apply (hp _ _ hR).bind_eq
    dsimp only
    rw [dif_pos hgo]
    refine (ih (found.push _) (Array.size_push _)).mono ?_
    rintro _ rfl
    simp
  | stalled hnone hR hmin hno =>
    subst hn hnone
    rw [repeatFrom, dif_pos (all_lt_iff.mpr (by simp))]
    apply (hp _ _ hR).bind_eq
    dsimp only
    rw [dif_neg (by simp; omega)]
    exact (Meets.record _).bind fun _ _ => .pure (by simp)

/-- What the rules let a list that has the items `found` and stands at `c` end with. -/
def Remaining (R : Cursor w → Outcome w α → Prop) (S : Cursor w → Outcome w β → Prop)
    (found : Array α) (c : Cursor w) (o : Outcome w (List α)) : Prop :=
  ∃ xs e, Continues R S c xs e ∧ o = .success (found.toList ++ xs) e

/-- A list with separators ends as the rules say, if nothing in it goes back. -/
theorem separatedFrom_sound {R : Cursor w → Outcome w α → Prop}
    {S : Cursor w → Outcome w β → Prop} (hp : ∀ c, Meets I A (R c) (p c))
    (hq : ∀ c, Meets I A (S c) (q c))
    (hR : ∀ c x d, R c (.success x d) → c.position ≤ d.position)
    (hS : ∀ c y d, S c (.success y d) → c.position ≤ d.position) (found : Array α) (c : Cursor w) :
    Meets I A (Remaining R S found c) (separatedFrom p q found c) := by
  induction found, c using separatedFrom.induct with
  | case1 found c ih =>
    rw [separatedFrom]
    refine meets_cases (hq c) (fun y d h => ?_) (fun e h => ?_)
    · refine meets_cases (hp d) (fun x d' h' => ?_) (fun e h' => ?_)
      · dsimp only
        split
        case isTrue hgo =>
          refine (ih x d' hgo).mono ?_
          rintro _ ⟨xs, e, hc, rfl⟩
          exact ⟨_, _, .more h h' (by omega) hc, by simp⟩
        case isFalse hno =>
          have hle := hS c y d h
          have hle' := hR d x d' h'
          exact .pure ⟨[], c, .stalled h h' (by omega), by simp⟩
      · exact .pure ⟨[], c, .noItem h h', by simp⟩
    · exact .pure ⟨[], c, .noSeparator h, by simp⟩

theorem separatedFrom_complete {R : Cursor w → Outcome w α → Prop}
    {S : Cursor w → Outcome w β → Prop} (hp : ∀ c o, R c o → Meets I A (· = o) (p c))
    (hq : ∀ c o, S c o → Meets I A (· = o) (q c))
    (hR : ∀ c x d, R c (.success x d) → c.position ≤ d.position)
    (hS : ∀ c y d, S c (.success y d) → c.position ≤ d.position) {c e : Cursor w} {xs : List α}
    (h : Continues R S c xs e) (found : Array α) :
    Meets I A (· = .success (found.toList ++ xs) e) (separatedFrom p q found c) := by
  induction h generalizing found with
  | noSeparator h =>
    rw [separatedFrom]
    apply (hq _ _ h).bind_eq
    exact .pure (by simp)
  | noItem h h' =>
    rw [separatedFrom]
    apply (hq _ _ h).bind_eq
    apply (hp _ _ h').bind_eq
    exact .pure (by simp)
  | stalled h h' hsame =>
    rw [separatedFrom]
    apply (hq _ _ h).bind_eq
    apply (hp _ _ h').bind_eq
    dsimp only
    rw [dif_neg (by omega)]
    exact .pure (by simp)
  | more h h' hne _ ih =>
    have hle := hS _ _ _ h
    have hle' := hR _ _ _ h'
    rw [separatedFrom]
    apply (hq _ _ h).bind_eq
    apply (hp _ _ h').bind_eq
    dsimp only
    rw [dif_pos (by omega)]
    refine (ih (found.push _)).mono ?_
    rintro _ rfl
    simp

end Parser

end Descent
