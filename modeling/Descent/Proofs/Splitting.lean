import Descent.Proofs.LoopEquation
import Descent.Proofs.PureParser
import Descent.Proofs.Terminal

namespace Descent
variable {σ : Type} {w : Input} {α : Type}

/-- The error of a repetition that needs `min` matches and after `n` of them is stopped by `e`. -/
def ParseError.stopping (e : ParseError) (position min n : Nat) : ParseError :=
  if n = 0 then e else .repetitionBelowMinimum position min n e

namespace Parser

def append (p q : Parser σ w (List α)) : Parser σ w (List α) :=
  Parser.map (fun x => x.1 ++ x.2) (seqWith Prod.mk p q)

theorem append_apply (p q : Parser σ w (List α)) (c : Cursor w) :
    append p q c = p c >>= fun o => match o with
      | .failure e => pure (.failure e)
      | .success xs d => Outcome.map (xs ++ ·) <$> q d := by
  simp only [append, Parser.map, seqWith, bind_assoc]
  refine bind_congr fun o => ?_
  cases o with
  | failure e => rfl
  | success xs d =>
    simp only [bind_assoc, map_eq_pure_bind]
    refine bind_congr fun o' => ?_
    cases o' <;> rfl

theorem repeatFrom_of_full (p : Parser σ w α) {min : Nat} (found : Array α)
    (hmin : min ≤ found.size) (c : Cursor w) :
    repeatFrom p min (some found.size) found c = pure (.success found.toList c) := by
  rw [repeatFrom, dif_neg (by simp), if_pos hmin]

theorem repeatFrom_eq_map_bounded (p : Parser σ w α) {min : Nat} (found : Array α)
    (hmin : min ≤ found.size) (left : Nat) (c : Cursor w) :
    repeatFrom p min (some (found.size + left)) found c =
      Outcome.map (found.toList ++ ·) <$> repeated 0 (some left) p c := by
  -- The two loops have found different values, so the induction is on the room that is left.
  induction left generalizing min found c with
  | zero =>
    rw [Nat.add_zero, repeatFrom_of_full p found hmin, repeated,
      show some 0 = some (#[] : Array α).size from rfl, repeatFrom_of_full p #[] (Nat.zero_le _)]
    simp
  | succ left ih =>
    rw [repeated, repeatFrom, repeatFrom, dif_pos (by simp), dif_pos (by simp), map_bind]
    refine bind_congr fun o => ?_
    cases o with
    | failure e => simp [hmin]
    | success x d =>
      have hfound : found.size + (left + 1) = (found.push x).size + left := by
        rw [Array.size_push]
        omega
      have hfirst : repeatFrom p 0 (some (left + 1)) (#[].push x) d =
          Outcome.map ([x] ++ ·) <$> repeated 0 (some left) p d := by
        rw [Nat.add_comm left 1]
        exact ih #[x] (Nat.zero_le _) d
      dsimp only
      rw [dif_pos (by simp), dif_pos (by simp), hfound, ih (found.push x) (by simp; omega), hfirst]
      simp [Functor.map_map]

theorem repeatFrom_eq_map_rest (p : Parser σ w α) {max : Option Nat} (found : Array α)
    (hmax : ∀ m ∈ max, found.size ≤ m) (c : Cursor w) :
    repeatFrom p found.size max found c =
      Outcome.map (found.toList ++ ·) <$> repeated 0 (max.map (· - found.size)) p c := by
  cases max with
  | none => exact repeatFrom_eq_map p found (Nat.le_refl _) c
  | some m =>
    obtain ⟨left, rfl⟩ := Nat.exists_eq_add_of_le (hmax m rfl)
    rw [repeatFrom_eq_map_bounded p found (Nat.le_refl _), Option.map_some, Nat.add_sub_cancel_left]

/-- Until a repetition has its minimum it does what a repetition does that ends there. -/
theorem repeatFrom_split {p : Parser σ w α} {max : Option Nat} (hadvance : max = none → p.Advances)
    (found : Array α) (left : Nat) (hmax : ∀ m ∈ max, found.size + left ≤ m) (c : Cursor w) :
    repeatFrom p (found.size + left) max found c =
      repeatFrom p (found.size + left) (some (found.size + left)) found c >>= fun o => match o with
        | .failure e => pure (.failure e)
        | .success xs d =>
          Outcome.map (xs ++ ·) <$> repeated 0 (max.map (· - (found.size + left))) p d := by
  induction left generalizing found c with
  | zero =>
    rw [Nat.add_zero, repeatFrom_of_full p found (Nat.le_refl _), pure_bind,
      repeatFrom_eq_map_rest p found hmax]
  | succ left ih =>
    have hroom : max.all (found.size < ·) := all_lt_iff.mpr fun m hm => by
      have hle := hmax m hm
      omega
    rw [repeatFrom, repeatFrom, dif_pos hroom, dif_pos (by simp), bind_assoc]
    refine Run.bind_congr_of_ok fun t o u h => ?_
    cases o with
    | failure e =>
      have hless : ¬found.size + (left + 1) ≤ found.size := by omega
      dsimp only
      rw [if_neg hless]
      split <;> rfl
    | success x d =>
      have hgo : max.isSome ∨ found.size + 1 < found.size + (left + 1) ∨
          c.position < d.position := by
        -- Without a maximum the last match that is needed has to advance, or it would be the last.
        cases max with
        | none => exact .inr (.inr (hadvance rfl c t x d u h))
        | some m => exact .inl rfl
      have hsize : found.size + (left + 1) = (found.push x).size + left := by
        rw [Array.size_push]
        omega
      dsimp only
      rw [dif_pos hgo, dif_pos (by simp), hsize, ih (found.push x) (hsize ▸ hmax)]

theorem repeated_split {p : Parser σ w α} {min : Nat} {max : Option Nat}
    (hadvance : max = none → p.Advances) (hmax : ∀ m ∈ max, min ≤ m) :
    repeated min max p = append (exactly min p) (repeated 0 (max.map (· - min)) p) := by
  funext c
  have h := repeatFrom_split hadvance #[] min (by simpa using hmax) c
  rw [List.size_toArray, List.length_nil, Nat.zero_add] at h
  rw [append_apply]
  exact h

section
variable {p : Parser σ w α} {f : Cursor w → Outcome w α} {mark : Cursor w → Trail σ → Trail σ}
variable {c d : Cursor w} {xs : List α}

theorem append_of_failure {q q' : Parser σ w (List α)} {t : Trail σ} {e : ParseError}
    (h : (q c t).map (·.1) = .ok (.failure e)) :
    (append q q' c t).map (·.1) = .ok (.failure e) := by
  obtain ⟨u, hu⟩ := Run.exists_trail_iff.mpr h
  rw [append_apply, Run.bind_apply, hu]
  rfl

theorem append_of_success {q q' : Parser σ w (List α)} {t : Trail σ} {o : Outcome w (List α)}
    (h : (q c t).map (·.1) = .ok (.success xs d)) (h' : ∀ u, (q' d u).map (·.1) = .ok o) :
    (append q q' c t).map (·.1) = .ok (o.map (xs ++ ·)) := by
  obtain ⟨u, hu⟩ := Run.exists_trail_iff.mpr h
  obtain ⟨u', hu'⟩ := Run.exists_trail_iff.mpr (h' u)
  rw [append_apply, Run.bind_apply, hu]
  dsimp only
  rw [map_eq_pure_bind, Run.bind_apply, hu']
  rfl

theorem IsPure.repeatFrom_row (hp : p.IsPure f mark) (h : Chain.Row f c xs d) (min : Nat)
    {max : Nat} (found : Array α) (hroom : found.size + xs.length ≤ max) (t : Trail σ) :
    ∃ u, repeatFrom p min (some max) found c t =
      repeatFrom p min (some max) (found ++ xs) d u := by
  induction h generalizing found t with
  | nil => exact ⟨t, by simp⟩
  | @cons c x d xs e hx _ ih =>
    rw [List.length_cons] at hroom
    have hlt : found.size < max := by omega
    obtain ⟨u, hu⟩ := ih (found.push x) (by simp; omega) (mark c t)
    refine ⟨u, ?_⟩
    rw [repeatFrom, dif_pos (by simpa using hlt), hp.bind_apply, hx]
    dsimp only
    rw [dif_pos (by simp), hu]
    simp

theorem IsPure.repeated_row (hp : p.IsPure f mark) (h : Chain.Row f c xs d) (min : Nat)
    {max : Nat} (hroom : xs.length ≤ max) (t : Trail σ) :
    ∃ u, repeated min (some max) p c t = repeatFrom p min (some max) xs.toArray d u := by
  obtain ⟨u, hu⟩ := hp.repeatFrom_row h min #[] (by simpa using hroom) t
  refine ⟨u, ?_⟩
  rw [repeated]
  simpa using hu

theorem IsPure.exactly_of_row (hp : p.IsPure f mark) (h : Chain.Row f c xs d) (t : Trail σ) :
    (exactly xs.length p c t).map (·.1) = .ok (.success xs d) := by
  obtain ⟨u, hu⟩ := hp.repeated_row h xs.length (Nat.le_refl _) t
  have hfull : repeatFrom p xs.length (some xs.length) xs.toArray d = pure (.success xs d) :=
    repeatFrom_of_full p xs.toArray (Nat.le_refl _) d
  rw [exactly, hu]
  exact congrArg (fun run => (run u).map (·.1)) hfull

theorem IsPure.exactly_of_stopped (hp : p.IsPure f mark) (h : Chain.Row f c xs d) {n : Nat}
    (hless : xs.length < n) {e : ParseError} (he : f d = .failure e) (t : Trail σ) :
    (exactly n p c t).map (·.1) = .ok (.failure (e.stopping d.position n xs.length)) := by
  obtain ⟨u, hu⟩ := hp.repeated_row h n (Nat.le_of_lt hless) t
  rw [exactly, hu, repeatFrom, dif_pos (by simpa using hless), hp.bind_apply, he]
  dsimp only
  rw [List.size_toArray, if_neg (Nat.not_le_of_lt hless), ParseError.stopping]
  split <;> rfl

/-- Matching a pure parser `m + n` times beside matching it `m` times and then `n` times: both find
the same values, or the same failure stops both after the same matches. -/
theorem IsPure.exactly_add (hp : p.IsPure f mark) (m n : Nat) (c : Cursor w) (t : Trail σ) :
    (∃ xs d, Chain.Row f c xs d ∧ xs.length = m + n ∧
      (exactly (m + n) p c t).map (·.1) = .ok (.success xs d) ∧
      (append (exactly m p) (exactly n p) c t).map (·.1) = .ok (.success xs d)) ∨
    ∃ xs d e, Chain.Row f c xs d ∧ xs.length < m + n ∧ f d = .failure e ∧
      (exactly (m + n) p c t).map (·.1) =
        .ok (.failure (e.stopping d.position (m + n) xs.length)) ∧
      (append (exactly m p) (exactly n p) c t).map (·.1) =
        .ok (.failure (if xs.length < m then e.stopping d.position m xs.length
          else e.stopping d.position n (xs.length - m))) := by
  obtain ⟨xs, d, hxs, rfl | ⟨hless, e, he⟩⟩ := Chain.Row.exists_length f m c
  · obtain ⟨ys, d', hys, rfl | ⟨hless, e, he⟩⟩ := Chain.Row.exists_length f n d
    · have hall := hp.exactly_of_row (hxs.append hys) t
      have hparts := append_of_success (hp.exactly_of_row hxs t) (hp.exactly_of_row hys)
      rw [List.length_append] at hall
      exact .inl ⟨_, d', hxs.append hys, List.length_append, hall, hparts⟩
    · have hlt : (xs ++ ys).length < xs.length + n := by
        rw [List.length_append]
        omega
      have hparts := append_of_success (hp.exactly_of_row hxs t)
        (hp.exactly_of_stopped hys hless he)
      refine .inr ⟨_, d', e, hxs.append hys, hlt, he,
        hp.exactly_of_stopped (hxs.append hys) hlt he t, ?_⟩
      rw [hparts, List.length_append, if_neg (by omega), Nat.add_sub_cancel_left]
      rfl
  · refine .inr ⟨xs, d, e, hxs, by omega, he, hp.exactly_of_stopped hxs (by omega) he t, ?_⟩
    rw [append_of_failure (hp.exactly_of_stopped hxs hless he t), if_pos hless]

end

/-- A bounded repetition of any parser is its minimum and then what is left of its maximum, errors
included; so is an unbounded one if every match advances. To match a pure parser `m + n` times is to
match it `m` times and then `n` times: both succeed with the same list at the same cursor, or one
failure stops both after the same matches, and its error counts them all or those of its part. -/
theorem repetition_splits (p : Parser σ w α) :
    (∀ min max, min ≤ max → repeated min (some max) p =
      append (exactly min p) (repeated 0 (some (max - min)) p)) ∧
    (∀ f mark, p.IsPure f mark → ∀ m n c t,
      (∃ xs d, Chain.Row f c xs d ∧ xs.length = m + n ∧
        (exactly (m + n) p c t).map (·.1) = .ok (.success xs d) ∧
        (append (exactly m p) (exactly n p) c t).map (·.1) = .ok (.success xs d)) ∨
      ∃ xs d e, Chain.Row f c xs d ∧ xs.length < m + n ∧ f d = .failure e ∧
        (exactly (m + n) p c t).map (·.1) =
          .ok (.failure (e.stopping d.position (m + n) xs.length)) ∧
        (append (exactly m p) (exactly n p) c t).map (·.1) =
          .ok (.failure (if xs.length < m then e.stopping d.position m xs.length
            else e.stopping d.position n (xs.length - m)))) ∧
    (p.Advances → ∀ n, atLeast n p = append (exactly n p) (many p)) := by
  refine ⟨fun min max hle => ?_, fun f mark hp m n c t => hp.exactly_add m n c t,
    fun hadvance n => ?_⟩
  · refine repeated_split (fun hnone => by cases hnone) fun m hm => ?_
    cases hm
    exact hle
  · exact repeated_split (fun _ => hadvance) fun m hm => by cases hm

theorem repetition_splits_letters :
    let w : Input := ⟨.byte, #[97, 97, 98], by decide⟩
    let f : Cursor w → Outcome w Int := fun c =>
      if c.element? = some 97 then .success 97 c.next else .failure (.unexpectedEnd c.position)
    let p : Parser Unit w Int := fun c t => .ok (f c, t)
    let c := Cursor.start w
    let t : Trail Unit := ⟨#[], ()⟩
    1 ≤ 3 ∧ p.IsPure f (fun _ t => t) ∧ p.Advances ∧
      repeated 1 (some 3) p = append (exactly 1 p) (repeated 0 (some 2) p) ∧
      atLeast 1 p = append (exactly 1 p) (many p) ∧
      (exactly 3 p c t).map (·.1) =
        .ok (.failure (.repetitionBelowMinimum 2 3 2 (.unexpectedEnd 2))) ∧
      (append (exactly 1 p) (exactly 2 p) c t).map (·.1) =
        .ok (.failure (.repetitionBelowMinimum 2 2 1 (.unexpectedEnd 2))) ∧
      ∃ xs d e, Chain.Row f c xs d ∧ xs.length < 1 + 2 ∧ f d = .failure e ∧
        (exactly (1 + 2) p c t).map (·.1) =
          .ok (.failure (e.stopping d.position (1 + 2) xs.length)) ∧
        (append (exactly 1 p) (exactly 2 p) c t).map (·.1) =
          .ok (.failure (if xs.length < 1 then e.stopping d.position 1 xs.length
            else e.stopping d.position 2 (xs.length - 1))) := by
  intro w f p c t
  have hp : p.IsPure f (fun _ t => t) := fun _ _ => rfl
  have hadvance : p.Advances := by
    intro c t x d u h
    have h : f c = .success x d := (Prod.mk.inj (Except.ok.inj h)).1
    dsimp only [f] at h
    split at h
    case isTrue hx =>
      cases h
      rw [Cursor.next_position_of_element? hx]
      exact Nat.lt_succ_self _
    case isFalse => cases h
  have hthree : (exactly 3 p c t).map (·.1) =
      .ok (.failure (.repetitionBelowMinimum 2 3 2 (.unexpectedEnd 2))) := by
    cbv
  have hparts : (append (exactly 1 p) (exactly 2 p) c t).map (·.1) =
      .ok (.failure (.repetitionBelowMinimum 2 2 1 (.unexpectedEnd 2))) := by
    cbv
  obtain ⟨hbounded, hcount, hrest⟩ := repetition_splits p
  refine ⟨by decide, hp, hadvance, hbounded 1 3 (by decide), hrest hadvance 1, hthree, hparts, ?_⟩
  rcases hcount f _ hp 1 2 c t with ⟨xs, d, -, -, hall, -⟩ | hstopped
  · cases hall.symm.trans hthree
  · exact hstopped

end Parser

end Descent
