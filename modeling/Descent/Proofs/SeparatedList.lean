import Descent.Proofs.Containment
import Descent.Proofs.LoopEquation
import Descent.Proofs.PureParser

namespace Descent
variable {σ : Type} {w : Input} {α β : Type}

namespace Parser

def andRight (q : Parser σ w β) (p : Parser σ w α) : Parser σ w α := seqWith (fun _ x => x) q p

theorem andRight_apply (q : Parser σ w β) (p : Parser σ w α) (c : Cursor w) :
    andRight q p c = q c >>= fun o => match o with
      | .failure e => pure (.failure e)
      | .success _ d => p d := by
  rw [andRight, seqWith_eq_bind]
  simp only [bind_succeed]
  rfl

theorem separatedFrom_turn (p : Parser σ w α) (q : Parser σ w β) (found : Array α) (c : Cursor w) :
    separatedFrom p q found c = andRight q p c >>= fun o => match o with
      | .failure _ => pure (.success found.toList c)
      | .success x d =>
        if c.position < d.position then separatedFrom p q (found.push x) d
        else pure (.success found.toList c) := by
  rw [separatedFrom, andRight_apply, bind_assoc]
  refine bind_congr fun o => ?_
  cases o with
  | failure e => rfl
  | success y d =>
    refine bind_congr fun o' => ?_
    cases o' <;> rfl

theorem separatedFrom_eq_map (p : Parser σ w α) (q : Parser σ w β) (found : Array α)
    (c : Cursor w) :
    separatedFrom p q found c = Outcome.map (found.toList ++ ·) <$> separatedFrom p q #[] c := by
  induction c using Cursor.backward_induction generalizing found with
  | step c ih =>
  rw [separatedFrom_turn p q found, separatedFrom_turn p q #[], map_bind]
  refine bind_congr fun o => ?_
  cases o with
  | failure e => simp
  | success x d =>
    dsimp only
    by_cases hgo : c.position < d.position
    · rw [if_pos hgo, if_pos hgo, ih d hgo (found.push x), ih d hgo (#[].push x)]
      simp [Functor.map_map]
    · rw [if_neg hgo, if_neg hgo]
      simp

theorem separatedFrom_apply (p : Parser σ w α) (q : Parser σ w β) (c : Cursor w) :
    separatedFrom p q #[] c = andRight q p c >>= fun o => match o with
      | .failure _ => pure (.success [] c)
      | .success x d =>
        if c.position < d.position then Outcome.map (x :: ·) <$> separatedFrom p q #[] d
        else pure (.success [] c) := by
  rw [separatedFrom_turn]
  refine bind_congr fun o => ?_
  cases o with
  | failure e => rfl
  | success x d =>
    dsimp only
    rw [separatedFrom_eq_map p q (#[].push x)]
    rfl

section
variable {p : Parser σ w α} {q : Parser σ w β} {f : Cursor w → Outcome w α}
variable {g : Cursor w → Outcome w β} {mark mark' : Cursor w → Trail σ → Trail σ}

theorem IsPure.andRight (hq : q.IsPure g mark') (hp : p.IsPure f mark) :
    (Parser.andRight q p).IsPure (fun c => (g c).andThen fun _ d => f d)
      fun c t => match g c with
        | .failure _ => mark' c t
        | .success _ d => mark d (mark' c t) := by
  have h := hq.seqWith hp fun _ x => x
  simp only [Outcome.map_id'] at h
  exact h

/-- A list and a repetition of the same turns run alike until a turn fails or consumes nothing. The
repetition keeps the match that consumed nothing and puts on record that it stopped there. -/
theorem IsPure.separatedFrom_beside_many {h : Cursor w → Outcome w α}
    (hturn : (Parser.andRight q p).IsPure h mark)
    (hforward : ∀ c x d, h c = .success x d → c.position ≤ d.position) (c : Cursor w)
    (t : Trail σ) : ∃ xs d u, Chain.Row h c xs d ∧
      separatedFrom p q #[] c t = .ok (.success xs d, u) ∧
      ((∃ e, h d = .failure e ∧ many (Parser.andRight q p) c t = .ok (.success xs d, u)) ∨
        ∃ x, h d = .success x d ∧ many (Parser.andRight q p) c t =
          .ok (.success (xs ++ [x]) d, { u with log := u.log.push (.stalled d.position) })) := by
  -- Both go on only where a turn has advanced, and then less of the input is left.
  induction c using Cursor.backward_induction generalizing t with
  | step c ih =>
  rw [separatedFrom_apply, many_apply, hturn.bind_apply, hturn.bind_apply]
  cases hc : h c with
  | failure e => exact ⟨[], c, mark c t, .nil, rfl, .inl ⟨e, hc, rfl⟩⟩
  | success x d =>
    dsimp only
    by_cases hgo : c.position < d.position
    · obtain ⟨xs, e, u, hrow, hlist, hmany⟩ := ih d hgo (mark c t)
      rw [if_pos hgo, if_pos hgo, map_eq_pure_bind, map_eq_pure_bind, Run.bind_apply,
        Run.bind_apply, hlist]
      refine ⟨x :: xs, e, u, .cons hc hrow, rfl, hmany.imp ?_ ?_⟩
      · rintro ⟨err, herr, hrun⟩
        exact ⟨err, herr, by rw [hrun]; rfl⟩
      · rintro ⟨y, hy, hrun⟩
        exact ⟨y, hy, by rw [hrun]; rfl⟩
    · obtain rfl : d = c :=
        Cursor.ext (Nat.le_antisymm (Nat.le_of_not_lt hgo) (hforward c x d hc))
      rw [if_neg hgo, if_neg hgo]
      exact ⟨[], d, mark d t, .nil, rfl, .inr ⟨x, hc, rfl⟩⟩

theorem IsPure.separatedList_of_success (hp : p.IsPure f mark) {c d d' : Cursor w} {x : α}
    {xs : List α} {t u : Trail σ} (hx : f c = .success x d)
    (h : separatedFrom p q #[] d (mark c t) = .ok (.success xs d', u)) :
    separatedList p q c t = .ok (.success (x :: xs) d', u) := by
  rw [separatedList, hp.bind_apply, hx]
  dsimp only
  rw [separatedFrom_eq_map, map_eq_pure_bind, Run.bind_apply, h]
  rfl

theorem IsPure.seqWith_of_success (hp : p.IsPure f mark) {r : Parser σ w β} {c d d' : Cursor w}
    {x : α} {y : β} {t u : Trail σ} (hx : f c = .success x d)
    (h : r d (mark c t) = .ok (.success y d', u)) :
    Parser.seqWith Prod.mk p r c t = .ok (.success (x, y) d', u) := by
  rw [Parser.seqWith, hp.bind_apply, hx]
  dsimp only
  rw [Run.bind_apply, h]
  rfl

/-- Let neither item nor separator ever go back. A list fails exactly where its first item fails,
with the same error. Otherwise it ends where the first item and then a repetition of separator and
item end, with the same values; but if a match that consumed nothing stopped the repetition, which
is then on record, the list does not have its value. All that the list consumes are items and
separators with an item after them, and where it ends separator and item do not both match, or both
consume nothing. -/
theorem separatedList_as_repetition (hp : p.IsPure f mark) (hq : q.IsPure g mark')
    (hf : ∀ c x d, f c = .success x d → c.position ≤ d.position)
    (hg : ∀ c y d, g c = .success y d → c.position ≤ d.position) (c : Cursor w) (t : Trail σ) :
    (∀ e, f c = .failure e → separatedList p q c t = .ok (.failure e, mark c t)) ∧
    ∀ x d, f c = .success x d → ∃ xs ys d' u u',
      separatedList p q c t = .ok (.success (x :: xs) d', u) ∧
      seqWith Prod.mk p (many (Parser.andRight q p)) c t = .ok (.success (x, ys) d', u') ∧
      ((∃ e, (g d').andThen (fun _ a => f a) = .failure e ∧ ys = xs ∧ u' = u) ∨
        ∃ y, (g d').andThen (fun _ a => f a) = .success y d' ∧ ys = xs ++ [y] ∧
          u' = { u with log := u.log.push (.stalled d'.position) }) ∧
      Chain.Row (fun c => (g c).andThen fun _ a => f a) d xs d' ∧
      ∀ y a z b, g d' = .success y a → f a = .success z b → a = d' ∧ b = d' := by
  refine ⟨fun e he => ?_, fun x d hx => ?_⟩
  · rw [separatedList, hp.bind_apply, he]
    rfl
  have hforward (c : Cursor w) (z : α) (b : Cursor w)
      (h : (g c).andThen (fun _ a => f a) = .success z b) : c.position ≤ b.position := by
    obtain ⟨y, a, hy, hz⟩ := Outcome.andThen_eq_success_iff.mp h
    exact Nat.le_trans (hg c y a hy) (hf a z b hz)
  obtain ⟨xs, d', u, hrow, hlist, hmany⟩ :=
    (hq.andRight hp).separatedFrom_beside_many hforward d (mark c t)
  have hend (y : β) (a : Cursor w) (z : α) (b : Cursor w) (hy : g d' = .success y a)
      (hz : f a = .success z b) : a = d' ∧ b = d' := by
    have hturn : (g d').andThen (fun _ a => f a) = .success z b :=
      Outcome.andThen_eq_success_iff.mpr ⟨y, a, hy, hz⟩
    obtain rfl : b = d' := by
      rcases hmany with ⟨e, he, -⟩ | ⟨z', hz', -⟩
      · cases he.symm.trans hturn
      · exact (Outcome.success.inj (hturn.symm.trans hz')).2
    exact ⟨Cursor.ext (Nat.le_antisymm (hf a z b hz) (hg b y a hy)), rfl⟩
  have hfirst := hp.separatedList_of_success hx hlist
  rcases hmany with ⟨e, he, hrun⟩ | ⟨y, hy, hrun⟩
  · exact ⟨xs, xs, d', u, u, hfirst, hp.seqWith_of_success hx hrun, .inl ⟨e, he, rfl, rfl⟩, hrow,
      hend⟩
  · exact ⟨xs, _, d', u, _, hfirst, hp.seqWith_of_success hx hrun, .inr ⟨y, hy, rfl, rfl⟩, hrow,
      hend⟩

end

/-- Letters and commas, of which none has to be there. Twice a comma stands alone; what follows the
last one consumes nothing. -/
theorem separatedList_as_repetition_nullable :
    let w : Input := ⟨.byte, #[97, 44, 44, 98], by decide⟩
    let reads (e : Int) : Cursor w → Outcome w Bool := fun c =>
      if c.element? = some e then .success true c.next else .success false c
    let p : Parser Unit w Bool := fun c t => .ok (reads 97 c, t)
    let q : Parser Unit w Bool := fun c t => .ok (reads 44 c, t)
    let c := Cursor.start w
    let t : Trail Unit := ⟨#[], ()⟩
    p.IsPure (reads 97) (fun _ t => t) ∧ q.IsPure (reads 44) (fun _ t => t) ∧
      (∀ e c x d, reads e c = .success x d → c.position ≤ d.position) ∧
      reads 97 c = .success true c.next ∧
      separatedList p q c t = .ok (.success [true, false, false] ⟨3, by decide⟩, t) ∧
      ∃ xs ys d' u u',
        separatedList p q c t = .ok (.success (true :: xs) d', u) ∧
        seqWith Prod.mk p (many (andRight q p)) c t = .ok (.success (true, ys) d', u') ∧
        ∃ y, ys = xs ++ [y] ∧ u' = { u with log := u.log.push (.stalled d'.position) } := by
  intro w reads p q c t
  have hp : p.IsPure (reads 97) (fun _ t => t) := fun _ _ => rfl
  have hq : q.IsPure (reads 44) (fun _ t => t) := fun _ _ => rfl
  have hforward (e : Int) (c : Cursor w) (x : Bool) (d : Cursor w)
      (h : reads e c = .success x d) : c.position ≤ d.position := by
    dsimp only [reads] at h
    split at h
    case isTrue =>
      cases h
      exact c.position_le_next
    case isFalse =>
      cases h
      exact Nat.le_refl _
  have hmatches (e : Int) (c : Cursor w) : ∃ x d, reads e c = .success x d := by
    by_cases h : c.element? = some e
    · exact ⟨_, _, if_pos h⟩
    · exact ⟨_, _, if_neg h⟩
  have hfirst : reads 97 c = .success true c.next := by cbv
  have hrun : separatedList p q c t = .ok (.success [true, false, false] ⟨3, by decide⟩, t) := by
    cbv
  obtain ⟨xs, ys, d', u, u', hlist, hmany, hstop, -⟩ :=
    (separatedList_as_repetition hp hq (hforward 97) (hforward 44) c t).2 true c.next hfirst
  refine ⟨hp, hq, hforward, hfirst, hrun, xs, ys, d', u, u', hlist, hmany, ?_⟩
  rcases hstop with ⟨e, he, -⟩ | ⟨y, -, hvalues, hlog⟩
  · obtain ⟨y, a, hy⟩ := hmatches 44 d'
    obtain ⟨z, b, hz⟩ := hmatches 97 a
    have hturn : (reads 44 d').andThen (fun _ a => reads 97 a) = .success z b :=
      Outcome.andThen_eq_success_iff.mpr ⟨y, a, hy, hz⟩
    cases he.symm.trans hturn
  · exact ⟨y, hvalues, hlog⟩

end Parser

end Descent
