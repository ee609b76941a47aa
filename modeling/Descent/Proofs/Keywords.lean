import Mathlib
import Descent.Proofs.Choice
import Descent.Proofs.Leaves
import Descent.Proofs.Spelling

namespace Descent
variable {σ : Type} {w : Input}

theorem isGreatest_agreement (xs ys : List Int) :
    IsGreatest {n | ∃ zs, zs <+: xs ∧ zs <+: ys ∧ zs.length = n} (agreement xs ys) := by
  constructor
  · refine ⟨xs.take (agreement xs ys), List.take_prefix _ xs, ?_, ?_⟩
    · rw [take_agreement]
      exact List.take_prefix _ ys
    · rw [List.length_take, Nat.min_eq_left (agreement_le xs ys).1]
  · rintro n ⟨zs, hx, hy, rfl⟩
    exact length_le_agreement hx hy

namespace Cursor

/-- What a literal fails with at `c` if it is no prefix of what remains there. -/
def refused (c : Cursor w) (codes : List Int) : ParseError :=
  let n := agreement c.remaining codes
  match codes[n]?, c.remaining[n]? with
  | some e, some x => literalRefusal w codes e x (c.position + n)
  | _, _ => .unexpectedEnd (c.position + n)

variable (c : Cursor w) (codes : List Int)

theorem refused_position :
    (c.refused codes).position = c.position + agreement c.remaining codes := by
  unfold refused
  dsimp only
  split <;> rfl

theorem refused_isBranch : (c.refused codes).isBranch = false := by
  unfold refused
  dsimp only
  split <;> rfl

theorem leaves_of_refused (ls : List (List Int)) :
    (ls.map c.refused).flatMap ParseError.leaves = ls.map c.refused := by
  induction ls with
  | nil => rfl
  | cons l ls ih =>
    rw [List.map_cons, List.flatMap_cons, ih,
      ParseError.leaves_of_not_isBranch (c.refused_isBranch l), List.singleton_append]

end Cursor

namespace Parser
variable {codes : List Int} {c : Cursor w}

theorem literal_apply_of_isPrefix (h : codes <+: c.remaining) (t : Trail σ) :
    literal codes c t = .ok (.success codes (c.advance codes.length), t) := by
  rw [literal_apply_spell, Cursor.spell, getElem?_agreement_eq_none_iff.mpr h]

theorem literal_apply_of_not_isPrefix (h : ¬codes <+: c.remaining) (t : Trail σ) :
    literal codes c t = .ok (.failure (c.refused codes), t) := by
  rw [literal_apply_spell, Cursor.spell, Cursor.refused]
  cases he : codes[agreement c.remaining codes]? with
  | none => exact absurd (getElem?_agreement_eq_none_iff.mp he) h
  | some e => cases c.remaining[agreement c.remaining codes]? <;> rfl

def keywords (first : List Int) (rest : List (List Int)) : Parser σ w (List Int) :=
  rest.foldl (fun p l => orWith id id p (literal l)) (literal first)

theorem firstOf_literal (c : Cursor w) (found : List ParseError) (ls : List (List Int))
    (t : Trail σ) : firstOf c found (ls.map literal) t =
      .ok (match ls.find? fun l => decide (l <+: c.remaining) with
        | some l => .ok (l, c.advance l.length)
        | none => .error (found ++ ls.map c.refused), t) := by
  induction ls generalizing found with
  | nil =>
    rw [List.map_nil, firstOf, List.find?_nil, List.map_nil, List.append_nil]
    rfl
  | cons l ls ih =>
    rw [List.map_cons, firstOf, Run.bind_apply]
    by_cases hl : l <+: c.remaining
    · rw [literal_apply_of_isPrefix hl, List.find?_cons_of_pos (by simpa using hl)]
      rfl
    · rw [literal_apply_of_not_isPrefix hl, List.find?_cons_of_neg (by simpa using hl)]
      dsimp only
      rw [ih, List.append_assoc, List.singleton_append, List.map_cons]

end Parser

theorem Alternatives.exists_keywords (first : List Int) (rest : List (List Int)) :
    ∃ a : Alternatives σ w (List Int), a.parser = Parser.keywords first rest ∧
      a.toList = (first :: rest).map Parser.literal := by
  have hfoldl (a : Alternatives σ w (List Int)) (ls : List (List Int)) :
      ∃ b : Alternatives σ w (List Int),
        b.parser = ls.foldl (fun p l => Parser.orWith id id p (Parser.literal l)) a.parser ∧
          b.toList = a.toList ++ ls.map Parser.literal := by
    induction ls generalizing a with
    | nil => exact ⟨a, rfl, by simp⟩
    | cons l ls ih =>
      obtain ⟨b, hb, hlist⟩ := ih (.either a (.single (Parser.literal l)))
      exact ⟨b, hb, by simp [hlist, toList]⟩
  exact hfoldl (.single (Parser.literal first)) rest

/-- The answers of a choice of literals at `c`. -/
inductive Chooses (ls : List (List Int)) (c : Cursor w) : Outcome w (List Int) → Prop
  /-- The first literal that is a prefix of what remains is read. None of those before it is a
  prefix of it. -/
  | chosen {before l after d} : ls = before ++ l :: after → (∀ k ∈ before, ¬k <+: c.remaining) →
      (∀ k ∈ before, ¬k <+: l) → l <+: c.remaining → d.position = c.position + l.length →
      Chooses ls c (.success l d)
  /-- All literals are refused, each for itself. The first with the longest common prefix has the
  furthest leaf. -/
  | refused {e before l after} : ls = before ++ l :: after → (∀ k ∈ ls, ¬k <+: c.remaining) →
      e.leaves = ls.map c.refused → e.furthest = c.refused l →
      e.furthest.position = c.position + agreement c.remaining l →
      (∀ k ∈ before, agreement c.remaining k < agreement c.remaining l) →
      (∀ k ∈ after, agreement c.remaining k ≤ agreement c.remaining l) →
      Chooses ls c (.failure e)

theorem Cursor.exists_furthest {c : Cursor w} {ls : List (List Int)} {e : ParseError}
    (h : e.leaves = ls.map c.refused) :
    ∃ before l after, ls = before ++ l :: after ∧ e.furthest = c.refused l ∧
      (∀ k ∈ before, agreement c.remaining k < agreement c.remaining l) ∧
      ∀ k ∈ after, agreement c.remaining k ≤ agreement c.remaining l := by
  obtain ⟨es, es', hes, hbefore, hafter⟩ := e.foremost_furthest
  rw [h] at hes
  obtain ⟨before, others, rfl, rfl, hothers⟩ := List.map_eq_append_iff.mp hes
  obtain ⟨l, after, rfl, hl, rfl⟩ := List.map_eq_cons_iff.mp hothers
  rw [← hl] at hbefore hafter
  refine ⟨before, l, after, rfl, hl.symm, fun k hk => ?_, fun k hk => ?_⟩
  · have hlt := hbefore _ (List.mem_map_of_mem hk)
    rw [refused_position, refused_position] at hlt
    exact Nat.lt_of_add_lt_add_left hlt
  · have hle := hafter _ (List.mem_map_of_mem hk)
    rw [refused_position, refused_position] at hle
    exact Nat.le_of_add_le_add_left hle

theorem Alternatives.Ends.chooses {c : Cursor w} {ls : List (List Int)}
    {o : Outcome w (List Int)}
    (h : Ends c [] o (match ls.find? fun l => decide (l <+: c.remaining) with
      | some l => .ok (l, c.advance l.length)
      | none => .error ([] ++ ls.map c.refused))) : Chooses ls c o := by
  cases hfind : ls.find? fun l => decide (l <+: c.remaining) with
  | some l =>
    rw [hfind] at h
    cases h
    obtain ⟨hl, before, after, hls, hbefore⟩ := List.find?_eq_some_iff_append.mp hfind
    have hl : l <+: c.remaining := by simpa using hl
    have hbefore (k) (hk : k ∈ before) : ¬k <+: c.remaining := by simpa using hbefore k hk
    exact .chosen hls hbefore (fun k hk hkl => hbefore k hk (hkl.trans hl)) hl
      (Cursor.advance_position_of_isPrefix hl)
  | none =>
    rw [hfind] at h
    cases h with
    | @failure e _ fs hes he =>
      -- The errors of literals are no branches, so that each is a leaf of its own.
      have hleaves : e.leaves = ls.map c.refused := by
        rw [he.leaves_eq, ← List.nil_append fs, ← hes, List.nil_append, c.leaves_of_refused]
      obtain ⟨before, l, after, hls, hfurthest, hbefore, hafter⟩ := Cursor.exists_furthest hleaves
      have hnone (k) (hk : k ∈ ls) : ¬k <+: c.remaining := by
        simpa using List.find?_eq_none.mp hfind k hk
      exact .refused hls hnone hleaves hfurthest (by rw [hfurthest, Cursor.refused_position])
        hbefore hafter

theorem Chooses.success_iff {ls : List (List Int)} {c : Cursor w} {o : Outcome w (List Int)}
    (h : Chooses ls c o) : (∃ l d, o = .success l d) ↔ ∃ l ∈ ls, l <+: c.remaining := by
  cases h with
  | @chosen before l after d hls _ _ hl =>
    exact iff_of_true ⟨l, d, rfl⟩ ⟨l, by rw [hls]; simp, hl⟩
  | refused _ hnone =>
    exact iff_of_false (fun ⟨l, d, h⟩ => by cases h) fun ⟨l, hmem, hl⟩ => hnone l hmem hl

/-- A choice of literals succeeds exactly if one of them is a prefix of what remains, and then the
first such literal is read. Otherwise its leaves are the errors of the literals in order, and the
furthest is that of the first literal with the longest common prefix. -/
theorem keywords_choose (first : List Int) (rest : List (List Int)) (c : Cursor w) (t : Trail σ) :
    (∃ o, Parser.keywords first rest c t = .ok (o, t) ∧ Chooses (first :: rest) c o ∧
      ((∃ l d, o = .success l d) ↔ ∃ l ∈ first :: rest, l <+: c.remaining)) ∧
    (∀ l : List Int, ¬l <+: c.remaining →
      Parser.literal l c t = .ok (.failure (c.refused l), t)) ∧
    ∀ l : List Int, IsGreatest {n | ∃ zs, zs <+: c.remaining ∧ zs <+: l ∧ zs.length = n}
      (agreement c.remaining l) := by
  refine ⟨?_, fun l hl => Parser.literal_apply_of_not_isPrefix hl t,
    fun l => isGreatest_agreement c.remaining l⟩
  obtain ⟨a, hparser, hlist⟩ := Alternatives.exists_keywords (σ := σ) (w := w) first rest
  have h := a.related_firstOf c [] t t rfl
  rw [hparser, hlist, Parser.firstOf_literal] at h
  cases ho : Parser.keywords first rest c t with
  | error s =>
    rw [ho] at h
    exact h.elim
  | ok r =>
    rw [ho] at h
    obtain ⟨o, u⟩ := r
    obtain ⟨hends, rfl⟩ := h
    exact ⟨o, rfl, hends.chooses, hends.chooses.success_iff⟩

/-- Two of three literals have most in common with what remains, and neither is a prefix of it. -/
theorem keywords_choose_tie :
    let w : Input := ⟨.char, #[122, 97, 98, 120], by decide⟩
    let c : Cursor w := (Cursor.start w).next
    ¬[97, 98, 99] <+: c.remaining ∧ ∀ t : Trail Unit,
      (∃ e, Parser.keywords [97, 99] [[97, 98, 99], [97, 98, 100]] c t = .ok (.failure e, t) ∧
        e.leaves.length = 3 ∧
        e.furthest = .literalMismatch "expected 'c', found 'x' while matching 'abc'" 3) ∧
      Parser.literal [97, 98, 99] c t = .ok (.failure (c.refused [97, 98, 99]), t) := by
  intro w c
  have hremaining : c.remaining = [97, 98, 120] := by decide
  have hrefused : ¬[97, 98, 99] <+: c.remaining := by
    rw [hremaining]
    decide
  refine ⟨hrefused, fun t => ?_⟩
  obtain ⟨⟨o, ho, hchooses, hsuccess⟩, hliteral, -⟩ :=
    keywords_choose [97, 99] [[97, 98, 99], [97, 98, 100]] c t
  refine ⟨?_, hliteral _ hrefused⟩
  rw [hremaining] at hsuccess
  cases hchooses with
  | chosen => exact absurd (hsuccess.mp ⟨_, _, rfl⟩) (by decide)
  | @refused e before l after hls hnone hleaves hfurthest hposition hbefore hafter =>
    refine ⟨e, ho, by rw [hleaves, List.length_map]; rfl, ?_⟩
    rw [hremaining] at hbefore hafter
    -- The first literal agrees less, and the last is no better than the one before it.
    match before with
    | [] =>
      obtain ⟨rfl, rfl⟩ := List.cons.inj hls
      exact absurd (hafter [97, 98, 99] (by decide)) (by decide)
    | [_] =>
      obtain ⟨rfl, rfl⟩ := List.cons.inj (List.cons.inj hls).2
      rw [hfurthest]
      decide +kernel
    | [_, k] =>
      obtain ⟨-, rfl, rfl, -⟩ : _ ∧ [97, 98, 99] = k ∧ [97, 98, 100] = l ∧ _ := by simpa using hls
      exact absurd (hbefore [97, 98, 99] (by simp)) (by decide)
    | _ :: _ :: _ :: before => simp at hls

end Descent
