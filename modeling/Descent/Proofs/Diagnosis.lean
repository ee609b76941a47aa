import Descent.Excerpt

namespace Descent.ParseError

/-- Among errors in a row `e` is the first of those that lie furthest. -/
def Foremost (es : List ParseError) (e : ParseError) : Prop :=
  ∃ before after, es = before ++ e :: after ∧ (∀ l ∈ before, l.position < e.position) ∧
    ∀ l ∈ after, l.position ≤ e.position

namespace Foremost
variable {es es' : List ParseError} {e e' : ParseError}

theorem mem (h : Foremost es e) : e ∈ es := by
  obtain ⟨before, after, rfl, -, -⟩ := h
  exact List.mem_append_right _ List.mem_cons_self

theorem position_le (h : Foremost es e) (l : ParseError) (hl : l ∈ es) :
    l.position ≤ e.position := by
  obtain ⟨before, after, rfl, hbefore, hafter⟩ := h
  rcases List.mem_append.mp hl with hl | hl
  · exact Nat.le_of_lt (hbefore l hl)
  · rcases List.mem_cons.mp hl with rfl | hl
    · exact Nat.le_refl _
    · exact hafter l hl

theorem append_left (h : Foremost es e) (h' : ∀ l ∈ es', l.position ≤ e.position) :
    Foremost (es ++ es') e := by
  obtain ⟨before, after, rfl, hbefore, hafter⟩ := h
  refine ⟨before, after ++ es', by simp, hbefore, fun l hl => ?_⟩
  rcases List.mem_append.mp hl with hl | hl
  · exact hafter l hl
  · exact h' l hl

theorem append_right (h : Foremost es' e) (h' : ∀ l ∈ es, l.position < e.position) :
    Foremost (es ++ es') e := by
  obtain ⟨before, after, rfl, hbefore, hafter⟩ := h
  refine ⟨es ++ before, after, by simp, fun l hl => ?_, hafter⟩
  rcases List.mem_append.mp hl with hl | hl
  · exact h' l hl
  · exact hbefore l hl

theorem find?_eq (h : Foremost es e) :
    es.find? (fun l => e.position ≤ l.position) = some e := by
  obtain ⟨before, after, rfl, hbefore, -⟩ := h
  rw [List.find?_eq_some_iff_append]
  exact ⟨by simp, before, after, rfl, fun l hl => by simpa using hbefore l hl⟩

theorem unique (h : Foremost es e) (h' : Foremost es e') : e = e' := by
  have hposition : e.position = e'.position :=
    Nat.le_antisymm (h'.position_le e h.mem) (h.position_le e' h'.mem)
  have hfind := h.find?_eq
  rw [hposition, h'.find?_eq] at hfind
  exact (Option.some.inj hfind).symm

end Foremost

theorem foremost_furthest (e : ParseError) : Foremost e.leaves e.furthest := by
  induction e with
  | alternativesExhausted p left right ihl ihr =>
    rw [leaves, furthest]
    split
    case isTrue hlt =>
      exact ihr.append_right fun l hl => Nat.lt_of_le_of_lt (ihl.position_le l hl) hlt
    case isFalse hle =>
      exact ihl.append_left fun l hl => Nat.le_trans (ihr.position_le l hl) (Nat.le_of_not_lt hle)
  | _ => exact ⟨[], [], rfl, by simp, by simp⟩

theorem furthest_eq_of_leaves_eq {e e' : ParseError} (h : e.leaves = e'.leaves) :
    e.furthest = e'.furthest := by
  have hfirst := foremost_furthest e
  rw [h] at hfirst
  exact hfirst.unique (foremost_furthest e')

/-- Nothing that is told of the two errors tells them apart. -/
structure SameDiagnosis (e e' : ParseError) : Prop where
  position : e.position = e'.position
  reason : e.reason = e'.reason
  message : e.message = e'.message
  leaves : e.leaves = e'.leaves
  furthest : e.furthest = e'.furthest
  report : ∀ w : Input, e.report w = e'.report w

theorem SameDiagnosis.refl (e : ParseError) : SameDiagnosis e e :=
  ⟨rfl, rfl, rfl, rfl, rfl, fun _ => rfl⟩

theorem SameDiagnosis.of_branches {p : Nat} {l r l' r' : ParseError}
    (h : l.leaves ++ r.leaves = l'.leaves ++ r'.leaves) :
    SameDiagnosis (.alternativesExhausted p l r) (.alternativesExhausted p l' r') := by
  have hfurthest : (alternativesExhausted p l r).furthest =
      (alternativesExhausted p l' r').furthest := furthest_eq_of_leaves_eq h
  refine ⟨rfl, rfl, rfl, h, hfurthest, fun w => ?_⟩
  rw [ParseError.report, ParseError.report, hfurthest]
  rfl

/-- `Joined p es e`: the failures `es` are put together to `e` by branches at `p`. -/
inductive Joined (p : Nat) : List ParseError → ParseError → Prop
  | single (e) : Joined p [e] e
  | branch {es es' l r} : Joined p es l → Joined p es' r →
      Joined p (es ++ es') (.alternativesExhausted p l r)

namespace Joined
variable {p : Nat} {es : List ParseError} {e e' : ParseError}

theorem length_pos (h : Joined p es e) : 0 < es.length := by
  induction h with
  | single e => exact Nat.one_pos
  | branch _ _ ihl _ =>
    rw [List.length_append]
    exact Nat.add_pos_left ihl _

theorem leaves_eq (h : Joined p es e) : e.leaves = es.flatMap leaves := by
  induction h with
  | single e => simp
  | branch _ _ ihl ihr => rw [leaves, ihl, ihr, List.flatMap_append]

theorem append_ne_singleton {es' : List ParseError} {l r : ParseError} (hl : Joined p es l)
    (hr : Joined p es' r) : es ++ es' ≠ [e] := by
  intro h
  have hlength := congrArg List.length h
  have hl := hl.length_pos
  have hr := hr.length_pos
  rw [List.length_append, List.length_singleton] at hlength
  omega

theorem sameDiagnosis (h : Joined p es e) (h' : Joined p es e') : SameDiagnosis e e' := by
  have hleaves : e.leaves = e'.leaves := h.leaves_eq.trans h'.leaves_eq.symm
  generalize hes : es = fs at h'
  cases h with
  | single e =>
    cases h' with
    | single e' =>
      obtain rfl : e = e' := List.singleton_inj.mp hes
      exact .refl e
    | branch hl hr => exact absurd hes.symm (hl.append_ne_singleton hr)
  | branch hl hr =>
    cases h' with
    | single e' => exact absurd hes (hl.append_ne_singleton hr)
    | branch hl' hr' => exact .of_branches hleaves

end Joined

end Descent.ParseError
